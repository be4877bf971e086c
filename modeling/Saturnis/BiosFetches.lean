/-
What the cores of a BIOS run execute.

A core keeps the lines it has fetched instructions from, and nobody invalidates
them: not its own stores, not those of the other core.  As long as the COMMIT
records of writes leave alone the lines that earlier records have filled a cache
from (`CodeKept`), nobody notices.

* `Chained.byteAt` — a byte that no write of a log covers keeps its value;
* `commitBatch_fetches` — a batch of fetches answers with what is in memory;
* `Fetched` — the caches hold lines of the log's fills, as they are in memory;
  kept by `Fetched.produce` and `Fetched.commit`;
* `loadImage_byteAt` — memory starts with the image;
* `bios_fetches_memory` — **what a cache answers, memory would answer**, and it
  is the image, unless something has been written there.
-/
import Mathlib.Data.List.Induction
import Saturnis.ArbiterMemory
import Saturnis.BiosProgress
import Saturnis.CacheLines

namespace Saturnis.Bus

open Saturnis.Core Saturnis.Mem

/-! ### Bytes that nobody writes -/

/-- The operation writes the byte at `a`. -/
def BusOp.Covers (op : BusOp) (a : Addr) : Prop :=
  op.storesRam = true ∧ (a - op.physAddr).toNat < op.size

theorem BusOp.not_covers_of_fetch {op : BusOp} (h : op.kind = .iFetch) (a : Addr) :
    ¬ op.Covers a := by
  rintro ⟨hstores, -⟩
  rw [BusOp.storesRam, h] at hstores
  exact absurd hstores (by simp)

namespace BusArbiter

variable {a : Addr}

theorem replayStep_of_not_covers {h : Handled} {size : Nat} {bytes : Addr → Byte}
    (hcover : ¬ h.op.Covers a) : replayStep size bytes h a = bytes a := by
  rw [replayStep]
  split_ifs with hstore
  · rw [Bool.and_eq_true] at hstore
    have hout : ¬ (a - h.op.physAddr).toNat < h.op.size := fun hlt => hcover ⟨hstore.2, hlt⟩
    rw [refStore]
    split_ifs
    · exact if_neg hout
    · rfl
  · rfl

/-- A byte that no write of a log covers keeps its value. -/
theorem Chained.byteAt {arb after : BusArbiter} {log : List Handled} (hc : Chained arb log after)
    (hs : ∀ h ∈ log, h.Sound) (hcover : ∀ h ∈ log, ¬ h.op.Covers a) :
    after.memory.byteAt a = arb.memory.byteAt a := by
  induction log generalizing arb with
  | nil => rw [core_memory hc]
  | cons e log ih =>
    have he : e.Sound := hs e List.mem_cons_self
    have hlast := ih hc.2 (fun h hh => hs h (List.mem_cons_of_mem e hh))
      fun h hh => hcover h (List.mem_cons_of_mem e hh)
    rw [hlast, he.replayStep.2, replayStep_of_not_covers (hcover e List.mem_cons_self),
      core_memory hc.1]

/-- A log from one of its entries on. -/
theorem Chained.suffix {arb after : BusArbiter} {before log : List Handled} {e : Handled}
    (hc : Chained arb (before ++ e :: log) after) : Chained e.before (e :: log) after := by
  induction before generalizing arb with
  | nil => exact ⟨rfl, hc.2⟩
  | cons d before ih => exact ih hc.2

theorem Chained.memorySize {arb after : BusArbiter} {log : List Handled}
    (hc : Chained arb log after) (hs : ∀ h ∈ log, h.Sound) :
    after.memory.size = arb.memory.size ∧ ∀ h ∈ log, h.before.memory.size = arb.memory.size := by
  induction log generalizing arb with
  | nil =>
    rw [core_memory hc]
    exact ⟨rfl, fun h hh => absurd hh List.not_mem_nil⟩
  | cons e log ih =>
    have hbefore : arb.memory = e.before.memory := core_memory hc.1
    have hone : e.after.memory.size = arb.memory.size := by
      rw [(hs e List.mem_cons_self).replayStep.1, hbefore]
    obtain ⟨hlast, hat⟩ := ih hc.2 fun h hh => hs h (List.mem_cons_of_mem e hh)
    refine ⟨hlast.trans hone, fun h hh => ?_⟩
    rcases List.mem_cons.mp hh with rfl | hh
    · rw [hbefore]
    · exact (hat h hh).trans hone

/-- Only a fill answers with a line. -/
theorem perform_fills {arb : BusArbiter} {op : BusOp} {finish : Nat}
    (h : (arb.perform op finish).lineData ≠ []) : op.fillCacheLine = true := by
  by_contra hfill
  refine h ?_
  rw [perform]
  split_ifs with h₁ h₂ h₃ h₄ h₅
  · rfl
  · rfl
  · rfl
  · rfl
  · exact absurd h₅.1 hfill
  · rfl

/-- A result of a batch is an entry of its log. -/
theorem commitBatch_handled {arb : BusArbiter} {ops : List BusOp} {r : CommitResult}
    (h : r ∈ (arb.commitBatch ops).2) :
    ∃ e ∈ arb.batchLog ops, e.op = r.op ∧ e.response = r.response := by
  have hmem : (r.op, r.response) ∈ (arb.commitBatch ops).2.map fun r => (r.op, r.response) :=
    List.mem_map.mpr ⟨r, h, rfl⟩
  rw [commitBatch, commitRounds_results] at hmem
  obtain ⟨e, he, heq⟩ := List.mem_map.mp hmem
  exact ⟨e, List.mem_append_right _ he, (Prod.mk.inj heq).1, (Prod.mk.inj heq).2⟩

end BusArbiter

/-! ### Fetches from memory -/

/-- The fetch of an instruction from memory. -/
structure FetchesRam (op : BusOp) : Prop where
  kind : op.kind = .iFetch
  ram : isMmio op.physAddr = false
  even : op.physAddr.toNat % 2 = 0
  size : op.size = 2

/-- The answer to a fetch: the word that is in memory, and the line it asks for. -/
structure FetchedFrom (mem : CommittedMemory) (op : BusOp) (response : BusResponse) : Prop where
  value : response.value = mem.read op.physAddr 2
  line : op.fillCacheLine = true → op.cacheLineSize = 16 →
    response.lineBase = lineOf op.physAddr ∧ response.lineData.length = 16

theorem FetchesRam.valid {op : BusOp} (h : FetchesRam op) : validateBusOp op = .none := by
  have haligned : isAligned op.physAddr op.size = true := by
    rw [isAligned, h.size]
    simp [h.even]
  rw [validateBusOp, if_neg (by rw [h.kind]; decide), if_neg (by rw [h.size]; decide),
    if_neg (by simp [haligned])]

namespace BusArbiter

variable {arb : BusArbiter} {op : BusOp} {ops : List BusOp}

/-- Nothing later than `t` is recorded of the producer. -/
def RecordedUntil (arb : BusArbiter) (slot : Fin 3) (t : Nat) : Prop :=
  arb.producerSeen slot = true → arb.producerLastReqTime slot ≤ t

theorem RecordedUntil.mono {slot : Fin 3} {t t' : Nat} (h : arb.RecordedUntil slot t)
    (hle : t ≤ t') : arb.RecordedUntil slot t' := fun hseen => Nat.le_trans (h hseen) hle

theorem RecordedUntil.congr {a b : BusArbiter} {slot : Fin 3} {t : Nat}
    (h : a.RecordedUntil slot t) (hcore : b.core = a.core) : b.RecordedUntil slot t := by
  intro hseen
  rw [core_producerSeen hcore] at hseen
  rw [core_producerLastReqTime hcore]
  exact h hseen

theorem hardware_recorded {a b : BusArbiter} (h : b.hardware = a.hardware) (slot : Fin 3) (t : Nat)
    (hrec : a.RecordedUntil slot t) : b.RecordedUntil slot t := by
  have hseen : b.producerSeen = a.producerSeen :=
    (congrArg BusArbiter.producerSeen h : b.hardware.producerSeen = a.hardware.producerSeen)
  have hlast : b.producerLastReqTime = a.producerLastReqTime :=
    (congrArg BusArbiter.producerLastReqTime h :
      b.hardware.producerLastReqTime = a.hardware.producerLastReqTime)
  rw [RecordedUntil, hseen, hlast]
  exact hrec

theorem RecordedUntil.grant {slot : Fin 3} {t : Nat} (h : arb.RecordedUntil slot t)
    (hop : producerSlot op = slot → op.reqTime ≤ t) (tie : Bool) :
    (arb.grant op tie).1.RecordedUntil slot t := by
  intro hseen
  change Function.update arb.producerSeen (producerSlot op) true slot = true at hseen
  change Function.update arb.producerLastReqTime (producerSlot op) op.reqTime slot ≤ t
  by_cases hslot : slot = producerSlot op
  · rw [hslot, Function.update_self]
    exact hop hslot.symm
  · rw [Function.update_of_ne hslot] at hseen ⊢
    exact h hseen

theorem FetchesRam.accepts (h : FetchesRam op)
    (hrecorded : arb.RecordedUntil (producerSlot op) op.reqTime) : arb.accepts op = true := by
  rw [BusArbiter.accepts, h.valid]
  cases hseen : arb.producerSeen (producerSlot op) with
  | false => rfl
  | true => simpa using hrecorded hseen

theorem FetchesRam.grant (h : FetchesRam op) (arb : BusArbiter) (tie : Bool) :
    (arb.grant op tie).1.memory = arb.memory ∧
      FetchedFrom arb.memory op (arb.grant op tie).2 := by
  have hperform : ∀ finish, (arb.perform op finish).memory = arb.memory ∧
      (arb.perform op finish).value = arb.memory.read op.physAddr 2 ∧
      (op.fillCacheLine = true → op.cacheLineSize = 16 →
        (arb.perform op finish).lineBase = lineOf op.physAddr ∧
          (arb.perform op finish).lineData.length = 16) := by
    intro finish
    rw [perform, if_neg (by simp [h.kind]), if_neg (by simp [h.kind]),
      if_neg (by simp [h.kind, h.ram]), h.size]
    split_ifs with hline
    · refine ⟨rfl, rfl, fun _ hsize => ?_⟩
      rw [hsize]
      exact ⟨rfl, arb.memory.length_readBlock _ 16⟩
    · exact ⟨rfl, rfl, fun hfill hsize => absurd ⟨hfill, by omega⟩ hline⟩
  obtain ⟨hmemory, hvalue, hline⟩ := hperform _
  exact ⟨hmemory, hvalue, hline⟩

/-- Fetches of different producers leave memory alone and are answered with it. -/
theorem commitRounds_fetches (n : Nat) {arb : BusArbiter} {pending : List CommitResult}
    (hslots : (pending.map fun p => producerSlot p.op).Nodup)
    (hfetch : ∀ p ∈ pending, FetchesRam p.op)
    (hrecorded : ∀ p ∈ pending, arb.RecordedUntil (producerSlot p.op) p.op.reqTime) :
    (commitRounds n arb pending).1.memory = arb.memory ∧
      (∀ r ∈ (commitRounds n arb pending).2, FetchedFrom arb.memory r.op r.response) ∧
      ∀ slot t, arb.RecordedUntil slot t →
        (∀ p ∈ pending, producerSlot p.op = slot → p.op.reqTime ≤ t) →
        (commitRounds n arb pending).1.RecordedUntil slot t := by
  induction n generalizing arb pending with
  | zero => exact ⟨rfl, fun r hr => absurd hr List.not_mem_nil, fun _ _ h _ => h⟩
  | succ n ih =>
    cases hround : arb.nextRound pending with
    | none =>
      rw [commitRounds_of_none hround]
      exact ⟨rfl, fun r hr => absurd hr List.not_mem_nil, fun _ _ h _ => h⟩
    | some round =>
      obtain ⟨next, tie⟩ := round
      obtain ⟨hlt, hget⟩ := List.getElem?_eq_some_iff.mp (nextRound_getElem? hround)
      have hmem : next.1 ∈ pending := List.mem_of_getElem hget
      have hsub : ∀ p ∈ pending.eraseIdx next.2, p ∈ pending := fun p hp =>
        List.eraseIdx_subset hp
      -- nobody who is left is of the producer that is served
      have hother : ∀ p ∈ pending.eraseIdx next.2, producerSlot p.op ≠ producerSlot next.1.op := by
        intro p hp heq
        have hlt' : next.2 < (pending.map fun p => producerSlot p.op).length := by
          rw [List.length_map]
          exact hlt
        have hget' : (pending.map fun p => producerSlot p.op)[next.2] = producerSlot next.1.op := by
          rw [List.getElem_map, hget]
        have herased : producerSlot p.op ∈ (pending.map fun p => producerSlot p.op).erase
            (producerSlot next.1.op) := by
          rw [← hget', hslots.erase_getElem, List.eraseIdx_map]
          exact List.mem_map_of_mem (f := fun p : CommitResult => producerSlot p.op) hp
        rw [heq] at herased
        exact hslots.not_mem_erase herased
      have hgranted : arb.executeCommit next.1.op tie = arb.grant next.1.op tie :=
        executeCommit_of_accepts
          (FetchesRam.accepts (hfetch next.1 hmem) (hrecorded next.1 hmem))
      obtain ⟨hmemory, hvalue⟩ := FetchesRam.grant (hfetch next.1 hmem) arb tie
      have hslots' : ((pending.eraseIdx next.2).map fun p => producerSlot p.op).Nodup :=
        hslots.sublist ((List.eraseIdx_sublist _ _).map _)
      have hrecorded' : ∀ p ∈ pending.eraseIdx next.2,
          (arb.grant next.1.op tie).1.RecordedUntil (producerSlot p.op) p.op.reqTime :=
        fun p hp => (hrecorded p (hsub p hp)).grant (fun heq => absurd heq.symm (hother p hp)) tie
      obtain ⟨hlast, hrest, hrecords⟩ := ih hslots' (fun p hp => hfetch p (hsub p hp)) hrecorded'
      rw [commitRounds_of_some hround, hgranted]
      refine ⟨hlast.trans hmemory, fun r hr => ?_, fun slot t hrec hreq => ?_⟩
      · rcases List.mem_cons.mp hr with rfl | hr
        · exact hvalue
        · rw [← hmemory]
          exact hrest r hr
      · exact hrecords slot t (hrec.grant (hreq next.1 hmem) tie) fun p hp => hreq p (hsub p hp)

/-- **A batch of fetches answers with what is in memory.** -/
theorem commitBatch_fetches (hrun : arb.trace.shouldHalt = false)
    (hslots : (ops.map producerSlot).Nodup) (hfetch : ∀ op ∈ ops, FetchesRam op)
    (hrecorded : ∀ op ∈ ops, arb.RecordedUntil (producerSlot op) op.reqTime) :
    (arb.commitBatch ops).1.memory = arb.memory ∧
      (∀ r ∈ (arb.commitBatch ops).2, FetchedFrom arb.memory r.op r.response) ∧
      ∀ slot t, arb.RecordedUntil slot t →
        (∀ op ∈ ops, producerSlot op = slot → op.reqTime ≤ t) →
        (arb.commitBatch ops).1.RecordedUntil slot t := by
  have hordered : ops.Pairwise fun x y => producerSlot x = producerSlot y → x.reqTime ≤ y.reqTime :=
    (List.pairwise_map.mp hslots).imp fun hne heq => absurd heq hne
  obtain ⟨hreset, hops⟩ := enqueue_of_ordered arb.resetEnqueued 0 ops hrun hordered
    fun op _ hseen => absurd hseen (by simp [resetEnqueued])
  have hcore : (arb.resetEnqueued.enqueue 0 ops).1.core = arb.core := resetEnqueued_core hreset
  have hmem : ∀ p ∈ (arb.resetEnqueued.enqueue 0 ops).2, p.op ∈ ops := by
    intro p hp
    rw [← hops]
    exact List.mem_map_of_mem hp
  have hslots' : ((arb.resetEnqueued.enqueue 0 ops).2.map fun p => producerSlot p.op).Nodup := by
    rw [← hops, List.map_map] at hslots
    exact hslots
  obtain ⟨hmemory, hvalues, hrecords⟩ := commitRounds_fetches
    (arb.resetEnqueued.enqueue 0 ops).2.length hslots' (fun p hp => hfetch p.op (hmem p hp))
    fun p hp => (hrecorded p.op (hmem p hp)).congr hcore
  rw [core_memory hcore] at hmemory hvalues
  exact ⟨hmemory, hvalues, fun slot t hrec hreq =>
    hrecords slot t (hrec.congr hcore) fun p hp => hreq p.op (hmem p hp)⟩

end BusArbiter

end Saturnis.Bus

namespace Saturnis.Cpu.SH2Core

open Saturnis.Core Saturnis.Mem Saturnis.Bus

variable {core : SH2Core} {trace : TraceLog}

/-! ### One core -/

/-- A fill of a line is a fetch from memory. -/
structure FillsLine (op : BusOp) : Prop where
  kind : op.fillCacheLine = true → op.kind = .iFetch ∧ isMmio op.physAddr = false
  line : op.fillCacheLine = true → op.cacheLineSize = 16
  phys : op.fillCacheLine = true → op.physAddr.toNat < 2 ^ 29

theorem fillsLine_of_none {op : BusOp} (h : op.fillCacheLine = false) : FillsLine op := by
  refine ⟨fun hfill => ?_, fun hfill => ?_, fun hfill => ?_⟩ <;>
    exact absurd (h.symm.trans hfill) Bool.false_ne_true

/-- An instruction neither changes the cache nor commits anything. -/
theorem executeInstruction_commits (core : SH2Core) (instr : Instr) (trace : TraceLog) :
    (core.executeInstruction instr trace).1.icache = core.icache ∧
      (core.executeInstruction instr trace).2.commits = trace.commits := by
  refine ⟨(executeInstruction_frame core instr trace).icache, ?_⟩
  rw [executeInstruction_eq, retire, TraceLog.commits_addState]
  cases opcodeOf instr with
  | rte =>
    rw [dispatch]
    split <;> exact TraceLog.commits_addFault _ _
  | illegal => exact TraceLog.commits_addFault _ _
  | _ => rfl

theorem produceLoop_fills (budget : Nat) (core : SH2Core) (seq : Nat) (trace : TraceLog)
    (executed : Nat) (hline : core.icache.lineSize = 16) :
    ∀ op ∈ (produceLoop budget core seq trace executed).2.2.op, FillsLine op := by
  induction budget generalizing core trace executed with
  | zero => simp [produceLoop]
  | succ budget ih =>
    rw [produceLoop]
    split
    · rintro op hop
      obtain rfl := Option.some_inj.mp hop
      exact fillsLine_of_none rfl
    · rename_i hcached
      split
      · rename_i cached _
        simp only
        split
        · rintro op hop
          obtain rfl := Option.some_inj.mp hop
          exact fillsLine_of_none rfl
        · refine ih _ _ _ ?_
          rw [(executeInstruction_commits core _ trace).1]
          exact hline
      · -- only a miss asks for a line
        rintro op hop
        obtain rfl := Option.some_inj.mp hop
        rw [uncachedFetch, Bool.or_eq_true, not_or] at hcached
        have hram : isMmio (toPhys core.pc) = false := by simpa using hcached.2
        refine ⟨fun _ => ⟨rfl, hram⟩, fun _ => ?_, fun _ => toPhys_lt core.pc⟩
        rw [missOp, hline]

/-- What a core asks for, and what it leaves alone until it is answered. -/
theorem produceUntilBus_fetches (core : SH2Core) (seq : Nat) (trace : TraceLog) (budget : Nat) :
    (core.produceUntilBus seq trace budget).1.icache = core.icache ∧
      (core.produceUntilBus seq trace budget).2.1.commits = trace.commits ∧
      (core.icache.lineSize = 16 →
        ∀ op ∈ (core.produceUntilBus seq trace budget).2.2.op, FillsLine op) := by
  rw [produceUntilBus]
  split
  · refine ⟨rfl, TraceLog.commits_addFault _ _, fun _ op hop => ?_⟩
    obtain rfl := Option.some_inj.mp hop
    exact fillsLine_of_none rfl
  · split
    · refine ⟨rfl, rfl, fun _ op hop => ?_⟩
      obtain rfl := Option.some_inj.mp hop
      exact fillsLine_of_none rfl
    · have hloop := @produceLoop_invariant core
        (fun after log => after.icache = core.icache ∧ log.commits = trace.commits)
        (fun _ _ form instr h => ⟨(startAccess_frame _ form instr).icache.trans h.1, h.2⟩)
        (fun after log instr h =>
          ⟨(executeInstruction_commits after instr log).1.trans h.1,
            (executeInstruction_commits after instr log).2.trans h.2⟩)
        trace ⟨rfl, rfl⟩ budget seq 0
      exact ⟨hloop.1, hloop.2, produceLoop_fills budget core seq trace 0⟩

/-- A response leaves the cache alone, or fills it with its line. -/
theorem applyIfetchAndStep_fetches (core : SH2Core) (response : BusResponse) (trace : TraceLog) :
    ((core.applyIfetchAndStep response trace).1.icache = core.icache ∨
        response.lineData ≠ [] ∧ (core.applyIfetchAndStep response trace).1.icache =
          core.icache.fillLine response.lineBase response.lineData) ∧
      (core.applyIfetchAndStep response trace).2.commits = trace.commits := by
  cases hpending : core.pendingMemOp with
  | some pending =>
    rw [applyIfetchAndStep_of_pending hpending]
    exact ⟨Or.inl (advancePending_frame _ _ _).2.1, TraceLog.commits_addState _ _⟩
  | none =>
    rw [applyIfetchAndStep_of_none hpending]
    obtain ⟨hicache, hcommits⟩ := executeInstruction_commits
      ({ core with t := tickAdd core.t response.stall }.fillIcache response trace).1
      (response.value.setWidth 16)
      ({ core with t := tickAdd core.t response.stall }.fillIcache response trace).2
    rw [hicache, hcommits, fillIcache]
    split
    · exact ⟨Or.inl rfl, rfl⟩
    · rename_i hdata
      simp only
      split
      · exact ⟨Or.inl rfl, TraceLog.commits_addFault _ _⟩
      · exact ⟨Or.inr ⟨by simpa using hdata, rfl⟩, rfl⟩

end Saturnis.Cpu.SH2Core

namespace Saturnis.Core

open Saturnis.Core Saturnis.Mem Saturnis.Bus Saturnis.Cpu

/-! ### The run -/

/-- No COMMIT record of a write covers a byte of a line that an earlier record
has filled a cache from. -/
def CodeKept (commits : List CommitEvent) : Prop :=
  commits.Pairwise fun f w => f.op.fillCacheLine = true →
    ∀ a, lineOf a = lineOf f.op.physAddr → ¬ w.op.Covers a

namespace BiosRun

variable {s : BiosRun} {c d : Fin 2}

/-- The caches hold lines that the log has filled them from, as they are in
memory, and the cores ask for such lines only. -/
structure Fetched (s : BiosRun) : Prop where
  size : s.arb.memory.size % 16 = 0
  wellFormed : ∀ c, (s.core c).icache.WellFormed
  lineSize : ∀ c, (s.core c).icache.lineSize = 16
  coherent : ∀ c, (s.core c).icache.Coherent s.arb.memory
  held : ∀ c a, (s.core c).icache.holds a = true → ∃ f ∈ s.arb.trace.commits,
    f.op.fillCacheLine = true ∧ lineOf a = lineOf f.op.physAddr
  fills : ∀ c, ∀ op ∈ s.p c, SH2Core.FillsLine op

/-- Producing changes neither memory and devices nor what has been committed. -/
theorem produce_arb (s : BiosRun) (c : Fin 2) : (s.produce c).arb.hardware = s.arb.hardware ∧
    (s.produce c).arb.trace.commits = s.arb.trace.commits := by
  rw [BiosRun.produce]
  split
  · exact ⟨rfl, rfl⟩
  · exact ⟨rfl, ((s.core c).produceUntilBus_fetches s.seq s.arb.trace 16).2.1⟩

theorem publish_core (s : BiosRun) : s.publish.arb.core = s.arb.core := by
  rw [BiosRun.publish, BusArbiter.core_updateProgress, BusArbiter.core_updateProgress]

theorem prepare_arb (s : BiosRun) : s.prepare.arb.hardware = s.arb.hardware ∧
    s.prepare.arb.trace.commits = s.arb.trace.commits := by
  obtain ⟨hhardware, hcommits⟩ := s.produce_arb 0
  obtain ⟨hhardware', hcommits'⟩ := (s.produce 0).produce_arb 1
  have hcore := ((s.produce 0).produce 1).publish_core
  rw [prepare, BusArbiter.hardware_of_core hcore, BusArbiter.core_trace hcore]
  exact ⟨hhardware'.trans hhardware, hcommits'.trans hcommits⟩

theorem Fetched.produce (h : s.Fetched) (c : Fin 2) : (s.produce c).Fetched := by
  obtain ⟨hhardware, htrace⟩ := s.produce_arb c
  have hmemory := BusArbiter.hardware_memory hhardware
  cases hp : s.p c with
  | some op =>
    rw [produce_of_waits hp]
    exact h
  | none =>
    obtain ⟨hicache, -, hfills⟩ := (s.core c).produceUntilBus_fetches s.seq s.arb.trace 16
    have hcore : ∀ d, ((s.produce c).core d).icache = (s.core d).icache := by
      intro d
      rw [BiosRun.produce, hp]
      by_cases hne : d = c
      · rw [hne]
        exact (congrArg SH2Core.icache (Function.update_self ..)).trans hicache
      · exact congrArg SH2Core.icache (Function.update_of_ne hne ..)
    refine ⟨?_, fun d => ?_, fun d => ?_, fun d => ?_, fun d => ?_, fun d op hop => ?_⟩
    · rw [hmemory]
      exact h.size
    · rw [hcore]
      exact h.wellFormed d
    · rw [hcore]
      exact h.lineSize d
    · rw [hcore, hmemory]
      exact h.coherent d
    · rw [hcore, htrace]
      exact h.held d
    · rw [BiosRun.produce, hp] at hop
      by_cases hne : d = c
      · rw [hne] at hop
        change op ∈ Function.update s.p c _ c at hop
        rw [Function.update_self] at hop
        exact hfills (h.lineSize c) op hop
      · change op ∈ Function.update s.p c _ d at hop
        rw [Function.update_of_ne hne] at hop
        exact h.fills d op hop

theorem Fetched.prepare (h : s.Fetched) : s.prepare.Fetched := by
  have hboth := (h.produce 0).produce 1
  have hcore := ((s.produce 0).produce 1).publish_core
  have hmemory := BusArbiter.core_memory hcore
  have htrace := BusArbiter.core_trace hcore
  refine ⟨?_, hboth.wellFormed, hboth.lineSize, ?_, ?_, hboth.fills⟩
  · rw [BiosRun.prepare, hmemory]
    exact hboth.size
  · rw [BiosRun.prepare, hmemory]
    exact hboth.coherent
  · rw [BiosRun.prepare, htrace]
    exact hboth.held

/-- Responses change neither memory and devices nor what has been committed. -/
theorem respondAll_arb (answers : List (Fin 2 × CommitResult)) (s : BiosRun) :
    (s.respondAll answers).arb.hardware = s.arb.hardware ∧
      (s.respondAll answers).arb.trace.commits = s.arb.trace.commits := by
  induction answers generalizing s with
  | nil => exact ⟨rfl, rfl⟩
  | cons a answers ih =>
    obtain ⟨hhardware, hcommits⟩ := ih (s.respond a.1 a.2)
    have hone := ((s.core a.1).applyIfetchAndStep_fetches a.2.response s.arb.trace).2
    exact ⟨hhardware, hcommits.trans hone⟩

/-- What the batch of an iteration leaves in memory and in the log. -/
theorem commit_arb (s : BiosRun) :
    s.commit.arb.hardware = (s.arb.commitBatch (s.fetches.map (·.2))).1.hardware ∧
      s.commit.arb.trace.commits =
        (s.arb.commitBatch (s.fetches.map (·.2))).1.trace.commits := by
  rw [commit_eq]
  exact respondAll_arb _ _

/-- A line that an answer brings is the line of the operation, as it is in memory
when the batch is through. -/
theorem Fetched.line (h : s.Fetched) (hkept : CodeKept s.commit.arb.trace.commits)
    {x : Fin 2 × CommitResult} (hx : x ∈ s.answered) (hline : x.2.response.lineData ≠ []) :
    ∃ f ∈ s.commit.arb.trace.commits, f.op.fillCacheLine = true ∧
      x.2.response.lineBase = lineOf f.op.physAddr ∧
      ∀ a, lineOf a = lineOf f.op.physAddr →
        x.2.response.lineData.getD (a.toNat % 16) 0 = s.commit.arb.memory.byteAt a := by
  have hc := BusArbiter.batch_chained s.arb (s.fetches.map (·.2))
  have hs := BusArbiter.callLog_sound s.arb (.commitBatch (s.fetches.map (·.2)))
  have hcommits := hc.commits hs
  obtain ⟨hhardware, htrace⟩ := s.commit_arb
  have hmemory := BusArbiter.hardware_memory hhardware
  obtain ⟨r, hr, rfl⟩ := List.mem_map.mp hx
  have hp := mem_answered hx
  obtain ⟨e, he, hop, hresponse⟩ := BusArbiter.commitBatch_handled hr
  change r.response.lineData ≠ [] at hline
  change s.p _ = some r.op at hp
  change ∃ f ∈ _, _ ∧ r.response.lineBase = _ ∧ ∀ a, _ → r.response.lineData.getD _ 0 = _
  rw [← hresponse] at hline ⊢
  rw [← hop] at hp
  have hrecorded : e.record ∈ s.commit.arb.trace.commits := by
    rw [htrace, hcommits]
    exact List.mem_append_right _ (List.mem_map_of_mem he)
  -- only a granted fetch brings a line
  have hgranted : e.granted = true := by
    by_contra hg
    obtain ⟨reason, detail, -, hfault⟩ := (hs e he).of_rejected (by simpa using hg)
    rw [hfault] at hline
    exact hline rfl
  have hperform : e.response.lineBase = (e.before.perform e.op e.response.commitTime).lineBase ∧
      e.response.lineData = (e.before.perform e.op e.response.commitTime).lineData := by
    rw [((hs e he).of_granted hgranted).2]
    exact ⟨rfl, rfl⟩
  rw [hperform.2] at hline
  have hfill := BusArbiter.perform_fills hline
  obtain ⟨hkind, hlinesize, hphys⟩ := h.fills _ e.op hp
  obtain ⟨hfetch, hram⟩ := hkind hfill
  have hload : e.op.loadsRam = true := by simp [BusOp.loadsRam, hfetch, hram]
  have hdata := ((hs e he).load hgranted hload).2 hfill (by rw [hlinesize hfill]; omega)
  have hbase := (BusArbiter.perform_lineData _ _ _ hline).1
  rw [hlinesize hfill] at hbase hdata
  refine ⟨e.record, hrecorded, hfill, hperform.1.trans hbase, fun a ha => ?_⟩
  -- the fetch writes nothing, and what comes after it leaves its line alone
  obtain ⟨before, rest, hlog⟩ := List.append_of_mem he
  have hcover : ∀ h ∈ e :: rest, ¬ h.op.Covers a := by
    rw [htrace, hcommits, hlog, List.map_append, List.map_cons, ← List.append_assoc, CodeKept,
      List.pairwise_append] at hkept
    intro h hh
    rcases List.mem_cons.mp hh with rfl | hh
    · exact BusOp.not_covers_of_fetch hfetch a
    · exact (List.pairwise_cons.mp hkept.2.1).1 h.record (List.mem_map_of_mem hh) hfill a ha
  have hlast : (s.arb.commitBatch (s.fetches.map (·.2))).1.memory.byteAt a =
      e.before.memory.byteAt a := by
    rw [hlog] at hc
    refine hc.suffix.byteAt (fun h hh => hs h ?_) hcover
    change h ∈ s.arb.batchLog (s.fetches.map (·.2))
    rw [hlog]
    exact List.mem_append_right _ hh
  have hstart : e.op.lineStart = lineOf e.op.physAddr * 16#32 := by
    rw [BusOp.lineStart, hlinesize hfill]
    rfl
  rw [hdata, hstart, hmemory, hlast]
  refine e.before.memory.readBlock_line ?_ (hphys hfill) ha
  rw [(hc.memorySize hs).2 e he]
  exact h.size

/-- **An iteration keeps the caches as memory is.** -/
theorem Fetched.commit (h : s.Fetched) (hkept : CodeKept s.commit.arb.trace.commits) :
    s.commit.Fetched := by
  have hc := BusArbiter.batch_chained s.arb (s.fetches.map (·.2))
  have hs := BusArbiter.callLog_sound s.arb (.commitBatch (s.fetches.map (·.2)))
  have hcommits := hc.commits hs
  obtain ⟨hhardware, htrace⟩ := s.commit_arb
  have hmemory := BusArbiter.hardware_memory hhardware
  have hgrows : ∀ f ∈ s.arb.trace.commits, f ∈ s.commit.arb.trace.commits := by
    intro f hf
    rw [htrace, hcommits]
    exact List.mem_append_left _ hf
  -- what a cache held before, it holds as memory is now
  have hcoherent : ∀ c, (s.core c).icache.Coherent s.commit.arb.memory := by
    intro c
    refine (h.coherent c).frame fun a ha => ?_
    obtain ⟨f, hf, hfill, hline⟩ := h.held c a ha
    rw [hmemory]
    refine hc.byteAt hs fun e he => ?_
    rw [htrace, hcommits, CodeKept, List.pairwise_append] at hkept
    exact hkept.2.2 f hf e.record (List.mem_map_of_mem he) hfill a hline
  have hheld : ∀ c a, (s.core c).icache.holds a = true → ∃ f ∈ s.commit.arb.trace.commits,
      f.op.fillCacheLine = true ∧ lineOf a = lineOf f.op.physAddr := by
    intro c a ha
    obtain ⟨f, hf, hfill, hline⟩ := h.held c a ha
    exact ⟨f, hgrows f hf, hfill, hline⟩
  -- and an answer leaves it so
  have hcache : ∀ c, (s.commit.core c).icache.WellFormed ∧
      (s.commit.core c).icache.lineSize = 16 ∧
      (s.commit.core c).icache.Coherent s.commit.arb.memory ∧
      ∀ a, (s.commit.core c).icache.holds a = true → ∃ f ∈ s.commit.arb.trace.commits,
        f.op.fillCacheLine = true ∧ lineOf a = lineOf f.op.physAddr := by
    intro c
    rcases s.commit_core c with ⟨x, hx, rfl, htook⟩ | hsame
    · obtain ⟨trace, hcore⟩ := htook.core
      rw [hcore]
      rcases ((s.core x.1).applyIfetchAndStep_fetches x.2.response trace).1 with hkeep | ⟨hline, hfill⟩
      · rw [hkeep]
        exact ⟨h.wellFormed _, h.lineSize _, hcoherent _, hheld _⟩
      · obtain ⟨f, hf, hfills, hbase, hdata⟩ := h.line hkept hx hline
        have hwf := h.wellFormed x.1
        have hsize := h.lineSize x.1
        rw [hfill]
        refine ⟨hwf.fillLine _ _, (TinyCache.lineSize_fillLine _ _ _).trans hsize,
          (hcoherent x.1).fillLine hwf fun a ha => ?_, fun a ha => ?_⟩
        · rw [hbase, TinyCache.lineBase_eq hsize] at ha
          rw [hwf.offset, hsize]
          exact hdata a ha
        · rcases TinyCache.holds_of_fillLine hwf ha with hnew | hold
          · rw [hbase, TinyCache.lineBase_eq hsize] at hnew
            exact ⟨f, hf, hfills, hnew⟩
          · exact hheld _ a hold
    · rw [hsame.core]
      exact ⟨h.wellFormed c, h.lineSize c, hcoherent c, hheld c⟩
  refine ⟨?_, fun c => (hcache c).1, fun c => (hcache c).2.1, fun c => (hcache c).2.2.1,
    fun c => (hcache c).2.2.2, fun c op hop => ?_⟩
  · rw [hmemory, (hc.memorySize hs).1]
    exact h.size
  · rcases s.commit_core c with ⟨x, hx, rfl, htook⟩ | hsame
    · rw [htook.p] at hop
      exact absurd hop (by simp)
    · rw [hsame.p] at hop
      exact h.fills c op hop

/-- No two fetches of an iteration are of one producer. -/
theorem Sound.slots_nodup (hs : s.Sound) :
    ((s.fetches.map (·.2)).map producerSlot).Nodup := by
  rw [List.map_map]
  refine List.Nodup.map_on (fun x hx y hy heq => ?_) (List.Nodup.of_map _ s.fetches_nodup)
  have hcore : x.1 = y.1 := by
    change producerSlot x.2 = producerSlot y.2 at heq
    rw [hs.slot (mem_fetches.mp hx), hs.slot (mem_fetches.mp hy)] at heq
    exact Fin.castSucc_inj.mp heq
  exact List.inj_on_of_nodup_map s.fetches_nodup hx hy hcore

/-! ### Whole runs -/

/-- The log of an iteration goes on from the log before it, and a byte that no
record of it covers keeps its value. -/
theorem iterate_arb (s : BiosRun) (maxSteps : Nat) :
    s.arb.trace.commits <+: (BiosRun.iterate maxSteps s).1.arb.trace.commits ∧
      ∀ a, (∀ w ∈ (BiosRun.iterate maxSteps s).1.arb.trace.commits, ¬ w.op.Covers a) →
        (BiosRun.iterate maxSteps s).1.arb.memory.byteAt a = s.arb.memory.byteAt a := by
  by_cases hlt : s.executed < maxSteps
  · obtain ⟨hhardware, hprepare⟩ := s.prepare_arb
    have hmemory := BusArbiter.hardware_memory hhardware
    rw [iterate_of_lt hlt]
    split
    · rw [hprepare, hmemory]
      exact ⟨List.prefix_refl _, fun _ _ => rfl⟩
    · have hc := BusArbiter.batch_chained s.prepare.arb (s.prepare.fetches.map (·.2))
      have hs := BusArbiter.callLog_sound s.prepare.arb (.commitBatch (s.prepare.fetches.map (·.2)))
      obtain ⟨hhardware', htrace⟩ := s.prepare.commit_arb
      rw [htrace, hc.commits hs, hprepare]
      refine ⟨List.prefix_append _ _, fun a hcover => ?_⟩
      rw [BusArbiter.hardware_memory hhardware', ← hmemory]
      exact hc.byteAt hs fun e he =>
        hcover e.record (List.mem_append_right _ (List.mem_map_of_mem he))
  · rw [BiosRun.iterate, if_neg hlt]
    exact ⟨List.prefix_refl _, fun _ _ => rfl⟩

theorem Fetched.iterate (h : s.Fetched) (maxSteps : Nat)
    (hkept : CodeKept (BiosRun.iterate maxSteps s).1.arb.trace.commits) :
    (BiosRun.iterate maxSteps s).1.Fetched := by
  by_cases hlt : s.executed < maxSteps
  · rw [iterate_of_lt hlt] at hkept ⊢
    by_cases hempty : s.prepare.fetches.isEmpty = true
    · rw [if_pos hempty]
      exact h.prepare
    · rw [if_neg hempty] at hkept ⊢
      exact h.prepare.commit hkept
  · rw [BiosRun.iterate, if_neg hlt]
    exact h

end BiosRun

/-! ### The image -/

/-- The bytes of the storage, with the image from address zero on. -/
def imageByte (image : List Byte) (a : Addr) : Byte :=
  if a.toNat < 32 * 1024 * 1024 then image.getD a.toNat 0 else 0

theorem size_loadImage (image : List Byte) : (loadImage image).size = 32 * 1024 * 1024 := by
  have hfold : ∀ (entries : List (Byte × Nat)) (m : CommittedMemory),
      (entries.foldl (fun mem e => mem.write (BitVec.ofNat 32 e.2) 1 (e.1.setWidth 32)) m).size =
        m.size := by
    intro entries
    induction entries with
    | nil => exact fun _ => rfl
    | cons e entries ih => exact fun m => (ih _).trans (m.size_write _ _ _)
  rw [loadImage, hfold, CommittedMemory.size, CommittedMemory.make]
  exact List.length_replicate

theorem loadImage_concat (image : List Byte) (b : Byte) :
    loadImage (image ++ [b]) =
      (loadImage image).write (BitVec.ofNat 32 image.length) 1 (b.setWidth 32) := by
  rw [loadImage, List.zipIdx_append, List.foldl_append, loadImage, Nat.zero_add]
  rfl

/-- **Memory starts with the image**, as far as there is storage for it. -/
theorem loadImage_byteAt (image : List Byte) (hlen : image.length ≤ 2 ^ 32) (a : Addr) :
    (loadImage image).byteAt a = imageByte image a := by
  induction image using List.reverseRecOn with
  | nil =>
    rw [imageByte]
    change (List.replicate (32 * 1024 * 1024) (0 : Byte)).getD a.toNat 0 = _
    rw [List.getD_eq_getElem?_getD, List.getElem?_replicate]
    split_ifs <;> rfl
  | append_singleton image b ih =>
    rw [List.length_append, List.length_singleton] at hlen
    have hphys : (BitVec.ofNat 32 image.length).toNat = image.length := by
      rw [BitVec.toNat_ofNat]
      exact Nat.mod_eq_of_lt (by omega)
    have hdist : (a - BitVec.ofNat 32 image.length).toNat < 1 ↔ a.toNat = image.length := by
      have hle : image.length < 2 ^ 32 := by omega
      bv_omega
    have hbyte : laneByte (b.setWidth 32) 1 (a - BitVec.ofNat 32 image.length).toNat = b := by
      rw [laneByte]
      simp
    have hold : (image ++ [b]).getD a.toNat 0 =
        if a.toNat = image.length then b else image.getD a.toNat 0 := by
      rw [List.getD_eq_getElem?_getD, List.getElem?_append, List.getD_eq_getElem?_getD]
      split_ifs with hlt heq heq
      · omega
      · rfl
      · rw [heq, Nat.sub_self]
        rfl
      · rw [List.getElem?_eq_none (by simp; omega), List.getElem?_eq_none (by omega)]
    rw [loadImage_concat, CommittedMemory.write_byteAt _ _ (by omega), refStore, size_loadImage,
      imageByte, hold]
    rw [imageByte] at ih
    by_cases hin : Inside (32 * 1024 * 1024) (BitVec.ofNat 32 image.length) 1
    · rw [if_pos hin]
      rw [Inside, hphys] at hin
      change (if (a - BitVec.ofNat 32 image.length).toNat < 1 then laneByte (b.setWidth 32) 1
        (a - BitVec.ofNat 32 image.length).toNat else (loadImage image).byteAt a) = _
      rw [hbyte, if_congr hdist rfl rfl, ih (by omega)]
      split_ifs <;> first | rfl | omega
    · rw [if_neg hin, ih (by omega)]
      rw [Inside, hphys] at hin
      split_ifs <;> first | rfl | omega

/-! ### Whole runs -/

namespace BiosRun

variable {image : List Byte} {maxSteps : Nat}

theorem fetched_start (image : List Byte) : (start image).Fetched := by
  refine ⟨?_, fun c => ?_, fun c => rfl, fun c => ?_, fun c a ha => ?_, fun c op hop => ?_⟩
  · change (loadImage image).size % 16 = 0
    rw [size_loadImage]
  · exact TinyCache.wellFormed_make (by omega) (by omega) (by omega)
  · exact TinyCache.coherent_make 16 64 _
  · change (TinyCache.make 16 64).holds a = true at ha
    rw [TinyCache.holds_make] at ha
    exact absurd ha Bool.false_ne_true
  · exact absurd hop (by simp [start])

theorem fetched_after (image : List Byte) (maxSteps n : Nat)
    (hkept : CodeKept (after image maxSteps n).arb.trace.commits) :
    (after image maxSteps n).Fetched := by
  induction n with
  | zero => exact fetched_start image
  | succ n ih =>
    rw [after_succ] at hkept ⊢
    obtain ⟨hgrow, -⟩ := (after image maxSteps n).iterate_arb maxSteps
    exact (ih (hkept.sublist hgrow.sublist)).iterate maxSteps hkept

/-- What no record covers is as it was loaded. -/
theorem after_byteAt (image : List Byte) (maxSteps n : Nat) {a : Addr}
    (hcover : ∀ w ∈ (after image maxSteps n).arb.trace.commits, ¬ w.op.Covers a) :
    (after image maxSteps n).arb.memory.byteAt a = (loadImage image).byteAt a := by
  induction n with
  | zero => rfl
  | succ n ih =>
    rw [after_succ] at hcover ⊢
    obtain ⟨hgrow, hkeeps⟩ := (after image maxSteps n).iterate_arb maxSteps
    exact (hkeeps a hcover).trans (ih fun w hw => hcover w (hgrow.mem hw))

end BiosRun

/-- Two bytes of one line are both inside the memory, or both past its end. -/
theorem read_of_line {m : CommittedMemory} (hsize : m.size % 16 = 0) {phys : Addr}
    (hline : phys.toNat % 16 + 2 ≤ 16) (hphys : phys.toNat < 2 ^ 29) :
    wordOf (bytesFrom m.byteAt phys 2) = m.read phys 2 := by
  by_cases hin : Inside m.size phys 2
  · exact (CommittedMemory.read_eq_wordOf hin).symm
  · rw [Inside] at hin
    have hzero : ∀ i ∈ List.range 2, m.byteAt (phys + BitVec.ofNat 32 i) = 0 := by
      intro i hi
      have hlt := List.mem_range.mp hi
      have hbeyond : m.bytes.length ≤ (phys + BitVec.ofNat 32 i).toNat := by
        rw [TinyCache.toNat_add_ofNat (by omega)]
        change m.size ≤ _
        omega
      rw [CommittedMemory.byteAt, List.getD_eq_getElem?_getD, List.getElem?_eq_none hbeyond]
      rfl
    rw [CommittedMemory.read, if_neg (by simpa [accessInRange] using hin), bytesFrom,
      List.map_congr_left hzero]
    rfl

/-! ### The first iteration -/

/-- An iteration records operations that a core waits for. -/
theorem BiosRun.commit_records (s : BiosRun) : ∀ w ∈ s.commit.arb.trace.commits,
    w ∈ s.arb.trace.commits ∨ ∃ c, s.p c = some w.op := by
  intro w hw
  rw [s.commit_arb.2, BusArbiter.commitBatch_commits, List.mem_append] at hw
  refine hw.imp_right fun hw => ?_
  obtain ⟨r, hr, rfl⟩ := List.mem_map.mp hw
  have hget := BusArbiter.batchRecords_get s.arb _ r hr
  obtain ⟨x, hx, hop⟩ := List.mem_map.mp (List.mem_of_getElem? hget)
  exact ⟨x.1, hop ▸ BiosRun.mem_fetches.mp hx⟩

/-- Cores that have been reset fetch from the start of memory. -/
theorem BiosRun.start_prepare (image : List Byte) (c : Fin 2) :
    (start image).prepare.core c = (start image).core c ∧
      ∃ seq, (start image).prepare.p c = some (((start image).core c).missOp seq) := by
  have hproduce : ∀ (s : BiosRun) (d : Fin 2), s.p d = none → s.core d = (start image).core d →
      (s.produce d).core d = (start image).core d ∧
        (s.produce d).p d = some (((start image).core d).missOp s.seq) := by
    intro s d hp hcore
    have hcached : ((start image).core d).uncachedFetch = false := by
      change (isUncachedAlias 0#32 || isMmio (toPhys 0#32)) = false
      decide
    have hmiss : ((start image).core d).icache.read (toPhys ((start image).core d).pc) 2 = none := by
      change (TinyCache.make 16 64).read (toPhys 0) 2 = none
      decide
    have hfetch : ((start image).core d).produceUntilBus s.seq s.arb.trace 16 =
        ((start image).core d, s.arb.trace, ⟨some (((start image).core d).missOp s.seq), 0⟩) := by
      change SH2Core.produceLoop 16 ((start image).core d) s.seq s.arb.trace 0 = _
      rw [SH2Core.produceLoop, hcached, hmiss]
      rfl
    rw [BiosRun.produce, hp]
    simp only [hcore, hfetch, Function.update_self, and_self]
  -- the second core produces after the first, which leaves it alone
  have hne : (1 : Fin 2) ≠ 0 := by decide
  change (((start image).produce 0).produce 1).core c = _ ∧
    ∃ seq, (((start image).produce 0).produce 1).p c = _
  rcases (show c = 0 ∨ c = 1 by omega) with rfl | rfl
  · obtain ⟨hcore, hp⟩ := hproduce (start image) 0 rfl rfl
    obtain ⟨hcore', hp'⟩ := ((start image).produce 0).produce_of_ne hne.symm
    exact ⟨hcore'.trans hcore, _, hp'.trans hp⟩
  · obtain ⟨hcore, hp⟩ := (start image).produce_of_ne hne
    obtain ⟨hcore', hp'⟩ := hproduce ((start image).produce 0) 1 hp hcore
    exact ⟨hcore', _, hp'⟩

/-- Fetches leave the code alone. -/
theorem codeKept_of_fetches {commits : List CommitEvent}
    (h : ∀ w ∈ commits, w.op.kind = .iFetch) : CodeKept commits :=
  List.pairwise_of_forall_mem_list fun _ _ w hw _ a _ => BusOp.not_covers_of_fetch (h w hw) a

/-- The first iteration records fetches only. -/
theorem first_fetches (image : List Byte) (maxSteps : Nat) :
    ∀ w ∈ (BiosRun.after image maxSteps 1).arb.trace.commits, w.op.kind = .iFetch := by
  have hempty : (BiosRun.start image).prepare.arb.trace.commits = [] :=
    (BiosRun.start image).prepare_arb.2
  intro w hw
  change w ∈ (BiosRun.iterate maxSteps (BiosRun.start image)).1.arb.trace.commits at hw
  by_cases hlt : (BiosRun.start image).executed < maxSteps
  · rw [BiosRun.iterate_of_lt hlt] at hw
    split_ifs at hw
    · rw [hempty] at hw
      exact absurd hw List.not_mem_nil
    · rcases BiosRun.commit_records _ w hw with hw | ⟨c, hp⟩
      · rw [hempty] at hw
        exact absurd hw List.not_mem_nil
      · obtain ⟨-, seq, hmiss⟩ := BiosRun.start_prepare image c
        rw [← Option.some_inj.mp (hmiss.symm.trans hp)]
        rfl
  · rw [BiosRun.iterate, if_neg hlt] at hw
    exact absurd hw List.not_mem_nil

/-- The answers of the first iteration bring the line of address zero. -/
theorem first_answer (image : List Byte) : ∀ a ∈ (BiosRun.start image).prepare.answered,
    a.2.response.lineBase = 0 ∧ a.2.response.lineData.length = 16 := by
  have hready := BiosRun.start_prepare image
  have hs : (BiosRun.start image).prepare.Sound :=
    ((BiosRun.sound_start image).prepare fun c => Nat.le_of_eq (by rw [(hready c).1])).1
  have hops : ∀ op ∈ (BiosRun.start image).prepare.fetches.map (·.2),
      ∃ c seq, op = ((BiosRun.start image).core c).missOp seq := by
    intro op hop
    obtain ⟨x, hx, rfl⟩ := List.mem_map.mp hop
    obtain ⟨-, seq, hp⟩ := hready x.1
    exact ⟨x.1, seq, Option.some_inj.mp ((BiosRun.mem_fetches.mp hx).symm.trans hp)⟩
  have hfetch : ∀ op ∈ (BiosRun.start image).prepare.fetches.map (·.2), FetchesRam op := by
    intro op hop
    obtain ⟨c, seq, rfl⟩ := hops op hop
    exact ⟨rfl, show isMmio (toPhys 0) = false by decide, show (toPhys 0).toNat % 2 = 0 by decide,
      rfl⟩
  have hrecorded : ∀ op ∈ (BiosRun.start image).prepare.fetches.map (·.2),
      (BiosRun.start image).prepare.arb.RecordedUntil (producerSlot op) op.reqTime := fun op _ =>
    BusArbiter.hardware_recorded (BiosRun.start image).prepare_arb.1 _ _ fun hseen =>
      absurd hseen Bool.false_ne_true
  obtain ⟨-, hanswers, -⟩ := BusArbiter.commitBatch_fetches hs.ready.clear.shouldHalt
    hs.slots_nodup hfetch hrecorded
  intro a ha
  obtain ⟨r, hr, rfl⟩ := List.mem_map.mp ha
  have hmiss := BiosRun.mem_answered ha
  obtain ⟨-, seq, hp⟩ := hready (((BiosRun.start image).prepare.fetches.getD r.inputIndex (0, {})).1)
  have hop := Option.some_inj.mp (hmiss.symm.trans hp)
  have hline := (hanswers r hr).line
  change r.op = _ at hop
  rw [hop] at hline
  obtain ⟨hbase, hlength⟩ := hline rfl rfl
  exact ⟨hbase.trans (show lineOf (toPhys 0) = 0 by decide), hlength⟩

/-- The first iteration brings a core the line that it starts in. -/
theorem first_hit (image : List Byte) {maxSteps : Nat} (hmax : 0 < maxSteps) : ∃ c word,
    ((BiosRun.after image maxSteps 1).core c).icache.read (toPhys 0) 2 = some word := by
  have hready := BiosRun.start_prepare image
  have hs : (BiosRun.start image).prepare.Sound :=
    ((BiosRun.sound_start image).prepare fun c => Nat.le_of_eq (by rw [(hready c).1])).1
  -- both cores wait, so one of them is answered
  have hboth : ∀ c, ∃ op, (((BiosRun.start image).produce 0).produce 1).p c = some op ∧
      op.reqTime + 3 < tickModulus := by
    intro c
    obtain ⟨-, seq, hp⟩ := hready c
    refine ⟨_, hp, ?_⟩
    change 0 + 3 < tickModulus
    decide
  obtain ⟨d, op, hop, hcommittable⟩ := BiosRun.publish_committable _ hboth
  obtain ⟨a, ha⟩ := List.exists_mem_of_ne_nil _ (hs.answered_ne_nil hop hcommittable)
  obtain ⟨hbase, hlength⟩ := first_answer image a ha
  have hafter : BiosRun.after image maxSteps 1 = (BiosRun.start image).prepare.commit := by
    change (BiosRun.iterate maxSteps (BiosRun.start image)).1 = _
    rw [BiosRun.iterate_of_lt hmax, if_neg]
    intro hempty
    have hmem : (a.1, a.2.op) ∈ (BiosRun.start image).prepare.fetches :=
      BiosRun.mem_fetches.mpr (BiosRun.mem_answered ha)
    rw [List.isEmpty_iff.mp hempty] at hmem
    exact absurd hmem List.not_mem_nil
  -- it takes the line with the answer
  obtain ⟨trace, hcore⟩ := (BiosRun.respondAll_of_mem
    { (BiosRun.start image).prepare with
      arb := ((BiosRun.start image).prepare.arb.commitBatch
        ((BiosRun.start image).prepare.fetches.map (·.2))).1 }
    (BiosRun.start image).prepare.answered_nodup ha).core
  rw [← BiosRun.commit_eq, ← hafter] at hcore
  change _ = (((BiosRun.start image).prepare.core a.1).applyIfetchAndStep _ _).1 at hcore
  rw [(hready a.1).1] at hcore
  have hzero : (TinyCache.make 16 64).lineBase (toPhys 0) = 0 := by decide
  have hicache : ((BiosRun.after image maxSteps 1).core a.1).icache =
      (TinyCache.make 16 64).fillLine ((TinyCache.make 16 64).lineBase (toPhys 0))
        a.2.response.lineData := by
    rw [hcore, SH2Core.applyIfetchAndStep_of_none rfl, (SH2Core.executeInstruction_commits _ _ _).1,
      SH2Core.fillIcache, if_neg (by simp [← List.length_eq_zero_iff, hlength])]
    simp only
    rw [if_neg]
    · rw [hbase, hzero]
      rfl
    · rw [not_or, not_not, not_not]
      exact ⟨hbase.trans hzero.symm, hlength⟩
  have hwf := TinyCache.wellFormed_make (show 0 < 16 by decide) (show 16 < 256 by decide)
    (show 0 < 64 by decide)
  refine ⟨a.1, ?_⟩
  rw [hicache]
  refine TinyCache.read_of_holds (TinyCache.holds_fillLine hwf hlength _) ?_
  rw [(hwf.fillLine _ _).offset, TinyCache.lineSize_fillLine]
  decide

/-! ### What the cores execute -/

/-- **What a cache answers, memory would answer.**  In every state of a run that
has kept its code, a fetch that hits is given the word that is in memory, and it
is the word of the image, unless a COMMIT record of a write covers it. -/
theorem bios_fetches_memory (image : List Byte) (hlen : image.length ≤ 2 ^ 32)
    (maxSteps n : Nat) (hkept : CodeKept (BiosRun.after image maxSteps n).arb.trace.commits)
    (c : Fin 2) (pc : Addr) :
    ∀ word, ((BiosRun.after image maxSteps n).core c).icache.read (toPhys pc) 2 = some word →
      word = (BiosRun.after image maxSteps n).arb.memory.read (toPhys pc) 2 ∧
      ((∀ w ∈ (BiosRun.after image maxSteps n).arb.trace.commits, ∀ i < 2,
          ¬ w.op.Covers (toPhys pc + BitVec.ofNat 32 i)) →
        word = wordOf (bytesFrom (imageByte image) (toPhys pc) 2)) := by
  intro word hread
  have hfetched := BiosRun.fetched_after image maxSteps n hkept
  have hphys := toPhys_lt pc
  have hword := (hfetched.coherent c).read (hfetched.wellFormed c) (by omega) hread
  obtain ⟨-, hline, -⟩ := TinyCache.read_eq_some hread
  rw [(hfetched.wellFormed c).offset, hfetched.lineSize c] at hline
  refine ⟨hword.trans (read_of_line hfetched.size hline hphys), fun hcover => hword.trans ?_⟩
  refine congrArg wordOf (List.map_congr_left fun i hi => ?_)
  rw [BiosRun.after_byteAt image maxSteps n fun w hw => hcover w hw i (List.mem_range.mp hi),
    loadImage_byteAt image hlen]

theorem bios_fetches_memory_first : ∃ c word,
    ((BiosRun.after [0x00, 0x09] 8 1).core c).icache.read (toPhys 0) 2 = some word ∧
      word = (BiosRun.after [0x00, 0x09] 8 1).arb.memory.read (toPhys 0) 2 ∧ word = 9#32 := by
  have hfetches := first_fetches [0x00, 0x09] 8
  obtain ⟨c, word, hread⟩ := first_hit [0x00, 0x09] (show 0 < 8 by decide)
  obtain ⟨hmemory, himage⟩ := bios_fetches_memory [0x00, 0x09] (by decide) 8 1
    (codeKept_of_fetches hfetches) c 0 word hread
  have hword : word = wordOf (bytesFrom (imageByte [0x00, 0x09]) (toPhys 0) 2) :=
    himage fun w hw _ _ => BusOp.not_covers_of_fetch (hfetches w hw) _
  exact ⟨c, word, hread, hmemory, hword.trans (by decide)⟩

end Saturnis.Core
