/-
One scripted CPU reads its own writes, as long as no write straddles a cached line.

`Alone` is a CPU with the arbiter that serves it.  Its driver calls `produce`,
commits the operation and hands the response back (`round`); `execute` is the
same run one script operation at a time, and `round_eq_execute` says that a
round is some of these.  The reference is a byte store that executes the
accesses of the script in order (`flatAfter`).

* `Tracks` — the store buffer is empty, the cache is coherent with committed
  memory, committed memory is the byte store, and the clock has not wrapped;
* `Tracks.execute` — one script operation keeps it, if the state before the
  operation is `Regular`;
* `readsOwnWrites_of_regular` — so every read of a regular run returns what
  the byte store holds;
* `not_readsOwnWrites_straddling_write` — `TinyCache::write` skips a write that
  crosses the end of its line, and the line stays in the cache with the bytes
  from before.
-/
import Mathlib.Logic.Function.Iterate
import Saturnis.CacheLines
import Saturnis.ScriptedCpu

namespace Saturnis.Cpu

open Saturnis.Core Saturnis.Mem Saturnis.Bus

/-- A scripted CPU and the arbiter its driver commits to. -/
structure Alone where
  cpu : ScriptedCPU
  arb : BusArbiter

/-- A cached access of a size the bus has, inside a RAM of `size` bytes. -/
def ScriptOp.cachedRam (ins : ScriptOp) (size : Nat) : Bool :=
  ins.kind = .compute || ins.kind = .barrier ||
    (validBusSize ins.size && !ins.uncached &&
      decide (Inside size (toPhys ins.vaddr) ins.size))

/-! ### The driver -/

namespace Alone

/-- The operation is committed and its response handed back. -/
def respond (cpu : ScriptedCPU) (arb : BusArbiter) (p : PendingBusOp) : Alone :=
  let (arb, response) := arb.commit p.op
  ⟨(cpu.applyResponse p.scriptIndex response p.op.producerToken).1, arb⟩

def serve (arb : BusArbiter) : ScriptedCPU × Option PendingBusOp → Alone
  | (cpu, none) => ⟨cpu, arb⟩
  | (cpu, some p) => respond cpu arb p

/-- One round of the driver: `produce`, commit, `apply_response`. -/
def round (s : Alone) : Alone := serve s.arb s.cpu.produce

/-- The next operation of the script, with its response if it needs the bus. -/
def execute (s : Alone) : Alone :=
  match s.cpu.script[s.cpu.pc]? with
  | none => s
  | some ins =>
    match ins.kind with
    | .compute =>
      ⟨{ s.cpu with
          localTime := tickAdd s.cpu.localTime ins.cycles
          pc := s.cpu.pc + 1 }, s.arb⟩
    | .barrier | .write => respond (s.cpu.issue ins).1 s.arb (s.cpu.issue ins).2
    | .read =>
      match s.cpu.readLocally ins with
      | some value => ⟨{ s.cpu with lastRead := some value, pc := s.cpu.pc + 1 }, s.arb⟩
      | none => respond (s.cpu.issue ins).1 s.arb (s.cpu.issue ins).2

theorem produceLoop_eq_execute (n : Nat) (s : Alone) (hn : s.cpu.script.length - s.cpu.pc ≤ n) :
    ∃ m, serve s.arb (s.cpu.produceLoop n) = execute^[m] s ∧ (s.cpu.done = false → 0 < m) := by
  induction n generalizing s with
  | zero =>
    refine ⟨0, rfl, fun hdone => ?_⟩
    have := of_decide_eq_false hdone
    omega
  | succ n ih =>
    rw [ScriptedCPU.produceLoop]
    cases hget : s.cpu.script[s.cpu.pc]? with
    | none =>
      refine ⟨0, rfl, fun hdone => ?_⟩
      have hlen := List.getElem?_eq_none_iff.mp hget
      exact absurd hlen (of_decide_eq_false hdone)
    | some ins =>
      have hlt := (List.getElem?_eq_some_iff.mp hget).1
      -- a local operation is one step, and the rest of the loop follows it
      have hlocal : ∀ next : ScriptedCPU, next.script = s.cpu.script → next.pc = s.cpu.pc + 1 →
          execute s = ⟨next, s.arb⟩ →
          ∃ m, serve s.arb (next.produceLoop n) = execute^[m] s ∧ (s.cpu.done = false → 0 < m) := by
        intro next hscript hpc hstep
        obtain ⟨m, hm, -⟩ := ih ⟨next, s.arb⟩ (by rw [hscript, hpc]; omega)
        refine ⟨m + 1, ?_, fun _ => Nat.succ_pos m⟩
        rw [Function.iterate_succ_apply, hstep]
        exact hm
      cases hkind : ins.kind with
      | compute =>
        simp only [hkind]
        exact hlocal _ rfl rfl (by simp only [execute, hget, hkind])
      | barrier =>
        simp only [hkind]
        exact ⟨1, by simp only [serve, Function.iterate_one, execute, hget, hkind],
          fun _ => Nat.one_pos⟩
      | write =>
        simp only [hkind]
        exact ⟨1, by simp only [serve, Function.iterate_one, execute, hget, hkind],
          fun _ => Nat.one_pos⟩
      | read =>
        cases hread : s.cpu.readLocally ins with
        | none =>
          simp only [hkind, hread]
          exact ⟨1, by simp only [serve, Function.iterate_one, execute, hget, hkind, hread],
            fun _ => Nat.one_pos⟩
        | some value =>
          simp only [hkind, hread]
          exact hlocal _ rfl rfl (by simp only [execute, hget, hkind, hread])

/-- A round of the driver executes some operations of the script, and at least
one while there are any. -/
theorem round_eq_execute (s : Alone) :
    ∃ m, round s = execute^[m] s ∧ (s.cpu.done = false → 0 < m) := by
  exact produceLoop_eq_execute _ s (Nat.le_refl _)

theorem rounds_eq_execute (s : Alone) (n : Nat) :
    ∃ m, round^[n] s = execute^[m] s ∧ ((round^[n] s).cpu.done = false → n ≤ m) := by
  induction n with
  | zero => exact ⟨0, rfl, fun _ => Nat.le_refl _⟩
  | succ n ih =>
    obtain ⟨m, hm, hle⟩ := ih
    obtain ⟨k, hk, hpos⟩ := round_eq_execute (round^[n] s)
    refine ⟨k + m, ?_, fun hdone => ?_⟩
    · rw [Function.iterate_succ_apply', hk, hm, Function.iterate_add_apply]
    · rw [Function.iterate_succ_apply'] at hdone
      rcases Bool.eq_false_or_eq_true (round^[n] s).cpu.done with hend | hmore
      · -- a finished script stays finished
        have hstay : round (round^[n] s) = round^[n] s := by
          rw [round, ScriptedCPU.produce_of_done hend, serve]
        rw [hstay, hend] at hdone
        exact absurd hdone (by simp)
      · have := hle hmore
        have := hpos hmore
        omega

/-! ### The byte store -/

/-- What an operation of the script does to the byte store. -/
def flatStep (size : Nat) (bytes : Addr → Byte) (ins : ScriptOp) : Addr → Byte :=
  if ins.kind = .write then refStore size bytes (toPhys ins.vaddr) ins.size ins.value else bytes

/-- The byte store after a script. -/
def flatAfter (size : Nat) (bytes : Addr → Byte) (script : List ScriptOp) : Addr → Byte :=
  script.foldl (flatStep size) bytes

/-- What the byte store answers a read with. -/
def flatRead (bytes : Addr → Byte) (ins : ScriptOp) : Word :=
  wordOf (bytesFrom bytes (toPhys ins.vaddr) ins.size)

/-- A new CPU in front of an arbiter. -/
def start (cpuId : Int) (script : List ScriptOp) (arb : BusArbiter) : Alone :=
  ⟨ScriptedCPU.make cpuId script, arb⟩

/-- The arbiter has served nobody and is not halted. -/
structure Unused (arb : BusArbiter) : Prop where
  running : arb.trace.shouldHalt = false
  granted : ∀ slot, arb.producerSeen slot = false
  enqueued : ∀ slot, arb.producerEnqueuedSeen slot = false

/-- After each read of the script, `last_read` is what the byte store holds there. -/
def ReadsOwnWrites (cpuId : Int) (script : List ScriptOp) (arb : BusArbiter) : Prop :=
  ∀ k ins, script[k]? = some ins → ins.kind = .read →
    (execute^[k + 1] (start cpuId script arb)).cpu.lastRead =
      some (flatRead (flatAfter arb.memory.size arb.memory.byteAt (script.take k)) ins)

/-! ### Regular steps -/

/-- The bus operation of `ins` ends before the clock wraps. -/
def Fits (s : Alone) (ins : ScriptOp) : Prop :=
  s.arb.startTime (s.cpu.issue ins).2.op + s.arb.totalLatency (s.cpu.issue ins).2.op false <
    tickModulus

instance (s : Alone) (ins : ScriptOp) : Decidable (Fits s ins) :=
  inferInstanceAs (Decidable (_ < _))

/-- The clock does not wrap in the operation, a write that crosses the end of a
line touches no line of the cache, and a line that is fetched lies inside the
memory. -/
def RegularFor (s : Alone) (ins : ScriptOp) : Prop :=
  match ins.kind with
  | .compute => s.cpu.localTime + ins.cycles < tickModulus
  | .barrier => Fits s ins
  | .write =>
    Fits s ins ∧
      (s.cpu.cache.crosses (toPhys ins.vaddr) ins.size = true → ∀ i < ins.size,
        s.cpu.cache.holds (toPhys ins.vaddr + BitVec.ofNat 32 i) = false)
  | .read =>
    s.cpu.readLocally ins = none →
      Fits s ins ∧
        Inside s.arb.memory.size (s.cpu.cache.lineBase (toPhys ins.vaddr) *
          BitVec.ofNat 32 s.cpu.cache.lineSize) s.cpu.cache.lineSize

instance (s : Alone) (ins : ScriptOp) : Decidable (RegularFor s ins) := by
  unfold RegularFor
  cases ins.kind <;> infer_instance

/-- The state lets the next operation of the script keep the cache coherent. -/
def Regular (s : Alone) : Prop := ∀ ins ∈ s.cpu.script[s.cpu.pc]?, RegularFor s ins

instance (s : Alone) : Decidable (Regular s) := inferInstanceAs (Decidable (∀ _ ∈ _, _))

/-- CPU, cache, committed memory and byte store after `k` operations. -/
structure Tracks (script : List ScriptOp) (size : Nat) (bytes : Addr → Byte) (k : Nat)
    (s : Alone) : Prop where
  script : s.cpu.script = script
  pc : s.cpu.pc = k
  storeBuffer : s.cpu.storeBuffer = {}
  wellFormed : s.cpu.cache.WellFormed
  coherent : s.cpu.cache.Coherent s.arb.memory
  memory : s.arb.memory.byteAt = bytes
  size : s.arb.memory.size = size
  localTime : s.cpu.localTime < tickModulus
  running : s.arb.trace.shouldHalt = false
  granted : ∀ slot, s.arb.producerSeen slot = true →
    s.arb.producerLastReqTime slot ≤ s.cpu.localTime
  enqueued : ∀ slot, s.arb.producerEnqueuedSeen slot = true →
    s.arb.producerLastEnqueuedReqTime slot ≤ s.cpu.localTime

theorem Unused.tracks {arb : BusArbiter} (h : Unused arb) (cpuId : Int) (script : List ScriptOp) :
    Tracks script arb.memory.size arb.memory.byteAt 0 (start cpuId script arb) := by
  refine ⟨rfl, rfl, rfl, TinyCache.wellFormed_make (by omega) (by omega) (by omega),
    TinyCache.coherent_make _ _ _, rfl, rfl, Nat.two_pow_pos 64, h.running, fun slot hseen => ?_,
    fun slot hseen => ?_⟩
  · exact absurd ((h.granted slot).symm.trans hseen) Bool.false_ne_true
  · exact absurd ((h.enqueued slot).symm.trans hseen) Bool.false_ne_true

/-! ### Committing -/

/-- What a commit that is granted does, as far as RAM and one CPU go. -/
structure Served (s : Alone) (op : BusOp) (r : BusArbiter × BusResponse) : Prop where
  memory : r.1.memory = (s.arb.perform op r.2.commitTime).memory
  value : r.2.value = (s.arb.perform op r.2.commitTime).value
  lineBase : r.2.lineBase = (s.arb.perform op r.2.commitTime).lineBase
  lineData : r.2.lineData = (s.arb.perform op r.2.commitTime).lineData
  later : s.cpu.localTime ≤ tickAdd s.cpu.localTime r.2.stall
  running : r.1.trace.shouldHalt = false
  granted : ∀ slot, r.1.producerSeen slot = true →
    r.1.producerLastReqTime slot ≤ s.cpu.localTime
  enqueued : ∀ slot, r.1.producerEnqueuedSeen slot = true →
    r.1.producerLastEnqueuedReqTime slot ≤ s.cpu.localTime

/-- Noting the request time in the bookkeeping of one producer. -/
theorem update_le {seen : Fin 3 → Bool} {last : Fin 3 → Nat} {t : Nat} (slot : Fin 3)
    (h : ∀ slot, seen slot = true → last slot ≤ t) (other : Fin 3)
    (hseen : Function.update seen slot true other = true) :
    Function.update last slot t other ≤ t := by
  by_cases hother : other = slot
  · exact Nat.le_of_eq (hother ▸ Function.update_self ..)
  · rw [Function.update_of_ne hother] at hseen ⊢
    exact h other hseen

variable {script : List ScriptOp} {size k : Nat} {bytes : Addr → Byte} {s : Alone} {ins : ScriptOp}

/-- The arbiter once an operation has passed the enqueue contract. -/
def noted (arb : BusArbiter) (op : BusOp) : BusArbiter :=
  { arb with
    producerEnqueuedSeen := Function.update arb.producerEnqueuedSeen (producerSlot op) true
    producerLastEnqueuedReqTime :=
      Function.update arb.producerLastEnqueuedReqTime (producerSlot op) op.reqTime }

theorem Tracks.commit (h : Tracks script size bytes k s) {op : BusOp}
    (hreq : op.reqTime = s.cpu.localTime) (hvalid : validateBusOp op = .none)
    (hfits : s.arb.startTime op + s.arb.totalLatency op false < tickModulus) :
    Served s op (s.arb.commit op) := by
  have hcontract : s.arb.validateEnqueueContract op = (noted s.arb op, true) := by
    rw [BusArbiter.validateEnqueueContract, if_neg]
    · rfl
    · rintro ⟨hseen, hlt⟩
      have := h.enqueued _ hseen
      omega
  -- no earlier grant of the slot asked at a later time, so the operation is accepted
  have hacc : (noted s.arb op).accepts op = true := by
    rw [BusArbiter.accepts, hvalid]
    show (true && !(s.arb.producerSeen (producerSlot op) &&
      decide (op.reqTime < s.arb.producerLastReqTime (producerSlot op)))) = true
    rcases Bool.eq_false_or_eq_true (s.arb.producerSeen (producerSlot op)) with hseen | hseen
    · have := h.granted _ hseen
      rw [hseen, decide_eq_false (by omega)]
      rfl
    · rw [hseen]
      rfl
  have hcommit : s.arb.commit op = (noted s.arb op).grant op false := by
    rw [BusArbiter.commit, if_neg (by rw [h.running]; exact Bool.false_ne_true), hcontract]
    exact BusArbiter.executeCommit_of_accepts hacc
  rw [hcommit]
  refine ⟨rfl, rfl, rfl, rfl, ?_, h.running, ?_, ?_⟩
  · show s.cpu.localTime ≤ tickAdd s.cpu.localTime
      (tickSub (tickAdd (s.arb.startTime op) (s.arb.totalLatency op false)) op.reqTime)
    rw [hreq, tickAdd_tickSub h.localTime (tickAdd_lt _ _), tickAdd_of_lt hfits, ← hreq]
    exact Nat.le_trans (Nat.le_max_left _ _) (Nat.le_add_right _ _)
  · intro slot hseen
    show Function.update s.arb.producerLastReqTime (producerSlot op) op.reqTime slot ≤ _
    rw [hreq]
    exact update_le _ h.granted slot hseen
  · intro slot hseen
    show Function.update s.arb.producerLastEnqueuedReqTime (producerSlot op) op.reqTime slot ≤ _
    rw [hreq]
    exact update_le _ h.enqueued slot hseen

/-! ### One operation -/

/-- An operation that a response ends, given what the response does to cache and memory. -/
theorem Tracks.respond (h : Tracks script size bytes k s) {bytes' : Addr → Byte}
    (hget : s.cpu.script[s.cpu.pc]? = some ins) (hkind : ins.kind ≠ .compute)
    (hvalid : validateBusOp (s.cpu.issue ins).2.op = .none) (hfits : Fits s ins)
    (hafter : ∀ r, Served s (s.cpu.issue ins).2.op r →
      let cpu := ((s.cpu.issue ins).1.applyResponse s.cpu.pc r.2
        (s.cpu.issue ins).2.op.producerToken).1
      cpu.storeBuffer = {} ∧ cpu.cache.WellFormed ∧ cpu.cache.Coherent r.1.memory ∧
        r.1.memory.byteAt = bytes' ∧ r.1.memory.size = size) :
    Tracks script size bytes' (k + 1)
      (respond (s.cpu.issue ins).1 s.arb (s.cpu.issue ins).2) := by
  have hout := ScriptedCPU.outstanding_issue hget hkind
  have hserved := h.commit (by rw [hout.reqTime, ScriptedCPU.issue_localTime]) hvalid hfits
  obtain ⟨hbuf, hwf, hcoh, hbytes, hsize⟩ := hafter _ hserved
  have hidx : (s.cpu.issue ins).2.scriptIndex = s.cpu.pc := (ScriptedCPU.issue_sequence _ _).2.2
  have hans := (s.cpu.issue ins).1.applyResponse_answered (s.cpu.issue ins).2.scriptIndex
    (s.arb.commit (s.cpu.issue ins).2.op).2 (s.cpu.issue ins).2.op.producerToken
  have htime := hans.localTime
  rw [ScriptedCPU.issue_localTime] at htime
  rw [← hidx] at hbuf hwf hcoh
  refine ⟨?_, ?_, hbuf, hwf, hcoh, hbytes, hsize, ?_, hserved.running, fun slot hseen => ?_,
    fun slot hseen => ?_⟩
  · exact (hans.script.trans (ScriptedCPU.issue_script _ _)).trans h.script
  · exact (hans.pc.trans (ScriptedCPU.issue_pc _ _)).trans (congrArg (· + 1) h.pc)
  · exact Nat.lt_of_le_of_lt (Nat.le_of_eq htime) (tickAdd_lt _ _)
  · exact Nat.le_trans (hserved.granted slot hseen) (Nat.le_trans hserved.later (Nat.le_of_eq htime.symm))
  · exact Nat.le_trans (hserved.enqueued slot hseen) (Nat.le_trans hserved.later (Nat.le_of_eq htime.symm))

/-- What `cachedRam` says of an access. -/
theorem cachedRam_access (h : ins.cachedRam size = true) (hkind : ins.kind = .read ∨ ins.kind = .write) :
    validBusSize ins.size = true ∧ ins.uncached = false ∧ isMmio (toPhys ins.vaddr) = false ∧
      Inside size (toPhys ins.vaddr) ins.size ∧ (toPhys ins.vaddr).toNat + ins.size ≤ 2 ^ 32 := by
  have haccess : (validBusSize ins.size && !ins.uncached &&
      decide (Inside size (toPhys ins.vaddr) ins.size)) = true := by
    rcases hkind with hkind | hkind <;> simpa [ScriptOp.cachedRam, hkind] using h
  simp only [Bool.and_eq_true, Bool.not_eq_true', decide_eq_true_eq] at haccess
  obtain ⟨⟨hsize, huncached⟩, hin⟩ := haccess
  have hmmio : isMmio (toPhys ins.vaddr) = false := by
    rw [ScriptOp.uncached, Bool.or_eq_false_iff] at huncached
    exact huncached.2
  have hle : ins.size ≤ 4 := by
    simp only [validBusSize, Bool.or_eq_true, decide_eq_true_eq] at hsize
    omega
  have hlt := toPhys_lt ins.vaddr
  exact ⟨hsize, huncached, hmmio, hin, by omega⟩

/-- A RAM access is valid at any alignment. -/
theorem validateBusOp_ram {op : BusOp} (hkind : op.kind = .read ∨ op.kind = .write)
    (hsize : validBusSize op.size = true) (hmmio : isMmio op.physAddr = false) :
    validateBusOp op = .none := by
  rw [validateBusOp]
  rcases hkind with hkind | hkind <;> simp [hkind, hsize, hmmio]

theorem getD_of_getElem? {script : List ScriptOp} {i : Nat} (hget : script[i]? = some ins) :
    script.getD i {} = ins := by
  rw [List.getD_eq_getElem?_getD, hget]
  rfl

theorem Tracks.compute (h : Tracks script size bytes k s) (hget : s.cpu.script[s.cpu.pc]? = some ins)
    (hkind : ins.kind = .compute) (hreg : Regular s) :
    Tracks script size bytes (k + 1) (execute s) := by
  have hfits := hreg ins hget
  rw [RegularFor, hkind] at hfits
  have hle : s.cpu.localTime ≤ tickAdd s.cpu.localTime ins.cycles := by
    rw [tickAdd_of_lt hfits]
    exact Nat.le_add_right _ _
  simp only [execute, hget, hkind]
  exact ⟨h.script, congrArg (· + 1) h.pc, h.storeBuffer, h.wellFormed, h.coherent, h.memory, h.size,
    tickAdd_lt _ _, h.running, fun slot hseen => Nat.le_trans (h.granted slot hseen) hle,
    fun slot hseen => Nat.le_trans (h.enqueued slot hseen) hle⟩

theorem Tracks.barrier (h : Tracks script size bytes k s) (hget : s.cpu.script[s.cpu.pc]? = some ins)
    (hkind : ins.kind = .barrier) (hreg : Regular s) :
    Tracks script size bytes (k + 1) (execute s) := by
  have hfits := hreg ins hget
  rw [RegularFor, hkind] at hfits
  have hissue : s.cpu.issue ins = s.cpu.issueBarrier := by rw [ScriptedCPU.issue, hkind]
  simp only [execute, hget, hkind]
  refine h.respond hget (by simp [hkind]) ?_ hfits fun r hserved => ?_
  · rw [hissue]
    exact if_pos rfl
  · have hmem := hserved.memory
    rw [hissue] at hmem ⊢
    have hperform : r.1.memory = s.arb.memory := hmem.trans (by rw [BusArbiter.perform]; rfl)
    rw [hperform]
    simp only [ScriptedCPU.applyResponse, ScriptedCPU.issueBarrier, getD_of_getElem? hget, hkind]
    exact ⟨h.storeBuffer, h.wellFormed, h.coherent, h.memory, h.size⟩

theorem Tracks.write (h : Tracks script size bytes k s) (hget : s.cpu.script[s.cpu.pc]? = some ins)
    (hkind : ins.kind = .write) (hram : ins.cachedRam size = true) (hreg : Regular s) :
    Tracks script size (refStore size bytes (toPhys ins.vaddr) ins.size ins.value) (k + 1)
      (execute s) := by
  obtain ⟨hsize, huncached, hmmio, hin, hfit⟩ := cachedRam_access hram (Or.inr hkind)
  have hstep := hreg ins hget
  rw [RegularFor, hkind] at hstep
  obtain ⟨hfits, hcross⟩ := hstep
  have hissue : s.cpu.issue ins = s.cpu.issueWrite ins := by rw [ScriptedCPU.issue, hkind]
  simp only [execute, hget, hkind]
  refine h.respond hget (by simp [hkind]) ?_ hfits fun r hserved => ?_
  · rw [hissue]
    exact validateBusOp_ram (Or.inr (if_neg (by simp [hmmio]))) hsize hmmio
  · have hmem := hserved.memory
    rw [hissue] at hmem ⊢
    have hperform : r.1.memory = s.arb.memory.write (toPhys ins.vaddr) ins.size ins.value :=
      hmem.trans (by simp [BusArbiter.perform, ScriptedCPU.issueWrite, hmmio])
    rw [hperform]
    simp only [ScriptedCPU.applyResponse, ScriptedCPU.issueWrite, getD_of_getElem? hget, hkind,
      huncached, h.storeBuffer]
    refine ⟨?_, h.wellFormed.write _ _ _,
      h.coherent.write h.wellFormed ins.value hfit (by rw [h.size]; exact hin) hcross, ?_, ?_⟩
    · simp [StoreBuffer.push, StoreBuffer.retire]
    · rw [← h.size, ← h.memory]
      exact s.arb.memory.write_byteAt _ (by omega) _
    · rw [CommittedMemory.size_write]
      exact h.size

/-- A read that the CPU answers is answered by the cache. -/
theorem Tracks.readLocally (h : Tracks script size bytes k s) (huncached : ins.uncached = false) :
    s.cpu.readLocally ins = s.cpu.cache.read (toPhys ins.vaddr) ins.size := by
  rw [ScriptedCPU.readLocally, if_neg (by rw [huncached]; exact Bool.false_ne_true), h.storeBuffer]
  rfl

theorem applyResponse_fill {cpu : ScriptedCPU} {i : Nat} (response : BusResponse) (token : Nat)
    (hget : cpu.script[i]? = some ins) (hkind : ins.kind = .read) (huncached : ins.uncached = false)
    (hbase : response.lineBase = cpu.cache.lineBase (toPhys ins.vaddr))
    (hlen : response.lineData.length = cpu.cache.lineSize) (hpos : 0 < cpu.cache.lineSize) :
    cpu.applyResponse i response token =
      ({ cpu with
          localTime := tickAdd cpu.localTime response.stall
          lastRead := some response.value
          cache := cpu.cache.fillLine response.lineBase response.lineData }, none) := by
  have hne : response.lineData ≠ [] := List.ne_nil_of_length_pos (by omega)
  simp only [ScriptedCPU.applyResponse, getD_of_getElem? hget, hkind, huncached]
  rw [if_neg (by simp), if_pos trivial, if_neg Bool.false_ne_true, if_pos hne, if_neg]
  rintro (h | h)
  · exact h hbase
  · exact h hlen

/-- The response to a read fills its line and carries its word. -/
theorem Tracks.fill (h : Tracks script size bytes k s) (hget : s.cpu.script[s.cpu.pc]? = some ins)
    (hkind : ins.kind = .read) (hram : ins.cachedRam size = true)
    (hline : Inside s.arb.memory.size (s.cpu.cache.lineBase (toPhys ins.vaddr) *
      BitVec.ofNat 32 s.cpu.cache.lineSize) s.cpu.cache.lineSize)
    {r : BusArbiter × BusResponse} (hserved : Served s (s.cpu.issueRead ins).2.op r)
    (token : Nat) :
    let cpu := ((s.cpu.issueRead ins).1.applyResponse s.cpu.pc r.2 token).1
    cpu.storeBuffer = {} ∧ cpu.cache.WellFormed ∧ cpu.cache.Coherent s.arb.memory ∧
      r.1.memory = s.arb.memory ∧ cpu.lastRead = some (flatRead s.arb.memory.byteAt ins) := by
  obtain ⟨-, huncached, hmmio, hin, hfit⟩ := cachedRam_access hram (Or.inl hkind)
  have hwf := h.wellFormed
  have hls : s.cpu.cache.lineSize % 256 = s.cpu.cache.lineSize := Nat.mod_eq_of_lt hwf.small
  -- What the bus does with the read: the word, and the line it lies in.
  have hperform : ∀ finish, s.arb.perform (s.cpu.issueRead ins).2.op finish =
      ⟨s.arb.memory, s.arb.devices, s.arb.memory.read (toPhys ins.vaddr) ins.size,
        s.cpu.cache.lineBase (toPhys ins.vaddr),
        s.arb.memory.readBlock (s.cpu.cache.lineBase (toPhys ins.vaddr) *
          BitVec.ofNat 32 s.cpu.cache.lineSize) s.cpu.cache.lineSize⟩ := by
    intro finish
    simp [BusArbiter.perform, ScriptedCPU.issueRead, hmmio, huncached, hls, hwf.pos,
      TinyCache.lineBase]
  have hbase := hserved.lineBase
  have hdata := hserved.lineData
  have hvalue := hserved.value
  have hmem := hserved.memory
  rw [hperform] at hbase hdata hvalue hmem
  have hcpu : (s.cpu.issueRead ins).1.script[s.cpu.pc]? = some ins := hget
  rw [applyResponse_fill r.2 token hcpu hkind huncached hbase
    ((congrArg List.length hdata).trans (CommittedMemory.length_readBlock _ _ _)) hwf.pos]
  -- The line that is filled is memory, so the cache stays coherent with it.
  refine ⟨h.storeBuffer, ?_, ?_, hmem, ?_⟩
  · exact hwf.fillLine _ _
  · show (s.cpu.cache.fillLine r.2.lineBase r.2.lineData).Coherent s.arb.memory
    rw [hbase, hdata]
    exact h.coherent.fill hwf hline (hwf.line_le (toPhys_lt ins.vaddr))
  · show some r.2.value = _
    rw [hvalue, flatRead, CommittedMemory.read_eq_wordOf (by rw [h.size]; exact hin)]

theorem Tracks.read (h : Tracks script size bytes k s) (hget : s.cpu.script[s.cpu.pc]? = some ins)
    (hkind : ins.kind = .read) (hram : ins.cachedRam size = true) (hreg : Regular s) :
    Tracks script size bytes (k + 1) (execute s) ∧
      (execute s).cpu.lastRead = some (flatRead bytes ins) := by
  obtain ⟨hsize, huncached, hmmio, hin, hfit⟩ := cachedRam_access hram (Or.inl hkind)
  have hstep := hreg ins hget
  rw [RegularFor, hkind] at hstep
  rw [flatRead, ← h.memory]
  cases hread : s.cpu.readLocally ins with
  | some value =>
    have hexec : execute s =
        ⟨{ s.cpu with lastRead := some value, pc := s.cpu.pc + 1 }, s.arb⟩ := by
      simp only [execute, hget, hkind, hread]
    rw [hexec]
    rw [h.readLocally huncached] at hread
    refine ⟨⟨h.script, congrArg (· + 1) h.pc, h.storeBuffer, h.wellFormed, h.coherent, rfl,
      h.size, h.localTime, h.running, h.granted, h.enqueued⟩, ?_⟩
    exact congrArg some (h.coherent.read h.wellFormed hfit hread)
  | none =>
    obtain ⟨hfits, hline⟩ := hstep hread
    have hissue : s.cpu.issue ins = s.cpu.issueRead ins := by rw [ScriptedCPU.issue, hkind]
    have hvalid : validateBusOp (s.cpu.issueRead ins).2.op = .none :=
      validateBusOp_ram (Or.inl (if_neg (by simp [hmmio]))) hsize hmmio
    have hexec : execute s = Alone.respond (s.cpu.issue ins).1 s.arb (s.cpu.issue ins).2 := by
      simp only [execute, hget, hkind, hread]
    rw [hexec]
    refine ⟨h.respond hget (by simp [hkind]) (by rw [hissue]; exact hvalid) hfits
      fun r hserved => ?_, ?_⟩
    · rw [hissue] at hserved ⊢
      obtain ⟨hbuf, hwf, hcoh, hmem, -⟩ := h.fill hget hkind hram hline hserved _
      rw [hmem]
      exact ⟨hbuf, hwf, hcoh, rfl, h.size⟩
    · rw [Fits, hissue] at hfits
      rw [hissue]
      exact (h.fill hget hkind hram hline (h.commit rfl hvalid hfits) _).2.2.2.2

/-! ### Whole runs -/

/-- One operation of the script: the byte store follows, and a read returns
what the byte store holds. -/
theorem Tracks.execute (h : Tracks script size bytes k s) (hget : script[k]? = some ins)
    (hram : ins.cachedRam size = true) (hreg : Regular s) :
    Tracks script size (flatStep size bytes ins) (k + 1) (execute s) ∧
      (ins.kind = .read → (Alone.execute s).cpu.lastRead = some (flatRead bytes ins)) := by
  have hnext : s.cpu.script[s.cpu.pc]? = some ins := by rw [h.script, h.pc, hget]
  cases hkind : ins.kind with
  | compute =>
    rw [flatStep, if_neg (by simp [hkind])]
    exact ⟨h.compute hnext hkind hreg, by simp⟩
  | barrier =>
    rw [flatStep, if_neg (by simp [hkind])]
    exact ⟨h.barrier hnext hkind hreg, by simp⟩
  | write =>
    rw [flatStep, if_pos hkind]
    exact ⟨h.write hnext hkind hram hreg, by simp⟩
  | read =>
    rw [flatStep, if_neg (by simp [hkind])]
    obtain ⟨htracks, hlast⟩ := h.read hnext hkind hram hreg
    exact ⟨htracks, fun _ => hlast⟩

theorem flatAfter_succ (hget : script[k]? = some ins) :
    flatAfter size bytes (script.take (k + 1)) =
      flatStep size (flatAfter size bytes (script.take k)) ins := by
  rw [flatAfter, List.take_add_one, hget, Option.toList_some, List.foldl_append]
  rfl

/-- A regular run stays in step with the byte store. -/
theorem Tracks.iterate {s₀ : Alone} (h : Tracks script size bytes 0 s₀)
    (hram : ∀ ins ∈ script, ins.cachedRam size = true)
    (hreg : ∀ k < script.length, Regular (Alone.execute^[k] s₀)) (hk : k ≤ script.length) :
    Tracks script size (flatAfter size bytes (script.take k)) k (Alone.execute^[k] s₀) := by
  induction k with
  | zero => exact h
  | succ k ih =>
    have hget : script[k]? = some script[k] := List.getElem?_eq_getElem hk
    rw [Function.iterate_succ_apply', flatAfter_succ hget]
    exact ((ih (by omega)).execute hget (hram _ (List.getElem_mem _)) (hreg k hk)).1

/-- **A single scripted CPU reads its own writes** in every run each of whose
operations finds a regular state; the rounds of the driver go through the
states of that run. -/
theorem readsOwnWrites_of_regular (cpuId : Int) (script : List ScriptOp) (arb : BusArbiter)
    (harb : Unused arb) (hram : ∀ ins ∈ script, ins.cachedRam arb.memory.size = true)
    (hreg : ∀ k < script.length, Regular (execute^[k] (start cpuId script arb))) :
    ReadsOwnWrites cpuId script arb ∧
      ∀ n, ∃ m, round^[n] (start cpuId script arb) = execute^[m] (start cpuId script arb) ∧
        ((round^[n] (start cpuId script arb)).cpu.done = false → n ≤ m) := by
  refine ⟨fun k ins hget hkind => ?_, rounds_eq_execute _⟩
  obtain ⟨hlt, rfl⟩ := List.getElem?_eq_some_iff.mp hget
  have htracks := (harb.tracks cpuId script).iterate hram hreg (Nat.le_of_lt hlt)
  rw [Function.iterate_succ_apply']
  exact (htracks.execute hget (hram _ (List.getElem_mem _)) (hreg k hlt)).2 hkind

/-- A read, a write inside the line it fetched, and a read of what was written. -/
theorem readsOwnWrites_of_regular_aligned :
    let script : List ScriptOp := [{ kind := .read, vaddr := 0, size := 4 },
      { kind := .write, vaddr := 4, size := 4, value := 0x11223344#32 },
      { kind := .read, vaddr := 6, size := 2 }]
    let arb : BusArbiter := { memory := .make 32 }
    ReadsOwnWrites 0 script arb ∧
      ∀ n, ∃ m, round^[n] (start 0 script arb) = execute^[m] (start 0 script arb) ∧
        ((round^[n] (start 0 script arb)).cpu.done = false → n ≤ m) := by
  refine readsOwnWrites_of_regular 0 _ { memory := .make 32 } ⟨rfl, fun _ => rfl, fun _ => rfl⟩
    (by decide) ?_
  decide

/-- The write crosses the end of the line that the first read fetched: the line
stays as it is, and the last read is answered with its zeros. -/
theorem not_readsOwnWrites_straddling_write :
    ¬ ∀ (cpuId : Int) (script : List ScriptOp) (arb : BusArbiter), Unused arb →
      (∀ ins ∈ script, ins.cachedRam arb.memory.size = true) → ReadsOwnWrites cpuId script arb := by
  intro h
  have hread := h 0 [{ kind := .read, vaddr := 0, size := 4 },
      { kind := .write, vaddr := 14, size := 4, value := 0x11223344#32 },
      { kind := .read, vaddr := 14, size := 2 }] { memory := .make 32 }
    ⟨rfl, fun _ => rfl, fun _ => rfl⟩ (by decide) 2 _ rfl rfl
  exact absurd hread (by decide)

end Alone

end Saturnis.Cpu
