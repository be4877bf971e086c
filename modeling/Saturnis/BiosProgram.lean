/-
What a BIOS run computes.

The two cores of a run share memory and bus, keep lines in their caches and run
ahead of each other.  As long as the image has neither data accesses nor traps
for them, none of this is to be seen: both execute the image like a processor
that has nothing else.

* `commitBatch_statesOf` — the arbiter records no states;
* `Faithful` — cores, caches and memory of a run that follows the image; kept by
  `Faithful.produce` and `Faithful.commit`;
* `bios_executes_image` — **the STATE records of the trace are those of a
  processor that executes the image**.
-/
import Saturnis.BiosFetches
import Saturnis.Sh2Processor

namespace Saturnis.Bus

open Saturnis.Core Saturnis.Mem

namespace BusArbiter

/-! ### STATE records -/

theorem executeCommit_statesOf (arb : BusArbiter) (op : BusOp) (tie : Bool) (cpu : Int) :
    (arb.executeCommit op tie).1.trace.statesOf cpu = arb.trace.statesOf cpu := by
  cases hacc : arb.accepts op with
  | true =>
    rw [executeCommit_of_accepts hacc]
    exact TraceLog.statesOf_addCommit _ _ _
  | false =>
    obtain ⟨reason, detail, heq⟩ := executeCommit_of_rejected tie hacc
    rw [heq]
    exact (TraceLog.statesOf_addCommit _ _ _).trans (TraceLog.statesOf_addFault _ _ _)

theorem validateEnqueueContract_statesOf (arb : BusArbiter) (op : BusOp) (cpu : Int) :
    (arb.validateEnqueueContract op).1.trace.statesOf cpu = arb.trace.statesOf cpu := by
  simp only [validateEnqueueContract]
  split
  · exact (TraceLog.statesOf_addCommit _ _ _).trans (TraceLog.statesOf_addFault _ _ _)
  · rfl

/-- The arbiter records no states. -/
theorem commitBatch_statesOf (arb : BusArbiter) (ops : List BusOp) (cpu : Int) :
    (arb.commitBatch ops).1.trace.statesOf cpu = arb.trace.statesOf cpu :=
  commitBatch_keeps (P := fun next => next.trace.statesOf cpu = arb.trace.statesOf cpu)
    (fun next op h => (next.validateEnqueueContract_statesOf op cpu).trans h)
    (fun next op tie h => (next.executeCommit_statesOf op tie cpu).trans h) rfl ops

theorem commit_statesOf (arb : BusArbiter) (op : BusOp) (cpu : Int) :
    (arb.commit op).1.trace.statesOf cpu = arb.trace.statesOf cpu :=
  commit_keeps (P := fun next => next.trace.statesOf cpu = arb.trace.statesOf cpu)
    (fun next op h => (next.validateEnqueueContract_statesOf op cpu).trans h)
    (fun next op tie h => (next.executeCommit_statesOf op tie cpu).trans h) rfl op

end BusArbiter

end Saturnis.Bus

namespace Saturnis.Core

open Saturnis.Core Saturnis.Mem Saturnis.Bus Saturnis.Cpu

/-! ### A core and its own records -/

/-- What is said of a core and of its own STATE records only. -/
structure Local (P : Fin 2 → SH2Core → TraceLog → Prop) : Prop where
  cpuId : ∀ {c core log}, P c core log → core.cpuId = c.val
  congr : ∀ {c core log log'}, P c core log → log'.statesOf c.val = log.statesOf c.val → P c core log'

theorem Local.ne {P : Fin 2 → SH2Core → TraceLog → Prop} (hP : Local P) {c d : Fin 2}
    {core : SH2Core} {log : TraceLog} (h : P c core log) (hne : d ≠ c) : core.cpuId ≠ d.val := by
  rw [hP.cpuId h]
  exact fun heq => hne (Fin.ext (by exact_mod_cast heq.symm))

namespace BiosRun

variable {s : BiosRun} {c : Fin 2} {P : Fin 2 → SH2Core → TraceLog → Prop}

/-- A core that produces says nothing about the other. -/
theorem produce_local (hP : Local P) (h : ∀ d, P d (s.core d) s.arb.trace)
    (hself : s.p c = none → P c ((s.core c).produceUntilBus s.seq s.arb.trace 16).1
      ((s.core c).produceUntilBus s.seq s.arb.trace 16).2.1) (d : Fin 2) :
    P d ((s.produce c).core d) (s.produce c).arb.trace := by
  cases hp : s.p c with
  | some op =>
    rw [produce_of_waits hp]
    exact h d
  | none =>
    rw [BiosRun.produce, hp]
    by_cases hdc : d = c
    · rw [hdc]
      simp only [Function.update_self]
      exact hself hp
    · simp only [Function.update_of_ne hdc]
      exact hP.congr (h d) (SH2Core.produceUntilBus_statesOf (hP.ne (h c) hdc) _ _ _)

/-- So does one that takes a response. -/
theorem respondAll_local (hP : Local P) (answers : List (Fin 2 × CommitResult)) {s : BiosRun}
    (hnodup : (answers.map (·.1)).Nodup) (h : ∀ c, P c (s.core c) s.arb.trace)
    (hanswers : ∀ a ∈ answers, ∀ log, P a.1 (s.core a.1) log →
      P a.1 ((s.core a.1).applyIfetchAndStep a.2.response log).1
        ((s.core a.1).applyIfetchAndStep a.2.response log).2) (c : Fin 2) :
    P c ((s.respondAll answers).core c) (s.respondAll answers).arb.trace := by
  induction answers generalizing s with
  | nil => exact h c
  | cons a answers ih =>
    rw [List.map_cons, List.nodup_cons] at hnodup
    refine ih hnodup.2 (fun d => ?_) fun b hb log hlog => ?_
    · change P d (Function.update s.core a.1 _ d) _
      by_cases hda : d = a.1
      · rw [hda, Function.update_self]
        exact hanswers a List.mem_cons_self _ (h a.1)
      · rw [Function.update_of_ne hda]
        exact hP.congr (h d) (SH2Core.applyIfetchAndStep_statesOf (hP.ne (h a.1) hda) _ _)
    · have hba : b.1 ≠ a.1 := fun heq => hnodup.1 (heq ▸ List.mem_map_of_mem hb)
      rw [(s.respond_of_ne hba a.2).core] at hlog ⊢
      exact hanswers b (List.mem_cons_of_mem a hb) log hlog

theorem prepare_local (hP : Local P) (h : ∀ d, P d (s.core d) s.arb.trace)
    (hproduce : ∀ (core : SH2Core) (c : Fin 2) (seq : Nat) (log : TraceLog), P c core log →
      P c (core.produceUntilBus seq log 16).1 (core.produceUntilBus seq log 16).2.1) (d : Fin 2) :
    P d (s.prepare.core d) s.prepare.arb.trace := by
  have hfirst := produce_local (c := 0) hP h fun _ => hproduce _ _ _ _ (h 0)
  have hsecond := produce_local (c := 1) hP hfirst fun _ => hproduce _ _ _ _ (hfirst 1)
  rw [prepare, BusArbiter.core_trace ((s.produce 0).produce 1).publish_core]
  exact hsecond d

theorem commit_local (hP : Local P) (h : ∀ d, P d (s.core d) s.arb.trace)
    (hanswers : ∀ a ∈ s.answered, ∀ log, P a.1 (s.core a.1) log →
      P a.1 ((s.core a.1).applyIfetchAndStep a.2.response log).1
        ((s.core a.1).applyIfetchAndStep a.2.response log).2) (d : Fin 2) :
    P d (s.commit.core d) s.commit.arb.trace := by
  rw [commit_eq]
  exact respondAll_local hP (s := { s with arb := (s.arb.commitBatch (s.fetches.map (·.2))).1 })
    s.answered s.answered_nodup
    (fun d => hP.congr (h d) (BusArbiter.commitBatch_statesOf _ _ _)) hanswers d

/-- Nor does the DMA probe. -/
theorem probe_statesOf (s : BiosRun) (cpu : Int) : s.probe.statesOf cpu = s.arb.trace.statesOf cpu :=
  (BusArbiter.commit_statesOf _ _ _).trans (BusArbiter.commit_statesOf _ _ _)

/-! ### How much a core has retired -/

theorem counts_local : Local fun c core log => core.cpuId = c.val ∧ core.Counts log where
  cpuId := fun h => h.1
  congr := fun {c core log log'} h hstates =>
    ⟨h.1, h.2.congr rfl rfl (by rw [h.1]; exact hstates)⟩

/-- The counter of a core is the number of its STATE records. -/
theorem counts_after (image : List Byte) (maxSteps n : Nat) (c : Fin 2) :
    ((after image maxSteps n).core c).cpuId = c.val ∧
      ((after image maxSteps n).core c).Counts (after image maxSteps n).arb.trace := by
  induction n generalizing c with
  | zero => exact ⟨rfl, rfl⟩
  | succ n ih =>
    have hprepare := prepare_local counts_local ih fun core c seq log h =>
      ⟨(core.produceUntilBus_cpuId seq log 16).trans h.1, h.2.produce seq 16⟩
    by_cases hlt : (after image maxSteps n).executed < maxSteps
    · rw [after_succ, iterate_of_lt hlt]
      split
      · exact hprepare c
      · exact commit_local counts_local hprepare (fun a _ log h =>
          ⟨(SH2Core.applyIfetchAndStep_frame _ _ _).1.trans h.1, h.2.apply a.2.response⟩) c
    · rw [after_succ, iterate, if_neg hlt]
      exact ih c

end BiosRun

/-! ### The image as a program -/

/-- The instruction at an address of the image. -/
def imageWord (image : List Byte) (pc : Addr) : Instr :=
  (wordOf (bytesFrom (imageByte image) (toPhys pc) 2)).setWidth 16

/-- The processor after a reset. -/
def resetProcessor : Processor :=
  { registers := { sr := 0xF0#32, r := Function.update (fun _ => 0) 15 0x0001FFF0#32 } }

/-- The processor after `k` instructions of the image. -/
abbrev imageRun (image : List Byte) (k : Nat) : Processor :=
  Processor.run (imageWord image) resetProcessor k

theorem imageRun_succ (image : List Byte) (k : Nat) :
    imageRun image (k + 1) =
      (imageRun image k).execute (imageWord image (imageRun image k).registers.pc) := rfl

namespace BiosRun

variable {s : BiosRun} {c : Fin 2} {image : List Byte} {maxSteps : Nat}

theorem follows_local {program : Addr → Instr} {first : Processor} :
    Local fun c core log => core.cpuId = c.val ∧ SH2Core.Follows program first core log where
  cpuId := fun h => h.1
  congr := fun {c core log log'} h hstates => ⟨h.1, h.2.congr (by rw [h.1]; exact hstates)⟩

/-- Both cores follow the image, which is what memory holds and what the caches
have lines of. -/
structure Faithful (image : List Byte) (s : BiosRun) : Prop where
  follows : ∀ c, SH2Core.Follows (imageWord image) resetProcessor (s.core c) s.arb.trace
  waits : ∀ c, ∀ op ∈ s.p c, (s.core c).Fetches op
  recorded : ∀ c, s.arb.RecordedUntil c.castSucc (s.core c).t
  commits : ∀ w ∈ s.arb.trace.commits, w.op.kind = .iFetch
  bytes : ∀ a, s.arb.memory.byteAt a = imageByte image a
  fetched : s.Fetched

theorem faithful_start (hlen : image.length ≤ 2 ^ 32) : (start image).Faithful image where
  follows := fun _ => ⟨⟨⟨rfl, rfl⟩, rfl, rfl⟩, rfl, rfl⟩
  waits := fun _ op hop => absurd hop (by simp [start])
  recorded := fun _ hseen => absurd hseen (by simp [start])
  commits := fun w hw => absurd hw List.not_mem_nil
  bytes := fun a => loadImage_byteAt image hlen a
  fetched := fetched_start image

/-- What a cache answers is a word of the image. -/
theorem Faithful.reads (h : s.Faithful image) (c : Fin 2) :
    SH2Core.Reads (imageWord image) (s.core c).icache := by
  intro pc word hread
  have hphys := toPhys_lt pc
  have hword := (h.fetched.coherent c).read (h.fetched.wellFormed c) (by omega) hread
  rw [funext h.bytes] at hword
  rw [hword]
  rfl

/-- So is what memory answers. -/
theorem Faithful.read (h : s.Faithful image) {pc : Addr} (heven : (toPhys pc).toNat % 2 = 0) :
    (s.arb.memory.read (toPhys pc) 2).setWidth 16 = imageWord image pc := by
  have hphys := toPhys_lt pc
  rw [← read_of_line h.fetched.size (by omega) hphys, funext h.bytes]
  rfl

/-! ### Producing -/

theorem Faithful.produce (h : s.Faithful image) (hs : s.Sound) (c : Fin 2)
    (hfit : (s.core c).executed + 16 < tickModulus)
    (hclock : (s.core c).t ≤ ((s.produce c).core c).t)
    (hplain : ∀ k ≤ ((s.produce c).core c).executed, (imageRun image k).Plain (imageWord image)) :
    (s.produce c).Faithful image := by
  cases hp : s.p c with
  | some op =>
    rw [produce_of_waits hp]
    exact h
  | none =>
    obtain ⟨hhardware, hcommits⟩ := s.produce_arb c
    have hmemory := BusArbiter.hardware_memory hhardware
    have hfetched := h.fetched.produce c
    have hloop : (s.core c).produceUntilBus s.seq s.arb.trace 16 =
        SH2Core.produceLoop 16 (s.core c) s.seq s.arb.trace 0 := by
      rw [SH2Core.produceUntilBus, (h.follows c).bare.vector, (h.follows c).bare.memOp]
    have hcore : (s.produce c).core =
        Function.update s.core c ((s.core c).produceUntilBus s.seq s.arb.trace 16).1 := by
      rw [BiosRun.produce, hp]
    have hwaits : (s.produce c).p =
        Function.update s.p c ((s.core c).produceUntilBus s.seq s.arb.trace 16).2.2.op := by
      rw [BiosRun.produce, hp]
    rw [hcore, Function.update_self] at hclock hplain
    obtain ⟨hnext, hfetches⟩ := SH2Core.produceLoop_follows 16 (s.core c) s.seq s.arb.trace 0
      (h.follows c) (h.reads c) (hs.counted c).clock hfit (by rw [← hloop]; exact hplain)
    rw [← hloop] at hnext hfetches
    have hlocal := produce_local (c := c) follows_local (fun d => ⟨hs.cpuId d, h.follows d⟩)
      fun _ => ⟨(SH2Core.produceUntilBus_cpuId _ _ _ _).trans (hs.cpuId c), hnext⟩
    refine ⟨fun d => (hlocal d).2, fun d => ?_, fun d => ?_, ?_, ?_, hfetched⟩
    · rw [hcore, hwaits]
      by_cases hdc : d = c
      · rw [hdc, Function.update_self, Function.update_self]
        exact hfetches
      · rw [Function.update_of_ne hdc, Function.update_of_ne hdc]
        exact h.waits d
    · have hrecorded := BusArbiter.hardware_recorded hhardware _ _ (h.recorded d)
      refine hrecorded.mono ?_
      rw [hcore]
      by_cases hdc : d = c
      · rw [hdc, Function.update_self]
        exact hclock
      · exact Nat.le_of_eq (by rw [Function.update_of_ne hdc])
    · rw [hcommits]
      exact h.commits
    · rw [hmemory]
      exact h.bytes

theorem Faithful.publish (h : s.Faithful image) (hfetched : s.publish.Fetched) :
    s.publish.Faithful image := by
  have hcore := s.publish_core
  have htrace := BusArbiter.core_trace hcore
  refine ⟨fun c => ?_, h.waits, fun c => (h.recorded c).congr hcore, ?_, ?_, hfetched⟩
  · rw [htrace]
    exact h.follows c
  · rw [htrace]
    exact h.commits
  · rw [BusArbiter.core_memory hcore]
    exact h.bytes

/-! ### Answers -/

theorem Faithful.commit (h : s.Faithful image) (hs : s.Sound)
    (hfit : ∀ c, (s.core c).executed + 1 < tickModulus)
    (hclock : ∀ c, s.commit.p c ≠ s.p c → (s.core c).t < (s.commit.core c).t)
    (hplain : ∀ c, (imageRun image (s.core c).executed).Plain (imageWord image)) :
    s.commit.Faithful image := by
  have hops : ∀ op ∈ s.fetches.map (·.2), ∃ c, s.p c = some op := by
    intro op hop
    obtain ⟨x, hx, rfl⟩ := List.mem_map.mp hop
    exact ⟨x.1, mem_fetches.mp hx⟩
  have hfetch : ∀ op ∈ s.fetches.map (·.2), FetchesRam op := by
    intro op hop
    obtain ⟨c, hp⟩ := hops op hop
    obtain ⟨hkind, hphys, hsize⟩ := h.waits c op hp
    obtain ⟨heven, hram, -, -⟩ := hplain c
    rw [(h.follows c).pc, ← hphys] at heven hram
    exact ⟨hkind, hram, heven, hsize⟩
  have hrecorded : ∀ op ∈ s.fetches.map (·.2),
      s.arb.RecordedUntil (producerSlot op) op.reqTime := by
    intro op hop
    obtain ⟨c, hp⟩ := hops op hop
    rw [hs.slot hp, (hs.issues c op hp).reqTime]
    exact h.recorded c
  obtain ⟨hmemory, hvalues, hrecords⟩ :=
    BusArbiter.commitBatch_fetches hs.ready.clear.shouldHalt hs.slots_nodup hfetch hrecorded
  obtain ⟨hhardware, -⟩ := s.commit_arb
  have hcommits : ∀ w ∈ s.commit.arb.trace.commits, w.op.kind = .iFetch := by
    intro w hw
    rcases s.commit_records w hw with hw | ⟨c, hp⟩
    · exact h.commits w hw
    · exact (h.waits c w.op hp).kind
  have hanswers : ∀ a ∈ s.answered,
      a.2.response.value.setWidth 16 = imageWord image (s.core a.1).pc := by
    intro a ha
    have hp := mem_answered ha
    obtain ⟨heven, -⟩ := hplain a.1
    rw [(h.follows a.1).pc] at heven
    obtain ⟨r, hr, rfl⟩ := List.mem_map.mp ha
    rw [(hvalues r hr).value, (h.waits _ _ hp).phys]
    exact h.read heven
  refine ⟨fun c => ?_, fun c op hop => ?_, fun c => ?_, hcommits, fun a => ?_,
    h.fetched.commit (codeKept_of_fetches hcommits)⟩
  · refine (commit_local follows_local (fun d => ⟨hs.cpuId d, h.follows d⟩)
      (fun a ha log hlog => ⟨?_, ?_⟩) c).2
    · exact (SH2Core.applyIfetchAndStep_frame _ _ _).1.trans hlog.1
    · exact hlog.2.respond (hplain a.1) a.2.response (hanswers a ha) (hfit a.1)
  · rcases s.commit_core c with ⟨x, hx, rfl, htook⟩ | hsame
    · rw [htook.p] at hop
      exact absurd hop (by simp)
    · rw [hsame.p] at hop
      rw [hsame.core]
      exact h.waits c op hop
  · -- the clock of a core that is answered goes on, that of another stays
    have hle : (s.core c).t ≤ (s.commit.core c).t := by
      rcases s.commit_core c with ⟨x, hx, rfl, htook⟩ | hsame
      · exact Nat.le_of_lt (hclock x.1 (by rw [htook.p, mem_answered hx]; simp))
      · exact Nat.le_of_eq (by rw [hsame.core])
    have hlast := hrecords c.castSucc (s.core c).t (h.recorded c) fun op hop hslot => by
      obtain ⟨d, hp⟩ := hops op hop
      rw [hs.slot hp] at hslot
      exact Nat.le_of_eq (by rw [(hs.issues d op hp).reqTime, Fin.castSucc_inj.mp hslot])
    have hhard := BusArbiter.hardware_recorded hhardware
    exact (hhard _ _ hlast).mono hle
  · rw [BusArbiter.hardware_memory hhardware, hmemory]
    exact h.bytes a

/-! ### Iterations -/

/-- The instructions that a core has retired stay retired. -/
theorem executed_le (hs : s.Sound) (hticks : s.TicksBelow) (maxSteps : Nat) (c : Fin 2) :
    (s.core c).executed ≤ ((iterate maxSteps s).1.core c).executed := by
  by_cases hlt : s.executed < maxSteps
  · obtain ⟨hprepare, hruns⟩ := hs.prepare hticks.produce
    obtain ⟨-, hkept, -⟩ := hprepare.commit hticks.respond
    rw [iterate_of_lt hlt]
    split
    · exact (hruns c).executed
    · exact Nat.le_trans (hruns c).executed (hkept c)
  · exact Nat.le_of_eq (by rw [iterate, if_neg hlt])

theorem Faithful.prepare (h : s.Faithful image) (hs : s.Sound)
    (hfit : ∀ c, (s.core c).executed + 16 < tickModulus)
    (hclock : ∀ c, (s.core c).t ≤ (s.prepare.core c).t)
    (hplain : ∀ c, ∀ k ≤ (s.prepare.core c).executed,
      (imageRun image k).Plain (imageWord image)) : s.prepare.Faithful image := by
  have hother := (s.produce 0).produce_of_ne (show (0 : Fin 2) ≠ 1 by decide)
  have hother' := s.produce_of_ne (show (1 : Fin 2) ≠ 0 by decide)
  have hcore : s.prepare.core 0 = (s.produce 0).core 0 := hother.1
  have hclock₀ := hclock 0
  have hplain₀ := hplain 0
  rw [hcore] at hclock₀ hplain₀
  have hfirst := h.produce hs 0 (hfit 0) hclock₀ hplain₀
  have hsound := (hs.produce 0 hclock₀).1
  have hclock₁ : ((s.produce 0).core 1).t ≤ (((s.produce 0).produce 1).core 1).t := by
    rw [hother'.1]
    exact hclock 1
  have hfit₁ : ((s.produce 0).core 1).executed + 16 < tickModulus := by
    rw [hother'.1]
    exact hfit 1
  exact (hfirst.produce hsound 1 hfit₁ hclock₁ (hplain 1)).publish h.fetched.prepare

/-- An iteration follows the image as far as it goes. -/
theorem Faithful.iterate (h : s.Faithful image) (hs : s.Sound) {bound : Nat}
    (hwithin : s.Within bound) (hfit : bound + 64 < tickModulus) (maxSteps : Nat)
    (hplain : ∀ c, ∀ k ≤ ((iterate maxSteps s).1.core c).executed,
      (imageRun image k).Plain (imageWord image)) : (iterate maxSteps s).1.Faithful image := by
  by_cases hlt : s.executed < maxSteps
  · obtain ⟨hticks, hprepared, -⟩ := hs.ticksBelow hwithin hfit
    obtain ⟨hprepare, hruns⟩ := hs.prepare hticks.produce
    obtain ⟨-, hkept, -⟩ := hprepare.commit hticks.respond
    have hbefore : ∀ c, (s.core c).executed + 16 < tickModulus := fun c => by
      have := (hs.counted c).executed
      have := hwithin.clock c
      omega
    rw [iterate_of_lt hlt] at hplain ⊢
    split at hplain
    · rename_i hempty
      rw [if_pos hempty]
      exact h.prepare hs hbefore hticks.produce hplain
    · rename_i hsome
      rw [if_neg hsome]
      have hready := h.prepare hs hbefore hticks.produce fun c k hk =>
        hplain c k (Nat.le_trans hk (hkept c))
      refine hready.commit hprepare (fun c => ?_) hticks.respond fun c => hplain c _ (hkept c)
      have := (hprepare.counted c).executed
      have := hprepared.clock c
      omega
  · rw [BiosRun.iterate, if_neg hlt]
    exact h

/-! ### Whole runs -/

/-- Up to the iteration that ends the loop, the run follows the image. -/
theorem faithful_after (hlen : image.length ≤ 2 ^ 32) (hmax : maxSteps ≤ 2 ^ 56) (n : Nat)
    (hcont : ∀ m < n, (iterate maxSteps (after image maxSteps m)).2 = false)
    (hplain : ∀ c, ∀ k ≤ ((after image maxSteps (n + 1)).core c).executed,
      (imageRun image k).Plain (imageWord image)) :
    (after image maxSteps (n + 1)).Faithful image := by
  induction n with
  | zero =>
    rw [after_succ] at hplain ⊢
    exact (faithful_start hlen).iterate (sound_start image)
      ⟨fun _ => Nat.le_refl 0, Nat.le_refl 0⟩ (by decide) maxSteps hplain
  | succ n ih =>
    have hmodulus : tickModulus = 2 ^ 64 := rfl
    obtain ⟨hsound, hwithin, -, hle⟩ := within_after hmax (n + 1) hcont
    obtain ⟨hticks, -⟩ := hsound.ticksBelow hwithin (by omega)
    rw [after_succ] at hplain ⊢
    have hbefore := ih (fun m hm => hcont m (by omega)) fun c k hk =>
      hplain c k (Nat.le_trans hk (executed_le hsound hticks maxSteps c))
    exact hbefore.iterate hsound hwithin (by omega) maxSteps hplain

end BiosRun

/-- **A BIOS run executes its image.**  If the image has neither data accesses nor
traps on the way, then the STATE records of both CPUs are, one after the other,
the registers of a processor that executes the image and nothing else: neither
the caches nor the bus nor the other CPU is to be seen in them. -/
theorem bios_executes_image (image : List Byte) (hlen : image.length ≤ 2 ^ 32)
    (fuel maxSteps : Nat) (hmax : maxSteps ≤ 2 ^ 56) (log : TraceLog)
    (hrun : runBiosTrace fuel image maxSteps = some log)
    (hplain : ∀ cpu : Fin 2, ∀ k ≤ (log.statesOf cpu.val).length,
      (imageRun image k).Plain (imageWord image)) :
    ∀ cpu : Fin 2, (log.statesOf cpu.val).map CpuSnapshot.shown =
      (List.range (log.statesOf cpu.val).length).map fun k => (imageRun image (k + 1)).shown := by
  rw [runBiosTrace, Option.map_eq_some_iff] at hrun
  obtain ⟨final, hloop, rfl⟩ := hrun
  obtain ⟨n, -, -, hcont, rfl⟩ := Loop.run_eq_some_iff.mp hloop
  change ∀ cpu : Fin 2, ∀ k ≤ ((BiosRun.after image maxSteps (n + 1)).probe.statesOf _).length, _
    at hplain
  change ∀ cpu : Fin 2, ((BiosRun.after image maxSteps (n + 1)).probe.statesOf _).map _ =
    (List.range ((BiosRun.after image maxSteps (n + 1)).probe.statesOf _).length).map _
  simp only [BiosRun.probe_statesOf] at hplain ⊢
  have hcounts := BiosRun.counts_after image maxSteps (n + 1)
  -- the counters are not above the numbers of records
  have hfaithful := BiosRun.faithful_after hlen hmax n hcont fun c k hk => by
    obtain ⟨hcpu, hexecuted⟩ := hcounts c
    rw [SH2Core.Counts, hcpu] at hexecuted
    exact hplain c k (Nat.le_trans hk (hexecuted.trans_le (Nat.mod_le _ _)))
  intro cpu
  have hstates := (hfaithful.follows cpu).states
  rw [(hcounts cpu).1] at hstates
  have hlength := congrArg List.length hstates
  rw [List.length_map, List.length_map, List.length_range] at hlength
  rw [hstates, hlength]

/-- A `BRA` to itself with a `NOP` in its slot. -/
theorem selfLoop_run (k : Nat) :
    imageRun [0xAF, 0xFE, 0x00, 0x09] k = resetProcessor ∨
      imageRun [0xAF, 0xFE, 0x00, 0x09] k =
        ⟨{ resetProcessor.registers with pc := 2 }, some 0⟩ := by
  have hbranch : imageWord [0xAF, 0xFE, 0x00, 0x09] 0 = 0xAFFE#16 := by decide
  have hslot : imageWord [0xAF, 0xFE, 0x00, 0x09] 2 = 0x0009#16 := by decide
  induction k with
  | zero => exact Or.inl rfl
  | succ k ih =>
    rw [imageRun_succ]
    rcases ih with h | h
    · rw [h]
      change resetProcessor.execute (imageWord _ 0) = _ ∨ resetProcessor.execute (imageWord _ 0) = _
      rw [hbranch]
      exact Or.inr rfl
    · rw [h]
      change Processor.execute _ (imageWord _ 2) = _ ∨ Processor.execute _ (imageWord _ 2) = _
      rw [hslot]
      exact Or.inl rfl

theorem bios_executes_image_loop :
    ∃ fuel log, runBiosTrace fuel [0xAF, 0xFE, 0x00, 0x09] 1000 = some log ∧
      ∀ cpu : Fin 2, (log.statesOf cpu.val).map CpuSnapshot.shown =
        (List.range (log.statesOf cpu.val).length).map fun k =>
          (imageRun [0xAF, 0xFE, 0x00, 0x09] (k + 1)).shown := by
  obtain ⟨fuel, log, hrun⟩ := @BiosRun.exists_trace [0xAF, 0xFE, 0x00, 0x09] 1000
    fun _ h => BiosRun.ticksBelow_of_le (by decide) h
  refine ⟨fuel, log, hrun, bios_executes_image _ (by decide) fuel 1000 (by decide) log hrun
    fun _ k _ => ?_⟩
  rcases selfLoop_run k with h | h
  · rw [h]
    decide
  · rw [h]
    decide

end Saturnis.Core
