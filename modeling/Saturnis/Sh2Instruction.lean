/-
Whole instructions.

An instruction takes the step that fetches it and one step for each phase that
is pending after it.  `phasesLeft` counts these phases; a step goes through
exactly one of them.

* `phasesLeft_steps` — the phases that are left after some steps;
* `takes_unique`, `takes_instructionSteps` — every instruction is done, after
  `instructionSteps` steps;
* `plain_context` — only TRAPA, RTE and exceptions touch the return context;
* `InSlot.landed` — the instruction in the delay slot of a return.
-/
import Saturnis.Sh2Phase

namespace Saturnis.Cpu

open Saturnis.Core Saturnis.Mem Saturnis.Bus

/-- The number of steps until nothing is pending. -/
def PendingKind.left : PendingKind → Nat
  | exceptionPushSr | trapaPushSr => 3
  | exceptionPushPc | trapaPushPc | rtePopPc => 2
  | rmwAndByteRead | rmwXorByteRead | rmwOrByteRead => 2
  | _ => 1

theorem PendingKind.left_pos (kind : PendingKind) : 0 < kind.left := by
  cases kind <;> decide

namespace SH2Core

variable {core : SH2Core} {arb : BusArbiter} {seq n : Nat}

def phasesLeft (core : SH2Core) : Nat :=
  match core.pendingMemOp with
  | some pending => pending.kind.left
  | none => 0

theorem phasesLeft_of_pending {pending : PendingMemOp} (h : core.pendingMemOp = some pending) :
    core.phasesLeft = pending.kind.left := by
  rw [phasesLeft, h]

theorem phasesLeft_eq_zero : core.phasesLeft = 0 ↔ core.pendingMemOp = none := by
  cases h : core.pendingMemOp with
  | none => simp [phasesLeft, h]
  | some pending =>
    have hpos := pending.kind.left_pos
    simp only [phasesLeft, h, reduceCtorEq, iff_false]
    omega

/-- A response is the end of one phase. -/
theorem phasesLeft_advance (hnone : core.pendingMemOp = none) (pending : PendingMemOp)
    (value : Word) : (core.advancePending pending value).phasesLeft + 1 = pending.kind.left := by
  have hfinish : (core.finishAccess pending value).phasesLeft = 0 :=
    phasesLeft_eq_zero.mpr ((finishAccess_frame core pending value).2.trans hnone)
  rw [advancePending]
  cases pending.kind with
  | readLong | writeLong | readWord | writeWord | readByte | writeByte | rmwWriteByte =>
    simp only [hfinish, PendingKind.left]
  | exceptionVectorRead | trapaVectorRead | rtePopSr => simp [phasesLeft, setReg, hnone, PendingKind.left]
  | _ => rfl

theorem step_keeps_vector (h : core.pendingExceptionVector = none) :
    (core.step arb seq).1.pendingExceptionVector = none := by
  have hexchange : ∀ (c : SH2Core) (op : BusOp), c.pendingExceptionVector = none →
      (c.exchange arb op).1.pendingExceptionVector = none := fun c op hc =>
    (c.applyIfetchAndStep_frame (arb.commit op).2 (arb.commit op).1.trace).2.trans hc
  cases hpending : core.pendingMemOp with
  | some pending =>
    rw [step_pending h hpending]
    exact hexchange core _ h
  | none =>
    have hquiet : core.Quiet := ⟨h, hpending⟩
    cases hcached : core.cachedInstr with
    | none =>
      rw [step_fetch hquiet hcached]
      exact hexchange core _ h
    | some instr =>
      cases hdata : dataFormOf instr with
      | some form =>
        rw [step_access hquiet hcached hdata]
        exact hexchange _ _ ((core.startAccess_frame form instr).vector.trans h)
      | none =>
        rw [step_cached hquiet hcached hdata]
        exact (core.executeInstruction_frame instr arb.trace).vector.trans h

/-- A step goes through one phase. -/
theorem phasesLeft_step (hvector : core.pendingExceptionVector = none)
    (h : core.pendingMemOp ≠ none) :
    (core.step arb seq).1.phasesLeft + 1 = core.phasesLeft := by
  obtain ⟨pending, hpending⟩ := Option.ne_none_iff_exists'.mp h
  rw [step_pending hvector hpending, phasesLeft_of_pending hpending]
  simp only [exchange]
  rw [applyIfetchAndStep_of_pending hpending]
  exact phasesLeft_advance rfl pending _

/-- The phases that are left after some of them. -/
theorem phasesLeft_steps (hvector : core.pendingExceptionVector = none)
    (hn : n ≤ core.phasesLeft) : (steps n core arb seq).1.phasesLeft + n = core.phasesLeft := by
  induction n generalizing core arb seq with
  | zero => rfl
  | succ n ih =>
    have hpending : core.pendingMemOp ≠ none := by
      intro hnone
      rw [phasesLeft_eq_zero.mpr hnone] at hn
      omega
    have hone := @phasesLeft_step core arb seq hvector hpending
    have hrest := @ih (core.step arb seq).1 (core.step arb seq).2 (seq + 1)
      (step_keeps_vector hvector) (by omega)
    rw [steps]
    omega

/-! ### The length of an instruction -/

/-- An instruction is done after `n` steps, and not before. -/
structure Takes (n : Nat) (core : SH2Core) (arb : BusArbiter) (seq : Nat) : Prop where
  pos : 0 < n
  busy : ∀ i < n, 0 < i → (steps i core arb seq).1.pendingMemOp ≠ none
  done : (steps n core arb seq).1.pendingMemOp = none

theorem takes_unique {m : Nat} (hm : Takes m core arb seq) (hn : Takes n core arb seq) : m = n := by
  rcases Nat.lt_trichotomy m n with hlt | heq | hlt
  · exact absurd hm.done (hn.busy m hlt hm.pos)
  · exact heq
  · exact absurd hn.done (hm.busy n hlt hn.pos)

/-- The step of the fetch, and one for each phase. -/
def instructionSteps (core : SH2Core) (arb : BusArbiter) (seq : Nat) : Nat :=
  (core.step arb seq).1.phasesLeft + 1

theorem takes_instructionSteps (hvector : core.pendingExceptionVector = none) :
    Takes (core.instructionSteps arb seq) core arb seq := by
  have hkeeps := @step_keeps_vector core arb seq hvector
  refine ⟨Nat.succ_pos _, fun i hi hpos => ?_, ?_⟩
  · obtain ⟨j, rfl⟩ := Nat.exists_eq_add_of_lt hpos
    rw [Nat.zero_add] at hi ⊢
    rw [instructionSteps] at hi
    have hleft := @phasesLeft_steps _ (core.step arb seq).2 (seq + 1) j hkeeps (by omega)
    rw [steps]
    intro hnone
    rw [phasesLeft_eq_zero.mpr hnone] at hleft
    omega
  · have hleft := @phasesLeft_steps _ (core.step arb seq).2 (seq + 1) _ hkeeps
      (Nat.le_refl (core.step arb seq).1.phasesLeft)
    rw [instructionSteps, steps]
    exact phasesLeft_eq_zero.mp (by omega)

/-! ### Plain instructions -/

/-- The next step belongs to an instruction other than TRAPA and RTE. -/
structure Plain (core : SH2Core) (arb : BusArbiter) : Prop where
  vector : core.pendingExceptionVector = none
  access : ∀ pending, core.pendingMemOp = some pending → pending.kind.isAccess = true
  fetch : core.pendingMemOp = none →
    opcodeOf (core.fetched arb) ≠ .trapa ∧ opcodeOf (core.fetched arb) ≠ .rte

theorem advance_context (core : SH2Core) {pending : PendingMemOp}
    (haccess : pending.kind.isAccess = true) (value : Word) :
    (core.advancePending pending value).hasExceptionReturnContext =
      core.hasExceptionReturnContext := by
  have hfinish := (finishAccess_frame core pending value).1.context
  rw [advancePending]
  cases hkind : pending.kind with
  | readLong | writeLong | readWord | writeWord | readByte | writeByte | rmwWriteByte => exact hfinish
  | rmwAndByteRead | rmwXorByteRead | rmwOrByteRead => rfl
  | _ => simp [hkind, PendingKind.isAccess] at haccess

theorem exchange_context (core : SH2Core) (arb : BusArbiter) (op : BusOp)
    (haccess : ∀ pending, core.pendingMemOp = some pending → pending.kind.isAccess = true) :
    (core.exchange arb op).1.hasExceptionReturnContext = core.hasExceptionReturnContext := by
  simp only [exchange]
  cases hpending : core.pendingMemOp with
  | some pending =>
    rw [applyIfetchAndStep_of_pending hpending]
    exact advance_context _ (haccess pending hpending) _
  | none =>
    rw [applyIfetchAndStep_of_none hpending]
    obtain ⟨icache, hfill⟩ := fillIcache_eq { core with t := tickAdd core.t (arb.commit op).2.stall }
      (arb.commit op).2 (arb.commit op).1.trace
    rw [hfill]
    exact (executeInstruction_frame _ _ _).context

/-- Only TRAPA, RTE and exceptions touch the return context. -/
theorem plain_context (h : core.Plain arb) :
    (core.step arb seq).1.hasExceptionReturnContext = core.hasExceptionReturnContext := by
  cases hpending : core.pendingMemOp with
  | some pending =>
    rw [step_pending h.vector hpending]
    exact exchange_context core arb _ h.access
  | none =>
    have hquiet : core.Quiet := ⟨h.vector, hpending⟩
    cases hcached : core.cachedInstr with
    | none =>
      rw [step_fetch hquiet hcached]
      exact exchange_context core arb _ h.access
    | some instr =>
      cases hdata : dataFormOf instr with
      | some form =>
        rw [step_access hquiet hcached hdata]
        refine (exchange_context _ arb _ fun pending hsome => ?_).trans
          (core.startAccess_frame form instr).context
        rw [← Option.some_inj.mp hsome]
        exact core.startAccess_isAccess form instr
      | none =>
        rw [step_cached hquiet hcached hdata]
        exact (core.executeInstruction_frame instr arb.trace).context

/-! ### The delay slot of a return -/

/-- The core has returned to that address, with that status. -/
structure Landed (core : SH2Core) (pc : Addr) (sr : Word) : Prop where
  pc : core.pc = pc
  sr : core.sr = sr

/-- The core is in the delay slot of a return to that address and that status. -/
structure InSlot (core : SH2Core) (pc : Addr) (sr : Word) : Prop where
  branch : core.pendingBranchTarget = some pc
  restore : core.pendingRteRestore = true
  newSr : core.pendingNewSr = sr
  vector : core.pendingExceptionVector = none

variable {pc : Addr} {sr : Word} {pending : PendingMemOp}

theorem InSlot.takeBranch (h : core.InSlot pc sr) : (core.takeBranch pc).Landed pc sr := by
  rw [takeBranch_of_restore h.restore]
  exact ⟨rfl, h.newSr⟩

theorem InSlot.execute (h : core.InSlot pc sr) (instr : Instr) (trace : TraceLog) :
    (core.executeInstruction instr trace).1.Landed pc sr := by
  have hframe := dispatch_frame { core with pendingBranchTarget := none } (opcodeOf instr) instr trace
  have hkeeps := dispatch_rteRestore { core with pendingBranchTarget := none } (opcodeOf instr) instr
    trace
  rw [executeInstruction_eq, h.branch, settle]
  -- the instruction does not touch what the return has popped
  have hlanded : (({ core with pendingBranchTarget := none }.dispatch (opcodeOf instr) instr
      trace).1.takeBranch pc).Landed pc sr := by
    rw [takeBranch_of_restore (hkeeps.trans h.restore)]
    exact ⟨rfl, hframe.newSr.trans h.newSr⟩
  exact ⟨hlanded.pc, hlanded.sr⟩

/-- The end of a data access in the slot. -/
theorem InSlot.finish (h : core.InSlot pc sr) (pending : PendingMemOp) (value : Word) :
    (core.finishAccess pending value).Landed pc sr := by
  obtain ⟨f, hf⟩ := finishAccess_eq pending value
  rw [hf, h.branch]
  have hslot : (core.withRegisters (f core.toRegisters)).InSlot pc sr :=
    ⟨h.branch, h.restore, h.newSr, h.vector⟩
  exact ⟨hslot.takeBranch.pc, hslot.takeBranch.sr⟩

/-- A data access in the slot is done, or its second half is next. -/
theorem InSlot.advance (h : core.InSlot pc sr) (haccess : pending.kind.isAccess = true)
    (value : Word) :
    (core.advancePending pending value).Landed pc sr ∧ pending.kind.left = 1 ∨
      (core.advancePending pending value).InSlot pc sr ∧ pending.kind.left = 2 ∧
        ∃ next, (core.advancePending pending value).pendingMemOp = some next ∧
          next.kind = .rmwWriteByte := by
  have hfinish := h.finish pending value
  rw [advancePending]
  cases hkind : pending.kind with
  | readLong | writeLong | readWord | writeWord | readByte | writeByte | rmwWriteByte =>
    exact Or.inl ⟨hfinish, rfl⟩
  | rmwAndByteRead | rmwXorByteRead | rmwOrByteRead =>
    exact Or.inr ⟨⟨h.branch, h.restore, h.newSr, h.vector⟩, rfl, _, rfl, rfl⟩
  | _ => simp [hkind, PendingKind.isAccess] at haccess

theorem InSlot.exchange (h : core.InSlot pc sr) (hpending : core.pendingMemOp = some pending)
    (haccess : pending.kind.isAccess = true) (arb : BusArbiter) (op : BusOp) :
    (core.exchange arb op).1.Landed pc sr ∧ pending.kind.left = 1 ∨
      (core.exchange arb op).1.InSlot pc sr ∧ pending.kind.left = 2 ∧
        ∃ next, (core.exchange arb op).1.pendingMemOp = some next ∧ next.kind = .rmwWriteByte := by
  simp only [SH2Core.exchange]
  rw [applyIfetchAndStep_of_pending hpending]
  have hslot : ({ core with
      t := tickAdd core.t (arb.commit op).2.stall, pendingMemOp := none } : SH2Core).InSlot pc sr :=
    ⟨h.branch, h.restore, h.newSr, h.vector⟩
  rcases hslot.advance haccess (arb.commit op).2.value with ⟨hlanded, hleft⟩ | ⟨hin, hleft, hnext⟩
  · exact Or.inl ⟨⟨hlanded.pc, hlanded.sr⟩, hleft⟩
  · exact Or.inr ⟨⟨hin.branch, hin.restore, hin.newSr, hin.vector⟩, hleft, hnext⟩

/-- A data access in the slot, up to its end. -/
theorem InSlot.access (h : core.InSlot pc sr) (hpending : core.pendingMemOp = some pending)
    (haccess : pending.kind.isAccess = true) (arb : BusArbiter) (seq : Nat) :
    (steps core.phasesLeft core arb seq).1.Landed pc sr := by
  have hstep : core.step arb seq = core.exchange arb (core.pendingOp seq pending) :=
    step_pending h.vector hpending
  rw [phasesLeft_of_pending hpending]
  rcases h.exchange hpending haccess arb (core.pendingOp seq pending) with
    ⟨hlanded, hone⟩ | ⟨hin, htwo, next, hnext, hkind⟩
  · rw [hone, steps, hstep]
    exact hlanded
  · -- a read-modify-write
    have hlast : next.kind.isAccess = true := by
      rw [hkind]
      rfl
    rw [htwo, steps, hstep, steps, step_pending hin.vector hnext]
    rcases hin.exchange hnext hlast _ _ with ⟨hlanded, -⟩ | ⟨-, hleft, -⟩
    · exact hlanded
    · rw [hkind] at hleft
      exact absurd hleft (by decide)

/-- Neither TRAPA nor RTE nor a transfer: nothing is left pending. -/
theorem executeInstruction_plain {instr : Instr} (htrapa : opcodeOf instr ≠ .trapa)
    (hrte : opcodeOf instr ≠ .rte) (htransfer : (opcodeOf instr).isTransfer = false)
    (trace : TraceLog) :
    (core.executeInstruction instr trace).1.pendingMemOp = core.pendingMemOp := by
  rw [executeInstruction_pendingMemOp]
  cases hop : opcodeOf instr with
  | reg op => rfl
  | branch op => rfl
  | illegal => rfl
  | trapa => exact absurd hop htrapa
  | rte => exact absurd hop hrte
  | pushSys source =>
    rw [hop] at htransfer
    exact absurd htransfer (by simp [Opcode.isTransfer])
  | popSys target =>
    rw [hop] at htransfer
    exact absurd htransfer (by simp [Opcode.isTransfer])

theorem fetch_value (h : core.InOrder arb) (hcached : core.cachedInstr = none) (seq : Nat) :
    (arb.commit (core.fetchOp seq)).2.value.setWidth 16 = core.fetched arb := by
  have hvalue := congrArg (·.value) (BusArbiter.commit_answer (h.asks (asks_fetchOp core seq)))
  change (arb.commit (core.fetchOp seq)).2.value = (arb.answer (core.fetchOp seq)).value at hvalue
  rw [fetched_of_missed hcached seq, hvalue]

/-- A fetch that misses executes what it fetches. -/
theorem step_missed (h : core.InOrder arb) (hquiet : core.Quiet) (hcached : core.cachedInstr = none)
    (seq : Nat) :
    ∃ t icache trace, (core.step arb seq).1 =
      ({ core with t := t, icache := icache }.executeInstruction (core.fetched arb) trace).1 := by
  rw [step_fetch hquiet hcached]
  simp only [SH2Core.exchange]
  rw [applyIfetchAndStep_of_none hquiet.memOp, fetch_value h hcached]
  obtain ⟨icache, hfill⟩ :=
    fillIcache_eq { core with t := tickAdd core.t (arb.commit (core.fetchOp seq)).2.stall }
      (arb.commit (core.fetchOp seq)).2 (arb.commit (core.fetchOp seq)).1.trace
  rw [hfill]
  exact ⟨_, icache, _, rfl⟩

/-- **The delay slot of a return.**  An instruction in it that is neither TRAPA
nor RTE, nor a transfer of a system register whose fetch misses, goes to the
address and the status that have been popped. -/
theorem InSlot.landed (h : core.InSlot pc sr) (hplain : core.Plain arb) (horder : core.InOrder arb)
    (hmemOp : core.pendingMemOp = none)
    (hdirect : core.cachedInstr = none → (opcodeOf (core.fetched arb)).isTransfer = false)
    (hn : Takes n core arb seq) : (steps n core arb seq).1.Landed pc sr := by
  have hquiet : core.Quiet := ⟨h.vector, hmemOp⟩
  obtain ⟨htrapa, hrte⟩ := hplain.fetch hmemOp
  obtain rfl := takes_unique hn (takes_instructionSteps h.vector)
  rw [instructionSteps, steps]
  -- an instruction that is executed at once takes one step
  have hone : ∀ c : SH2Core, (core.step arb seq).1 = c → c.pendingMemOp = none →
      c.Landed pc sr →
      (steps (core.step arb seq).1.phasesLeft (core.step arb seq).1 (core.step arb seq).2
        (seq + 1)).1.Landed pc sr := by
    intro c hstep hnone hlanded
    rw [hstep, phasesLeft_eq_zero.mpr hnone]
    exact hlanded
  cases hcached : core.cachedInstr with
  | none =>
    obtain ⟨t, icache, trace, hstep⟩ := step_missed horder hquiet hcached seq
    refine hone _ hstep ?_ ?_
    · rw [executeInstruction_plain htrapa hrte (hdirect hcached)]
      exact hmemOp
    · have hslot : ({ core with t := t, icache := icache } : SH2Core).InSlot pc sr :=
        ⟨h.branch, h.restore, h.newSr, h.vector⟩
      exact hslot.execute _ trace
  | some instr =>
    have hinstr : core.fetched arb = instr := by rw [fetched, hcached]
    rw [hinstr] at htrapa hrte
    cases hdata : dataFormOf instr with
    | none =>
      refine hone _ (congrArg Prod.fst (step_cached hquiet hcached hdata)) ?_ ?_
      · rw [executeInstruction_quiet hdata (by simp [startsSequence, htrapa, hrte])]
        exact hmemOp
      · exact h.execute instr arb.trace
    | some form =>
      -- the step is the first of the access that it leaves pending
      have hslot : (core.accessing form instr).InSlot pc sr :=
        ⟨(core.startAccess_branchTarget form instr).trans h.branch,
          (core.startAccess_rteRestore form instr).trans h.restore,
          (core.startAccess_frame form instr).newSr.trans h.newSr,
          (core.startAccess_frame form instr).vector.trans h.vector⟩
      have hend := hslot.access rfl (core.startAccess_isAccess form instr) arb seq
      have hstep : (core.accessing form instr).step arb seq = core.step arb seq := by
        rw [step_pending hslot.vector rfl, step_access hquiet hcached hdata]
      have hleft := @phasesLeft_step (core.accessing form instr) arb seq hslot.vector (by
        show some _ ≠ none
        simp)
      rw [← hleft, steps, hstep] at hend
      exact hend

end SH2Core

end Saturnis.Cpu
