/-
The clock and the instruction counter of a core.

Every instruction, and every phase of one, is retired: it adds one to the
counter and one or two ticks to the clock.  `Passed k a b` says so of `k`
retirements between two states of a core.

* `produceUntilBus_call` — a call of `produce_until_bus`, which retires its
  whole budget if it returns no operation;
* `applyIfetchAndStep_passed` — a response, which retires exactly one;
* `Passed.counted` — a clock that has not run back is still ahead of the counter,
  so the counter has not wrapped either.
-/
import Saturnis.Sh2Step

namespace Saturnis.Cpu.SH2Core

open Saturnis.Core Saturnis.Mem Saturnis.Bus

variable {core : SH2Core} {trace : TraceLog} {seq : Nat}

/-- From `a` to `b` the core has retired `k` times. -/
structure Passed (k : Nat) (a b : SH2Core) : Prop where
  clock : ∃ ticks, k ≤ ticks ∧ ticks ≤ 2 * k ∧ b.t = tickAdd a.t ticks
  executed : b.executed = tickAdd a.executed k
  cpuId : b.cpuId = a.cpuId

/-- The counter is behind the clock. -/
structure Counted (core : SH2Core) : Prop where
  clock : core.t < tickModulus
  executed : core.executed ≤ core.t

theorem Passed.refl (hclock : core.t < tickModulus) (hcount : core.executed < tickModulus) :
    Passed 0 core core :=
  ⟨⟨0, Nat.le_refl 0, Nat.le_refl 0, (Nat.mod_eq_of_lt hclock).symm⟩,
    (Nat.mod_eq_of_lt hcount).symm, rfl⟩

theorem Passed.congr {k : Nat} {a b c : SH2Core} (h : Passed k a b) (ht : c.t = b.t)
    (hexecuted : c.executed = b.executed) (hcpu : c.cpuId = b.cpuId) : Passed k a c := by
  obtain ⟨ticks, hlow, hhigh, hclock⟩ := h.clock
  exact ⟨⟨ticks, hlow, hhigh, ht.trans hclock⟩, hexecuted.trans h.executed, hcpu.trans h.cpuId⟩

theorem tickAdd_tickAdd (a b c : Nat) : tickAdd (tickAdd a b) c = tickAdd a (b + c) := by
  rw [tickAdd, tickAdd, tickAdd, Nat.mod_add_mod, Nat.add_assoc]

theorem Passed.trans {j k : Nat} {a b c : SH2Core} (h : Passed j a b) (h' : Passed k b c) :
    Passed (j + k) a c := by
  obtain ⟨ticks, hlow, hhigh, ht⟩ := h.clock
  obtain ⟨ticks', hlow', hhigh', ht'⟩ := h'.clock
  refine ⟨⟨ticks + ticks', by omega, by omega, ?_⟩, ?_, h'.cpuId.trans h.cpuId⟩
  · rw [ht', ht, tickAdd_tickAdd]
  · rw [h'.executed, h.executed, tickAdd_tickAdd]

/-- A clock that has not run back has not wrapped, and neither has the counter. -/
theorem Passed.counted {k : Nat} {a b : SH2Core} (h : Passed k a b) (ha : a.Counted)
    (hk : 2 * k < tickModulus) (hclock : a.t ≤ b.t) :
    b.Counted ∧ b.executed = a.executed + k := by
  obtain ⟨ticks, hlow, hhigh, ht⟩ := h.clock
  have hbehind := ha.executed
  have hbelow := ha.clock
  have hsum : a.t + ticks < tickModulus := by
    by_contra hwrap
    -- the clock would stand below where it started
    have hwrapped : b.t = a.t + ticks - tickModulus := by
      rw [ht, tickAdd, Nat.mod_eq_sub_mod (by omega), Nat.mod_eq_of_lt (by omega)]
    omega
  rw [tickAdd_of_lt hsum] at ht
  have hexecuted : b.executed = a.executed + k := by
    rw [h.executed, tickAdd_of_lt (by omega)]
  exact ⟨⟨by omega, by omega⟩, hexecuted⟩

/-! ### Instructions -/

theorem retire_passed {a : SH2Core} (h : core.t = a.t ∨ core.t = tickAdd a.t 1)
    (hexecuted : core.executed = a.executed) (hcpu : core.cpuId = a.cpuId) (trace : TraceLog) :
    Passed 1 a (core.retire trace).1 := by
  refine ⟨?_, congrArg (tickAdd · 1) hexecuted, hcpu⟩
  rcases h with h | h
  · exact ⟨1, by omega, by omega, congrArg (tickAdd · 1) h⟩
  · refine ⟨2, by omega, by omega, ?_⟩
    show tickAdd core.t 1 = tickAdd a.t 2
    rw [h, tickAdd_tickAdd]

theorem takeBranch_clock (core : SH2Core) (target : Addr) :
    (core.takeBranch target).t = core.t ∧ (core.takeBranch target).executed = core.executed := by
  simp only [takeBranch]
  split
  · exact ⟨rfl, rfl⟩
  · exact ⟨rfl, rfl⟩

theorem settle_clock (core : SH2Core) (slot next : Option Addr) :
    (core.settle slot next).t = core.t ∧ (core.settle slot next).executed = core.executed := by
  cases slot with
  | some target => exact takeBranch_clock core target
  | none =>
    cases next with
    | some target => exact ⟨rfl, rfl⟩
    | none => exact ⟨rfl, rfl⟩

/-- Only MUL.L takes a tick of its own. -/
theorem dispatch_clock (core : SH2Core) (op : Opcode) (instr : Instr) (trace : TraceLog) :
    ((core.dispatch op instr trace).1.t = core.t ∨
        (core.dispatch op instr trace).1.t = tickAdd core.t 1) ∧
      (core.dispatch op instr trace).1.executed = core.executed := by
  cases op with
  | reg op =>
    by_cases hmul : op = .mulL
    · exact ⟨Or.inr (if_pos hmul), rfl⟩
    · exact ⟨Or.inl (if_neg hmul), rfl⟩
  | rte =>
    rw [dispatch]
    split
    · exact ⟨Or.inl rfl, rfl⟩
    · exact ⟨Or.inl rfl, rfl⟩
  | _ => exact ⟨Or.inl rfl, rfl⟩

theorem executeInstruction_passed (core : SH2Core) (instr : Instr) (trace : TraceLog) :
    Passed 1 core (core.executeInstruction instr trace).1 := by
  obtain ⟨ht, hexecuted⟩ :=
    dispatch_clock { core with pendingBranchTarget := none } (opcodeOf instr) instr trace
  have hcpu := executeInstruction_frame core instr trace
  rw [executeInstruction_eq] at hcpu ⊢
  obtain ⟨hsettle, hsettle'⟩ := settle_clock
    ({ core with pendingBranchTarget := none }.dispatch (opcodeOf instr) instr trace).1
    core.pendingBranchTarget
    ({ core with pendingBranchTarget := none }.dispatch (opcodeOf instr) instr trace).2.1
  refine retire_passed (a := core) ?_ (hsettle'.trans hexecuted) hcpu.cpuId _
  rw [hsettle]
  exact ht

/-! ### Responses -/

theorem finishAccess_clock (core : SH2Core) (pending : PendingMemOp) (value : Word) :
    (core.finishAccess pending value).t = core.t ∧
      (core.finishAccess pending value).executed = core.executed := by
  obtain ⟨f, hf⟩ := finishAccess_eq pending value
  rw [hf]
  split
  · rename_i target _
    exact takeBranch_clock (core.withRegisters (f core.toRegisters)) target
  · exact ⟨rfl, rfl⟩

theorem advancePending_clock (core : SH2Core) (pending : PendingMemOp) (value : Word) :
    (core.advancePending pending value).t = core.t ∧
      (core.advancePending pending value).executed = core.executed := by
  rw [advancePending]
  split
  all_goals first
    | exact ⟨rfl, rfl⟩
    | exact finishAccess_clock core pending value

/-- The core once it has waited for a response. -/
def stalled (core : SH2Core) (stall : Nat) : SH2Core := { core with t := tickAdd core.t stall }

/-- A response is retired once, whatever it answers. -/
theorem applyIfetchAndStep_passed (core : SH2Core) (response : BusResponse) (trace : TraceLog) :
    Passed 1 (core.stalled response.stall) (core.applyIfetchAndStep response trace).1 := by
  cases h : core.pendingMemOp with
  | some pending =>
    rw [applyIfetchAndStep_of_pending h]
    obtain ⟨ht, hexecuted⟩ := advancePending_clock
      { core with t := tickAdd core.t response.stall, pendingMemOp := none } pending response.value
    exact retire_passed (a := core.stalled response.stall) (Or.inl ht) hexecuted
      (advancePending_frame _ _ _).1 trace
  | none =>
    rw [applyIfetchAndStep_of_none h]
    obtain ⟨icache, hfill⟩ :=
      fillIcache_eq { core with t := tickAdd core.t response.stall } response trace
    rw [hfill]
    have hpassed := executeInstruction_passed
      { core with t := tickAdd core.t response.stall, icache := icache } (response.value.setWidth 16)
      ({ core with t := tickAdd core.t response.stall }.fillIcache response trace).2
    exact ⟨hpassed.clock, hpassed.executed, hpassed.cpuId⟩

/-- A clock that a response has moved on is still ahead of the counter. -/
theorem counted_response (h : core.Counted) (response : BusResponse) (trace : TraceLog)
    (hclock : core.t < (core.applyIfetchAndStep response trace).1.t) :
    (core.applyIfetchAndStep response trace).1.Counted ∧
      (core.applyIfetchAndStep response trace).1.executed = core.executed + 1 := by
  obtain ⟨⟨ticks, -, -, ht⟩, hexecuted, -⟩ := applyIfetchAndStep_passed core response trace
  have hbehind := h.executed
  have hbelow := h.clock
  have hmodulus : (core.applyIfetchAndStep response trace).1.t < tickModulus := by
    rw [ht]
    exact tickAdd_lt _ _
  have hfit : core.executed + 1 < tickModulus := by omega
  have hone : (core.applyIfetchAndStep response trace).1.executed = core.executed + 1 :=
    hexecuted.trans (tickAdd_of_lt hfit)
  exact ⟨⟨hmodulus, by omega⟩, hone⟩

/-! ### Calls -/

/-- An operation of the core, not a barrier. -/
structure Issues (core : SH2Core) (op : BusOp) : Prop extends Asks core op where
  kind : op.kind ≠ .barrier

theorem issues_pendingOp (core : SH2Core) (seq : Nat) (pending : PendingMemOp) :
    core.Issues (core.pendingOp seq pending) := by
  refine ⟨asks_pendingOp core seq pending, ?_⟩
  show dataAccessKind pending.physAddr pending.kind.isWrite ≠ .barrier
  rw [dataAccessKind]
  split_ifs <;> decide

theorem issues_produceIfetch (core : SH2Core) (seq : Nat) : core.Issues (core.produceIfetch seq) :=
  ⟨⟨rfl, rfl⟩, by simp [produceIfetch]⟩

theorem issues_missOp (core : SH2Core) (seq : Nat) : core.Issues (core.missOp seq) :=
  ⟨⟨rfl, rfl⟩, by simp [missOp, produceIfetch]⟩

/-- What a call has done: it has retired at most its budget, and all of it if it
returns no operation. -/
structure Call (budget : Nat) (core : SH2Core)
    (after : SH2Core × TraceLog × Sh2ProduceResult) : Prop where
  passed : ∃ k ≤ budget, Passed k core after.1 ∧ (after.2.2.op = none → k = budget)
  issues : ∀ op, after.2.2.op = some op → after.1.Issues op

theorem call_of_op {after : SH2Core} {op : BusOp} {executed : Nat} (budget : Nat)
    (h : Passed 0 core after) (hissues : after.Issues op) (trace : TraceLog) :
    Call budget core (after, trace, ⟨some op, executed⟩) := by
  refine ⟨⟨0, Nat.zero_le _, h, fun hnone => absurd hnone (by simp)⟩, fun op' hop => ?_⟩
  rw [← Option.some_inj.mp hop]
  exact hissues

theorem startAccess_clock (core : SH2Core) (form : DataForm) (instr : Instr) :
    (core.startAccess form instr).1.t = core.t ∧
      (core.startAccess form instr).1.executed = core.executed := by
  cases form with
  | _ => exact ⟨rfl, rfl⟩

theorem Call.after_instruction {budget : Nat} {after : SH2Core × TraceLog × Sh2ProduceResult}
    {next : SH2Core} (hfirst : Passed 1 core next) (h : Call budget next after) :
    Call (budget + 1) core after := by
  obtain ⟨k, hk, hpassed, hall⟩ := h.passed
  refine ⟨⟨1 + k, by omega, hfirst.trans hpassed, fun hnone => ?_⟩, h.issues⟩
  have := hall hnone
  omega

theorem produceLoop_call (budget : Nat) (core : SH2Core) (seq : Nat) (trace : TraceLog)
    (executed : Nat) (hclock : core.t < tickModulus) (hcount : core.executed < tickModulus) :
    Call budget core (produceLoop budget core seq trace executed) := by
  induction budget generalizing core trace executed with
  | zero =>
    refine ⟨⟨0, Nat.le_refl 0, Passed.refl hclock hcount, fun _ => rfl⟩, fun op hop => ?_⟩
    exact absurd hop (by simp [produceLoop])
  | succ budget ih =>
    have hrefl := Passed.refl hclock hcount
    rw [produceLoop]
    split
    · -- a fetch that passes the cache by
      exact call_of_op _ hrefl (issues_produceIfetch core seq) trace
    · split
      · rename_i cached _
        simp only
        split
        · -- a data access
          rename_i form _
          obtain ⟨ht, hexecuted⟩ := startAccess_clock core form (cached.setWidth 16)
          have hcpu := (startAccess_frame core form (cached.setWidth 16)).cpuId
          have hpassed : Passed 0 core (core.accessing form (cached.setWidth 16)) :=
            hrefl.congr ht hexecuted hcpu
          exact call_of_op _ hpassed (issues_pendingOp _ seq _) trace
        · -- another instruction is executed
          have hfirst := executeInstruction_passed core (cached.setWidth 16) trace
          obtain ⟨ticks, -, -, ht⟩ := hfirst.clock
          refine Call.after_instruction hfirst (ih _ _ _ ?_ ?_)
          · rw [ht]
            exact tickAdd_lt _ _
          · rw [hfirst.executed]
            exact tickAdd_lt _ _
      · -- a fetch that misses
        exact call_of_op _ hrefl (issues_missOp core seq) trace

/-- A call retires at most its budget, and all of it if it returns no operation. -/
theorem produceUntilBus_call (core : SH2Core) (seq : Nat) (trace : TraceLog) (budget : Nat)
    (hclock : core.t < tickModulus) (hcount : core.executed < tickModulus) :
    Call budget core (core.produceUntilBus seq trace budget) := by
  have hrefl := Passed.refl hclock hcount
  cases hvector : core.pendingExceptionVector with
  | some vector =>
    rw [produce_vector hvector]
    have hpassed : Passed 0 core (core.enterException vector).1 := hrefl.congr rfl rfl rfl
    exact call_of_op _ hpassed (issues_pendingOp _ seq _) _
  | none =>
    cases hpending : core.pendingMemOp with
    | some pending =>
      rw [produce_pending hvector hpending]
      exact call_of_op _ hrefl (issues_pendingOp core seq pending) trace
    | none =>
      have hloop : core.produceUntilBus seq trace budget = produceLoop budget core seq trace 0 := by
        rw [produceUntilBus, hvector, hpending]
      rw [hloop]
      exact produceLoop_call budget core seq trace 0 hclock hcount

end Saturnis.Cpu.SH2Core
