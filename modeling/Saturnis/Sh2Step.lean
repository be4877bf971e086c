/-
One step of the core on its arbiter.

A step either executes a cached instruction without the bus, or makes one
exchange: it commits an operation and applies the response (`exchange`).

* `step_vector`, `step_pending`, `step_access`, `step_cached`, `step_fetch` —
  the five kinds of step;
* `inOrder_step` — the operations of a core are in request order as long as its
  clock does not run back.
-/
import Saturnis.BusAnswer
import Saturnis.Sh2Execute

namespace Saturnis.Cpu.SH2Core

open Saturnis.Core Saturnis.Mem Saturnis.Bus

variable {core : SH2Core} {arb : BusArbiter} {seq : Nat}

/-- The operation of a fetch that the cache does not answer. -/
def fetchOp (core : SH2Core) (seq : Nat) : BusOp :=
  if core.uncachedFetch then core.produceIfetch seq else core.missOp seq

/-- Commits an operation and applies the response. -/
def exchange (core : SH2Core) (arb : BusArbiter) (op : BusOp) : SH2Core × BusArbiter :=
  let (arb, response) := arb.commit op
  let (core, trace) := core.applyIfetchAndStep response arb.trace
  (core, { arb with trace })

/-- The core waits for an instruction. -/
structure Quiet (core : SH2Core) : Prop where
  vector : core.pendingExceptionVector = none
  memOp : core.pendingMemOp = none

/-- Nothing is pending: neither an operation nor a branch. -/
structure Boundary (core : SH2Core) : Prop extends Quiet core where
  branch : core.pendingBranchTarget = none
  restore : core.pendingRteRestore = false

/-- The core with its data access pending. -/
def accessing (core : SH2Core) (form : DataForm) (instr : Instr) : SH2Core :=
  { (core.startAccess form instr).1 with pendingMemOp := some (core.startAccess form instr).2 }

/-! ### The kinds of step -/

theorem produce_vector {vector : Word} (h : core.pendingExceptionVector = some vector)
    (trace : TraceLog) (budget : Nat) :
    core.produceUntilBus seq trace budget = ((core.enterException vector).1,
      trace.addFault (core.fault vector "EXCEPTION_ENTRY"),
      ⟨some ((core.enterException vector).1.pendingOp seq (core.enterException vector).2), 0⟩) := by
  rw [produceUntilBus, h]

theorem produce_pending {pending : PendingMemOp} (hvector : core.pendingExceptionVector = none)
    (hpending : core.pendingMemOp = some pending) (trace : TraceLog) (budget : Nat) :
    core.produceUntilBus seq trace budget =
      (core, trace, ⟨some (core.pendingOp seq pending), 0⟩) := by
  rw [produceUntilBus, hvector, hpending]

theorem cachedInstr_eq_some {instr : Instr} (h : core.cachedInstr = some instr) :
    core.uncachedFetch = false ∧
      ∃ cached, core.icache.read (toPhys core.pc) 2 = some cached ∧ cached.setWidth 16 = instr := by
  rw [cachedInstr] at h
  split at h
  · exact absurd h (by simp)
  · rename_i hcached
    exact ⟨by simpa using hcached, Option.map_eq_some_iff.mp h⟩

theorem produce_access {form : DataForm} {instr : Instr} (hquiet : core.Quiet)
    (hcached : core.cachedInstr = some instr) (hdata : dataFormOf instr = some form)
    (trace : TraceLog) :
    core.produceUntilBus seq trace 1 = (core.accessing form instr, trace,
      ⟨some ((core.accessing form instr).pendingOp seq (core.startAccess form instr).2), 0⟩) := by
  obtain ⟨hfetch, cached, hread, rfl⟩ := cachedInstr_eq_some hcached
  rw [produceUntilBus, hquiet.vector, hquiet.memOp]
  simp only [produceLoop]
  rw [if_neg (by simp [hfetch]), hread]
  simp only [hdata]
  rfl

theorem produce_cached {instr : Instr} (hquiet : core.Quiet)
    (hcached : core.cachedInstr = some instr) (hdata : dataFormOf instr = none) (trace : TraceLog) :
    core.produceUntilBus seq trace 1 = ((core.executeInstruction instr trace).1,
      (core.executeInstruction instr trace).2, ⟨none, 1⟩) := by
  obtain ⟨hfetch, cached, hread, rfl⟩ := cachedInstr_eq_some hcached
  rw [produceUntilBus, hquiet.vector, hquiet.memOp]
  simp only [produceLoop]
  rw [if_neg (by simp [hfetch]), hread]
  simp only [hdata]

theorem produce_fetch (hquiet : core.Quiet) (hcached : core.cachedInstr = none)
    (trace : TraceLog) :
    core.produceUntilBus seq trace 1 = (core, trace, ⟨some (core.fetchOp seq), 0⟩) := by
  rw [produceUntilBus, hquiet.vector, hquiet.memOp]
  simp only [produceLoop]
  rw [cachedInstr] at hcached
  rw [fetchOp]
  split at hcached
  · rename_i huncached
    rw [if_pos huncached, if_pos huncached]
  · rename_i huncached
    rw [Option.map_eq_none_iff] at hcached
    rw [if_neg huncached, if_neg huncached, hcached]

theorem step_vector {vector : Word} (h : core.pendingExceptionVector = some vector) :
    core.step arb seq = (core.enterException vector).1.exchange
      { arb with trace := arb.trace.addFault (core.fault vector "EXCEPTION_ENTRY") }
      ((core.enterException vector).1.pendingOp seq (core.enterException vector).2) := by
  rw [step, produce_vector h]
  rfl

theorem step_pending {pending : PendingMemOp} (hvector : core.pendingExceptionVector = none)
    (hpending : core.pendingMemOp = some pending) :
    core.step arb seq = core.exchange arb (core.pendingOp seq pending) := by
  rw [step, produce_pending hvector hpending]
  rfl

theorem step_access {form : DataForm} {instr : Instr} (hquiet : core.Quiet)
    (hcached : core.cachedInstr = some instr) (hdata : dataFormOf instr = some form) :
    core.step arb seq = (core.accessing form instr).exchange arb
      ((core.accessing form instr).pendingOp seq (core.startAccess form instr).2) := by
  rw [step, produce_access hquiet hcached hdata]
  rfl

theorem step_cached {instr : Instr} (hquiet : core.Quiet)
    (hcached : core.cachedInstr = some instr) (hdata : dataFormOf instr = none) :
    core.step arb seq = ((core.executeInstruction instr arb.trace).1,
      { arb with trace := (core.executeInstruction instr arb.trace).2 }) := by
  rw [step, produce_cached hquiet hcached hdata]

theorem step_fetch (hquiet : core.Quiet) (hcached : core.cachedInstr = none) :
    core.step arb seq = core.exchange arb (core.fetchOp seq) := by
  rw [step, produce_fetch hquiet hcached]
  rfl

/-! ### Responses -/

/-- The core with other registers. -/
def withRegisters (core : SH2Core) (x : Registers) : SH2Core := { core with toRegisters := x }

theorem writeBack_eq (pending : PendingMemOp) (value : Word) :
    ∃ f : Registers → Registers, ∀ core : SH2Core,
      core.writeBack pending value = core.withRegisters (f core.toRegisters) := by
  unfold writeBack
  split
  · split
    · rename_i target _
      exact ⟨fun x => x.setSys target value, fun _ => rfl⟩
    · exact ⟨fun x => x.writeReg pending.dstReg value, fun _ => rfl⟩
  · exact ⟨fun x => x.writeReg pending.dstReg ((value.setWidth 16).signExtend 32), fun _ => rfl⟩
  · exact ⟨fun x => x.writeReg pending.dstReg ((value.setWidth 8).signExtend 32), fun _ => rfl⟩
  · exact ⟨id, fun _ => rfl⟩

theorem postIncrement_eq (pending : PendingMemOp) :
    ∃ f : Registers → Registers, ∀ core : SH2Core,
      core.postIncrement pending = core.withRegisters (f core.toRegisters) := by
  unfold postIncrement
  split
  · rename_i m _
    split
    · exact ⟨fun x => x.writeReg m (x.r m + pending.postIncSize), fun _ => rfl⟩
    · exact ⟨id, fun _ => rfl⟩
  · exact ⟨id, fun _ => rfl⟩

/-- The end of a data access works on the registers, then goes where the branch
or the next instruction is. -/
theorem finishAccess_eq (pending : PendingMemOp) (value : Word) :
    ∃ f : Registers → Registers, ∀ core : SH2Core, core.finishAccess pending value =
      match core.pendingBranchTarget with
      | some target =>
        { (core.withRegisters (f core.toRegisters)).takeBranch target with
          pendingBranchTarget := none }
      | none =>
        core.withRegisters { f core.toRegisters with pc := (f core.toRegisters).pc + 2 } := by
  obtain ⟨f, hf⟩ := writeBack_eq pending value
  obtain ⟨g, hg⟩ := postIncrement_eq pending
  refine ⟨fun x => g (f x), fun core => ?_⟩
  rw [finishAccess, hf, hg]
  rfl

theorem finishAccess_frame (core : SH2Core) (pending : PendingMemOp) (value : Word) :
    SameDevice (core.finishAccess pending value) core ∧
      (core.finishAccess pending value).pendingMemOp = core.pendingMemOp := by
  obtain ⟨f, hf⟩ := finishAccess_eq pending value
  rw [hf]
  split
  · rename_i target _
    have hframe := takeBranch_frame (core.withRegisters (f core.toRegisters)) target
    refine ⟨⟨hframe.cpuId, hframe.icache, hframe.vector, hframe.context, hframe.newPc,
      hframe.newSr⟩, ?_⟩
    exact takeBranch_pendingMemOp _ target
  · exact ⟨⟨rfl, rfl, rfl, rfl, rfl, rfl⟩, rfl⟩

/-- The fields a response to a pending operation leaves alone. -/
theorem advancePending_frame (core : SH2Core) (pending : PendingMemOp) (value : Word) :
    (core.advancePending pending value).cpuId = core.cpuId ∧
      (core.advancePending pending value).icache = core.icache ∧
      (core.advancePending pending value).pendingExceptionVector = core.pendingExceptionVector := by
  have hfinish := (finishAccess_frame core pending value).1
  rw [advancePending]
  split
  all_goals first
    | exact ⟨rfl, rfl, rfl⟩
    | exact ⟨hfinish.cpuId, hfinish.icache, hfinish.vector⟩

theorem fillIcache_eq (core : SH2Core) (response : BusResponse) (trace : TraceLog) :
    ∃ icache, (core.fillIcache response trace).1 = { core with icache := icache } := by
  rw [fillIcache]
  split
  · exact ⟨_, rfl⟩
  · simp only
    split <;> exact ⟨_, rfl⟩

theorem applyIfetchAndStep_of_pending {pending : PendingMemOp} (h : core.pendingMemOp = some pending)
    (response : BusResponse) (trace : TraceLog) :
    core.applyIfetchAndStep response trace =
      ({ core with t := tickAdd core.t response.stall, pendingMemOp := none }.advancePending
        pending response.value).retire trace := by
  simp only [applyIfetchAndStep, h]

theorem applyIfetchAndStep_of_none (h : core.pendingMemOp = none)
    (response : BusResponse) (trace : TraceLog) :
    core.applyIfetchAndStep response trace =
      (({ core with t := tickAdd core.t response.stall }.fillIcache response trace).1.executeInstruction
        (response.value.setWidth 16)
        ({ core with t := tickAdd core.t response.stall }.fillIcache response trace).2) := by
  simp only [applyIfetchAndStep, h]

theorem applyIfetchAndStep_frame (core : SH2Core) (response : BusResponse) (trace : TraceLog) :
    (core.applyIfetchAndStep response trace).1.cpuId = core.cpuId ∧
      (core.applyIfetchAndStep response trace).1.pendingExceptionVector =
        core.pendingExceptionVector := by
  cases h : core.pendingMemOp with
  | some pending =>
    rw [applyIfetchAndStep_of_pending h]
    obtain ⟨hcpu, -, hvector⟩ := advancePending_frame
      { core with t := tickAdd core.t response.stall, pendingMemOp := none } pending response.value
    exact ⟨hcpu, hvector⟩
  | none =>
    rw [applyIfetchAndStep_of_none h]
    obtain ⟨icache, hfill⟩ :=
      fillIcache_eq { core with t := tickAdd core.t response.stall } response trace
    rw [hfill]
    have hframe := executeInstruction_frame
      { core with t := tickAdd core.t response.stall, icache := icache } (response.value.setWidth 16)
      ({ core with t := tickAdd core.t response.stall }.fillIcache response trace).2
    exact ⟨hframe.cpuId, hframe.vector⟩

theorem startAccess_frame (core : SH2Core) (form : DataForm) (instr : Instr) :
    SameDevice (core.startAccess form instr).1 core := by
  cases form with
  | _ => exact ⟨rfl, rfl, rfl, rfl, rfl, rfl⟩

theorem startAccess_branchTarget (core : SH2Core) (form : DataForm) (instr : Instr) :
    (core.startAccess form instr).1.pendingBranchTarget = core.pendingBranchTarget := by
  cases form with
  | _ => rfl

/-! ### Runs -/

def steps : Nat → SH2Core → BusArbiter → Nat → SH2Core × BusArbiter
  | 0, core, arb, _ => (core, arb)
  | n + 1, core, arb, seq => steps n (core.step arb seq).1 (core.step arb seq).2 (seq + 1)

theorem steps_add (m n : Nat) (core : SH2Core) (arb : BusArbiter) (seq : Nat) :
    steps (m + n) core arb seq =
      steps n (steps m core arb seq).1 (steps m core arb seq).2 (seq + m) := by
  induction m generalizing core arb seq with
  | zero => rw [Nat.zero_add]; rfl
  | succ m ih =>
    rw [Nat.succ_add, steps, ih, steps, Nat.add_assoc, Nat.add_comm 1 m]

theorem steps_succ (n : Nat) (core : SH2Core) (arb : BusArbiter) (seq : Nat) :
    steps (n + 1) core arb seq =
      (steps n core arb seq).1.step (steps n core arb seq).2 (seq + n) := by
  rw [steps_add n 1]
  rfl

/-- The clock does not run back in the next `n` steps. -/
def ClockRuns : Nat → SH2Core → BusArbiter → Nat → Prop
  | 0, _, _, _ => True
  | n + 1, core, arb, seq =>
    core.t ≤ (core.step arb seq).1.t ∧
      ClockRuns n (core.step arb seq).1 (core.step arb seq).2 (seq + 1)

instance decidableClockRuns : ∀ (n : Nat) (core : SH2Core) (arb : BusArbiter) (seq : Nat),
    Decidable (ClockRuns n core arb seq)
  | 0, _, _, _ => isTrue trivial
  | n + 1, core, arb, seq =>
    have := decidableClockRuns n (core.step arb seq).1 (core.step arb seq).2 (seq + 1)
    inferInstanceAs (Decidable (_ ∧ _))

theorem ClockRuns.add (m n : Nat) (h : ClockRuns (m + n) core arb seq) :
    ClockRuns m core arb seq ∧
      ClockRuns n (steps m core arb seq).1 (steps m core arb seq).2 (seq + m) := by
  induction m generalizing core arb seq with
  | zero =>
    rw [Nat.zero_add] at h
    exact ⟨trivial, h⟩
  | succ m ih =>
    rw [Nat.succ_add, ClockRuns] at h
    obtain ⟨hfirst, hrest⟩ := ih h.2
    rw [Nat.add_assoc, Nat.add_comm 1 m] at hrest
    exact ⟨⟨h.1, hfirst⟩, hrest⟩

/-! ### Request order -/

/-- The bookkeeping index of the operations of the core. -/
def slot (core : SH2Core) : Fin 3 := producerSlot { cpuId := core.cpuId }

/-- The next operation of the core is in request order. -/
def InOrder (core : SH2Core) (arb : BusArbiter) : Prop := arb.Ordered core.slot core.t

/-- An operation the core asks for now. -/
structure Asks (core : SH2Core) (op : BusOp) : Prop where
  slot : producerSlot op = core.slot
  reqTime : op.reqTime = core.t

theorem InOrder.asks {op : BusOp} (h : core.InOrder arb) (hop : core.Asks op) :
    arb.Ordered (producerSlot op) op.reqTime := by
  rw [hop.slot, hop.reqTime]
  exact h

theorem asks_pendingOp (core : SH2Core) (seq : Nat) (pending : PendingMemOp) :
    core.Asks (core.pendingOp seq pending) := ⟨rfl, rfl⟩

theorem asks_fetchOp (core : SH2Core) (seq : Nat) : core.Asks (core.fetchOp seq) := by
  rw [fetchOp]
  split
  · exact ⟨rfl, rfl⟩
  · exact ⟨rfl, rfl⟩

theorem accessing_inOrder (h : core.InOrder arb) (form : DataForm) (instr : Instr) :
    (core.accessing form instr).InOrder arb := by
  have hframe := core.startAccess_frame form instr
  have ht : (core.accessing form instr).t = core.t := by cases form <;> rfl
  have hslot : (core.accessing form instr).slot = core.slot :=
    congrArg (fun cpuId => producerSlot { cpuId }) hframe.cpuId
  rw [InOrder, hslot, ht]
  exact h

theorem inOrder_exchange {op : BusOp} (h : core.InOrder arb) (hop : core.Asks op)
    (hclock : core.t ≤ (core.exchange arb op).1.t) :
    (core.exchange arb op).1.InOrder (core.exchange arb op).2 := by
  have hslot : (core.exchange arb op).1.slot = core.slot := by
    have hframe := applyIfetchAndStep_frame core (arb.commit op).2 (arb.commit op).1.trace
    exact congrArg (fun cpuId => producerSlot { cpuId }) hframe.1
  have hafter := BusArbiter.commit_ordered (h.asks hop) (hop.reqTime.trans_le hclock)
  rw [hop.slot] at hafter
  rw [InOrder, hslot]
  exact hafter

/-- A step keeps the request order if the clock does not run back. -/
theorem inOrder_step (h : core.InOrder arb) (hclock : core.t ≤ (core.step arb seq).1.t) :
    (core.step arb seq).1.InOrder (core.step arb seq).2 := by
  cases hvector : core.pendingExceptionVector with
  | some vector =>
    rw [step_vector hvector] at hclock ⊢
    exact inOrder_exchange h (asks_pendingOp _ _ _) hclock
  | none =>
    cases hpending : core.pendingMemOp with
    | some pending =>
      rw [step_pending hvector hpending] at hclock ⊢
      exact inOrder_exchange h (asks_pendingOp _ _ _) hclock
    | none =>
      have hquiet : core.Quiet := ⟨hvector, hpending⟩
      cases hcached : core.cachedInstr with
      | none =>
        rw [step_fetch hquiet hcached] at hclock ⊢
        exact inOrder_exchange h (asks_fetchOp _ _) hclock
      | some instr =>
        cases hdata : dataFormOf instr with
        | some form =>
          rw [step_access hquiet hcached hdata] at hclock ⊢
          have ht : (core.accessing form instr).t = core.t := by cases form <;> rfl
          exact inOrder_exchange (accessing_inOrder h form instr) (asks_pendingOp _ _ _)
            (ht.trans_le hclock)
        | none =>
          rw [step_cached hquiet hcached hdata] at hclock ⊢
          have hslot : (core.executeInstruction instr arb.trace).1.slot = core.slot :=
            congrArg (fun cpuId => producerSlot { cpuId })
              (core.executeInstruction_frame instr arb.trace).cpuId
          rw [InOrder, hslot]
          exact ⟨fun hseen => Nat.le_trans (h.1 hseen) hclock,
            fun hseen => Nat.le_trans (h.2 hseen) hclock⟩

end Saturnis.Cpu.SH2Core
