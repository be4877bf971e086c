/-
The immediate of a pending TRAPA.

TRAPA keeps its immediate in a field of its own, beside the pending operation;
the push of `pc` leads to a vector read at an address that is computed from it.
A core calls nothing else than `produceUntilBus`, `applyIfetchAndStep` and
`requestExceptionVector`, in any order: requests may drop a phase, and the
run-ahead loop may execute the TRAPA again or go on behind it.

* `executeInstruction_holds`, `advancePending_holds` — what an instruction and
  the response to a pending operation leave behind;
* `CoreCall.perform_holds` — so after any call, a phase of TRAPA has its
  immediate;
* `performAll_reset_holds` — and after any calls since a reset.
-/
import Saturnis.Sh2Step

namespace Saturnis.Cpu

open Saturnis.Core Saturnis.Mem Saturnis.Bus

/-- A phase of TRAPA. -/
def PendingKind.isTrapa : PendingKind → Bool
  | trapaPushSr | trapaPushPc | trapaVectorRead => true
  | _ => false

theorem PendingKind.isTrapa_of_isAccess {kind : PendingKind} (h : kind.isAccess = true) :
    kind.isTrapa = false := by
  cases kind <;> first | rfl | exact absurd h (by decide)

namespace SH2Core

variable {core : SH2Core}

/-- Where a phase of TRAPA is pending, its immediate is there. -/
def HoldsTrapaImm (core : SH2Core) : Prop :=
  ∀ pending, core.pendingMemOp = some pending → pending.kind.isTrapa = true →
    ∃ imm, core.pendingTrapaImm = some imm

theorem holds_of_none (h : core.pendingMemOp = none) : core.HoldsTrapaImm := by
  intro pending hpending
  rw [h] at hpending
  exact absurd hpending (by simp)

theorem holds_of_other {pending : PendingMemOp} (h : core.pendingMemOp = some pending)
    (hkind : pending.kind.isTrapa = false) : core.HoldsTrapaImm := by
  intro other hother htrapa
  rw [h, Option.some_inj] at hother
  rw [← hother, hkind] at htrapa
  exact absurd htrapa Bool.false_ne_true

theorem holds_of_some {imm : Word} (h : core.pendingTrapaImm = some imm) : core.HoldsTrapaImm :=
  fun _ _ _ => ⟨imm, h⟩

/-- The two fields are all that counts. -/
theorem HoldsTrapaImm.congr {a b : SH2Core} (h : a.HoldsTrapaImm)
    (hpending : b.pendingMemOp = a.pendingMemOp) (himm : b.pendingTrapaImm = a.pendingTrapaImm) :
    b.HoldsTrapaImm := by
  intro pending hp htrapa
  rw [himm]
  exact h pending (hpending.symm.trans hp) htrapa

/-! ### Instructions -/

/-- An instruction leaves the two fields alone, starts an operation of another
kind, or is TRAPA. -/
theorem dispatch_holds (h : core.HoldsTrapaImm) (op : Opcode) (instr : Instr) (trace : TraceLog) :
    (core.dispatch op instr trace).1.HoldsTrapaImm := by
  cases op with
  | reg op => exact h.congr rfl rfl
  | branch op => exact h.congr rfl rfl
  | illegal => exact h.congr rfl rfl
  | trapa => exact holds_of_some rfl
  | pushSys source => exact holds_of_other rfl rfl
  | popSys target => exact holds_of_other rfl rfl
  | rte =>
    rw [dispatch]
    split
    · exact h.congr rfl rfl
    · exact holds_of_other rfl rfl

theorem settle_trapaImm (core : SH2Core) (slot next : Option Addr) :
    (core.settle slot next).pendingTrapaImm = core.pendingTrapaImm := by
  cases slot with
  | some target =>
    simp only [settle, takeBranch]
    split <;> rfl
  | none => cases next <;> rfl

theorem retire_holds (h : core.HoldsTrapaImm) (trace : TraceLog) :
    (core.retire trace).1.HoldsTrapaImm := h.congr rfl rfl

theorem executeInstruction_holds (h : core.HoldsTrapaImm) (instr : Instr) (trace : TraceLog) :
    (core.executeInstruction instr trace).1.HoldsTrapaImm := by
  have hstart : { core with pendingBranchTarget := none }.HoldsTrapaImm := h.congr rfl rfl
  have hdone := dispatch_holds hstart (opcodeOf instr) instr trace
  rw [executeInstruction_eq]
  refine retire_holds ?_ _
  exact hdone.congr (settle_pendingMemOp _ _ _) (settle_trapaImm _ _ _)

/-! ### Producing -/

/-- Behind a TRAPA the loop goes on with what is pending. -/
theorem produceLoop_holds (h : core.HoldsTrapaImm) (budget seq : Nat) (trace : TraceLog)
    (executed : Nat) : (produceLoop budget core seq trace executed).1.HoldsTrapaImm := by
  refine @produceLoop_invariant core (fun core _ => core.HoldsTrapaImm)
    (fun core _ form instr _ => ?_) (fun core t instr h => executeInstruction_holds h instr t) trace
    h budget seq executed
  exact holds_of_other rfl (PendingKind.isTrapa_of_isAccess (startAccess_isAccess core form instr))

theorem produceUntilBus_holds (h : core.HoldsTrapaImm) (seq : Nat) (trace : TraceLog)
    (runaheadBudget : Nat) :
    (core.produceUntilBus seq trace runaheadBudget).1.HoldsTrapaImm := by
  rw [produceUntilBus]
  split
  · -- the entry of an exception takes the place of what was pending
    exact holds_of_other rfl rfl
  · split
    · exact h
    · exact produceLoop_holds h _ _ _ _

/-! ### Applying a response -/

theorem finishAccess_holds (h : core.pendingMemOp = none) (pending : PendingMemOp) (value : Word) :
    (core.finishAccess pending value).HoldsTrapaImm :=
  holds_of_none ((finishAccess_frame core pending value).2.trans h)

/-- The next phase of TRAPA has the immediate of the phase before. -/
theorem advancePending_holds {pending : PendingMemOp} (h : core.pendingMemOp = none)
    (himm : pending.kind.isTrapa = true → ∃ imm, core.pendingTrapaImm = some imm) (value : Word) :
    (core.advancePending pending value).HoldsTrapaImm := by
  have hfinish := finishAccess_holds h pending value
  rw [advancePending]
  cases hkind : pending.kind with
  | exceptionPushSr => exact holds_of_other rfl rfl
  | exceptionPushPc => exact holds_of_other rfl rfl
  | exceptionVectorRead => exact holds_of_none h
  | trapaPushSr =>
    obtain ⟨imm, hheld⟩ := himm (by rw [hkind]; rfl)
    exact holds_of_some hheld
  | trapaPushPc =>
    obtain ⟨imm, hheld⟩ := himm (by rw [hkind]; rfl)
    exact holds_of_some hheld
  | trapaVectorRead => exact holds_of_none h
  | rtePopPc => exact holds_of_other rfl rfl
  | rtePopSr => exact holds_of_none h
  | rmwAndByteRead => exact holds_of_other rfl rfl
  | rmwXorByteRead => exact holds_of_other rfl rfl
  | rmwOrByteRead => exact holds_of_other rfl rfl
  | _ => exact hfinish

theorem applyIfetchAndStep_holds (h : core.HoldsTrapaImm) (response : BusResponse)
    (trace : TraceLog) : (core.applyIfetchAndStep response trace).1.HoldsTrapaImm := by
  cases hpending : core.pendingMemOp with
  | some pending =>
    rw [applyIfetchAndStep_of_pending hpending]
    have himm := h pending hpending
    have hnext := @advancePending_holds
      { core with t := tickAdd core.t response.stall, pendingMemOp := none } pending rfl himm
      response.value
    exact retire_holds hnext trace
  | none =>
    rw [applyIfetchAndStep_of_none hpending]
    obtain ⟨icache, hfill⟩ :=
      fillIcache_eq { core with t := tickAdd core.t response.stall } response trace
    rw [hfill]
    have hwaits := @holds_of_none
      { core with t := tickAdd core.t response.stall, icache := icache } hpending
    exact executeInstruction_holds hwaits _ _

/-- The response to the push of `pc` uses the immediate. -/
theorem applyIfetchAndStep_pushPc {pending : PendingMemOp} {imm : Word}
    (hpending : core.pendingMemOp = some pending) (hkind : pending.kind = .trapaPushPc)
    (himm : core.pendingTrapaImm = some imm) (response : BusResponse) (trace : TraceLog) :
    (core.applyIfetchAndStep response trace).1.pendingMemOp =
      some { kind := .trapaVectorRead, physAddr := toPhys (core.vbr + imm * 4) } := by
  have hstep : ∀ core : SH2Core, core.pendingTrapaImm = some imm →
      (core.advancePending pending response.value).pendingMemOp =
        some { kind := .trapaVectorRead, physAddr := toPhys (core.vbr + imm * 4) } := by
    intro core himm
    rw [advancePending, hkind]
    simp only [himm, Option.getD_some]
  rw [applyIfetchAndStep_of_pending hpending]
  exact hstep { core with t := tickAdd core.t response.stall, pendingMemOp := none } himm

/-! ### Runs -/

end SH2Core

/-- What a core is called for. -/
inductive CoreCall
  | produceUntilBus (seq : Nat) (trace : TraceLog) (runaheadBudget : Nat)
  | applyIfetchAndStep (response : BusResponse) (trace : TraceLog)
  | requestExceptionVector (vector : Word)

def CoreCall.perform (core : SH2Core) : CoreCall → SH2Core
  | produceUntilBus seq trace runaheadBudget => (core.produceUntilBus seq trace runaheadBudget).1
  | applyIfetchAndStep response trace => (core.applyIfetchAndStep response trace).1
  | requestExceptionVector vector => core.requestExceptionVector vector

theorem CoreCall.perform_holds {core : SH2Core} (h : core.HoldsTrapaImm) (call : CoreCall) :
    (call.perform core).HoldsTrapaImm := by
  cases call with
  | produceUntilBus seq trace runaheadBudget => exact SH2Core.produceUntilBus_holds h _ _ _
  | applyIfetchAndStep response trace => exact SH2Core.applyIfetchAndStep_holds h _ _
  | requestExceptionVector vector => exact h.congr rfl rfl

namespace SH2Core

def performAll (core : SH2Core) (calls : List CoreCall) : SH2Core := calls.foldl CoreCall.perform core

theorem performAll_holds {core : SH2Core} (h : core.HoldsTrapaImm) (calls : List CoreCall) :
    (core.performAll calls).HoldsTrapaImm := by
  induction calls generalizing core with
  | nil => exact h
  | cons call calls ih => exact ih (call.perform_holds h)

/-- **The immediate of TRAPA is there when it is read.**  After any calls since
a reset, a pending phase of TRAPA has its immediate, and the vector that follows
the push of `pc` is read at the address of that immediate. -/
theorem performAll_reset_holds (core : SH2Core) (pc : Addr) (sp : Word) (calls : List CoreCall) :
    ((core.reset pc sp).performAll calls).HoldsTrapaImm ∧
      ∀ pending, ((core.reset pc sp).performAll calls).pendingMemOp = some pending →
        pending.kind = .trapaPushPc → ∀ response trace, ∃ imm,
          ((core.reset pc sp).performAll calls).pendingTrapaImm = some imm ∧
          (((core.reset pc sp).performAll calls).applyIfetchAndStep response
            trace).1.pendingMemOp =
              some { kind := .trapaVectorRead, physAddr :=
                toPhys (((core.reset pc sp).performAll calls).vbr + imm * 4) } := by
  have hreset : (core.reset pc sp).HoldsTrapaImm := holds_of_none rfl
  have hholds := performAll_holds hreset calls
  refine ⟨hholds, fun pending hpending hkind response trace => ?_⟩
  obtain ⟨imm, himm⟩ := hholds pending hpending (by rw [hkind]; rfl)
  exact ⟨imm, himm, applyIfetchAndStep_pushPc hpending hkind himm response trace⟩

end SH2Core

end Saturnis.Cpu
