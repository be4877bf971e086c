/-
The delay slot of a branch.

A delayed branch leaves its target pending, and the instruction in the slot
takes it at its end: in `executeInstruction` for the instructions that only
work on registers, in `finishAccess` for the data accesses.  A transfer of a
system register whose fetch misses goes through both: `executeInstruction`
takes the branch before the access is done, and the access then goes two bytes
past the target.

* `fetchedWord` — the word the core executes next;
* `branch_pending` — a delayed branch that is executed leaves its target
  pending;
* `RunsAsAlone` — the slot instruction and the same instruction alone;
* `delaysOnce_iff` — when the slot instruction runs once and lands on the target.
-/
import Saturnis.Sh2Budget
import Saturnis.Sh2Exception
import Saturnis.Sh2Instruction

namespace Saturnis.Cpu

open Saturnis.Core Saturnis.Mem Saturnis.Bus

def Opcode.isBranch : Opcode → Bool
  | .branch _ => true
  | _ => false

namespace SH2Core

variable {core : SH2Core} {arb : BusArbiter} {seq : Nat} {target : Addr}

/-- The word the core executes next, whether its fetch hits or misses. -/
def fetchedWord (core : SH2Core) (arb : BusArbiter) (seq : Nat) : Instr :=
  match core.cachedInstr with
  | some instr => instr
  | none => (arb.commit (core.fetchOp seq)).2.value.setWidth 16

/-- The core and its arbiter when the instruction at `pc` is done. -/
def runInstruction (core : SH2Core) (arb : BusArbiter) (seq : Nat) : SH2Core × BusArbiter :=
  steps (core.instructionSteps arb seq) core arb seq

/-- The core without its pending branch: what it executes runs alone. -/
def unbranched (core : SH2Core) : SH2Core := { core with pendingBranchTarget := none }

/-- A delayed branch to that target is next, with nothing pending. -/
structure DelayedBranch (core : SH2Core) (arb : BusArbiter) (seq : Nat) (target : Addr) :
    Prop where
  boundary : core.Boundary
  taken : ∃ op, opcodeOf (core.fetchedWord arb seq) = .branch op ∧
    (op.exec (core.fetchedWord arb seq) core.toRegisters).2 = some target

/-- The next instruction is no branch, TRAPA or RTE, and the core executes it on the path
its fetch takes: a hit knows the data accesses, a miss only what `execute_instruction` knows. -/
structure SlotInstruction (core : SH2Core) (arb : BusArbiter) (seq : Nat) : Prop where
  branch : ∀ op, opcodeOf (core.fetchedWord arb seq) ≠ .branch op
  trapa : opcodeOf (core.fetchedWord arb seq) ≠ .trapa
  rte : opcodeOf (core.fetchedWord arb seq) ≠ .rte
  legal : opcodeOf (core.fetchedWord arb seq) = .illegal →
    core.cachedInstr ≠ none ∧ dataFormOf (core.fetchedWord arb seq) ≠ none

/-- The same effects on registers other than `pc`, on the memory and on the devices, and the
same count of executed phases. -/
structure RunsAsAlone (s alone : SH2Core × BusArbiter) : Prop where
  registers : s.1.toRegisters = { alone.1.toRegisters with pc := s.1.pc }
  executed : s.1.executed = alone.1.executed
  clock : s.1.t = alone.1.t
  memory : s.2.memory = alone.2.memory
  devices : s.2.devices = alone.2.devices

/-- After the branch the instruction in its slot runs once, as it does alone, and the core is
at the target. -/
structure DelaysOnce (core : SH2Core) (arb : BusArbiter) (seq : Nat) (target : Addr) : Prop where
  pending : core.pendingBranchTarget = some target
  lands : (core.runInstruction arb seq).1.pc = target
  settled : (core.runInstruction arb seq).1.pendingBranchTarget = none
  effects : RunsAsAlone (core.runInstruction arb seq) (core.unbranched.runInstruction arb seq)

/-! ### The branch -/

theorem executeInstruction_branch {instr : Instr} {op : BranchOp} (hop : opcodeOf instr = .branch op)
    (hnone : core.pendingBranchTarget = none)
    (htarget : (op.exec instr core.toRegisters).2 = some target) (trace : TraceLog) :
    (core.executeInstruction instr trace).1.pendingBranchTarget = some target ∧
      (core.executeInstruction instr trace).1.pendingMemOp = core.pendingMemOp ∧
      (core.executeInstruction instr trace).1.pendingRteRestore = core.pendingRteRestore := by
  rw [executeInstruction_eq, hop, hnone]
  show (SH2Core.settle _ none (op.exec instr core.toRegisters).2).pendingBranchTarget = _ ∧
    (SH2Core.settle _ none (op.exec instr core.toRegisters).2).pendingMemOp = _ ∧
    (SH2Core.settle _ none (op.exec instr core.toRegisters).2).pendingRteRestore = _
  rw [htarget]
  exact ⟨rfl, rfl, rfl⟩

/-! ### The slot -/

/-- The core is in the delay slot of a branch to that address. -/
structure BranchSlot (core : SH2Core) (target : Addr) : Prop where
  branch : core.pendingBranchTarget = some target
  restore : core.pendingRteRestore = false
  vector : core.pendingExceptionVector = none

theorem dispatch_next {op : Opcode} (hop : ∀ branch, op ≠ .branch branch) (core : SH2Core)
    (instr : Instr) (trace : TraceLog) : (core.dispatch op instr trace).2.1 = none := by
  cases op with
  | branch op => exact absurd rfl (hop op)
  | rte =>
      rw [dispatch]
      split <;> rfl
  | _ => rfl

theorem dispatch_branchTarget (core : SH2Core) (op : Opcode) (instr : Instr) (trace : TraceLog) :
    (core.dispatch op instr trace).1.pendingBranchTarget = core.pendingBranchTarget := by
  cases op with
  | rte =>
      rw [dispatch]
      split <;> rfl
  | _ => rfl

/-- An instruction that is executed in the slot: as alone, but for `pc`. -/
theorem BranchSlot.execute (h : core.BranchSlot target) {instr : Instr}
    (hop : ∀ branch, opcodeOf instr ≠ .branch branch) (trace : TraceLog) :
    (core.executeInstruction instr trace).1 =
        { (core.unbranched.executeInstruction instr trace).1 with pc := target } ∧
      (core.executeInstruction instr trace).1.pendingBranchTarget = none := by
  have hrestore := (dispatch_rteRestore core.unbranched (opcodeOf instr) instr trace).trans h.restore
  have hnext := dispatch_next hop core.unbranched instr trace
  have hbranch := dispatch_branchTarget core.unbranched (opcodeOf instr) instr trace
  rw [executeInstruction_eq, executeInstruction_eq, h.branch]
  show ((SH2Core.takeBranch (core.unbranched.dispatch (opcodeOf instr) instr trace).1
      target).retire _).1 = { ((SH2Core.settle
        (core.unbranched.dispatch (opcodeOf instr) instr trace).1 none
        (core.unbranched.dispatch (opcodeOf instr) instr trace).2.1).retire _).1 with pc := target } ∧
    (SH2Core.takeBranch (core.unbranched.dispatch (opcodeOf instr) instr trace).1
      target).pendingBranchTarget = none
  rw [hnext, takeBranch_of_noRestore hrestore]
  exact ⟨rfl, hbranch⟩

/-- The end of a data access in the slot: as alone, but for `pc`. -/
theorem BranchSlot.finish (h : core.BranchSlot target) (pending : PendingMemOp) (value : Word) :
    core.finishAccess pending value =
      { core.unbranched.finishAccess pending value with pc := target } := by
  obtain ⟨f, hf⟩ := finishAccess_eq pending value
  have hrestore : (core.withRegisters (f core.toRegisters)).pendingRteRestore = false := h.restore
  rw [hf, hf, h.branch]
  simp only [takeBranch_of_noRestore hrestore]
  rfl

theorem exchange_eq (core : SH2Core) (arb : BusArbiter) (op : BusOp) :
    core.exchange arb op =
      ((core.applyIfetchAndStep (arb.commit op).2 (arb.commit op).1.trace).1,
        { (arb.commit op).1 with
          trace := (core.applyIfetchAndStep (arb.commit op).2 (arb.commit op).1.trace).2 }) := rfl

/-- Memory and devices are as the bus leaves them, whatever the core. -/
theorem exchange_bus (core : SH2Core) (arb : BusArbiter) (op : BusOp) :
    (core.exchange arb op).2.memory = (arb.commit op).1.memory ∧
      (core.exchange arb op).2.devices = (arb.commit op).1.devices := by
  rw [exchange_eq]
  exact ⟨rfl, rfl⟩

theorem advancePending_last {pending : PendingMemOp} (haccess : pending.kind.isAccess = true)
    (hleft : pending.kind.left = 1) (core : SH2Core) (value : Word) :
    core.advancePending pending value = core.finishAccess pending value := by
  rw [advancePending]
  cases hkind : pending.kind with
  | readLong | writeLong | readWord | writeWord | readByte | writeByte | rmwWriteByte => rfl
  | rmwAndByteRead | rmwXorByteRead | rmwOrByteRead =>
      rw [hkind] at hleft
      exact absurd hleft (by decide)
  | _ => simp [hkind, PendingKind.isAccess] at haccess

theorem writeBack_pc (core : SH2Core) (pending : PendingMemOp) (value : Word) :
    (core.writeBack pending value).pc = core.pc ∧
      (core.writeBack pending value).pendingBranchTarget = core.pendingBranchTarget := by
  unfold writeBack
  split
  · split
    · rename_i target _
      cases target <;> exact ⟨rfl, rfl⟩
    · exact ⟨rfl, rfl⟩
  · exact ⟨rfl, rfl⟩
  · exact ⟨rfl, rfl⟩
  · exact ⟨rfl, rfl⟩

theorem postIncrement_pc (core : SH2Core) (pending : PendingMemOp) :
    (core.postIncrement pending).pc = core.pc ∧
      (core.postIncrement pending).pendingBranchTarget = core.pendingBranchTarget := by
  unfold postIncrement
  split
  · split <;> exact ⟨rfl, rfl⟩
  · exact ⟨rfl, rfl⟩

/-- Without a branch an access goes on to the next instruction. -/
theorem finishAccess_alone (hnone : core.pendingBranchTarget = none) (pending : PendingMemOp)
    (value : Word) :
    (core.finishAccess pending value).pc = core.pc + 2 ∧
      (core.finishAccess pending value).pendingBranchTarget = none := by
  obtain ⟨hpc, hbranch⟩ := (core.writeBack pending value).postIncrement_pc pending
  obtain ⟨hpc', hbranch'⟩ := core.writeBack_pc pending value
  have hstill := (hbranch.trans hbranch').trans hnone
  have hfinish : core.finishAccess pending value =
      { (core.writeBack pending value).postIncrement pending with
        pc := ((core.writeBack pending value).postIncrement pending).pc + 2 } := by
    simp only [finishAccess]
    rw [hstill]
  rw [hfinish]
  exact ⟨congrArg (· + 2) (hpc.trans hpc'), hstill⟩

/-- The last phase of a data access alone. -/
theorem exchange_alone (hnone : core.pendingBranchTarget = none) {pending : PendingMemOp}
    (hpending : core.pendingMemOp = some pending) (haccess : pending.kind.isAccess = true)
    (hleft : pending.kind.left = 1) (arb : BusArbiter) (op : BusOp) :
    (core.exchange arb op).1.pc = core.pc + 2 ∧
      (core.exchange arb op).1.pendingBranchTarget = none ∧
      (core.exchange arb op).1.pendingMemOp = none := by
  rw [exchange_eq, applyIfetchAndStep_of_pending hpending, advancePending_last haccess hleft]
  have hnone' : ({ core with
      t := tickAdd core.t (arb.commit op).2.stall
      pendingMemOp := none } : SH2Core).pendingBranchTarget = none := hnone
  obtain ⟨hpc, hbranch⟩ := finishAccess_alone hnone' pending (arb.commit op).2.value
  exact ⟨hpc, hbranch, (finishAccess_frame _ pending _).2⟩

/-- The last phase of a data access in the slot. -/
theorem BranchSlot.exchange_last (h : core.BranchSlot target) {pending : PendingMemOp}
    (hpending : core.pendingMemOp = some pending) (haccess : pending.kind.isAccess = true)
    (hleft : pending.kind.left = 1) (arb : BusArbiter) (op : BusOp) :
    (core.exchange arb op).1 = { (core.unbranched.exchange arb op).1 with pc := target } ∧
      (core.exchange arb op).2.memory = (core.unbranched.exchange arb op).2.memory ∧
      (core.exchange arb op).2.devices = (core.unbranched.exchange arb op).2.devices ∧
      (core.unbranched.exchange arb op).1.pendingMemOp = none ∧
      (core.unbranched.exchange arb op).1.pendingBranchTarget = none := by
  have hslot : ({ core with
      t := tickAdd core.t (arb.commit op).2.stall, pendingMemOp := none } : SH2Core).BranchSlot
        target := ⟨h.branch, h.restore, h.vector⟩
  have hsame := hslot.finish pending (arb.commit op).2.value
  have hunbranched : core.unbranched.pendingMemOp = some pending := hpending
  obtain ⟨-, hsettled, hnone⟩ := @exchange_alone core.unbranched rfl pending hunbranched haccess
    hleft arb op
  obtain ⟨hmemory, hdevices⟩ := exchange_bus core arb op
  obtain ⟨hmemory', hdevices'⟩ := exchange_bus core.unbranched arb op
  refine ⟨?_, hmemory.trans hmemory'.symm, hdevices.trans hdevices'.symm, hnone, hsettled⟩
  rw [exchange_eq, exchange_eq, applyIfetchAndStep_of_pending hpending,
    applyIfetchAndStep_of_pending hunbranched, advancePending_last haccess hleft,
    advancePending_last haccess hleft, hsame]
  rfl

/-- The first half of a read-modify-write in the slot. -/
theorem BranchSlot.exchange_first (h : core.BranchSlot target) {pending : PendingMemOp}
    (hpending : core.pendingMemOp = some pending) (haccess : pending.kind.isAccess = true)
    (hleft : pending.kind.left ≠ 1) (arb : BusArbiter) (op : BusOp) :
    core.unbranched.exchange arb op =
        ((core.exchange arb op).1.unbranched, (core.exchange arb op).2) ∧
      (core.exchange arb op).1.BranchSlot target ∧
      ∃ next, (core.exchange arb op).1.pendingMemOp = some next ∧ next.kind = .rmwWriteByte := by
  have hunbranched : core.unbranched.pendingMemOp = some pending := hpending
  rw [exchange_eq, exchange_eq, applyIfetchAndStep_of_pending hpending,
    applyIfetchAndStep_of_pending hunbranched, advancePending, advancePending]
  cases hkind : pending.kind with
  | rmwAndByteRead | rmwXorByteRead | rmwOrByteRead =>
      exact ⟨rfl, ⟨h.branch, h.restore, h.vector⟩, _, rfl, rfl⟩
  | readLong | writeLong | readWord | writeWord | readByte | writeByte | rmwWriteByte =>
      rw [hkind] at hleft
      exact absurd rfl hleft
  | _ => simp [hkind, PendingKind.isAccess] at haccess

/-! ### Whole instructions -/

theorem runInstruction_one (h : (core.step arb seq).1.pendingMemOp = none) :
    core.runInstruction arb seq = core.step arb seq := by
  rw [runInstruction, instructionSteps, phasesLeft_eq_zero.mpr h]
  rfl

theorem runInstruction_two {next : PendingMemOp} (h : (core.step arb seq).1.pendingMemOp = some next)
    (hleft : next.kind.left = 1) :
    core.runInstruction arb seq = (core.step arb seq).1.step (core.step arb seq).2 (seq + 1) := by
  rw [runInstruction, instructionSteps, phasesLeft_of_pending h, hleft]
  rfl

theorem fillIcache_unbranched (core : SH2Core) (response : BusResponse) (trace : TraceLog) :
    core.unbranched.fillIcache response trace =
      ((core.fillIcache response trace).1.unbranched, (core.fillIcache response trace).2) := by
  simp only [fillIcache]
  split
  · rfl
  · show (if response.lineBase ≠ core.icache.lineBase (toPhys core.pc) ∨
      response.lineData.length ≠ core.icache.lineSize then _ else _) = _
    split <;> rfl

theorem accessing_unbranched (core : SH2Core) (form : DataForm) (instr : Instr) :
    core.unbranched.accessing form instr = (core.accessing form instr).unbranched ∧
      (core.unbranched.startAccess form instr).2 = (core.startAccess form instr).2 := by
  cases form with
  | _ => exact ⟨rfl, rfl⟩

/-- Runs that end alike, but for `pc`. -/
theorem delaysOnce_of_ends {s alone : SH2Core × BusArbiter}
    (hbranch : core.pendingBranchTarget = some target) (hrun : core.runInstruction arb seq = s)
    (halone : core.unbranched.runInstruction arb seq = alone)
    (hcore : s.1 = { alone.1 with pc := target }) (hsettled : s.1.pendingBranchTarget = none)
    (hmemory : s.2.memory = alone.2.memory) (hdevices : s.2.devices = alone.2.devices) :
    core.DelaysOnce arb seq target where
  pending := hbranch
  lands := by rw [hrun, hcore]
  settled := by rw [hrun, hsettled]
  effects := by
    rw [hrun, halone]
    refine ⟨?_, ?_, ?_, hmemory, hdevices⟩
    · rw [hcore]
    · rw [hcore]
    · rw [hcore]

/-- A step that executes the word, not taken for a data access, and the same step alone. -/
theorem step_executes (hquiet : core.Quiet)
    (hdirect : ∀ instr, core.cachedInstr = some instr → dataFormOf instr = none) :
    ∃ (c : SH2Core) (trace : TraceLog), (∃ t icache, c = { core with t := t, icache := icache }) ∧
      (core.step arb seq).1 = (c.executeInstruction (core.fetchedWord arb seq) trace).1 ∧
      (core.unbranched.step arb seq).1 =
        (c.unbranched.executeInstruction (core.fetchedWord arb seq) trace).1 ∧
      (core.step arb seq).2.memory = (core.unbranched.step arb seq).2.memory ∧
      (core.step arb seq).2.devices = (core.unbranched.step arb seq).2.devices := by
  have hquiet' : core.unbranched.Quiet := ⟨hquiet.vector, hquiet.memOp⟩
  cases hcached : core.cachedInstr with
  | some instr =>
      have hword : core.fetchedWord arb seq = instr := by rw [fetchedWord, hcached]
      have hdata := hdirect instr hcached
      rw [step_cached hquiet hcached hdata, step_cached hquiet' hcached hdata, hword]
      exact ⟨core, arb.trace, ⟨core.t, core.icache, rfl⟩, rfl, rfl, rfl, rfl⟩
  | none =>
      have hword : core.fetchedWord arb seq =
          (arb.commit (core.fetchOp seq)).2.value.setWidth 16 := by rw [fetchedWord, hcached]
      have hstep' : core.unbranched.step arb seq =
          core.unbranched.exchange arb (core.fetchOp seq) := step_fetch hquiet' hcached
      have hmemOp' : core.unbranched.pendingMemOp = none := hquiet.memOp
      have hfill' := fillIcache_unbranched
        { core with t := tickAdd core.t (arb.commit (core.fetchOp seq)).2.stall }
        (arb.commit (core.fetchOp seq)).2 (arb.commit (core.fetchOp seq)).1.trace
      obtain ⟨icache, hfill⟩ :=
        fillIcache_eq { core with t := tickAdd core.t (arb.commit (core.fetchOp seq)).2.stall }
          (arb.commit (core.fetchOp seq)).2 (arb.commit (core.fetchOp seq)).1.trace
      rw [step_fetch hquiet hcached, hstep', hword, exchange_eq, exchange_eq,
        applyIfetchAndStep_of_none hquiet.memOp, applyIfetchAndStep_of_none hmemOp']
      refine ⟨_, _, ⟨_, icache, hfill⟩, rfl, ?_, rfl, rfl⟩
      exact congrArg (fun filled : SH2Core × TraceLog =>
        (filled.1.executeInstruction _ filled.2).1) hfill'

/-- An instruction in the slot that is executed at once. -/
theorem BranchSlot.delaysOnce_execute (h : core.BranchSlot target) (hmemOp : core.pendingMemOp = none)
    (hslot : core.SlotInstruction arb seq)
    (htransfer : (opcodeOf (core.fetchedWord arb seq)).isTransfer = false)
    (hdirect : ∀ instr, core.cachedInstr = some instr → dataFormOf instr = none) :
    core.DelaysOnce arb seq target := by
  obtain ⟨c, trace, ⟨t, icache, hc⟩, hstep, halone, hmemory, hdevices⟩ :=
    @step_executes core arb seq ⟨h.vector, hmemOp⟩ hdirect
  have hplain : ∀ core : SH2Core, _ := fun core : SH2Core =>
    @executeInstruction_plain core _ hslot.trapa hslot.rte htransfer trace
  have hc' : c.BranchSlot target := by
    rw [hc]; exact ⟨h.branch, h.restore, h.vector⟩
  have hnone : c.pendingMemOp = none := by rw [hc]; exact hmemOp
  obtain ⟨hcore, hsettled⟩ := hc'.execute hslot.branch trace
  refine delaysOnce_of_ends h.branch (runInstruction_one ?_) (runInstruction_one ?_) ?_ ?_ hmemory
    hdevices
  · rw [hstep]; exact (hplain c).trans hnone
  · rw [halone]; exact (hplain c.unbranched).trans hnone
  · rw [hstep, halone]; exact hcore
  · rw [hstep]; exact hsettled

/-- A data access in the slot, its fetch hit. -/
theorem BranchSlot.delaysOnce_access (h : core.BranchSlot target) (hmemOp : core.pendingMemOp = none)
    {instr : Instr} {form : DataForm} (hcached : core.cachedInstr = some instr)
    (hform : dataFormOf instr = some form) : core.DelaysOnce arb seq target := by
  have hslot : (core.accessing form instr).BranchSlot target :=
    ⟨(core.startAccess_branchTarget form instr).trans h.branch,
      (core.startAccess_rteRestore form instr).trans h.restore,
      (core.startAccess_frame form instr).vector.trans h.vector⟩
  have haccess := core.startAccess_isAccess form instr
  have hstep : core.step arb seq = (core.accessing form instr).exchange arb
      ((core.accessing form instr).pendingOp seq (core.startAccess form instr).2) :=
    step_access ⟨h.vector, hmemOp⟩ hcached hform
  have halone : core.unbranched.step arb seq = (core.accessing form instr).unbranched.exchange arb
      ((core.accessing form instr).pendingOp seq (core.startAccess form instr).2) := by
    have hquiet' : core.unbranched.Quiet := ⟨h.vector, hmemOp⟩
    rw [step_access hquiet' hcached hform, (accessing_unbranched core form instr).1,
      (accessing_unbranched core form instr).2]
    rfl
  generalize (core.accessing form instr).pendingOp seq (core.startAccess form instr).2 = op
    at hstep halone
  by_cases hleft : (core.startAccess form instr).2.kind.left = 1
  · -- One phase.
    obtain ⟨hcore, hmemory, hdevices, hnone, hsettled⟩ :=
      hslot.exchange_last rfl haccess hleft arb op
    rw [← hstep, ← halone] at hcore hmemory hdevices
    rw [← halone] at hnone hsettled
    refine delaysOnce_of_ends h.branch (runInstruction_one ?_) (runInstruction_one hnone) hcore ?_
      hmemory hdevices
    · rw [hcore]; exact hnone
    · rw [hcore]; exact hsettled
  · -- A read-modify-write: both runs issue the write from alike cores.
    obtain ⟨hboth, hmiddle, next, hnext, hkind⟩ :=
      hslot.exchange_first rfl haccess hleft arb op
    rw [← hstep] at hboth hmiddle hnext
    rw [← halone] at hboth
    have hnext' : (core.unbranched.step arb seq).1.pendingMemOp = some next := by
      rw [hboth]; exact hnext
    have hlast : next.kind.left = 1 := by rw [hkind]; rfl
    obtain ⟨hcore, hmemory, hdevices, -, hsettled⟩ :=
      hmiddle.exchange_last hnext (by rw [hkind]; rfl) hlast (core.step arb seq).2
        ((core.step arb seq).1.pendingOp (seq + 1) next)
    have hsecond := @step_pending _ (core.step arb seq).2 (seq + 1) _ hmiddle.vector hnext
    have hsecond' := @step_pending (core.step arb seq).1.unbranched (core.step arb seq).2 (seq + 1)
      _ hmiddle.vector hnext
    refine delaysOnce_of_ends h.branch ((runInstruction_two hnext hlast).trans hsecond)
      ((runInstruction_two hnext' hlast).trans ?_) hcore ?_ hmemory hdevices
    · rw [hboth]; exact hsecond'
    · rw [hcore]; exact hsettled

/-- A transfer that is executed leaves its access pending. -/
theorem executeInstruction_transfer {instr : Instr} (h : (opcodeOf instr).isTransfer = true)
    (core : SH2Core) (trace : TraceLog) :
    ∃ pending, (core.executeInstruction instr trace).1.pendingMemOp = some pending ∧
      pending.kind.isAccess = true ∧ pending.kind.left = 1 := by
  rw [executeInstruction_pendingMemOp]
  cases hop : opcodeOf instr with
  | pushSys source => exact ⟨_, rfl, rfl, rfl⟩
  | popSys target => exact ⟨_, rfl, rfl, rfl⟩
  | _ =>
      rw [hop] at h
      exact absurd h (by simp [Opcode.isTransfer])

/-- A transfer in the slot whose fetch misses goes past the target. -/
theorem BranchSlot.overshoots (h : core.BranchSlot target) (hmemOp : core.pendingMemOp = none)
    (hslot : core.SlotInstruction arb seq) (hcached : core.cachedInstr = none)
    (htransfer : (opcodeOf (core.fetchedWord arb seq)).isTransfer = true) :
    (core.runInstruction arb seq).1.pc = target + 2 := by
  obtain ⟨c, trace, ⟨t, icache, hc⟩, hstep, -⟩ := @step_executes core arb seq ⟨h.vector, hmemOp⟩
    fun instr hsome => absurd (hcached.symm.trans hsome) (by simp)
  have hc' : c.BranchSlot target := by
    rw [hc]; exact ⟨h.branch, h.restore, h.vector⟩
  -- The branch is taken first, then the access adds two.
  obtain ⟨hcore, hsettled⟩ := hc'.execute hslot.branch trace
  obtain ⟨pending, hpending, haccess, hleft⟩ := executeInstruction_transfer htransfer c trace
  rw [← hstep] at hcore hsettled hpending
  have hvector := @step_keeps_vector core arb seq h.vector
  have hsecond := @step_pending _ (core.step arb seq).2 (seq + 1) _ hvector hpending
  rw [runInstruction_two hpending hleft, hsecond, (exchange_alone hsettled hpending haccess hleft
    _ _).1, hcore]

/-- **In the slot**: the instruction runs once and lands on the target unless it is a transfer
of a system register whose fetch misses. -/
theorem BranchSlot.once_iff (h : core.BranchSlot target) (hmemOp : core.pendingMemOp = none)
    (hslot : core.SlotInstruction arb seq) :
    core.DelaysOnce arb seq target ↔
      (core.cachedInstr = none → (opcodeOf (core.fetchedWord arb seq)).isTransfer = false) := by
  constructor
  · intro hdelays hcached
    by_contra htransfer
    rw [Bool.not_eq_false] at htransfer
    have hpast := h.overshoots hmemOp hslot hcached htransfer
    rw [hdelays.lands] at hpast
    have hne : target ≠ target + 2 := by bv_omega
    exact hne hpast
  · intro htransfer
    cases hcached : core.cachedInstr with
    | none =>
        exact h.delaysOnce_execute hmemOp hslot (htransfer hcached)
          fun instr hsome => absurd (hcached.symm.trans hsome) (by simp)
    | some instr =>
        cases hform : dataFormOf instr with
        | some form => exact h.delaysOnce_access hmemOp hcached hform
        | none =>
            have hword : core.fetchedWord arb seq = instr := by rw [fetchedWord, hcached]
            refine h.delaysOnce_execute hmemOp hslot ?_ fun other hsome => ?_
            · -- A hit knows the transfers as data accesses.
              rw [hword]
              by_contra htransfer
              obtain ⟨form, hsome⟩ := opcodeOf_transfer (by simpa using htransfer)
              exact absurd (hform.symm.trans hsome) (by simp)
            · obtain rfl := Option.some.inj (hcached.symm.trans hsome)
              exact hform

/-- The branches that a hit takes for a data access are taken for stores. -/
theorem dataFormOf_branch {instr : Instr} {op : BranchOp} (hop : opcodeOf instr = .branch op)
    {form : DataForm} (hform : dataFormOf instr = some form) :
    form = .storeDispHigh .byte ∨ form = .storeDispHigh .word := by
  have hrows : ∀ row ∈ executeTable, row.result.isBranch = true → ∀ other ∈ dataTable,
      row.value &&& other.mask = other.value &&& row.mask →
        other.result = .storeDispHigh .byte ∨ other.result = .storeDispHigh .word := by
    decide +kernel
  obtain ⟨row, hmem, other, hother, hresult, rfl, hagree⟩ :=
    opcodeOf_dataForm_rows hop (by simp) hform
  exact hrows row hmem (by rw [hresult]; rfl) other hother hagree

/-- A branch that is executed leaves its target pending. -/
theorem DelayedBranch.branchSlot (h : core.DelayedBranch arb seq target)
    (hdirect : ∀ instr, core.cachedInstr = some instr → dataFormOf instr = none) :
    (core.runInstruction arb seq).1.BranchSlot target ∧
      (core.runInstruction arb seq).1.pendingMemOp = none := by
  obtain ⟨op, hop, htarget⟩ := h.taken
  obtain ⟨c, trace, ⟨t, icache, hc⟩, hstep, -⟩ :=
    @step_executes core arb seq h.boundary.toQuiet hdirect
  have hnone : c.pendingBranchTarget = none := by rw [hc]; exact h.boundary.branch
  have htarget' : (op.exec (core.fetchedWord arb seq) c.toRegisters).2 = some target := by
    rw [hc]; exact htarget
  obtain ⟨hbranch, hpending, hrestore⟩ := executeInstruction_branch hop hnone htarget' trace
  have hmemOp : (core.step arb seq).1.pendingMemOp = none := by
    rw [hstep, hpending, hc]
    exact h.boundary.memOp
  rw [runInstruction_one hmemOp]
  refine ⟨⟨?_, ?_, step_keeps_vector h.boundary.vector⟩, hmemOp⟩
  · rw [hstep, hbranch]
  · rw [hstep, hrestore, hc]
    exact h.boundary.restore

/-- A branch that a hit takes for a data access leaves no target pending. -/
theorem DelayedBranch.not_pending (h : core.DelayedBranch arb seq target) {instr : Instr}
    (hcached : core.cachedInstr = some instr) {form : DataForm}
    (hform : dataFormOf instr = some form) :
    (core.runInstruction arb seq).1.pendingBranchTarget = none := by
  obtain ⟨op, hop, -⟩ := h.taken
  have hword : core.fetchedWord arb seq = instr := by rw [fetchedWord, hcached]
  rw [hword] at hop
  have hstep := @step_access core arb seq form instr h.boundary.toQuiet hcached hform
  have hnone : (core.accessing form instr).pendingBranchTarget = none :=
    (core.startAccess_branchTarget form instr).trans h.boundary.branch
  have hleft : (core.startAccess form instr).2.kind.left = 1 := by
    rcases dataFormOf_branch hop hform with rfl | rfl <;> rfl
  obtain ⟨-, hbranch, hmemOp⟩ := exchange_alone hnone rfl (core.startAccess_isAccess form instr)
    hleft arb ((core.accessing form instr).pendingOp seq (core.startAccess form instr).2)
  rw [← hstep] at hbranch hmemOp
  rw [runInstruction_one hmemOp, hbranch]

/-- **A delayed branch executes exactly one slot instruction and lands on its target, exactly
when the core executes the branch and the slot is no transfer of a system register whose fetch
misses.** -/
theorem delaysOnce_iff (hbranch : core.DelayedBranch arb seq target)
    (hslot : (core.runInstruction arb seq).1.SlotInstruction (core.runInstruction arb seq).2
      (seq + core.instructionSteps arb seq)) :
    (core.runInstruction arb seq).1.DelaysOnce (core.runInstruction arb seq).2
        (seq + core.instructionSteps arb seq) target ↔
      (∀ instr, core.cachedInstr = some instr → dataFormOf instr = none) ∧
        ((core.runInstruction arb seq).1.cachedInstr = none →
          (opcodeOf ((core.runInstruction arb seq).1.fetchedWord (core.runInstruction arb seq).2
            (seq + core.instructionSteps arb seq))).isTransfer = false) := by
  constructor
  · intro hdelays
    have hdirect : ∀ instr, core.cachedInstr = some instr → dataFormOf instr = none := by
      intro instr hcached
      by_contra hform
      obtain ⟨form, hform⟩ := Option.ne_none_iff_exists'.mp hform
      have hnone := hbranch.not_pending hcached hform
      exact absurd (hdelays.pending.symm.trans hnone) (by simp)
    obtain ⟨hin, hmemOp⟩ := hbranch.branchSlot hdirect
    exact ⟨hdirect, (hin.once_iff hmemOp hslot).mp hdelays⟩
  · rintro ⟨hdirect, htransfer⟩
    obtain ⟨hin, hmemOp⟩ := hbranch.branchSlot hdirect
    exact (hin.once_iff hmemOp hslot).mpr htransfer

/-- Memory that starts with `BRA` to 8 and `STC.L GBR,@-R1`. -/
def braBus : BusArbiter := { memory := ⟨[0xA0, 0x02, 0x41, 0x13] ++ List.replicate 60 0⟩ }

/-- `BRA` to 8 with `ADD #1,R1` in its slot, in one line of the cache. -/
def braAdd : SH2Core :=
  cachedCode [0xA0, 0x02, 0x71, 0x01, 0x00, 0x09, 0x00, 0x09,
    0x00, 0x09, 0x00, 0x09, 0x00, 0x09, 0x00, 0x09]

theorem delaysOnce_braAdd :
    (braAdd.runInstruction braBus 0).1.DelaysOnce (braAdd.runInstruction braBus 0).2
      (0 + braAdd.instructionSteps braBus 0) 8#32 := by
  have hcached : braAdd.cachedInstr = some 0xA002#16 := by decide
  have hslot : (braAdd.runInstruction braBus 0).1.cachedInstr = some 0x7101#16 := by decide +kernel
  have hword : (braAdd.runInstruction braBus 0).1.fetchedWord (braAdd.runInstruction braBus 0).2
      (0 + braAdd.instructionSteps braBus 0) = 0x7101#16 := by rw [fetchedWord, hslot]
  have hop : opcodeOf 0x7101#16 = .reg .addImm := by decide
  refine (delaysOnce_iff ⟨⟨⟨rfl, rfl⟩, rfl, rfl⟩, .bra, by decide, by decide⟩
    ⟨fun op => ?_, ?_, ?_, ?_⟩).mpr ⟨fun instr hsome => ?_, fun hmiss => ?_⟩
  · rw [hword, hop]; exact Opcode.noConfusion
  · rw [hword, hop]; exact Opcode.noConfusion
  · rw [hword, hop]; exact Opcode.noConfusion
  · rw [hword, hop]; exact Opcode.noConfusion
  · obtain rfl := Option.some.inj (hcached.symm.trans hsome)
    decide
  · exact absurd (hslot.symm.trans hmiss) (by simp)

/-- The core at the start of that memory, through the alias that passes the cache by. -/
def braPush : SH2Core := { pc := 0x20000000#32, r := fun _ => 0x40#32 }

/-- The push in the slot goes two bytes past the target. -/
theorem not_delaysOnce_braPush :
    ¬ ∀ (core : SH2Core) (arb : BusArbiter) (seq : Nat) (target : Addr),
      core.DelayedBranch arb seq target →
      (core.runInstruction arb seq).1.SlotInstruction (core.runInstruction arb seq).2
        (seq + core.instructionSteps arb seq) →
      (core.runInstruction arb seq).1.DelaysOnce (core.runInstruction arb seq).2
        (seq + core.instructionSteps arb seq) target := by
  intro hall
  have hword : opcodeOf ((braPush.runInstruction braBus 0).1.fetchedWord
      (braPush.runInstruction braBus 0).2
      (0 + braPush.instructionSteps braBus 0)) = .pushSys .gbr := by
    decide +kernel
  have hdelays := hall braPush braBus 0 0x20000008#32
    ⟨⟨⟨rfl, rfl⟩, rfl, rfl⟩, .bra, by decide +kernel, by decide +kernel⟩
    ⟨fun op => by rw [hword]; exact Opcode.noConfusion, by rw [hword]; exact Opcode.noConfusion,
      by rw [hword]; exact Opcode.noConfusion, fun h => by rw [hword] at h; cases h⟩
  exact absurd hdelays.lands (by decide +kernel)

end SH2Core

end Saturnis.Cpu
