/-
Exceptions and the program they interrupt.

A request that is made between two instructions, outside every handler, is
served by seven steps if the handler is RTE, NOP: three for the entry, three for
the return, one for its delay slot.  After them the core is as it was, up to
its clock and the cache lines the handler has filled, and so is the memory
outside the two pushed words; so the program goes on as if it had not been
interrupted, as long as it uses neither.

* `request_returned` — the state after the handler;
* `exception_transparent` — the program goes on alike;
* `delaySlot_not_transparent` — a request before a delay slot loses the branch.
-/
import Saturnis.Sh2Exception

namespace Saturnis.Cpu.SH2Core

open Saturnis.Core Saturnis.Mem Saturnis.Bus

variable {core : SH2Core} {arb : BusArbiter} {seq : Nat} {vector : Word}

/-- The fetch of the machine fills the line with that index. -/
def Fills (s : SH2Core × BusArbiter) (line : Nat) : Prop :=
  s.1.cachedInstr = none ∧ s.1.uncachedFetch = false ∧
    s.1.icache.indexOf (toPhys s.1.pc) = line

/-- The cache lines that the fetches of the handler fill. -/
def Displaced (core : SH2Core) (arb : BusArbiter) (seq : Nat) (vector : Word) (line : Nat) : Prop :=
  Fills (steps 3 (core.requestExceptionVector vector) arb seq) line ∨
    Fills (steps 6 (core.requestExceptionVector vector) arb seq) line

/-- The handler is RTE, NOP. -/
structure ReturnsAtOnce (core : SH2Core) (arb : BusArbiter) (seq : Nat) (vector : Word) : Prop where
  rte : (steps 3 (core.requestExceptionVector vector) arb seq).1.fetched
    (steps 3 (core.requestExceptionVector vector) arb seq).2 = rteWord
  nop : (steps 6 (core.requestExceptionVector vector) arb seq).1.fetched
    (steps 6 (core.requestExceptionVector vector) arb seq).2 = nopWord

/-! ### The handler -/

/-- The delay slot of a return. -/
theorem executeInstruction_nop {target : Addr} (hbranch : core.pendingBranchTarget = some target)
    (hrestore : core.pendingRteRestore = true) (trace : TraceLog) :
    ∃ t executed, (core.executeInstruction nopWord trace).1 =
      { core with
        pc := target
        sr := core.pendingNewSr
        pendingRteRestore := false
        pendingBranchTarget := none }.atTime t executed := by
  refine ⟨tickAdd core.t 1, tickAdd core.executed 1, ?_⟩
  have hop : opcodeOf nopWord = .reg .nop := by decide
  have hrestore' : ({ core with pendingBranchTarget := none }.dispatch (.reg .nop) nopWord
      trace).1.pendingRteRestore = true := hrestore
  rw [executeInstruction_eq, hop, hbranch, settle, takeBranch_of_restore hrestore']
  rfl

/-- Once returned from its handler, the ideal core is as it was interrupted. -/
theorem returned_alike {I : Nat → Prop} (hboundary : core.Boundary)
    (houtside : core.hasExceptionReturnContext = false) (handler : Addr) (t executed : Nat) :
    AlikeCore I ({ (core.handlerEntry handler).returning core.pc core.sr with
      pc := core.pc
      sr := core.sr
      pendingRteRestore := false
      pendingBranchTarget := none }.atTime t executed) core := by
  refine ⟨?_, fun _ hpending => absurd hpending (by simp [atTime, returning]),
    fun hrestore => absurd hrestore (by simp [atTime]), rfl, rfl, fun _ _ => rfl⟩
  have hr : Function.update (Function.update core.r 15 (core.r 15 - 8)) 15
      (Function.update core.r 15 (core.r 15 - 8) 15 + 8) = core.r := by
    rw [Function.update_self, Function.update_idem, sub_eight_add_eight, Function.update_eq_self]
  show { core.forget with
    r := Function.update (Function.update core.r 15 (core.r 15 - 8)) 15
      (Function.update core.r 15 (core.r 15 - 8) 15 + 8)
    pendingRteRestore := false
    pendingBranchTarget := none
    hasExceptionReturnContext := false
    pendingExceptionVector := none
    pendingMemOp := none } = core.forget
  rw [hr]
  simp only [forget, hboundary.restore, hboundary.branch, houtside, hboundary.vector,
    hboundary.memOp]

/-- The delay slot of the handler. -/
theorem At.returned {I : Nat → Prop} {s : SH2Core × BusArbiter} {handler : Addr}
    {memory : CommittedMemory} {devices : Dev.DeviceHub}
    (h : At I s ((core.handlerEntry handler).returning core.pc core.sr) memory devices)
    (hboundary : core.Boundary) (houtside : core.hasExceptionReturnContext = false)
    (hnop : s.1.fetched s.2 = nopWord)
    (hI : s.1.cachedInstr = none → s.1.uncachedFetch = false →
      I (s.1.icache.indexOf (toPhys s.1.pc)))
    (hclock : s.1.t ≤ (s.1.step s.2 seq).1.t) :
    At I (s.1.step s.2 seq) core memory devices := by
  have hdata : dataFormOf (s.1.fetched s.2) = none := by
    rw [hnop]
    decide
  have hslot := h.instruction ⟨rfl, rfl⟩ hdata hI hclock
  obtain ⟨t, executed, htime⟩ :=
    @executeInstruction_nop ((core.handlerEntry handler).returning core.pc core.sr) core.pc rfl rfl {}
  rw [hnop, htime] at hslot
  exact hslot.alike (returned_alike hboundary houtside handler t executed)

/-- A machine back at the state before an entry, next to that state. -/
theorem At.next {I : Nat → Prop} {s : SH2Core × BusArbiter} {returnPc : Addr}
    (h : At I s core (core.pushed arb.memory returnPc) arb.devices) (hclear : Clear arb.trace) :
    Alike core.PushedByte I s (core, arb) := by
  refine ⟨h.core, ⟨?_, fun addr haddr => ?_, h.devices⟩, ?_, ?_⟩
  · show s.2.memory.size = arb.memory.size
    rw [h.memory, pushed_size]
  · show s.2.memory.byteAt addr = arb.memory.byteAt addr
    rw [h.memory]
    exact pushed_byteAt core arb.memory returnPc haddr
  · rw [h.clear.haltOnFault]
    exact hclear.haltOnFault.symm
  · rw [h.clear.shouldHalt]
    exact hclear.shouldHalt.symm

/-- The state after the handler. -/
theorem request_returned (hboundary : core.Boundary)
    (houtside : core.hasExceptionReturnContext = false) (hclear : Clear arb.trace)
    (horder : core.InOrder arb) (hstack : core.StackRam arb.memory)
    (hhandler : core.ReturnsAtOnce arb seq vector)
    (hclock : ClockRuns 7 (core.requestExceptionVector vector) arb seq) :
    At (core.Displaced arb seq vector) (steps 7 (core.requestExceptionVector vector) arb seq) core
      (core.pushed arb.memory core.pc) arb.devices := by
  have hstart : At (core.Displaced arb seq vector) (core, arb) core arb.memory arb.devices :=
    ⟨AlikeCore.refl _, rfl, rfl, hclear, horder⟩
  have hsix := (steps_add 3 3 (core.requestExceptionVector vector) arb seq).symm
  obtain ⟨hclock6, hclock7, -⟩ := ClockRuns.add 6 1 hclock
  obtain ⟨hclock3, hclock6⟩ := ClockRuns.add 3 3 hclock6
  -- the entry
  obtain ⟨handler, h3⟩ := entry_at hstart hstack vector hclock3
  have hsp : (core.handlerEntry handler).r 15 = core.r 15 - 8 := by
    show Function.update core.r 15 (core.r 15 - 8) 15 = core.r 15 - 8
    exact Function.update_self ..
  -- the return
  have h6 := rte_at h3 ⟨rfl, rfl⟩ hboundary.branch rfl hhandler.rte
    (by rw [hsp]; exact hstack.pc.ram)
    (by rw [hsp, sub_eight_add_four]; exact hstack.sr.ram)
    (fun hmiss hcached => Or.inl ⟨hmiss, hcached, rfl⟩) hclock6
  rw [hsp, sub_eight_add_four, popped_pc hstack, popped_sr hstack, hsix] at h6
  -- the delay slot
  rw [steps_succ 6]
  exact h6.returned hboundary houtside hhandler.nop
    (fun hmiss hcached => Or.inr ⟨hmiss, hcached, rfl⟩) hclock7

/-! ### The program -/

/-- What two machines have done to registers, memory and devices; the bytes `D`
of the memory aside. -/
structure SameEffects (D : Addr → Prop) (s s' : SH2Core × BusArbiter) : Prop where
  registers : s.1.toRegisters = s'.1.toRegisters
  branch : s.1.pendingBranchTarget = s'.1.pendingBranchTarget
  size : s.2.memory.size = s'.2.memory.size
  bytes : ∀ addr, ¬ D addr → s.2.memory.byteAt addr = s'.2.memory.byteAt addr
  devices : s.2.devices.unlogged = s'.2.devices.unlogged

theorem Alike.effects {D : Addr → Prop} {I : Nat → Prop} {s s' : SH2Core × BusArbiter}
    (h : Alike D I s s') : SameEffects D s s' :=
  ⟨h.core.registers, h.core.branchTarget, h.bus.store.size, h.bus.store.bytes,
    h.bus.store.devices⟩

/-- **Exceptions are transparent at rest.**  In every run, a request that is made
after a step that leaves nothing pending, outside a handler, is served by seven
steps if the handler is RTE, NOP, and the program goes on as it does without
the request. -/
theorem exception_transparent (core : SH2Core) (arb : BusArbiter) (seq n k : Nat) (vector : Word)
    {s : SH2Core × BusArbiter} (hs : steps n core arb seq = s)
    (hclear : Clear arb.trace) (horder : core.InOrder arb)
    (hrun : ClockRuns (n + k) core arb seq)
    (hrest : s.1.Boundary) (houtside : s.1.hasExceptionReturnContext = false)
    (hstack : s.1.StackRam s.2.memory) (hhandler : s.1.ReturnsAtOnce s.2 (seq + n) vector)
    (hclock : ClockRuns (7 + k) (s.1.requestExceptionVector vector) s.2 (seq + n))
    (hunused : StaysApart s.1.PushedByte (s.1.Displaced s.2 (seq + n) vector) k s.1 s.2
      (seq + n)) :
    SameEffects s.1.PushedByte
      (steps (7 + k) (s.1.requestExceptionVector vector) s.2 (seq + n))
      (steps (n + k) core arb seq) := by
  obtain ⟨hreach, hgo⟩ := ClockRuns.add n k hrun
  obtain ⟨hclear', horder'⟩ := hclear.steps n horder hreach
  rw [steps_add n k, steps_add 7 k]
  rw [hs] at hclear' horder' hgo ⊢
  obtain ⟨hserve, hafter⟩ := ClockRuns.add 7 k hclock
  have hreturned := request_returned hrest houtside hclear' horder' hstack hhandler hserve
  generalize steps 7 (s.1.requestExceptionVector vector) s.2 (seq + n) = returned at *
  exact ((hreturned.next hclear').steps k hunused hreturned.order horder' hafter hgo).effects

/-- One `NOP` is done, the other is next. -/
def betweenNops : SH2Core × BusArbiter := steps 1 bareCore { memory := handlerMemory nopProgram } 0

/-- The fetch of the second `NOP` reads none of the bytes below the stack. -/
theorem betweenNops_staysApart (I : Nat → Prop) :
    StaysApart betweenNops.1.PushedByte I 1 betweenNops.1 betweenNops.2 1 := by
  have hquiet : betweenNops.1.Quiet := ⟨by decide, by decide⟩
  have huncached : betweenNops.1.uncachedFetch = true := by decide
  have hsp : betweenNops.1.r 15 = 0x40#32 := by decide
  refine ⟨⟨fun _ hcached => absurd hcached (by simp [huncached]), ?_⟩, trivial⟩
  intro trace op hop addr hpushed hreads
  rw [produce_fetch hquiet (by decide)] at hop
  obtain rfl := Option.some_inj.mp hop
  have hfetch : betweenNops.1.fetchOp 1 = betweenNops.1.produceIfetch 1 := by
    rw [fetchOp, if_pos huncached]
  have haddr : (betweenNops.1.produceIfetch 1).physAddr = 0x22#32 := by decide
  rw [hfetch, BusOp.reads, haddr] at hreads
  rw [PushedByte, hsp] at hpushed
  rcases hreads.2.2 with hword | hline
  · have hword : (addr - 0x22#32).toNat < 2 := hword
    have h4 : toPhys (0x40#32 - 4) = 0x3C#32 := by decide
    have h8 : toPhys (0x40#32 - 8) = 0x38#32 := by decide
    rw [h4, h8] at hpushed
    bv_omega
  · exact absurd hline.1 (by decide)

theorem betweenNops_transparent :
    SameEffects betweenNops.1.PushedByte
      (steps (7 + 1) (betweenNops.1.requestExceptionVector 0) betweenNops.2 1)
      (steps (1 + 1) bareCore { memory := handlerMemory nopProgram } 0) :=
  exception_transparent bareCore { memory := handlerMemory nopProgram } 0 1 1 0 rfl
    ⟨rfl, rfl⟩ ⟨by decide, by decide⟩ (by decide +kernel) ⟨⟨by decide, by decide⟩, by decide, by decide⟩
    (by decide) ⟨⟨by decide, by decide⟩, ⟨by decide, by decide⟩⟩
    ⟨by decide +kernel, by decide +kernel⟩ (by decide +kernel) (betweenNops_staysApart _)

/-- `BRA` over `NOP` to `ADD #1,R0`. -/
def branchProgram : List Byte :=
  [0xA0, 0x04, 0x00, 0x09, 0x00, 0x09, 0x00, 0x09, 0x00, 0x09, 0x00, 0x09, 0x70, 0x01]

/-- The branch is pending, its delay slot is next. -/
def beforeSlot : SH2Core × BusArbiter := steps 1 bareCore { memory := handlerMemory branchProgram } 0

/-- A request before a delay slot: the handler returns without the branch. -/
theorem delaySlot_not_transparent :
    beforeSlot.1.StackRam beforeSlot.2.memory ∧
      beforeSlot.2.memory.read 0x10#32 4 = 0x002B0009#32 ∧
      (steps 7 (beforeSlot.1.requestExceptionVector 0) beforeSlot.2 1).1.pc = beforeSlot.1.pc ∧
      ¬ SameEffects beforeSlot.1.PushedByte
        (steps 7 (beforeSlot.1.requestExceptionVector 0) beforeSlot.2 1) beforeSlot := by
  refine ⟨⟨⟨by decide, by decide⟩, ⟨by decide, by decide⟩⟩, by decide, by decide +kernel, ?_⟩
  have hbranch :
      (steps 7 (beforeSlot.1.requestExceptionVector 0) beforeSlot.2 1).1.pendingBranchTarget ≠
        beforeSlot.1.pendingBranchTarget := by decide +kernel
  exact fun hsame => hbranch hsame.branch

end Saturnis.Cpu.SH2Core
