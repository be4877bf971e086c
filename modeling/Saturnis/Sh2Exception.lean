/-
Entry of a handler and return from it.

A request pushes `sr` and `pc` below `r15` and goes to the address the vector
holds; TRAPA does the same with the address of the next instruction.  RTE, with
a return context, pops both and returns after its delay slot.

* `entry_at`, `trapa_at` — the state at the first instruction of the handler;
* `rte_at`, `rte_fault_at` — the state once an RTE has popped what it returns to,
  or has found that there is no return context;
* `popped_pc`, `popped_sr` — the words of the stack are those that were pushed.
-/
import Saturnis.Sh2Phase

namespace Saturnis.Cpu.SH2Core

open Saturnis.Core Saturnis.Mem Saturnis.Bus

variable {I : Nat → Prop} {core : SH2Core} {arb : BusArbiter} {seq : Nat}
  {memory : CommittedMemory} {devices : Dev.DeviceHub}

/-! ### Ideal states -/

/-- At the first instruction of a handler. -/
def handlerEntry (core : SH2Core) (handler : Addr) : SH2Core :=
  { core with
    r := Function.update core.r 15 (core.r 15 - 8)
    pc := handler
    hasExceptionReturnContext := true
    pendingMemOp := none
    pendingExceptionVector := none }

/-- An RTE has popped the address and the status it returns to. -/
def returning (core : SH2Core) (returnPc : Addr) (returnSr : Word) : SH2Core :=
  { core with
    r := Function.update core.r 15 (core.r 15 + 8)
    pc := core.pc + 2
    pendingNewPc := returnPc
    pendingNewSr := returnSr
    pendingRteRestore := true
    pendingBranchTarget := some returnPc
    hasExceptionReturnContext := false
    pendingMemOp := none }

/-- The memory with `sr` and the return address pushed. -/
def pushed (core : SH2Core) (memory : CommittedMemory) (returnPc : Addr) : CommittedMemory :=
  (memory.write (toPhys (core.r 15 - 4)) 4 core.sr).write (toPhys (core.r 15 - 8)) 4 returnPc

/-- The two words below `r15` are in RAM. -/
structure StackRam (core : SH2Core) (memory : CommittedMemory) : Prop where
  sr : RamWord memory (toPhys (core.r 15 - 4))
  pc : RamWord memory (toPhys (core.r 15 - 8))

def rteWord : Instr := 0x002B#16

def nopWord : Instr := 0x0009#16

theorem sub_four_four (sp : Word) : sp - 4 - 4 = sp - 8 := by
  bv_omega

theorem add_four_four (sp : Word) : sp + 4 + 4 = sp + 8 := by
  bv_omega

/-! ### Entry -/

/-- A phase of an entry: the stack pointer so far and what is pending. -/
def entering (core : SH2Core) (sp : Word) (pending : PendingMemOp) : SH2Core :=
  { core.setReg 15 sp with pendingMemOp := some pending, pendingExceptionVector := none }

@[simp] theorem entering_r15 (core : SH2Core) (sp : Word) (pending : PendingMemOp) :
    (core.entering sp pending).r 15 = sp := by
  show Function.update core.r 15 sp 15 = sp
  exact Function.update_self ..

def pushOf (kind : PendingKind) (sp value aux : Word) : PendingMemOp :=
  { kind := kind, physAddr := toPhys sp, value := value, aux := aux }

/-- The next push of an entry is one word below. -/
theorem entering_next (core : SH2Core) (sp value aux : Word) (kind : PendingKind)
    (pending : PendingMemOp) :
    { (core.entering sp pending).setReg 15 ((core.entering sp pending).r 15 - 4) with
      pendingMemOp := some (pushOf kind
        (((core.entering sp pending).setReg 15 ((core.entering sp pending).r 15 - 4)).r 15) value
        aux) } =
      core.entering (sp - 4) (pushOf kind (sp - 4) value aux) := by
  show { core with
      r := Function.update (Function.update core.r 15 sp) 15 (Function.update core.r 15 sp 15 - 4)
      pendingMemOp := some (pushOf kind
        (Function.update (Function.update core.r 15 sp) 15
          (Function.update core.r 15 sp 15 - 4) 15) value aux)
      pendingExceptionVector := none } = _
  rw [Function.update_self, Function.update_self, Function.update_idem]
  rfl

theorem entering_pushSr (core : SH2Core) (sp sr vector value : Word) :
    { core.entering sp (pushOf .exceptionPushSr sp sr vector) with
      pendingMemOp := none }.advancePending (pushOf .exceptionPushSr sp sr vector) value =
      core.entering (sp - 4) (pushOf .exceptionPushPc (sp - 4) core.pc vector) :=
  core.entering_next sp core.pc vector .exceptionPushPc (pushOf .exceptionPushSr sp sr vector)

theorem entering_trapaPushSr (core : SH2Core) (sp sr value : Word) :
    { core.entering sp (pushOf .trapaPushSr sp sr 0) with
      pendingMemOp := none }.advancePending (pushOf .trapaPushSr sp sr 0) value =
      core.entering (sp - 4) (pushOf .trapaPushPc (sp - 4) (core.pc + 2) 0) :=
  core.entering_next sp (core.pc + 2) 0 .trapaPushPc (pushOf .trapaPushSr sp sr 0)

/-- The request is answered by the first push. -/
theorem step_request (core : SH2Core) (arb : BusArbiter) (seq : Nat) (vector : Word) :
    (core.requestExceptionVector vector).step arb seq =
      (core.entering (core.r 15 - 4)
        (pushOf .exceptionPushSr (core.r 15 - 4) core.sr vector)).step
        { arb with trace := arb.trace.addFault (core.fault vector "EXCEPTION_ENTRY") } seq := by
  have henter : (core.requestExceptionVector vector).enterException vector =
      (core.entering (core.r 15 - 4) (pushOf .exceptionPushSr (core.r 15 - 4) core.sr vector),
        pushOf .exceptionPushSr (core.r 15 - 4) core.sr vector) := by
    have hpush : ((core.requestExceptionVector vector).enterException vector).2 =
        pushOf .exceptionPushSr (core.r 15 - 4) core.sr vector := by
      show pushOf _ (Function.update core.r 15 (core.r 15 - 4) 15) _ _ = _
      rw [Function.update_self]
      rfl
    refine Prod.ext ?_ hpush
    show { core.setReg 15 (core.r 15 - 4) with
      pendingMemOp := some ((core.requestExceptionVector vector).enterException vector).2
      pendingExceptionVector := none } = _
    rw [hpush]
    rfl
  rw [step_vector rfl, henter]
  exact (step_pending rfl rfl).symm

/-- The state at the handler of a request that is made at the end of an
instruction. -/
theorem entry_at (h : At I (core, arb) core memory devices) (hstack : core.StackRam memory)
    (vector : Word) (hclock : ClockRuns 3 (core.requestExceptionVector vector) arb seq) :
    ∃ handler, At I (steps 3 (core.requestExceptionVector vector) arb seq)
      (core.handlerEntry handler) (core.pushed memory core.pc) devices := by
  obtain ⟨hclock1, hclock2, hclock3, -⟩ := hclock
  rw [steps, steps, steps, steps]
  rw [step_request] at hclock1 hclock2 hclock3 ⊢
  have hstart : At I
      (core.entering (core.r 15 - 4) (pushOf .exceptionPushSr (core.r 15 - 4) core.sr vector),
        { arb with trace := arb.trace.addFault (core.fault vector "EXCEPTION_ENTRY") })
      (core.entering (core.r 15 - 4) (pushOf .exceptionPushSr (core.r 15 - 4) core.sr vector))
      memory devices :=
    ⟨AlikeCore.refl _, h.memory, h.devices, h.clear.addFault _, h.order⟩
  -- the push of `sr`
  obtain ⟨v1, h1⟩ := hstart.push rfl rfl rfl rfl hstack.sr.ram hclock1
  rw [entering_pushSr, sub_four_four] at h1
  -- the push of `pc`
  obtain ⟨v2, h2⟩ := h1.push rfl rfl rfl rfl hstack.pc.ram hclock2
  -- the vector
  obtain ⟨v3, h3, -⟩ := h2.pop rfl rfl rfl hclock3
  exact ⟨v3, h3⟩

/-! ### TRAPA -/

theorem dataFormOf_trapa {instr : Instr} (h : opcodeOf instr = .trapa) : dataFormOf instr = none := by
  have hword := opcodeOf_trapa.mp h
  rw [dataFormOf, lookup_eq_none]
  intro row hmem
  have hapart : ∀ row ∈ dataTable, row.value &&& 0xFF00#16 ≠ 0xC300#16 &&& row.mask := by decide
  rw [← Bool.not_eq_true]
  intro hmatches
  have hrow : (⟨0xFF00, 0xC300, ()⟩ : Row Unit).matches instr = true := beq_iff_eq.mpr hword
  exact hapart row hmem (Row.agree hmatches hrow)

theorem noBranch_eq (hbranch : core.pendingBranchTarget = none) :
    { core with pendingBranchTarget := none } = core := by
  rw [← hbranch]

theorem noVector_eq (hvector : core.pendingExceptionVector = none) :
    { core with pendingExceptionVector := none } = core := by
  rw [← hvector]

/-- TRAPA is a push of `sr` that waits. -/
theorem executeInstruction_trapa {instr : Instr} (h : opcodeOf instr = .trapa)
    (hvector : core.pendingExceptionVector = none) (hbranch : core.pendingBranchTarget = none)
    (trace : TraceLog) :
    ∃ t executed, (core.executeInstruction instr trace).1 =
      ({ core with pendingTrapaImm := some instr.fieldImm8 }.entering (core.r 15 - 4)
        (pushOf .trapaPushSr (core.r 15 - 4) core.sr 0)).atTime t executed := by
  refine ⟨tickAdd core.t 1, tickAdd core.executed 1, ?_⟩
  have hsp : (core.setReg 15 (core.r 15 - 4)).r 15 = core.r 15 - 4 := by
    show Function.update core.r 15 (core.r 15 - 4) 15 = core.r 15 - 4
    exact Function.update_self ..
  have hcore : ({ core with pendingTrapaImm := some instr.fieldImm8 }.entering (core.r 15 - 4)
      (pushOf .trapaPushSr (core.r 15 - 4) core.sr 0)) =
      { core.setReg 15 (core.r 15 - 4) with
        pendingTrapaImm := some instr.fieldImm8
        pendingMemOp := some (pushOf .trapaPushSr (core.r 15 - 4) core.sr 0) } := by
    have hvector' : ({ core.setReg 15 (core.r 15 - 4) with
        pendingTrapaImm := some instr.fieldImm8
        pendingMemOp := some (pushOf .trapaPushSr (core.r 15 - 4) core.sr 0) } :
          SH2Core).pendingExceptionVector = none := hvector
    exact noVector_eq hvector'
  rw [hcore, executeInstruction_eq, noBranch_eq hbranch, h, dispatch, hbranch]
  simp only [hsp]
  rfl

/-- The state at the handler of a TRAPA. -/
theorem trapa_at {s : SH2Core × BusArbiter} (h : At I s core memory devices)
    (hquiet : core.Quiet) (hbranch : core.pendingBranchTarget = none)
    (htrapa : opcodeOf (s.1.fetched s.2) = .trapa) (hstack : core.StackRam memory)
    (hI : s.1.cachedInstr = none → s.1.uncachedFetch = false →
      I (s.1.icache.indexOf (toPhys s.1.pc)))
    (hclock : ClockRuns 4 s.1 s.2 seq) :
    ∃ handler, At I (steps 4 s.1 s.2 seq)
      { core.handlerEntry handler with pendingTrapaImm := none }
      (core.pushed memory (core.pc + 2)) devices := by
  obtain ⟨hclock1, hclock2, hclock3, hclock4, -⟩ := hclock
  rw [steps, steps, steps, steps, steps]
  -- the instruction
  have h1 := h.instruction hquiet (dataFormOf_trapa htrapa) hI hclock1
  obtain ⟨t, executed, htime⟩ := executeInstruction_trapa htrapa hquiet.vector hbranch {}
  rw [htime] at h1
  have h1 := h1.alike (AlikeCore.atTime _ t executed)
  -- the push of `sr`
  obtain ⟨v2, h2⟩ := h1.push rfl rfl rfl rfl hstack.sr.ram hclock2
  rw [entering_trapaPushSr, sub_four_four] at h2
  -- the push of `pc`
  obtain ⟨v3, h3⟩ := h2.push rfl rfl rfl rfl hstack.pc.ram hclock3
  -- the vector
  obtain ⟨v4, h4, -⟩ := h3.pop rfl rfl rfl hclock4
  exact ⟨v4, h4⟩

/-! ### Return -/

def popOf (kind : PendingKind) (sp : Word) : PendingMemOp :=
  { kind := kind, physAddr := toPhys sp }

/-- The first phase of a return waits. -/
def poppingPc (core : SH2Core) : SH2Core :=
  { core with pc := core.pc + 2, pendingMemOp := some (popOf .rtePopPc (core.r 15)) }

/-- The second phase of a return waits. -/
def poppingSr (core : SH2Core) (returnPc : Addr) : SH2Core :=
  { core.setReg 15 (core.r 15 + 4) with
    pc := core.pc + 2
    pendingNewPc := returnPc
    pendingMemOp := some (popOf .rtePopSr (core.r 15 + 4)) }

theorem advance_rtePopPc (core : SH2Core) (returnPc : Addr) :
    { core.poppingPc with pendingMemOp := none }.advancePending (popOf .rtePopPc (core.r 15))
      returnPc = core.poppingSr returnPc := by
  have hsp : (core.setReg 15 (core.r 15 + 4)).r 15 = core.r 15 + 4 := by
    show Function.update core.r 15 (core.r 15 + 4) 15 = core.r 15 + 4
    exact Function.update_self ..
  rw [poppingSr, ← hsp]
  rfl

theorem advance_rtePopSr (core : SH2Core) (returnPc returnSr : Word) :
    { core.poppingSr returnPc with pendingMemOp := none }.advancePending
      (popOf .rtePopSr (core.r 15 + 4)) returnSr = core.returning returnPc returnSr := by
  have hr : Function.update (Function.update core.r 15 (core.r 15 + 4)) 15
      (Function.update core.r 15 (core.r 15 + 4) 15 + 4) =
      Function.update core.r 15 (core.r 15 + 8) := by
    rw [Function.update_self, Function.update_idem, add_four_four]
  rw [returning, ← hr]
  rfl

theorem executeInstruction_rte (hcontext : core.hasExceptionReturnContext = true)
    (hbranch : core.pendingBranchTarget = none) (trace : TraceLog) :
    ∃ t executed, (core.executeInstruction rteWord trace).1 = core.poppingPc.atTime t executed := by
  refine ⟨tickAdd core.t 1, tickAdd core.executed 1, ?_⟩
  have hop : opcodeOf rteWord = .rte := opcodeOf_rte.mpr rfl
  rw [poppingPc, executeInstruction_eq, noBranch_eq hbranch, hop, dispatch,
    if_neg (by simp [hcontext]), hbranch]
  rfl

/-- An RTE without a return context goes on to the next instruction. -/
theorem executeInstruction_rte_fault (hcontext : core.hasExceptionReturnContext = false)
    (hbranch : core.pendingBranchTarget = none) (trace : TraceLog) :
    ∃ t executed, (core.executeInstruction rteWord trace).1 =
      { core with pc := core.pc + 2 }.atTime t executed := by
  refine ⟨tickAdd core.t 1, tickAdd core.executed 1, ?_⟩
  have hop : opcodeOf rteWord = .rte := opcodeOf_rte.mpr rfl
  rw [executeInstruction_eq, noBranch_eq hbranch, hop, dispatch, if_pos (by simp [hcontext]),
    hbranch]
  rfl

/-- The state once an RTE is decoded. -/
theorem rte_first {s : SH2Core × BusArbiter} (h : At I s core memory devices)
    (hquiet : core.Quiet) (hbranch : core.pendingBranchTarget = none)
    (hcontext : core.hasExceptionReturnContext = true) (hrte : s.1.fetched s.2 = rteWord)
    (hI : s.1.cachedInstr = none → s.1.uncachedFetch = false →
      I (s.1.icache.indexOf (toPhys s.1.pc)))
    (hclock : s.1.t ≤ (s.1.step s.2 seq).1.t) :
    At I (s.1.step s.2 seq) core.poppingPc memory devices := by
  have h1 := h.instruction hquiet (by rw [hrte]; decide) hI hclock
  obtain ⟨t, executed, htime⟩ := executeInstruction_rte hcontext hbranch {}
  rw [hrte, htime] at h1
  exact h1.alike (AlikeCore.atTime _ t executed)

/-- The state once an RTE has popped what it returns to. -/
theorem rte_at {s : SH2Core × BusArbiter} (h : At I s core memory devices)
    (hquiet : core.Quiet) (hbranch : core.pendingBranchTarget = none)
    (hcontext : core.hasExceptionReturnContext = true) (hrte : s.1.fetched s.2 = rteWord)
    (hpc : isMmio (toPhys (core.r 15)) = false) (hsr : isMmio (toPhys (core.r 15 + 4)) = false)
    (hI : s.1.cachedInstr = none → s.1.uncachedFetch = false →
      I (s.1.icache.indexOf (toPhys s.1.pc)))
    (hclock : ClockRuns 3 s.1 s.2 seq) :
    At I (steps 3 s.1 s.2 seq)
      (core.returning (memory.read (toPhys (core.r 15)) 4)
        (memory.read (toPhys (core.r 15 + 4)) 4)) memory devices := by
  obtain ⟨hclock1, hclock2, hclock3, -⟩ := hclock
  rw [steps, steps, steps, steps]
  -- the instruction
  have h1 := rte_first h hquiet hbranch hcontext hrte hI hclock1
  -- the return address
  obtain ⟨v2, h2, hv2⟩ := h1.pop hquiet.vector rfl rfl hclock2
  have hv2 : v2 = memory.read (toPhys (core.r 15)) 4 := hv2 hpc rfl
  rw [advance_rtePopPc, hv2] at h2
  -- the status
  obtain ⟨v3, h3, hv3⟩ := h2.pop hquiet.vector rfl rfl hclock3
  have hv3 : v3 = memory.read (toPhys (core.r 15 + 4)) 4 := hv3 hsr rfl
  rw [advance_rtePopSr, hv3] at h3
  exact h3

/-- An RTE without a return context is done at once. -/
theorem rte_fault_at {s : SH2Core × BusArbiter} (h : At I s core memory devices)
    (hquiet : core.Quiet) (hbranch : core.pendingBranchTarget = none)
    (hcontext : core.hasExceptionReturnContext = false) (hrte : s.1.fetched s.2 = rteWord)
    (hI : s.1.cachedInstr = none → s.1.uncachedFetch = false →
      I (s.1.icache.indexOf (toPhys s.1.pc)))
    (hclock : s.1.t ≤ (s.1.step s.2 seq).1.t) :
    At I (s.1.step s.2 seq) { core with pc := core.pc + 2 } memory devices := by
  have h1 := h.instruction hquiet (by rw [hrte]; decide) hI hclock
  obtain ⟨t, executed, htime⟩ := executeInstruction_rte_fault hcontext hbranch {}
  rw [hrte, htime] at h1
  exact h1.alike (AlikeCore.atTime _ t executed)

/-! ### The words of the stack -/

theorem toNat_toPhys (vaddr : Addr) : (toPhys vaddr).toNat = vaddr.toNat % 2 ^ 29 := by
  rw [toPhys, BitVec.toNat_and]
  exact Nat.and_two_pow_sub_one_eq_mod vaddr.toNat 29

theorem sub_eight_add_four (sp : Word) : sp - 8 + 4 = sp - 4 := by
  bv_omega

theorem sub_eight_add_eight (sp : Word) : sp - 8 + 8 = sp := by
  bv_omega

/-- The two words of an entry do not overlap. -/
theorem pushed_apart (sp addr : Word) (h : (addr - toPhys (sp - 4)).toNat < 4) :
    4 ≤ (addr - toPhys (sp - 8)).toNat := by
  have h4 := toNat_toPhys (sp - 4)
  have h8 := toNat_toPhys (sp - 8)
  bv_omega

theorem popped_pc (h : core.StackRam memory) (returnPc : Addr) :
    (core.pushed memory returnPc).read (toPhys (core.r 15 - 8)) 4 = returnPc := by
  refine CommittedMemory.read_write_self ?_ returnPc
  rw [CommittedMemory.size_write]
  exact h.pc.inside

theorem popped_sr (h : core.StackRam memory) (returnPc : Addr) :
    (core.pushed memory returnPc).read (toPhys (core.r 15 - 4)) 4 = core.sr := by
  rw [pushed, CommittedMemory.read_write_apart _ (by omega) _ (pushed_apart (core.r 15))]
  exact CommittedMemory.read_write_self h.sr.inside core.sr

/-- The bytes an entry writes. -/
def PushedByte (core : SH2Core) (addr : Addr) : Prop :=
  (addr - toPhys (core.r 15 - 4)).toNat < 4 ∨ (addr - toPhys (core.r 15 - 8)).toNat < 4

theorem pushed_byteAt (core : SH2Core) (memory : CommittedMemory) (returnPc : Addr) {addr : Addr}
    (h : ¬ core.PushedByte addr) : (core.pushed memory returnPc).byteAt addr = memory.byteAt addr := by
  rw [PushedByte, not_or, Nat.not_lt, Nat.not_lt] at h
  rw [pushed, CommittedMemory.byteAt_write_apart _ (by omega) _ h.2,
    CommittedMemory.byteAt_write_apart _ (by omega) _ h.1]

theorem pushed_size (core : SH2Core) (memory : CommittedMemory) (returnPc : Addr) :
    (core.pushed memory returnPc).size = memory.size := by
  rw [pushed, CommittedMemory.size_write, CommittedMemory.size_write]

/-! ### A small memory -/

/-- A core without a cache line for its code, on a memory of sixteen words. -/
def bareCore : SH2Core := { pc := 0x20000020#32, r := fun _ => 0x40#32 }

/-- The vector 0, a handler `RTE; NOP`, and a program. -/
def handlerMemory (program : List Byte) : CommittedMemory :=
  ⟨[0x20, 0x00, 0x00, 0x10] ++ List.replicate 12 0 ++ [0x00, 0x2B, 0x00, 0x09] ++
    List.replicate 12 0 ++ program ++ List.replicate (32 - program.length) 0⟩

/-- `NOP; NOP` -/
def nopProgram : List Byte := [0x00, 0x09, 0x00, 0x09]

end Saturnis.Cpu.SH2Core
