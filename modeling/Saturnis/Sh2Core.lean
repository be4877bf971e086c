/-
The SH-2 core.

`produceUntilBus` runs cached instructions up to the next one that needs the
bus, `applyIfetchAndStep` takes the response.  An instruction with a data
access, TRAPA, RTE and the entry of an exception are done in phases: the
operation of the next phase waits in `pendingMemOp`.  In every branch of
`produce_until_bus` that starts a data access, the operation it returns is the
one a later call returns for what it left pending, so `pendingOp` gives both.

The fields `exception_return_pc_`, `exception_return_sr_` and
`post_inc_base_before` of the source are written and never read; they are left
out.  `step` passes the trace of the arbiter, the one its callers pass.
-/
import Saturnis.ArbiterCore
import Saturnis.Sh2Registers

namespace Saturnis.Cpu

open Saturnis.Core Saturnis.Mem Saturnis.Bus

inductive PendingKind
  | readLong | writeLong | readWord | writeWord | readByte | writeByte
  | exceptionPushSr | exceptionPushPc | exceptionVectorRead
  | trapaPushSr | trapaPushPc | trapaVectorRead
  | rtePopPc | rtePopSr
  | rmwAndByteRead | rmwXorByteRead | rmwOrByteRead | rmwWriteByte
deriving DecidableEq, Repr

def PendingKind.isWrite : PendingKind → Bool
  | writeByte | writeWord | writeLong => true
  | exceptionPushSr | exceptionPushPc | trapaPushSr | trapaPushPc => true
  | rmwWriteByte => true
  | _ => false

structure PendingMemOp where
  kind : PendingKind := .readLong
  physAddr : Addr := 0
  size : Nat := 4
  value : Word := 0
  dstReg : Fin 16 := 0
  postIncReg : Option (Fin 16) := none
  postIncSize : Word := 0
  aux : Word := 0
deriving DecidableEq, Repr

structure SH2Core extends Registers where
  cpuId : Int := 0
  t : Nat := 0
  executed : Nat := 0
  pendingMemOp : Option PendingMemOp := none
  pendingBranchTarget : Option Addr := none
  pendingExceptionVector : Option Word := none
  hasExceptionReturnContext : Bool := false
  pendingNewPc : Addr := 0
  pendingNewSr : Word := 0
  pendingRteRestore : Bool := false
  pendingTrapaImm : Option Word := none
  icache : TinyCache := TinyCache.make 16 64

/-- The number that tells a pending load which system register it is for. -/
def SysReg.loadAux : SysReg → Word
  | .pr => 1
  | .sr => 2
  | .gbr => 3
  | .vbr => 4
  | .mach => 5
  | .macl => 6

def sysRegOfAux (aux : Word) : Option SysReg :=
  if aux = 1 then some .pr
  else if aux = 2 then some .sr
  else if aux = 3 then some .gbr
  else if aux = 4 then some .vbr
  else if aux = 5 then some .mach
  else if aux = 6 then some .macl
  else none

def AccessWidth.readKind : AccessWidth → PendingKind
  | byte => .readByte
  | word => .readWord
  | long => .readLong

def AccessWidth.writeKind : AccessWidth → PendingKind
  | byte => .writeByte
  | word => .writeWord
  | long => .writeLong

/-- The part of a register that is stored. -/
def AccessWidth.truncate (width : AccessWidth) (value : Word) : Word :=
  match width with
  | byte => value &&& 0xFF#32
  | word => value &&& 0xFFFF#32
  | long => value

def AccessWidth.scale (width : AccessWidth) : Word := BitVec.ofNat 32 width.bytes

def RmwOp.readKind : RmwOp → PendingKind
  | and => .rmwAndByteRead
  | xor => .rmwXorByteRead
  | or => .rmwOrByteRead

/-- The byte a read-modify-write stores. -/
def RmwOp.apply (op : RmwOp) (byte imm : Byte) : Byte :=
  match op with
  | and => byte &&& imm
  | xor => byte ^^^ imm
  | or => byte ||| imm

def dataAccessKind (physAddr : Addr) (isWrite : Bool) : BusKind :=
  if isMmio physAddr then (if isWrite then .mmioWrite else .mmioRead)
  else if isWrite then .write else .read

structure Sh2ProduceResult where
  op : Option BusOp := none
  executed : Nat := 0
deriving DecidableEq, Repr

namespace SH2Core

def reset (core : SH2Core) (pc : Addr) (sp : Word) : SH2Core :=
  { cpuId := core.cpuId
    icache := core.icache
    pc
    r := Function.update core.r 15 sp
    sr := 0xF0#32 }

def snapshot (core : SH2Core) : CpuSnapshot := ⟨core.t, core.cpuId, core.pc, core.sr, core.r⟩

def requestExceptionVector (core : SH2Core) (vector : Word) : SH2Core :=
  { core with pendingExceptionVector := some vector }

def setReg (core : SH2Core) (n : Fin 16) (value : Word) : SH2Core :=
  { core with r := Function.update core.r n value }

/-- The end of an instruction or of a phase of one. -/
def retire (core : SH2Core) (trace : TraceLog) : SH2Core × TraceLog :=
  let core := { core with t := tickAdd core.t 1, executed := tickAdd core.executed 1 }
  (core, trace.addState core.snapshot)

/-- The delay slot is done: the branch is taken, and an RTE restores `sr`. -/
def takeBranch (core : SH2Core) (target : Addr) : SH2Core :=
  let core :=
    if core.pendingRteRestore then
      { core with sr := core.pendingNewSr, pendingRteRestore := false }
    else core
  { core with pc := target }

def fault (core : SH2Core) (detail : Word) (reason : String) : FaultEvent :=
  ⟨core.t, core.cpuId, core.pc, detail, reason⟩

/-! ### Instructions -/

/-- The branches of `execute_instruction`, with the target of a delayed branch. -/
def dispatch (core : SH2Core) (op : Opcode) (instr : Instr) (trace : TraceLog) :
    SH2Core × Option Addr × TraceLog :=
  match op with
  | .reg op =>
    ({ core with
      toRegisters := op.exec instr core.toRegisters
      t := if op = .mulL then tickAdd core.t 1 else core.t }, none, trace)
  | .branch op =>
    let (registers, target) := op.exec instr core.toRegisters
    ({ core with toRegisters := registers }, target, trace)
  | .pushSys source =>
    let n := instr.fieldN
    let core := core.setReg n (core.r n - 4)
    let pending : PendingMemOp :=
      { kind := .writeLong, physAddr := toPhys (core.r n), value := core.getSys source }
    ({ core with pendingMemOp := some pending, pc := core.pc + 2 }, none, trace)
  | .popSys target =>
    let m := instr.fieldN
    let pending : PendingMemOp :=
      { physAddr := toPhys (core.r m), postIncReg := some m, postIncSize := 4,
        aux := target.loadAux }
    ({ core with pendingMemOp := some pending, pc := core.pc + 2 }, none, trace)
  | .rte =>
    if !core.hasExceptionReturnContext then
      ({ core with pc := core.pc + 2 }, none,
        trace.addFault (core.fault 0 "SYNTHETIC_RTE_WITHOUT_CONTEXT"))
    else
      let pending : PendingMemOp := { kind := .rtePopPc, physAddr := toPhys (core.r 15) }
      let core := { core with pendingMemOp := some pending, pc := core.pc + 2 }
      (core, none, trace.addFault (core.fault 0 "EXCEPTION_RETURN"))
  | .trapa =>
    let core := core.setReg 15 (core.r 15 - 4)
    let pending : PendingMemOp :=
      { kind := .trapaPushSr, physAddr := toPhys (core.r 15), value := core.sr }
    ({ core with pendingTrapaImm := some instr.fieldImm8, pendingMemOp := some pending },
      none, trace)
  | .illegal =>
    ({ core with pc := core.pc + 2 }, none,
      trace.addFault (core.fault (instr.setWidth 32) "ILLEGAL_OP"))

def executeInstruction (core : SH2Core) (instr : Instr) (trace : TraceLog) :
    SH2Core × TraceLog :=
  let delaySlotTarget := core.pendingBranchTarget
  let (core, nextBranchTarget, trace) :=
    { core with pendingBranchTarget := none }.dispatch (opcodeOf instr) instr trace
  let core :=
    match delaySlotTarget with
    | some target => core.takeBranch target
    -- a branch in a delay slot is ignored, any other becomes pending
    | none =>
      match nextBranchTarget with
      | some target => { core with pendingBranchTarget := some target }
      | none => core
  core.retire trace

/-! ### Data accesses -/

/-- A data access: the core that issues it and what it leaves pending. -/
def startAccess (core : SH2Core) (form : DataForm) (instr : Instr) : SH2Core × PendingMemOp :=
  let n := instr.fieldN
  let m := instr.fieldM
  match form with
  | .load width =>
    (core, { kind := width.readKind, physAddr := toPhys (core.r m), size := width.bytes,
             dstReg := n })
  | .loadDisp =>
    (core, { kind := .readLong, physAddr := toPhys (core.r m + instr.fieldDisp4 * 4),
             dstReg := n })
  | .storeDisp =>
    (core, { kind := .writeLong, physAddr := toPhys (core.r n + instr.fieldDisp4 * 4),
             value := core.r m })
  | .pushSys source =>
    let core := core.setReg n (core.r n - 4)
    (core, { kind := .writeLong, physAddr := toPhys (core.r n), value := core.getSys source })
  | .popSys target =>
    (core, { kind := .readLong, physAddr := toPhys (core.r n), postIncReg := some n,
             postIncSize := 4, aux := target.loadAux })
  | .loadDispR0 width =>
    (core, { kind := width.readKind, physAddr := toPhys (core.r m + instr.fieldDisp4 * width.scale),
             size := width.bytes })
  | .loadIndexed width =>
    (core, { kind := width.readKind, physAddr := toPhys (core.r 0 + core.r m), size := width.bytes,
             dstReg := n })
  | .loadPcWord =>
    (core, { kind := .readWord, physAddr := toPhys (core.pc + 4 + instr.fieldImm8 * 2), size := 2,
             dstReg := n })
  | .loadPcLong =>
    (core, { kind := .readLong,
             physAddr := toPhys (((core.pc + 4) &&& ~~~3#32) + instr.fieldImm8 * 4), dstReg := n })
  | .loadGbr width =>
    (core, { kind := width.readKind, physAddr := toPhys (core.gbr + instr.fieldImm8 * width.scale),
             size := width.bytes })
  | .loadPostInc width =>
    (core, { kind := width.readKind, physAddr := toPhys (core.r m), size := width.bytes,
             dstReg := n, postIncReg := some m, postIncSize := width.scale })
  | .store width =>
    (core, { kind := width.writeKind, physAddr := toPhys (core.r n), size := width.bytes,
             value := width.truncate (core.r m) })
  | .storeIndexed width =>
    (core, { kind := width.writeKind, physAddr := toPhys (core.r 0 + core.r n),
             size := width.bytes, value := width.truncate (core.r m) })
  | .storeGbr width =>
    (core, { kind := width.writeKind, physAddr := toPhys (core.gbr + instr.fieldImm8 * width.scale),
             size := width.bytes, value := width.truncate (core.r 0) })
  | .storeDispHigh width =>
    -- here bits 4 to 7 are the displacement
    (core, { kind := width.writeKind,
             physAddr := toPhys (core.r n + BitVec.ofNat 32 m.val * width.scale),
             size := width.bytes, value := width.truncate (core.r 0) })
  | .storeDispLow width =>
    (core, { kind := width.writeKind,
             physAddr := toPhys (core.r m + instr.fieldDisp4 * width.scale),
             size := width.bytes, value := width.truncate (core.r 0) })
  | .storePreDec width =>
    let core := core.setReg n (core.r n - width.scale)
    (core, { kind := width.writeKind, physAddr := toPhys (core.r n), size := width.bytes,
             value := width.truncate (core.r m) })
  | .rmw op =>
    (core, { kind := op.readKind, physAddr := toPhys (core.gbr + core.r 0), size := 1,
             aux := instr.fieldImm8 })

/-- The bus operation of what is pending. -/
def pendingOp (core : SH2Core) (seq : Nat) (pending : PendingMemOp) : BusOp :=
  { cpuId := core.cpuId
    reqTime := core.t
    sequence := seq
    kind := dataAccessKind pending.physAddr pending.kind.isWrite
    physAddr := pending.physAddr
    size := pending.size
    data := pending.value }

/-! ### Producing -/

def produceIfetch (core : SH2Core) (seq : Nat) : BusOp :=
  { cpuId := core.cpuId
    reqTime := core.t
    sequence := seq
    kind := .iFetch
    physAddr := toPhys core.pc
    size := 2 }

/-- The fetch of a miss fills the line. -/
def missOp (core : SH2Core) (seq : Nat) : BusOp :=
  { core.produceIfetch seq with
    fillCacheLine := true
    cacheLineSize := core.icache.lineSize % 256 }

/-- Fetches that pass the cache by. -/
def uncachedFetch (core : SH2Core) : Bool :=
  isUncachedAlias core.pc || isMmio (toPhys core.pc)

/-- The instruction at `pc`, where the cache answers its fetch. -/
def cachedInstr (core : SH2Core) : Option Instr :=
  if core.uncachedFetch then none
  else (core.icache.read (toPhys core.pc) 2).map (·.setWidth 16)

/-- The run-ahead loop, for at most that many rounds. -/
def produceLoop : Nat → SH2Core → Nat → TraceLog → Nat → SH2Core × TraceLog × Sh2ProduceResult
  | 0, core, _, trace, executed => (core, trace, ⟨none, executed⟩)
  | budget + 1, core, seq, trace, executed =>
    if core.uncachedFetch then (core, trace, ⟨some (core.produceIfetch seq), executed⟩)
    else
      match core.icache.read (toPhys core.pc) 2 with
      | some cached =>
        let instr : Instr := cached.setWidth 16
        match dataFormOf instr with
        | some form =>
          let (core, pending) := core.startAccess form instr
          ({ core with pendingMemOp := some pending }, trace,
            ⟨some (core.pendingOp seq pending), executed⟩)
        | none =>
          let (core, trace) := core.executeInstruction instr trace
          produceLoop budget core seq trace (executed + 1)
      | none => (core, trace, ⟨some (core.missOp seq), executed⟩)

/-- The entry of a requested exception: `sr` is pushed first. -/
def enterException (core : SH2Core) (vector : Word) : SH2Core × PendingMemOp :=
  let core := core.setReg 15 (core.r 15 - 4)
  let pending : PendingMemOp :=
    { kind := .exceptionPushSr, physAddr := toPhys (core.r 15), value := core.sr, aux := vector }
  ({ core with pendingMemOp := some pending, pendingExceptionVector := none }, pending)

def produceUntilBus (core : SH2Core) (seq : Nat) (trace : TraceLog) (runaheadBudget : Nat) :
    SH2Core × TraceLog × Sh2ProduceResult :=
  match core.pendingExceptionVector with
  | some vector =>
    let trace := trace.addFault (core.fault vector "EXCEPTION_ENTRY")
    let (core, pending) := core.enterException vector
    (core, trace, ⟨some (core.pendingOp seq pending), 0⟩)
  | none =>
    match core.pendingMemOp with
    | some pending => (core, trace, ⟨some (core.pendingOp seq pending), 0⟩)
    | none => produceLoop runaheadBudget core seq trace 0

/-! ### Applying a response -/

/-- The register a load writes. -/
def writeBack (core : SH2Core) (pending : PendingMemOp) (value : Word) : SH2Core :=
  match pending.kind with
  | .readLong =>
    match sysRegOfAux pending.aux with
    | some target => { core with toRegisters := core.setSys target value }
    | none => core.setReg pending.dstReg value
  | .readWord => core.setReg pending.dstReg ((value.setWidth 16).signExtend 32)
  | .readByte => core.setReg pending.dstReg ((value.setWidth 8).signExtend 32)
  | _ => core

/-- A destination register that is also incremented keeps what was loaded. -/
def postIncrement (core : SH2Core) (pending : PendingMemOp) : SH2Core :=
  match pending.postIncReg with
  | some m => if m ≠ pending.dstReg then core.setReg m (core.r m + pending.postIncSize) else core
  | none => core

/-- The end of an instruction with a data access. -/
def finishAccess (core : SH2Core) (pending : PendingMemOp) (value : Word) : SH2Core :=
  let core := (core.writeBack pending value).postIncrement pending
  match core.pendingBranchTarget with
  | some target => { core.takeBranch target with pendingBranchTarget := none }
  | none => { core with pc := core.pc + 2 }

/-- The second half of a read-modify-write. -/
def rmwWrite (core : SH2Core) (pending : PendingMemOp) (op : RmwOp) (value : Word) : SH2Core :=
  let byte := op.apply (value.setWidth 8) (pending.aux.setWidth 8)
  { core with
    pendingMemOp := some
      { kind := .rmwWriteByte, physAddr := pending.physAddr, size := 1, value := byte.setWidth 32 } }

/-- What the response to a pending operation does; the operation is no longer pending. -/
def advancePending (core : SH2Core) (pending : PendingMemOp) (value : Word) : SH2Core :=
  match pending.kind with
  | .exceptionPushSr =>
    let core := core.setReg 15 (core.r 15 - 4)
    { core with
      pendingMemOp := some
        { kind := .exceptionPushPc, physAddr := toPhys (core.r 15), value := core.pc,
          aux := pending.aux } }
  | .exceptionPushPc =>
    { core with
      pendingMemOp := some
        { kind := .exceptionVectorRead, physAddr := toPhys (core.vbr + pending.aux * 4) } }
  | .exceptionVectorRead =>
    { core with pc := value, hasExceptionReturnContext := true }
  | .trapaPushSr =>
    let core := core.setReg 15 (core.r 15 - 4)
    { core with
      pendingMemOp := some
        { kind := .trapaPushPc, physAddr := toPhys (core.r 15), value := core.pc + 2 } }
  | .trapaPushPc =>
    -- the source dereferences the immediate, which TRAPA has set
    { core with
      pendingMemOp := some
        { kind := .trapaVectorRead,
          physAddr := toPhys (core.vbr + core.pendingTrapaImm.getD 0 * 4) } }
  | .trapaVectorRead =>
    { core with pc := value, hasExceptionReturnContext := true, pendingTrapaImm := none }
  | .rtePopPc =>
    let core := { core.setReg 15 (core.r 15 + 4) with pendingNewPc := value }
    { core with
      pendingMemOp := some { kind := .rtePopSr, physAddr := toPhys (core.r 15) } }
  | .rtePopSr =>
    { core.setReg 15 (core.r 15 + 4) with
      pendingNewSr := value
      pendingRteRestore := true
      pendingBranchTarget := some core.pendingNewPc
      hasExceptionReturnContext := false }
  | .rmwAndByteRead => core.rmwWrite pending .and value
  | .rmwXorByteRead => core.rmwWrite pending .xor value
  | .rmwOrByteRead => core.rmwWrite pending .or value
  | _ => core.finishAccess pending value

/-- The line of a fill goes to the instruction cache if it is the line of `pc`. -/
def fillIcache (core : SH2Core) (response : BusResponse) (trace : TraceLog) : SH2Core × TraceLog :=
  if response.lineData.isEmpty then (core, trace)
  else
    let phys := toPhys core.pc
    if response.lineBase ≠ core.icache.lineBase phys ∨
        response.lineData.length ≠ core.icache.lineSize then
      (core, trace.addFault (core.fault phys "CACHE_FILL_MISMATCH"))
    else ({ core with icache := core.icache.fillLine response.lineBase response.lineData }, trace)

def applyIfetchAndStep (core : SH2Core) (response : BusResponse) (trace : TraceLog) :
    SH2Core × TraceLog :=
  let core := { core with t := tickAdd core.t response.stall }
  match core.pendingMemOp with
  | some pending =>
    ({ core with pendingMemOp := none }.advancePending pending response.value).retire trace
  | none =>
    let (core, trace) := core.fillIcache response trace
    core.executeInstruction (response.value.setWidth 16) trace

def step (core : SH2Core) (arb : BusArbiter) (seq : Nat) : SH2Core × BusArbiter :=
  let (core, trace, produced) := core.produceUntilBus seq arb.trace 1
  let arb := { arb with trace }
  match produced.op with
  | none => (core, arb)
  | some op =>
    let (arb, response) := arb.commit op
    let (core, trace) := core.applyIfetchAndStep response arb.trace
    (core, { arb with trace })

end SH2Core

end Saturnis.Cpu
