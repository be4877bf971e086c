/-
The bus arbiter.

One `BusArbiter` value holds what the source reaches through references (the
committed memory, the devices and the trace) next to its own fields.  Every
entry point returns the new arbiter with its result.  The model is that of an
`NDEBUG` build: an invalid operation is answered by a fault response.

The fixed-size arrays of the source are functions on `Fin 2` and `Fin 3`.  The
`while` loop of `commit_batch` removes one pending entry per round, so
`commitRounds` takes the number of rounds left and `commitBatch` starts it with
the number of pending entries.
-/
import Mathlib.Logic.Function.Basic
import Saturnis.Devices
import Saturnis.Trace

namespace Saturnis.Bus

open Saturnis.Core Saturnis.Mem Saturnis.Dev

/-- There are two CPUs. -/
instance neZero_cpus : NeZero 2 := ⟨by decide⟩

inductive PriorityClass
  | cpuRam | cpuMmio | dma
deriving DecidableEq, Repr

/-- The underlying value of the enumerator, by which classes are compared. -/
def PriorityClass.rank : PriorityClass → Nat
  | cpuRam => 0
  | cpuMmio => 1
  | dma => 2

abbrev ArbitrationPolicy := BusOp → PriorityClass

/-- `DefaultArbitrationPolicy::priority_of`. -/
def defaultPolicy : ArbitrationPolicy := fun op =>
  if op.cpuId < 0 then .dma
  else if op.kind = .mmioRead ∨ op.kind = .mmioWrite ∨ isMmio op.physAddr then .cpuMmio
  else .cpuRam

structure LatencyModel where
  ramRead : Nat := 4
  ramWrite : Nat := 3
  ifetch : Nat := 5
  mmioRead : Nat := 12
  mmioWrite : Nat := 10
  barrier : Nat := 1
  sameAddressContention : Nat := 2
  tieTurnaround : Nat := 1
deriving DecidableEq, Repr

inductive BusOpValidationError
  | none | invalidSize | invalidAlignment
deriving DecidableEq, Repr

def BusOpValidationError.code : BusOpValidationError → Nat
  | none => 0
  | invalidSize => 1
  | invalidAlignment => 2

def validBusSize (size : Nat) : Bool := size = 1 || size = 2 || size = 4

def isAligned (addr : Addr) (size : Nat) : Bool :=
  size = 1 || addr.toNat % size = 0

def validateBusOp (op : BusOp) : BusOpValidationError :=
  if op.kind = .barrier then .none
  else if !validBusSize op.size then .invalidSize
  else
    let requireAlignment :=
      op.kind = .mmioRead || op.kind = .mmioWrite || op.kind = .iFetch || isMmio op.physAddr
    if requireAlignment && !isAligned op.physAddr op.size then .invalidAlignment else .none

/-- Index of the per-producer bookkeeping: CPU 0, CPU 1 or DMA. -/
def producerSlot (op : BusOp) : Fin 3 :=
  if op.isDma then 2 else if op.cpuId = 1 then 1 else 0

def isCpu (cpuId : Int) : Bool := cpuId = 0 || cpuId = 1

def kInvalidBusOpValue : Word := 0xBAD0BAD0#32

structure BusArbiter where
  memory : CommittedMemory
  devices : DeviceHub := {}
  trace : TraceLog := {}
  policy : ArbitrationPolicy := defaultPolicy
  latency : LatencyModel := {}
  busFreeTime : Nat := 0
  lastGrantCpu : Int := 1
  hasLastAddr : Bool := false
  lastAddr : Addr := 0
  progressTrackingEnabled : Bool := false
  progressUpTo : Fin 2 → Nat := fun _ => tickMax
  producerLastReqTime : Fin 3 → Nat := fun _ => 0
  producerSeen : Fin 3 → Bool := fun _ => false
  producerLastEnqueuedReqTime : Fin 3 → Nat := fun _ => 0
  producerEnqueuedSeen : Fin 3 → Bool := fun _ => false

namespace BusArbiter

/-! ### Latency -/

def baseLatency (arb : BusArbiter) (op : BusOp) : Nat :=
  if op.kind = .barrier then arb.latency.barrier
  else if op.kind = .iFetch then arb.latency.ifetch
  else if op.kind = .mmioRead ∨ (op.kind = .read ∧ isMmio op.physAddr) then arb.latency.mmioRead
  else if op.kind = .mmioWrite ∨ (op.kind = .write ∧ isMmio op.physAddr) then
    arb.latency.mmioWrite
  else if op.kind = .write then arb.latency.ramWrite
  else arb.latency.ramRead

def contentionExtra (arb : BusArbiter) (op : BusOp) (hadTie : Bool) : Nat :=
  (if op.kind ≠ .barrier ∧ arb.hasLastAddr ∧ op.physAddr = arb.lastAddr then
    arb.latency.sameAddressContention else 0) +
  (if hadTie then arb.latency.tieTurnaround else 0)

def totalLatency (arb : BusArbiter) (op : BusOp) (hadTie : Bool) : Nat :=
  arb.baseLatency op + arb.contentionExtra op hadTie

/-- `max(op.req_time, bus_free_time_)`. -/
def startTime (arb : BusArbiter) (op : BusOp) : Nat := max op.reqTime arb.busFreeTime

/-! ### Rejection -/

def faultResponse (arb : BusArbiter) (op : BusOp) (start : Nat) (reason : String)
    (detail : Word) : BusArbiter × BusResponse :=
  let trace := (arb.trace.addFault ⟨start, op.cpuId, 0, detail, reason⟩).addCommit
    ⟨start, start, op, 0, kInvalidBusOpValue, false⟩
  ({ arb with trace }, ⟨kInvalidBusOpValue, 0, start, start, 0, []⟩)

/-- The flag says whether the operation may be enqueued. -/
def validateEnqueueContract (arb : BusArbiter) (op : BusOp) : BusArbiter × Bool :=
  let slot := producerSlot op
  if arb.producerEnqueuedSeen slot ∧ op.reqTime < arb.producerLastEnqueuedReqTime slot then
    ((arb.faultResponse op (arb.startTime op) "ENQUEUE_NON_MONOTONIC_REQ_TIME"
      (BitVec.ofNat 32 op.reqTime)).1, false)
  else
    ({ arb with
      producerEnqueuedSeen := Function.update arb.producerEnqueuedSeen slot true
      producerLastEnqueuedReqTime :=
        Function.update arb.producerLastEnqueuedReqTime slot op.reqTime }, true)

/-! ### Execution -/

/-- What a granted operation does to memory and devices. -/
structure Effect where
  memory : CommittedMemory
  devices : DeviceHub
  value : Word
  lineBase : Word := 0
  lineData : List Byte := []

def perform (arb : BusArbiter) (op : BusOp) (finish : Nat) : Effect :=
  if op.kind = .barrier then ⟨arb.memory, arb.devices, op.data, 0, []⟩
  else if op.kind = .write ∨ op.kind = .mmioWrite then
    if isMmio op.physAddr ∨ op.kind = .mmioWrite then
      ⟨arb.memory, arb.devices.write finish op.cpuId op.physAddr op.size op.data, op.data, 0, []⟩
    else
      ⟨arb.memory.write op.physAddr op.size op.data, arb.devices, op.data, 0, []⟩
  else if isMmio op.physAddr ∨ op.kind = .mmioRead then
    ⟨arb.memory, arb.devices, arb.devices.read finish op.cpuId op.physAddr op.size, 0, []⟩
  else
    let value := arb.memory.read op.physAddr op.size
    if op.fillCacheLine ∧ op.cacheLineSize > 0 then
      let lsize := BitVec.ofNat 32 op.cacheLineSize
      let lineBase := op.physAddr / lsize
      ⟨arb.memory, arb.devices, value, lineBase,
        arb.memory.readBlock (lineBase * lsize) op.cacheLineSize⟩
    else ⟨arb.memory, arb.devices, value, 0, []⟩

/-- The operation is granted the bus: it starts when both it and the bus are
ready, and the bus is taken until it finishes. -/
def grant (arb : BusArbiter) (op : BusOp) (hadTie : Bool) : BusArbiter × BusResponse :=
  let slot := producerSlot op
  let start := arb.startTime op
  let finish := tickAdd start (arb.totalLatency op hadTie)
  let stall := tickSub finish op.reqTime
  let effect := arb.perform op finish
  ({ arb with
    memory := effect.memory
    devices := effect.devices
    trace := arb.trace.addCommit ⟨start, finish, op, stall, effect.value, false⟩
    producerSeen := Function.update arb.producerSeen slot true
    producerLastReqTime := Function.update arb.producerLastReqTime slot op.reqTime
    lastAddr := if op.kind = .barrier then arb.lastAddr else op.physAddr
    hasLastAddr := if op.kind = .barrier then arb.hasLastAddr else true
    lastGrantCpu := if hadTie ∧ isCpu op.cpuId then op.cpuId else arb.lastGrantCpu
    busFreeTime := finish },
   ⟨effect.value, stall, start, finish, effect.lineBase, effect.lineData⟩)

def invalidDetail (op : BusOp) : Word :=
  BitVec.ofNat 32 (validateBusOp op).code <<< 28 |||
    ((op.physAddr &&& 0xFFFF#32) ||| BitVec.ofNat 32 op.size <<< 24)

def executeCommit (arb : BusArbiter) (op : BusOp) (hadTie : Bool) : BusArbiter × BusResponse :=
  if validateBusOp op ≠ .none then
    arb.faultResponse op (arb.startTime op) "INVALID_BUS_OP" (invalidDetail op)
  else if arb.producerSeen (producerSlot op) ∧
      op.reqTime < arb.producerLastReqTime (producerSlot op) then
    arb.faultResponse op (arb.startTime op) "NON_MONOTONIC_REQ_TIME" (BitVec.ofNat 32 op.reqTime)
  else arb.grant op hadTie

/-! ### Commit horizon -/

def hasSafeHorizon (arb : BusArbiter) : Bool :=
  !arb.progressTrackingEnabled ||
    (arb.progressUpTo 0 ≠ tickMax && arb.progressUpTo 1 ≠ tickMax)

def commitHorizon (arb : BusArbiter) : Nat := min (arb.progressUpTo 0) (arb.progressUpTo 1)

def updateProgress (arb : BusArbiter) (cpuId : Int) (executedUpTo : Nat) : BusArbiter :=
  if !isCpu cpuId then arb
  else
    let slot : Fin 2 := if cpuId = 0 then 0 else 1
    { arb with
      progressTrackingEnabled := true
      progressUpTo :=
        if arb.progressUpTo slot = tickMax ∨ executedUpTo > arb.progressUpTo slot then
          Function.update arb.progressUpTo slot executedUpTo
        else arb.progressUpTo }

/-! ### Selection -/

/-- Whether the scan of `pick_next` moves its best from `cur` to `candidate`. -/
def replaces (arb : BusArbiter) (candidate cur : BusOp) : Bool :=
  if arb.startTime candidate < arb.startTime cur then true
  else if arb.startTime candidate > arb.startTime cur then false
  else if producerSlot candidate = producerSlot cur then
    candidate.sequence < cur.sequence ||
      (candidate.sequence = cur.sequence && candidate.reqTime < cur.reqTime)
  else if (arb.policy candidate).rank > (arb.policy cur).rank then true
  else if (arb.policy candidate).rank < (arb.policy cur).rank then false
  else if isCpu candidate.cpuId && isCpu cur.cpuId && candidate.cpuId ≠ cur.cpuId then
    candidate.cpuId = (if arb.lastGrantCpu = 0 then 1 else 0)
  else if candidate.cpuId ≠ cur.cpuId then candidate.cpuId < cur.cpuId
  else candidate.sequence < cur.sequence

/-- A pending entry with its position. -/
abbrev Entry := CommitResult × Nat

def isCommittable (arb : BusArbiter) (op : BusOp) : Bool :=
  !arb.progressTrackingEnabled ||
    (arb.hasSafeHorizon && op.reqTime < arb.commitHorizon)

/-- The entries the horizon lets through, with their positions. -/
def committable (arb : BusArbiter) (pending : List CommitResult) : List Entry :=
  pending.zipIdx.filter fun e => arb.isCommittable e.1.op

def pickNext (arb : BusArbiter) (front : Entry) (committable : List Entry) : Entry :=
  committable.foldl
    (fun best e => if arb.replaces e.1.op best.1.op then e else best) front

/-- Another committable entry would start at the same time with the same priority. -/
def hadTie (arb : BusArbiter) (next : Entry) (committable : List Entry) : Bool :=
  committable.any fun e =>
    e.2 ≠ next.2 &&
      (arb.startTime e.1.op = arb.startTime next.1.op &&
        arb.policy e.1.op = arb.policy next.1.op)

/-! ### Entry points -/

def commit (arb : BusArbiter) (op : BusOp) : BusArbiter × BusResponse :=
  if arb.trace.shouldHalt then
    (arb, ⟨kInvalidBusOpValue, 0, arb.busFreeTime, arb.busFreeTime, 0, []⟩)
  else
    match arb.validateEnqueueContract op with
    | (arb, false) => (arb, ⟨kInvalidBusOpValue, 0, arb.busFreeTime, arb.busFreeTime, 0, []⟩)
    | (arb, true) => arb.executeCommit op false

def commitDma (arb : BusArbiter) (op : BusOp) : BusArbiter × BusResponse :=
  arb.commit { op with cpuId := -1, producer := .dma }

/-- The enqueue loop of `commit_batch`, from input index `i` on. -/
def enqueue (arb : BusArbiter) : Nat → List BusOp → BusArbiter × List CommitResult
  | _, [] => (arb, [])
  | i, op :: ops =>
    if arb.trace.shouldHalt then (arb, [])
    else
      match arb.validateEnqueueContract op with
      | (arb, false) => arb.enqueue (i + 1) ops
      | (arb, true) =>
        let (arb, pending) := arb.enqueue (i + 1) ops
        (arb, ⟨i, op, {}⟩ :: pending)

/-- The commit loop of `commit_batch`, for at most that many rounds. -/
def commitRounds : Nat → BusArbiter → List CommitResult → BusArbiter × List CommitResult
  | 0, arb, _ => (arb, [])
  | rounds + 1, arb, pending =>
    if arb.trace.shouldHalt then (arb, [])
    else
      match arb.committable pending with
      | [] => (arb, [])
      | front :: rest =>
        let next := arb.pickNext front (front :: rest)
        let tie := arb.hadTie next (front :: rest)
        let (arb, response) := arb.executeCommit next.1.op tie
        let (arb, committed) := commitRounds rounds arb (pending.eraseIdx next.2)
        (arb, { next.1 with response } :: committed)

def resetEnqueued (arb : BusArbiter) : BusArbiter :=
  { arb with
    producerEnqueuedSeen := fun _ => false
    producerLastEnqueuedReqTime := fun _ => 0 }

def commitBatch (arb : BusArbiter) (ops : List BusOp) : BusArbiter × List CommitResult :=
  let (arb, pending) := arb.resetEnqueued.enqueue 0 ops
  commitRounds pending.length arb pending

/-- Returns what was committed and the operations that stay queued. -/
def commitPending (arb : BusArbiter) (pendingOps : List BusOp) :
    BusArbiter × List CommitResult × List BusOp :=
  let (arb, committed) := arb.commitBatch pendingOps
  if committed.isEmpty then (arb, committed, pendingOps)
  else
    let remaining := pendingOps.zipIdx.filterMap fun e =>
      if committed.any fun result => result.inputIndex = e.2 then none else some e.1
    (arb, committed, remaining)

end BusArbiter

end Saturnis.Bus
