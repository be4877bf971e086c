/-
What one operation does to the arbiter.

Two things are separated here.  `core` forgets the bookkeeping of the enqueue
contract and of the progress watermarks, which neither the response to an
operation nor its effect depends on.  And an operation that reaches
`execute_commit` is either rejected, which only adds to the trace
(`executeCommit_of_rejected`), or granted (`executeCommit_of_accepts`).
-/
import Saturnis.BusArbiter

namespace Saturnis.Bus

open Saturnis.Core Saturnis.Mem Saturnis.Dev

namespace BusArbiter

variable {arb a b : BusArbiter} {op : BusOp} {tie : Bool}

/-- The arbiter up to enqueue bookkeeping and progress watermarks. -/
def core (arb : BusArbiter) : BusArbiter :=
  { arb with
    progressTrackingEnabled := false
    progressUpTo := fun _ => tickMax
    producerLastEnqueuedReqTime := fun _ => 0
    producerEnqueuedSeen := fun _ => false }

theorem core_memory (h : a.core = b.core) : a.memory = b.memory :=
  (congrArg BusArbiter.memory h : a.core.memory = b.core.memory)

theorem core_trace (h : a.core = b.core) : a.trace = b.trace :=
  (congrArg BusArbiter.trace h : a.core.trace = b.core.trace)

theorem core_policy (h : a.core = b.core) : a.policy = b.policy :=
  (congrArg BusArbiter.policy h : a.core.policy = b.core.policy)

theorem core_latency (h : a.core = b.core) : a.latency = b.latency :=
  (congrArg BusArbiter.latency h : a.core.latency = b.core.latency)

theorem core_busFreeTime (h : a.core = b.core) : a.busFreeTime = b.busFreeTime :=
  (congrArg BusArbiter.busFreeTime h : a.core.busFreeTime = b.core.busFreeTime)

theorem core_lastGrantCpu (h : a.core = b.core) : a.lastGrantCpu = b.lastGrantCpu :=
  (congrArg BusArbiter.lastGrantCpu h : a.core.lastGrantCpu = b.core.lastGrantCpu)

theorem core_producerSeen (h : a.core = b.core) : a.producerSeen = b.producerSeen :=
  (congrArg BusArbiter.producerSeen h : a.core.producerSeen = b.core.producerSeen)

theorem core_producerLastReqTime (h : a.core = b.core) :
    a.producerLastReqTime = b.producerLastReqTime :=
  (congrArg BusArbiter.producerLastReqTime h : a.core.producerLastReqTime = b.core.producerLastReqTime)

@[simp] theorem core_resetEnqueued (arb : BusArbiter) : arb.resetEnqueued.core = arb.core := rfl

@[simp] theorem core_updateProgress (arb : BusArbiter) (cpuId : Int) (t : Nat) :
    (arb.updateProgress cpuId t).core = arb.core := by
  unfold updateProgress
  split <;> rfl

theorem core_validateEnqueueContract (h : (arb.validateEnqueueContract op).2 = true) :
    (arb.validateEnqueueContract op).1.core = arb.core := by
  simp only [validateEnqueueContract] at h ⊢
  split at h
  · exact absurd h (by simp)
  · rename_i hcond
    rw [if_neg hcond]
    rfl

/-- What the bus works on: the arbiter up to its trace, the enqueue bookkeeping
and the progress watermarks. -/
def hardware (arb : BusArbiter) : BusArbiter := { arb.core with trace := {} }

theorem hardware_of_core (h : a.core = b.core) : a.hardware = b.hardware := by
  rw [hardware, hardware, h]

theorem hardware_memory (h : a.hardware = b.hardware) : a.memory = b.memory :=
  (congrArg BusArbiter.memory h : a.hardware.memory = b.hardware.memory)

theorem hardware_devices (h : a.hardware = b.hardware) : a.devices = b.devices :=
  (congrArg BusArbiter.devices h : a.hardware.devices = b.hardware.devices)

theorem hardware_policy (h : a.hardware = b.hardware) : a.policy = b.policy :=
  (congrArg BusArbiter.policy h : a.hardware.policy = b.hardware.policy)

theorem hardware_latency (h : a.hardware = b.hardware) : a.latency = b.latency :=
  (congrArg BusArbiter.latency h : a.hardware.latency = b.hardware.latency)

theorem hardware_busFreeTime (h : a.hardware = b.hardware) : a.busFreeTime = b.busFreeTime :=
  (congrArg BusArbiter.busFreeTime h : a.hardware.busFreeTime = b.hardware.busFreeTime)

theorem hardware_lastGrantCpu (h : a.hardware = b.hardware) : a.lastGrantCpu = b.lastGrantCpu :=
  (congrArg BusArbiter.lastGrantCpu h : a.hardware.lastGrantCpu = b.hardware.lastGrantCpu)

theorem hardware_faultResponse (arb : BusArbiter) (op : BusOp) (start : Nat) (reason : String)
    (detail : Word) :
    (arb.faultResponse op start reason detail).1.hardware = arb.hardware := rfl

/-- The enqueue contract works on the trace and its own bookkeeping. -/
theorem hardware_validateEnqueueContract (arb : BusArbiter) (op : BusOp) :
    (arb.validateEnqueueContract op).1.hardware = arb.hardware := by
  simp only [validateEnqueueContract]
  split <;> rfl

/-- What the enqueue contract keeps of an arbiter, the enqueue loop keeps. -/
theorem enqueue_keeps {P : BusArbiter → Prop}
    (hvalidate : ∀ arb op, P arb → P (arb.validateEnqueueContract op).1) (harb : P arb) (i : Nat)
    (ops : List BusOp) : P (arb.enqueue i ops).1 := by
  induction ops generalizing arb i with
  | nil => exact harb
  | cons op ops ih =>
    have hnext := hvalidate arb op harb
    rw [enqueue]
    split
    · exact harb
    · split
      case h_1 next heq =>
        rw [heq] at hnext
        exact ih hnext (i + 1)
      case h_2 next heq =>
        rw [heq] at hnext
        exact ih hnext (i + 1)

theorem hardware_enqueue (arb : BusArbiter) (i : Nat) (ops : List BusOp) :
    (arb.enqueue i ops).1.hardware = arb.hardware :=
  enqueue_keeps (P := fun next => next.hardware = arb.hardware)
    (fun next op h => (next.hardware_validateEnqueueContract op).trans h) rfl i ops

theorem startTime_congr (h : a.core = b.core) : a.startTime op = b.startTime op := by
  rw [startTime, startTime, core_busFreeTime h]

theorem replaces_congr (h : a.core = b.core) : a.replaces = b.replaces := by
  funext cand cur
  change a.core.replaces cand cur = b.core.replaces cand cur
  rw [h]

/-! ### Watermarks -/

theorem updateProgress_progressUpTo (arb : BusArbiter) (cpu : Fin 2) (t : Nat) :
    (arb.updateProgress cpu.val t).progressUpTo =
      if arb.progressUpTo cpu = tickMax ∨ t > arb.progressUpTo cpu then
        Function.update arb.progressUpTo cpu t
      else arb.progressUpTo := by
  match cpu with
  | 0 => rfl
  | 1 => rfl

theorem updateProgress_self (arb : BusArbiter) (cpu : Fin 2) (t : Nat) :
    (arb.updateProgress cpu.val t).progressUpTo cpu =
      if arb.progressUpTo cpu = tickMax ∨ t > arb.progressUpTo cpu then t
      else arb.progressUpTo cpu := by
  rw [updateProgress_progressUpTo]
  split
  · rw [Function.update_self]
  · rfl

theorem updateProgress_of_ne (arb : BusArbiter) {cpu other : Fin 2} (h : other ≠ cpu) (t : Nat) :
    (arb.updateProgress cpu.val t).progressUpTo other = arb.progressUpTo other := by
  rw [updateProgress_progressUpTo]
  split
  · rw [Function.update_of_ne h]
  · rfl

theorem updateProgress_tracks (arb : BusArbiter) (cpu : Fin 2) (t : Nat) :
    (arb.updateProgress cpu.val t).progressTrackingEnabled = true := by
  match cpu with
  | 0 => rfl
  | 1 => rfl

/-! ### Rejected or granted -/

/-- `execute_commit` grants the operation the bus. -/
def accepts (arb : BusArbiter) (op : BusOp) : Bool :=
  validateBusOp op = .none &&
    !(arb.producerSeen (producerSlot op) && op.reqTime < arb.producerLastReqTime (producerSlot op))

theorem accepts_congr (h : a.core = b.core) : a.accepts op = b.accepts op := by
  rw [accepts, accepts, core_producerSeen h, core_producerLastReqTime h]

theorem executeCommit_of_accepts (h : arb.accepts op = true) :
    arb.executeCommit op tie = arb.grant op tie := by
  simp only [accepts, Bool.and_eq_true, decide_eq_true_eq, Bool.not_eq_true'] at h
  rw [executeCommit, if_neg (by simp [h.1]), if_neg (by simpa using h.2)]

/-- A rejection answers with the invalid value at the start time, and adds a
FAULT and a COMMIT record. -/
theorem executeCommit_of_rejected (tie : Bool) (h : arb.accepts op = false) :
    ∃ reason detail, arb.executeCommit op tie =
      arb.faultResponse op (arb.startTime op) reason detail := by
  by_cases hvalid : validateBusOp op = .none
  · refine ⟨"NON_MONOTONIC_REQ_TIME", BitVec.ofNat 32 op.reqTime, ?_⟩
    rw [executeCommit, if_neg (by simp [hvalid]), if_pos]
    simpa [accepts, hvalid] using h
  · exact ⟨"INVALID_BUS_OP", invalidDetail op, by rw [executeCommit, if_pos hvalid]⟩

theorem executeCommit_core (arb : BusArbiter) (op : BusOp) (tie : Bool) :
    (arb.core.executeCommit op tie).2 = (arb.executeCommit op tie).2 ∧
      (arb.core.executeCommit op tie).1.core = (arb.executeCommit op tie).1.core := by
  by_cases hvalid : validateBusOp op ≠ .none
  · rw [executeCommit, executeCommit, if_pos hvalid, if_pos hvalid]
    exact ⟨rfl, rfl⟩
  · by_cases hmono : arb.producerSeen (producerSlot op) ∧
        op.reqTime < arb.producerLastReqTime (producerSlot op)
    · have hmono' : arb.core.producerSeen (producerSlot op) ∧
          op.reqTime < arb.core.producerLastReqTime (producerSlot op) := hmono
      rw [executeCommit, executeCommit, if_neg hvalid, if_neg hvalid, if_pos hmono, if_pos hmono']
      exact ⟨rfl, rfl⟩
    · have hmono' : ¬ (arb.core.producerSeen (producerSlot op) ∧
          op.reqTime < arb.core.producerLastReqTime (producerSlot op)) := hmono
      rw [executeCommit, executeCommit, if_neg hvalid, if_neg hvalid, if_neg hmono, if_neg hmono']
      exact ⟨rfl, rfl⟩

theorem executeCommit_policy (arb : BusArbiter) (op : BusOp) (tie : Bool) :
    (arb.executeCommit op tie).1.policy = arb.policy := by
  cases h : arb.accepts op with
  | true =>
    rw [executeCommit_of_accepts h]
    rfl
  | false =>
    obtain ⟨reason, detail, heq⟩ := executeCommit_of_rejected tie h
    rw [heq]
    rfl

theorem executeCommit_latency (arb : BusArbiter) (op : BusOp) (tie : Bool) :
    (arb.executeCommit op tie).1.latency = arb.latency := by
  cases h : arb.accepts op with
  | true =>
    rw [executeCommit_of_accepts h]
    rfl
  | false =>
    obtain ⟨reason, detail, heq⟩ := executeCommit_of_rejected tie h
    rw [heq]
    rfl

/-- Neither the response nor the resulting core depends on more than the core. -/
theorem executeCommit_congr (h : a.core = b.core) :
    (a.executeCommit op tie).2 = (b.executeCommit op tie).2 ∧
      (a.executeCommit op tie).1.core = (b.executeCommit op tie).1.core := by
  obtain ⟨ha, ha'⟩ := executeCommit_core a op tie
  obtain ⟨hb, hb'⟩ := executeCommit_core b op tie
  rw [← ha, ← ha', ← hb, ← hb', h]
  exact ⟨rfl, rfl⟩

/-! ### The line of a fill -/

theorem perform_lineData (arb : BusArbiter) (op : BusOp) (finish : Nat)
    (h : (arb.perform op finish).lineData ≠ []) :
    (arb.perform op finish).lineBase = op.physAddr / BitVec.ofNat 32 op.cacheLineSize ∧
      (arb.perform op finish).lineData.length = op.cacheLineSize := by
  unfold perform at h ⊢
  split_ifs at h ⊢
  all_goals first
    | exact absurd rfl h
    | exact ⟨rfl, CommittedMemory.length_readBlock _ _ _⟩

/-- A response that carries a line carries that of the access. -/
theorem executeCommit_lineData (arb : BusArbiter) (op : BusOp) (tie : Bool)
    (h : (arb.executeCommit op tie).2.lineData ≠ []) :
    (arb.executeCommit op tie).2.lineBase = op.physAddr / BitVec.ofNat 32 op.cacheLineSize ∧
      (arb.executeCommit op tie).2.lineData.length = op.cacheLineSize := by
  cases hacc : arb.accepts op with
  | true =>
    rw [executeCommit_of_accepts hacc] at h ⊢
    exact perform_lineData arb op _ h
  | false =>
    obtain ⟨reason, detail, heq⟩ := executeCommit_of_rejected tie hacc
    rw [heq] at h
    exact absurd rfl h

/-! ### The ticks of a response -/

/-- The local time of the producer once it has waited for the response. -/
theorem executeCommit_wait (arb : BusArbiter) (op : BusOp) (tie : Bool)
    (hreq : op.reqTime < tickModulus)
    (hfit : (arb.executeCommit op tie).2.startTime ≤ (arb.executeCommit op tie).2.commitTime) :
    op.reqTime ≤ tickAdd op.reqTime (arb.executeCommit op tie).2.stall := by
  cases hacc : arb.accepts op with
  | true =>
    rw [executeCommit_of_accepts hacc] at hfit ⊢
    change arb.startTime op ≤ tickAdd (arb.startTime op) (arb.totalLatency op tie) at hfit
    change op.reqTime ≤ tickAdd op.reqTime
      (tickSub (tickAdd (arb.startTime op) (arb.totalLatency op tie)) op.reqTime)
    rw [tickAdd_tickSub hreq (tickAdd_lt _ _)]
    exact Nat.le_trans (Nat.le_max_left _ _) hfit
  | false =>
    obtain ⟨reason, detail, heq⟩ := executeCommit_of_rejected tie hacc
    rw [heq]
    change op.reqTime ≤ tickAdd op.reqTime 0
    have hsum : tickAdd op.reqTime 0 = op.reqTime + 0 := tickAdd_of_lt hreq
    omega

/-- A granted operation takes time. -/
theorem grant_wait (arb : BusArbiter) (op : BusOp) (tie : Bool) (hreq : op.reqTime < tickModulus)
    (hlat : 0 < arb.totalLatency op tie) (hlt : arb.totalLatency op tie < tickModulus)
    (hfit : (arb.grant op tie).2.startTime ≤ (arb.grant op tie).2.commitTime) :
    op.reqTime < tickAdd op.reqTime (arb.grant op tie).2.stall := by
  change arb.startTime op ≤ tickAdd (arb.startTime op) (arb.totalLatency op tie) at hfit
  change op.reqTime < tickAdd op.reqTime
    (tickSub (tickAdd (arb.startTime op) (arb.totalLatency op tie)) op.reqTime)
  rw [tickAdd_tickSub hreq (tickAdd_lt _ _)]
  exact Nat.lt_of_le_of_lt (Nat.le_max_left _ _) (lt_tickAdd hlat hlt hfit)

theorem totalLatency_bounds {arb : BusArbiter} (h : arb.latency = {}) (op : BusOp) (tie : Bool) :
    0 < arb.totalLatency op tie ∧ arb.totalLatency op tie ≤ 15 := by
  have hbase : 0 < arb.baseLatency op ∧ arb.baseLatency op ≤ 12 := by
    rw [baseLatency, h]
    split_ifs <;> decide
  have hextra : arb.contentionExtra op tie ≤ 3 := by
    rw [contentionExtra, h]
    split_ifs <;> decide
  rw [totalLatency]
  omega

theorem totalLatency_default {arb : BusArbiter} (h : arb.latency = {}) (op : BusOp) (tie : Bool) :
    0 < arb.totalLatency op tie ∧ arb.totalLatency op tie < tickModulus := by
  have hmod : 15 < tickModulus := by decide
  have := totalLatency_bounds h op tie
  omega

theorem totalLatency_tie (arb : BusArbiter) (op : BusOp) :
    arb.totalLatency op true = arb.totalLatency op false + arb.latency.tieTurnaround := by
  simp only [totalLatency, contentionExtra, if_true, Bool.false_eq_true, if_false]
  omega

/-- The response of a granted operation tells the tie flag. -/
theorem grant_tie_inj {tie' : Bool} (hturn : arb.latency.tieTurnaround % tickModulus ≠ 0)
    (h : (arb.grant op tie).2 = (arb.grant op tie').2) : tie = tie' := by
  have hcommit : tickAdd (arb.startTime op) (arb.totalLatency op tie) =
      tickAdd (arb.startTime op) (arb.totalLatency op tie') := congrArg BusResponse.commitTime h
  have hne : tickAdd (arb.startTime op) (arb.totalLatency op true) ≠
      tickAdd (arb.startTime op) (arb.totalLatency op false) := by
    have hmod : tickModulus = 18446744073709551616 := by decide
    rw [totalLatency_tie, tickAdd, tickAdd, hmod]
    rw [hmod] at hturn
    omega
  cases tie with
  | true =>
    cases tie' with
    | true => rfl
    | false => exact absurd hcommit hne
  | false =>
    cases tie' with
    | true => exact absurd hcommit.symm hne
    | false => rfl

/-! ### Effects on the trace -/

/-- The COMMIT record of an operation and its response. -/
def record (op : BusOp) (response : BusResponse) : CommitEvent :=
  ⟨response.startTime, response.commitTime, op, response.stall, response.value, false⟩

theorem grant_commits (arb : BusArbiter) (op : BusOp) (tie : Bool) :
    (arb.grant op tie).1.trace.commits = arb.trace.commits ++ [record op (arb.grant op tie).2] :=
  TraceLog.commits_addCommit _ _

theorem faultResponse_commits (arb : BusArbiter) (op : BusOp) (start : Nat) (reason : String)
    (detail : Word) :
    (arb.faultResponse op start reason detail).1.trace.commits =
      arb.trace.commits ++ [record op (arb.faultResponse op start reason detail).2] := by
  simp [faultResponse, record]

theorem grant_faults (arb : BusArbiter) (op : BusOp) (tie : Bool) :
    (arb.grant op tie).1.trace.faults = arb.trace.faults :=
  TraceLog.faults_addCommit _ _

theorem grant_shouldHalt (arb : BusArbiter) (op : BusOp) (tie : Bool) :
    (arb.grant op tie).1.trace.shouldHalt = arb.trace.shouldHalt := rfl

/-! ### One round of a batch -/

/-- The entry and the tie flag of the next round, `none` where the loop ends. -/
def nextRound (arb : BusArbiter) (pending : List CommitResult) : Option (Entry × Bool) :=
  if arb.trace.shouldHalt then none
  else
    match arb.committable pending with
    | [] => none
    | front :: rest =>
      some (arb.pickNext front (front :: rest),
        arb.hadTie (arb.pickNext front (front :: rest)) (front :: rest))

theorem commitRounds_of_none {rounds : Nat} {pending : List CommitResult}
    (h : arb.nextRound pending = none) : commitRounds rounds arb pending = (arb, []) := by
  cases rounds with
  | zero => rfl
  | succ rounds =>
    rw [commitRounds]
    by_cases hhalt : arb.trace.shouldHalt = true
    · exact if_pos hhalt
    · rw [nextRound, if_neg hhalt] at h
      rw [if_neg hhalt]
      cases hcand : arb.committable pending with
      | nil => rfl
      | cons front rest =>
        rw [hcand] at h
        exact absurd h (by simp)

theorem commitRounds_of_some {rounds : Nat} {pending : List CommitResult} {next : Entry}
    (h : arb.nextRound pending = some (next, tie)) :
    commitRounds (rounds + 1) arb pending =
      ((commitRounds rounds (arb.executeCommit next.1.op tie).1 (pending.eraseIdx next.2)).1,
        { next.1 with response := (arb.executeCommit next.1.op tie).2 } ::
          (commitRounds rounds (arb.executeCommit next.1.op tie).1
            (pending.eraseIdx next.2)).2) := by
  rw [commitRounds]
  by_cases hhalt : arb.trace.shouldHalt = true
  · rw [nextRound, if_pos hhalt] at h
    exact absurd h (by simp)
  · rw [nextRound, if_neg hhalt] at h
    rw [if_neg hhalt]
    cases hcand : arb.committable pending with
    | nil =>
      rw [hcand] at h
      exact absurd h (by simp)
    | cons front rest =>
      rw [hcand] at h
      obtain ⟨rfl, rfl⟩ := Prod.mk.inj (Option.some_inj.mp h)
      rfl

/-- What a commit keeps of an arbiter, the rounds of a batch keep. -/
theorem commitRounds_keeps {P : BusArbiter → Prop}
    (hcommit : ∀ arb op tie, P arb → P (arb.executeCommit op tie).1) (harb : P arb) (rounds : Nat)
    (pending : List CommitResult) : P (commitRounds rounds arb pending).1 := by
  induction rounds generalizing arb pending with
  | zero => exact harb
  | succ rounds ih =>
    cases h : arb.nextRound pending with
    | none =>
      rw [commitRounds_of_none h]
      exact harb
    | some round =>
      obtain ⟨next, tie⟩ := round
      rw [commitRounds_of_some h]
      exact ih (hcommit arb next.1.op tie harb) (pending.eraseIdx next.2)

/-- What the enqueue contract and a commit keep, `commit` keeps. -/
theorem commit_keeps {P : BusArbiter → Prop}
    (hvalidate : ∀ arb op, P arb → P (arb.validateEnqueueContract op).1)
    (hcommit : ∀ arb op tie, P arb → P (arb.executeCommit op tie).1) (harb : P arb) (op : BusOp) :
    P (arb.commit op).1 := by
  have hnext := hvalidate arb op harb
  rw [commit]
  split
  · exact harb
  · split
    case h_1 next heq =>
      rw [heq] at hnext
      exact hnext
    case h_2 next heq =>
      rw [heq] at hnext
      exact hcommit next op false hnext

theorem commitBatch_keeps {P : BusArbiter → Prop}
    (hvalidate : ∀ arb op, P arb → P (arb.validateEnqueueContract op).1)
    (hcommit : ∀ arb op tie, P arb → P (arb.executeCommit op tie).1) (harb : P arb.resetEnqueued)
    (ops : List BusOp) : P (arb.commitBatch ops).1 :=
  commitRounds_keeps hcommit (enqueue_keeps hvalidate harb 0 ops) _ _

end BusArbiter

end Saturnis.Bus
