/-
Runs of the arbiter, and the operations handled along them.

`runLog` lists every operation a run of calls handles, in the order in which it
is handled: granted, rejected by `execute_commit`, or turned away by the
enqueue contract.  Between two of them the arbiter changes at most its enqueue
bookkeeping and its watermarks (`Chained`), so

* `runCalls_chained` — the log leads from the first arbiter to the last one;
* `runLog_sound` — each entry is a grant or a rejection of the model;
* `runCalls_commits` — the COMMIT records of the run are those of the log.
-/
import Saturnis.ArbiterCore

namespace Saturnis.Bus

open Saturnis.Core Saturnis.Mem Saturnis.Dev

/-- A call that does not take a caller-held queue. -/
inductive ArbiterCall
  | commit (op : BusOp)
  | commitDma (op : BusOp)
  | commitBatch (ops : List BusOp)
  | updateProgress (cpuId : Int) (executedUpTo : Nat)

/-- One operation, the arbiter it met, the one it left, and the answer. -/
structure Handled where
  before : BusArbiter
  op : BusOp
  tie : Bool
  granted : Bool
  after : BusArbiter
  response : BusResponse

namespace Handled

/-- An operation that reached `execute_commit`. -/
def ofExecute (arb : BusArbiter) (op : BusOp) (tie : Bool) : Handled :=
  ⟨arb, op, tie, arb.accepts op, (arb.executeCommit op tie).1, (arb.executeCommit op tie).2⟩

/-- An operation that the enqueue contract turned away. -/
def ofEnqueue (arb : BusArbiter) (op : BusOp) : Handled :=
  ⟨arb, op, false, false, (arb.validateEnqueueContract op).1,
    ⟨kInvalidBusOpValue, 0, arb.startTime op, arb.startTime op, 0, []⟩⟩

def record (h : Handled) : CommitEvent := BusArbiter.record h.op h.response

/-- The entry is the grant of an acceptable operation, or a fault response at
the operation's start time. -/
def Sound (h : Handled) : Prop :=
  if h.granted then
    h.before.accepts h.op = true ∧ (h.after, h.response) = h.before.grant h.op h.tie
  else ∃ reason detail, (h.after, h.response) =
    h.before.faultResponse h.op (h.before.startTime h.op) reason detail

theorem sound_ofExecute (arb : BusArbiter) (op : BusOp) (tie : Bool) :
    (ofExecute arb op tie).Sound := by
  unfold Sound
  cases h : arb.accepts op with
  | true =>
    rw [if_pos (show (ofExecute arb op tie).granted = true from h)]
    exact ⟨h, BusArbiter.executeCommit_of_accepts h⟩
  | false =>
    rw [if_neg (by simp [ofExecute, h])]
    exact BusArbiter.executeCommit_of_rejected tie h

theorem sound_ofEnqueue {arb : BusArbiter} {op : BusOp}
    (h : (arb.validateEnqueueContract op).2 = false) : (ofEnqueue arb op).Sound := by
  unfold Sound
  rw [if_neg (by simp [ofEnqueue])]
  refine ⟨"ENQUEUE_NON_MONOTONIC_REQ_TIME", BitVec.ofNat 32 op.reqTime, ?_⟩
  simp only [BusArbiter.validateEnqueueContract] at h
  split at h
  · rename_i hcond
    simp only [ofEnqueue, BusArbiter.validateEnqueueContract, if_pos hcond]
    rfl
  · exact absurd h (by simp)

theorem Sound.of_granted {h : Handled} (hs : h.Sound) (hg : h.granted = true) :
    h.after = (h.before.grant h.op h.tie).1 ∧ h.response = (h.before.grant h.op h.tie).2 := by
  rw [Sound, if_pos hg] at hs
  exact Prod.ext_iff.mp hs.2

theorem Sound.of_rejected {h : Handled} (hs : h.Sound) (hg : h.granted = false) :
    ∃ reason detail,
      h.after = (h.before.faultResponse h.op (h.before.startTime h.op) reason detail).1 ∧
        h.response = (h.before.faultResponse h.op (h.before.startTime h.op) reason detail).2 := by
  rw [Sound, if_neg (by simp [hg])] at hs
  obtain ⟨reason, detail, hs⟩ := hs
  exact ⟨reason, detail, Prod.ext_iff.mp hs⟩

theorem Sound.commits {h : Handled} (hs : h.Sound) :
    h.after.trace.commits = h.before.trace.commits ++ [h.record] := by
  unfold Sound at hs
  split at hs
  · have := BusArbiter.grant_commits h.before h.op h.tie
    rwa [← hs.2] at this
  · obtain ⟨reason, detail, hs⟩ := hs
    have := BusArbiter.faultResponse_commits h.before h.op (h.before.startTime h.op) reason detail
    rwa [← hs] at this

end Handled

namespace BusArbiter

/-! ### The log of a call -/

def commitLog (arb : BusArbiter) (op : BusOp) : List Handled :=
  if arb.trace.shouldHalt then []
  else if (arb.validateEnqueueContract op).2 then
    [.ofExecute (arb.validateEnqueueContract op).1 op false]
  else [.ofEnqueue arb op]

def enqueueLog : BusArbiter → List BusOp → List Handled
  | _, [] => []
  | arb, op :: ops =>
    if arb.trace.shouldHalt then []
    else if (arb.validateEnqueueContract op).2 then
      enqueueLog (arb.validateEnqueueContract op).1 ops
    else .ofEnqueue arb op :: enqueueLog (arb.validateEnqueueContract op).1 ops

def roundsLog : Nat → BusArbiter → List CommitResult → List Handled
  | 0, _, _ => []
  | rounds + 1, arb, pending =>
    match arb.nextRound pending with
    | none => []
    | some (next, tie) =>
      .ofExecute arb next.1.op tie ::
        roundsLog rounds (arb.executeCommit next.1.op tie).1 (pending.eraseIdx next.2)

def batchLog (arb : BusArbiter) (ops : List BusOp) : List Handled :=
  enqueueLog arb.resetEnqueued ops ++
    roundsLog (arb.resetEnqueued.enqueue 0 ops).2.length (arb.resetEnqueued.enqueue 0 ops).1
      (arb.resetEnqueued.enqueue 0 ops).2

def runCall (arb : BusArbiter) : ArbiterCall → BusArbiter
  | .commit op => (arb.commit op).1
  | .commitDma op => (arb.commitDma op).1
  | .commitBatch ops => (arb.commitBatch ops).1
  | .updateProgress cpuId t => arb.updateProgress cpuId t

def callLog (arb : BusArbiter) : ArbiterCall → List Handled
  | .commit op => arb.commitLog op
  | .commitDma op => arb.commitLog { op with cpuId := -1, producer := .dma }
  | .commitBatch ops => arb.batchLog ops
  | .updateProgress _ _ => []

def runCalls (arb : BusArbiter) (calls : List ArbiterCall) : BusArbiter :=
  calls.foldl runCall arb

def runLog : BusArbiter → List ArbiterCall → List Handled
  | _, [] => []
  | arb, call :: calls => arb.callLog call ++ runLog (arb.runCall call) calls

/-- What is kept by the enqueue contract, by a commit and by every change outside
the core of an arbiter, the calls keep. -/
theorem runCalls_keeps {P : BusArbiter → Prop} {arb : BusArbiter}
    (hcore : ∀ a b : BusArbiter, a.core = b.core → P a → P b)
    (hvalidate : ∀ arb op, P arb → P (arb.validateEnqueueContract op).1)
    (hcommit : ∀ arb op tie, P arb → P (arb.executeCommit op tie).1) (harb : P arb)
    (calls : List ArbiterCall) : P (arb.runCalls calls) := by
  induction calls generalizing arb with
  | nil => exact harb
  | cons call calls ih =>
    refine ih ?_
    cases call with
    | commit op => exact commit_keeps hvalidate hcommit harb op
    | commitDma op => exact commit_keeps hvalidate hcommit harb _
    | commitBatch ops =>
      exact commitBatch_keeps hvalidate hcommit (hcore _ _ (core_resetEnqueued arb).symm harb) ops
    | updateProgress cpuId t => exact hcore _ _ (core_updateProgress arb cpuId t).symm harb

/-! ### The log leads from the first arbiter to the last -/

/-- Consecutive arbiters agree up to enqueue bookkeeping and watermarks. -/
def Chained : BusArbiter → List Handled → BusArbiter → Prop
  | a, [], b => a.core = b.core
  | a, h :: log, b => a.core = h.before.core ∧ Chained h.after log b

theorem Chained.core_left {a a' b : BusArbiter} {log : List Handled} (h : Chained a log b)
    (ha : a'.core = a.core) : Chained a' log b := by
  cases log with
  | nil => exact ha.trans h
  | cons e log => exact ⟨ha.trans h.1, h.2⟩

theorem Chained.append {a b c : BusArbiter} {log₁ log₂ : List Handled} (h₁ : Chained a log₁ b)
    (h₂ : Chained b log₂ c) : Chained a (log₁ ++ log₂) c := by
  induction log₁ generalizing a with
  | nil => exact h₂.core_left h₁
  | cons e log₁ ih => exact ⟨h₁.1, ih h₁.2⟩

theorem enqueue_chained (arb : BusArbiter) (i : Nat) (ops : List BusOp) :
    Chained arb (arb.enqueueLog ops) (arb.enqueue i ops).1 := by
  induction ops generalizing arb i with
  | nil => rfl
  | cons op ops ih =>
    rw [enqueueLog, enqueue]
    split
    · rfl
    · rcases hv : arb.validateEnqueueContract op with ⟨arb', ok⟩
      have hfst : (arb.validateEnqueueContract op).1 = arb' := by rw [hv]
      cases ok with
      | false =>
        refine ⟨rfl, ?_⟩
        rw [show (Handled.ofEnqueue arb op).after = arb' from hfst]
        exact ih arb' (i + 1)
      | true =>
        refine (ih arb' (i + 1)).core_left ?_
        rw [← hfst]
        exact (core_validateEnqueueContract (by rw [hv])).symm

theorem rounds_chained (rounds : Nat) (arb : BusArbiter) (pending : List CommitResult) :
    Chained arb (roundsLog rounds arb pending) (commitRounds rounds arb pending).1 := by
  induction rounds generalizing arb pending with
  | zero => rfl
  | succ rounds ih =>
    rw [roundsLog]
    cases h : arb.nextRound pending with
    | none =>
      rw [commitRounds_of_none h]
      rfl
    | some next =>
      obtain ⟨next, tie⟩ := next
      rw [commitRounds_of_some h]
      exact ⟨rfl, ih _ _⟩

theorem batch_chained (arb : BusArbiter) (ops : List BusOp) :
    Chained arb (arb.batchLog ops) (arb.commitBatch ops).1 :=
  ((enqueue_chained arb.resetEnqueued 0 ops).core_left (core_resetEnqueued arb).symm).append
    (rounds_chained _ _ _)

theorem commit_chained (arb : BusArbiter) (op : BusOp) :
    Chained arb (arb.commitLog op) (arb.commit op).1 := by
  rw [commitLog, commit]
  split
  · rfl
  · rcases hv : arb.validateEnqueueContract op with ⟨arb', ok⟩
    have hfst : (arb.validateEnqueueContract op).1 = arb' := by rw [hv]
    cases ok with
    | false =>
      refine ⟨rfl, ?_⟩
      rw [show (Handled.ofEnqueue arb op).after = arb' from hfst]
      rfl
    | true =>
      have hcore : (arb.validateEnqueueContract op).1.core = arb.core :=
        core_validateEnqueueContract (by rw [hv])
      rw [hfst] at hcore
      exact ⟨hcore.symm, rfl⟩

theorem runCall_chained (arb : BusArbiter) (call : ArbiterCall) :
    Chained arb (arb.callLog call) (arb.runCall call) := by
  cases call with
  | commit op => exact commit_chained arb op
  | commitDma op => exact commit_chained arb _
  | commitBatch ops => exact batch_chained arb ops
  | updateProgress cpuId t => exact (core_updateProgress arb cpuId t).symm

theorem runCalls_chained (arb : BusArbiter) (calls : List ArbiterCall) :
    Chained arb (runLog arb calls) (arb.runCalls calls) := by
  induction calls generalizing arb with
  | nil => rfl
  | cons call calls ih => exact (runCall_chained arb call).append (ih _)

/-! ### Every entry is a grant or a rejection -/

theorem mem_enqueueLog {arb : BusArbiter} {ops : List BusOp} {h : Handled}
    (hh : h ∈ arb.enqueueLog ops) : ∃ (arb' : BusArbiter) (op : BusOp),
      arb'.trace.shouldHalt = false ∧ (arb'.validateEnqueueContract op).2 = false ∧
        h = .ofEnqueue arb' op := by
  induction ops generalizing arb with
  | nil => exact absurd hh List.not_mem_nil
  | cons op ops ih =>
    rw [enqueueLog] at hh
    split at hh
    · exact absurd hh List.not_mem_nil
    · rename_i hrun
      split at hh
      · exact ih hh
      · rename_i hv
        rcases List.mem_cons.mp hh with rfl | hh
        · exact ⟨arb, op, by simpa using hrun, by simpa using hv, rfl⟩
        · exact ih hh

theorem nextRound_running {arb : BusArbiter} {pending : List CommitResult} {next : Entry × Bool}
    (h : arb.nextRound pending = some next) : arb.trace.shouldHalt = false := by
  by_contra hhalt
  rw [nextRound, if_pos (by simpa using hhalt)] at h
  exact absurd h (by simp)

theorem mem_roundsLog {rounds : Nat} {arb : BusArbiter} {pending : List CommitResult} {h : Handled}
    (hh : h ∈ roundsLog rounds arb pending) : ∃ (arb' : BusArbiter) (op : BusOp) (tie : Bool),
      arb'.trace.shouldHalt = false ∧ h = .ofExecute arb' op tie := by
  induction rounds generalizing arb pending with
  | zero => exact absurd hh List.not_mem_nil
  | succ rounds ih =>
    rw [roundsLog] at hh
    cases hround : arb.nextRound pending with
    | none =>
      rw [hround] at hh
      exact absurd hh List.not_mem_nil
    | some next =>
      rw [hround] at hh
      rcases List.mem_cons.mp hh with rfl | hh
      · exact ⟨arb, _, _, nextRound_running hround, rfl⟩
      · exact ih hh

theorem enqueueLog_sound (arb : BusArbiter) (ops : List BusOp) :
    ∀ h ∈ arb.enqueueLog ops, h.Sound := by
  intro h hh
  obtain ⟨arb', op, -, hv, rfl⟩ := mem_enqueueLog hh
  exact Handled.sound_ofEnqueue hv

theorem roundsLog_sound (rounds : Nat) (arb : BusArbiter) (pending : List CommitResult) :
    ∀ h ∈ roundsLog rounds arb pending, h.Sound := by
  intro h hh
  obtain ⟨arb', op, tie, -, rfl⟩ := mem_roundsLog hh
  exact Handled.sound_ofExecute _ _ _

theorem commitLog_sound (arb : BusArbiter) (op : BusOp) : ∀ h ∈ arb.commitLog op, h.Sound := by
  rw [commitLog]
  split
  · simp
  · split
    · simpa using Handled.sound_ofExecute _ _ _
    · rename_i hv
      simpa using Handled.sound_ofEnqueue (by simpa using hv)

theorem callLog_sound (arb : BusArbiter) (call : ArbiterCall) :
    ∀ h ∈ arb.callLog call, h.Sound := by
  cases call with
  | commit op => exact commitLog_sound arb op
  | commitDma op => exact commitLog_sound arb _
  | commitBatch ops =>
    intro h hh
    rcases List.mem_append.mp hh with hh | hh
    · exact enqueueLog_sound _ _ h hh
    · exact roundsLog_sound _ _ _ h hh
  | updateProgress cpuId t => simp [callLog]

theorem runLog_sound (arb : BusArbiter) (calls : List ArbiterCall) :
    ∀ h ∈ runLog arb calls, h.Sound := by
  induction calls generalizing arb with
  | nil => simp [runLog]
  | cons call calls ih =>
    intro h hh
    rcases List.mem_append.mp hh with hh | hh
    · exact callLog_sound arb call h hh
    · exact ih _ h hh

/-! ### The log is what the run records and answers -/

theorem Chained.commits {a b : BusArbiter} {log : List Handled} (h : Chained a log b)
    (hs : ∀ e ∈ log, e.Sound) : b.trace.commits = a.trace.commits ++ log.map Handled.record := by
  induction log generalizing a with
  | nil => rw [core_trace h, List.map_nil, List.append_nil]
  | cons e log ih =>
    rw [ih h.2 fun x hx => hs x (List.mem_cons_of_mem e hx), core_trace h.1,
      (hs e List.mem_cons_self).commits, List.append_assoc]
    rfl

theorem runCalls_commits (arb : BusArbiter) (calls : List ArbiterCall) :
    (arb.runCalls calls).trace.commits =
      arb.trace.commits ++ (runLog arb calls).map Handled.record :=
  (runCalls_chained arb calls).commits (runLog_sound arb calls)

theorem commitRounds_results (rounds : Nat) (arb : BusArbiter) (pending : List CommitResult) :
    (commitRounds rounds arb pending).2.map (fun r => (r.op, r.response)) =
      (roundsLog rounds arb pending).map fun h => (h.op, h.response) := by
  induction rounds generalizing arb pending with
  | zero => rfl
  | succ rounds ih =>
    rw [roundsLog]
    cases h : arb.nextRound pending with
    | none =>
      rw [commitRounds_of_none h]
      rfl
    | some next =>
      obtain ⟨next, tie⟩ := next
      rw [commitRounds_of_some h, List.map_cons, List.map_cons, ih]
      rfl

/-- The operations a call answers, with the answers it returns. -/
def callAnswers (arb : BusArbiter) : ArbiterCall → List (BusOp × BusResponse)
  | .commit op => [(op, (arb.commit op).2)]
  | .commitDma op => [({ op with cpuId := -1, producer := .dma }, (arb.commitDma op).2)]
  | .commitBatch ops => (arb.commitBatch ops).2.map fun r => (r.op, r.response)
  | .updateProgress _ _ => []

theorem commitLog_answered {arb : BusArbiter} {op : BusOp} {h : Handled}
    (hh : h ∈ arb.commitLog op) (hg : h.granted = true) :
    (h.op, h.response) = (op, (arb.commit op).2) := by
  rw [commitLog] at hh
  rw [commit]
  split at hh
  · exact absurd hh (by simp)
  · rename_i hhalt
    rw [if_neg hhalt]
    rcases hv : arb.validateEnqueueContract op with ⟨arb', ok⟩
    rw [hv] at hh
    cases ok with
    | false =>
      rw [if_neg (by simp), List.mem_singleton] at hh
      rw [hh] at hg
      exact absurd hg (by simp [Handled.ofEnqueue])
    | true =>
      rw [if_pos rfl, List.mem_singleton] at hh
      rw [hh]
      rfl

theorem enqueueLog_not_granted (arb : BusArbiter) (ops : List BusOp) :
    ∀ h ∈ arb.enqueueLog ops, h.granted = false := by
  intro h hh
  obtain ⟨arb', op, -, -, rfl⟩ := mem_enqueueLog hh
  rfl

/-- A granted operation is answered with the response of its log entry. -/
theorem callLog_answered {arb : BusArbiter} {call : ArbiterCall} {h : Handled}
    (hh : h ∈ arb.callLog call) (hg : h.granted = true) :
    (h.op, h.response) ∈ arb.callAnswers call := by
  cases call with
  | commit op => exact List.mem_singleton.mpr (commitLog_answered hh hg)
  | commitDma op => exact List.mem_singleton.mpr (commitLog_answered hh hg)
  | commitBatch ops =>
    rcases List.mem_append.mp hh with hh | hh
    · rw [enqueueLog_not_granted _ _ h hh] at hg
      exact absurd hg (by simp)
    · simp only [callAnswers, commitBatch, commitRounds_results]
      exact List.mem_map.mpr ⟨h, hh, rfl⟩
  | updateProgress cpuId t => simp [callLog] at hh

/-- A granted operation of a run is answered by the call it is of. -/
theorem runLog_answered {arb : BusArbiter} {calls : List ArbiterCall} {h : Handled}
    (hh : h ∈ runLog arb calls) (hg : h.granted = true) :
    ∃ before call after, calls = before ++ call :: after ∧
      (h.op, h.response) ∈ (arb.runCalls before).callAnswers call := by
  induction calls generalizing arb with
  | nil => exact absurd hh List.not_mem_nil
  | cons call calls ih =>
    rcases List.mem_append.mp hh with hfirst | hlater
    · exact ⟨[], call, calls, rfl, callLog_answered hfirst hg⟩
    · obtain ⟨before, later, after, rfl, hanswer⟩ := ih hlater
      exact ⟨call :: before, later, after, rfl, hanswer⟩

end BusArbiter

end Saturnis.Bus
