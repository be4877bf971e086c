/-
The trace log is only appended to.

Nothing the arbiter answers or changes depends on the lines that the log holds
already.  `Appends f` says so of one operation `f`: started on any log it adds
the same lines, returns the same value and leaves the same arbiter.

* `Appends.bind` — the property is kept by sequencing;
* `commitBatch_appends`, `commit_appends` — it holds of the entry points;
* `answersOf_relog` — so later calls answer the same whatever was logged.
-/
import Saturnis.ArbiterRecords

namespace Saturnis.Bus

open Saturnis.Core Saturnis.Mem Saturnis.Dev

namespace BusArbiter

variable {α β : Type} {arb : BusArbiter} {op : BusOp}

/-- The arbiter with other lines in its log. -/
def relog (arb : BusArbiter) (lines : List TraceEvent) : BusArbiter :=
  { arb with trace := { arb.trace with lines } }

@[simp] theorem relog_self (arb : BusArbiter) : arb.relog arb.trace.lines = arb := rfl

@[simp] theorem relog_relog (arb : BusArbiter) (l l' : List TraceEvent) :
    (arb.relog l).relog l' = arb.relog l' := rfl

@[simp] theorem relog_lines (arb : BusArbiter) (l : List TraceEvent) :
    (arb.relog l).trace.lines = l := rfl

@[simp] theorem relog_shouldHalt (arb : BusArbiter) (l : List TraceEvent) :
    (arb.relog l).trace.shouldHalt = arb.trace.shouldHalt := rfl

def Appends (f : BusArbiter → BusArbiter × β) : Prop :=
  ∀ arb : BusArbiter, ∃ (after : BusArbiter) (lines : List TraceEvent) (value : β),
    ∀ l, f (arb.relog l) = (after.relog (l ++ lines), value)

theorem Appends.pure (f : BusArbiter → β) (hf : ∀ arb l, f (arb.relog l) = f arb) :
    Appends fun arb => (arb, f arb) :=
  fun arb => ⟨arb, [], f arb, fun l => by
    show (arb.relog l, f (arb.relog l)) = _
    rw [hf, List.append_nil]⟩

theorem Appends.bind {f : BusArbiter → BusArbiter × α} {g : α → BusArbiter → BusArbiter × β}
    (hf : Appends f) (hg : ∀ a, Appends (g a)) : Appends fun arb => g (f arb).2 (f arb).1 := by
  intro arb
  obtain ⟨b, lines, a, hb⟩ := hf arb
  obtain ⟨c, lines', value, hc⟩ := hg a b
  refine ⟨c, lines ++ lines', value, fun l => ?_⟩
  show g (f (arb.relog l)).2 (f (arb.relog l)).1 = _
  rw [hb, hc, List.append_assoc]

theorem Appends.ite {f g : BusArbiter → BusArbiter × β} (p : BusArbiter → Prop)
    [DecidablePred p] (hp : ∀ arb l, p (arb.relog l) ↔ p arb) (hf : Appends f) (hg : Appends g) :
    Appends fun arb => if p arb then f arb else g arb := by
  intro arb
  by_cases h : p arb
  · obtain ⟨b, lines, value, hb⟩ := hf arb
    refine ⟨b, lines, value, fun l => ?_⟩
    show (if p (arb.relog l) then f (arb.relog l) else g (arb.relog l)) = _
    rw [if_pos ((hp arb l).mpr h), hb]
  · obtain ⟨b, lines, value, hb⟩ := hg arb
    refine ⟨b, lines, value, fun l => ?_⟩
    show (if p (arb.relog l) then f (arb.relog l) else g (arb.relog l)) = _
    rw [if_neg (mt (hp arb l).mp h), hb]

/-- The lines added are those added to the log there is. -/
theorem Appends.spec {f : BusArbiter → BusArbiter × β} (hf : Appends f) (arb : BusArbiter) :
    ∃ lines, (f arb).1.trace.lines = arb.trace.lines ++ lines ∧
      ∀ l, f (arb.relog l) = ((f arb).1.relog (l ++ lines), (f arb).2) := by
  obtain ⟨b, lines, value, hb⟩ := hf arb
  have hself := hb arb.trace.lines
  rw [relog_self] at hself
  refine ⟨lines, by rw [hself]; rfl, fun l => ?_⟩
  rw [hb l, hself]
  rfl

/-- Two arbiters that differ in the log only get the same value, and differ in
the log only afterwards. -/
theorem Appends.relog_congr {f : BusArbiter → BusArbiter × β} (hf : Appends f) (arb : BusArbiter)
    (l : List TraceEvent) :
    (f (arb.relog l)).2 = (f arb).2 ∧ ∃ l', (f (arb.relog l)).1 = (f arb).1.relog l' := by
  obtain ⟨lines, -, hl⟩ := hf.spec arb
  rw [hl l]
  exact ⟨rfl, l ++ lines, rfl⟩

/-! ### The operations of the arbiter -/

theorem faultResponse_appends (op : BusOp) (start : BusArbiter → Nat) (reason : String)
    (detail : Word) (hstart : ∀ arb l, start (arb.relog l) = start arb) :
    Appends fun arb => arb.faultResponse op (start arb) reason detail := by
  intro arb
  refine ⟨(arb.faultResponse op (start arb) reason detail).1,
    [.fault ⟨start arb, op.cpuId, 0, detail, reason⟩,
      .commit ⟨start arb, start arb, op, 0, kInvalidBusOpValue, false⟩],
    (arb.faultResponse op (start arb) reason detail).2, fun l => ?_⟩
  show (arb.relog l).faultResponse op (start (arb.relog l)) reason detail = _
  rw [hstart]
  simp [faultResponse, relog, TraceLog.addFault, TraceLog.addCommit]

theorem grant_appends (op : BusOp) (tie : Bool) : Appends fun arb => arb.grant op tie := fun arb =>
  ⟨(arb.grant op tie).1, [.commit (record op (arb.grant op tie).2)], (arb.grant op tie).2,
    fun _ => rfl⟩

theorem executeCommit_appends (op : BusOp) (tie : Bool) :
    Appends fun arb => arb.executeCommit op tie := by
  refine Appends.ite (fun _ => validateBusOp op ≠ .none) (fun _ _ => Iff.rfl)
    (faultResponse_appends op _ _ _ fun _ _ => rfl) ?_
  exact Appends.ite (fun arb => arb.producerSeen (producerSlot op) ∧
    op.reqTime < arb.producerLastReqTime (producerSlot op)) (fun _ _ => Iff.rfl)
    (faultResponse_appends op _ _ _ fun _ _ => rfl) (grant_appends op tie)

theorem validateEnqueueContract_appends (op : BusOp) :
    Appends fun arb => arb.validateEnqueueContract op := by
  intro arb
  cases h : arb.turnsAway op with
  | true =>
    obtain ⟨b, lines, value, hb⟩ := faultResponse_appends op (fun arb => arb.startTime op)
      "ENQUEUE_NON_MONOTONIC_REQ_TIME" (BitVec.ofNat 32 op.reqTime) (fun _ _ => rfl) arb
    refine ⟨b, lines, false, fun l => ?_⟩
    have h' : (arb.relog l).turnsAway op = true := h
    have hfault := congrArg (fun r => (r.1, false)) (hb l)
    beta_reduce at hfault ⊢
    rw [validateEnqueueContract_of_turnsAway h', hfault]
  | false =>
    refine ⟨arb.noteEnqueued op, [], true, fun l => ?_⟩
    have h' : (arb.relog l).turnsAway op = false := h
    beta_reduce
    rw [validateEnqueueContract_of_pass h', List.append_nil]
    rfl

theorem enqueue_cons (arb : BusArbiter) (i : Nat) (op : BusOp) (ops : List BusOp) :
    arb.enqueue i (op :: ops) =
      if arb.trace.shouldHalt then (arb, [])
      else
        (((arb.validateEnqueueContract op).1.enqueue (i + 1) ops).1,
          if (arb.validateEnqueueContract op).2 then
            ⟨i, op, {}⟩ :: ((arb.validateEnqueueContract op).1.enqueue (i + 1) ops).2
          else ((arb.validateEnqueueContract op).1.enqueue (i + 1) ops).2) := by
  rw [enqueue]
  rcases arb.validateEnqueueContract op with ⟨b, ok⟩
  cases ok <;> rfl

theorem enqueue_appends (i : Nat) (ops : List BusOp) : Appends fun arb => arb.enqueue i ops := by
  induction ops generalizing i with
  | nil => exact Appends.pure (fun _ => []) fun _ _ => rfl
  | cons op ops ih =>
    simp only [enqueue_cons]
    refine Appends.ite (fun arb => arb.trace.shouldHalt = true) (fun _ _ => Iff.rfl)
      (Appends.pure (fun _ => []) fun _ _ => rfl) ?_
    refine Appends.bind (validateEnqueueContract_appends op)
      (g := fun ok arb => ((arb.enqueue (i + 1) ops).1,
        if ok then ⟨i, op, {}⟩ :: (arb.enqueue (i + 1) ops).2 else (arb.enqueue (i + 1) ops).2))
      fun ok => ?_
    exact Appends.bind (ih (i + 1))
      (g := fun pending arb => (arb, if ok then ⟨i, op, {}⟩ :: pending else pending))
      fun pending => Appends.pure (fun _ => _) fun _ _ => rfl

theorem commitRounds_appends (n : Nat) (pending : List CommitResult) :
    Appends fun arb => commitRounds n arb pending := by
  induction n generalizing pending with
  | zero => exact Appends.pure (fun _ => []) fun _ _ => rfl
  | succ n ih =>
    intro arb
    have hround : ∀ l, (arb.relog l).nextRound pending = arb.nextRound pending := fun _ => rfl
    cases h : arb.nextRound pending with
    | none =>
      refine ⟨arb, [], [], fun l => ?_⟩
      beta_reduce
      rw [commitRounds_of_none ((hround l).trans h), List.append_nil]
    | some next =>
      obtain ⟨next, tie⟩ := next
      obtain ⟨b, lines, response, hb⟩ := executeCommit_appends next.1.op tie arb
      obtain ⟨c, lines', results, hc⟩ := ih (pending.eraseIdx next.2) b
      refine ⟨c, lines ++ lines', { next.1 with response } :: results, fun l => ?_⟩
      beta_reduce at hb hc ⊢
      rw [commitRounds_of_some ((hround l).trans h), hb, hc, List.append_assoc]

theorem commitBatch_appends (ops : List BusOp) : Appends fun arb => arb.commitBatch ops := by
  have hreset : Appends fun arb => (arb.resetEnqueued, ()) := fun arb =>
    ⟨arb.resetEnqueued, [], (), fun l => by rw [List.append_nil]; rfl⟩
  exact Appends.bind (Appends.bind hreset fun _ => enqueue_appends 0 ops)
    fun pending => commitRounds_appends pending.length pending

theorem commit_appends (op : BusOp) : Appends fun arb => arb.commit op := by
  have hcommit : (fun arb : BusArbiter => arb.commit op) = fun arb =>
      if arb.trace.shouldHalt = true then
        (arb, ⟨kInvalidBusOpValue, 0, arb.busFreeTime, arb.busFreeTime, 0, []⟩)
      else if (arb.validateEnqueueContract op).2 = true then
        (arb.validateEnqueueContract op).1.executeCommit op false
      else ((arb.validateEnqueueContract op).1, ⟨kInvalidBusOpValue, 0,
        (arb.validateEnqueueContract op).1.busFreeTime,
        (arb.validateEnqueueContract op).1.busFreeTime, 0, []⟩) := by
    funext arb
    rw [commit]
    rcases arb.validateEnqueueContract op with ⟨b, ok⟩
    cases ok <;> rfl
  rw [hcommit]
  refine Appends.ite _ (fun _ _ => Iff.rfl)
    (Appends.pure (fun arb => _) fun _ _ => rfl) ?_
  refine Appends.bind (validateEnqueueContract_appends op)
    (g := fun ok arb => if ok = true then arb.executeCommit op false
      else (arb, ⟨kInvalidBusOpValue, 0, arb.busFreeTime, arb.busFreeTime, 0, []⟩)) fun ok => ?_
  exact Appends.ite (fun _ => ok = true) (fun _ _ => Iff.rfl) (executeCommit_appends op false)
    (Appends.pure (fun arb => _) fun _ _ => rfl)

/-! ### Later calls -/

/-- What a list of calls answers, call by call. -/
def answersOf (arb : BusArbiter) : List ArbiterCall → List (List (BusOp × BusResponse))
  | [] => []
  | call :: calls => arb.callAnswers call :: (arb.runCall call).answersOf calls

theorem runCall_relog (arb : BusArbiter) (l : List TraceEvent) (call : ArbiterCall) :
    (arb.relog l).callAnswers call = arb.callAnswers call ∧
      ∃ l', (arb.relog l).runCall call = (arb.runCall call).relog l' := by
  cases call with
  | commit op =>
    obtain ⟨hvalue, hafter⟩ := (commit_appends op).relog_congr arb l
    exact ⟨by rw [callAnswers, callAnswers, hvalue], hafter⟩
  | commitDma op =>
    obtain ⟨hvalue, hafter⟩ :=
      (commit_appends { op with cpuId := -1, producer := .dma }).relog_congr arb l
    exact ⟨by rw [callAnswers, callAnswers, commitDma, commitDma, hvalue], hafter⟩
  | commitBatch ops =>
    obtain ⟨hvalue, hafter⟩ := (commitBatch_appends ops).relog_congr arb l
    exact ⟨by rw [callAnswers, callAnswers, hvalue], hafter⟩
  | updateProgress cpuId t =>
    refine ⟨rfl, l, ?_⟩
    change (arb.relog l).updateProgress cpuId t = (arb.updateProgress cpuId t).relog l
    rw [updateProgress, updateProgress]
    split <;> rfl

theorem answersOf_relog (arb : BusArbiter) (l : List TraceEvent) (calls : List ArbiterCall) :
    (arb.relog l).answersOf calls = arb.answersOf calls := by
  induction calls generalizing arb l with
  | nil => rfl
  | cons call calls ih =>
    obtain ⟨hanswer, l', hafter⟩ := runCall_relog arb l call
    rw [answersOf, answersOf, hanswer, hafter, ih]

end BusArbiter

end Saturnis.Bus
