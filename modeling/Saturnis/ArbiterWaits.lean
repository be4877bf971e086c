/-
How long an operation of a batch waits.

Every round of a batch grants an operation that starts first, so the bus is never
idle while an operation of the batch could have it.  An operation waits for the
operations that are granted before it and for nothing else, whatever the policy
and the latencies; and none that the horizon lets through is left over.

* `executeCommit_busTime` — what one operation costs all others;
* `commitRounds_waits` — the rounds of a batch, one after the other;
* `commitBatch_waits` — **the wait of every operation of every batch**.
-/
import Saturnis.ArbiterTurns
import Saturnis.ArbiterWatermark

namespace Saturnis.Bus

namespace BusArbiter

variable {arb : BusArbiter} {pending : List CommitResult} {next : Entry} {tie : Bool}

/-- The ticks a result has the bus. -/
def busTime (result : CommitResult) : Nat :=
  result.response.commitTime - result.response.startTime

/-! ### One round -/

/-- The selected operation starts as early as any committable one. -/
theorem nextRound_earliest (h : arb.nextRound pending = some (next, tie)) :
    ∀ e ∈ arb.committable pending, arb.startTime next.1.op ≤ arb.startTime e.1.op := by
  obtain ⟨front, rest, hcand, rfl, -⟩ := nextRound_eq_some h
  have hscan := @Scan.best_minimal _ (fun x cur : Entry => arb.replaces x.1.op cur.1.op)
    front (front :: rest) (fun e : Entry => arb.startTime e.1.op)
    (fun x _ cur _ hr => by
      by_contra hlt
      rw [not_replaces_of_start_lt (Nat.lt_of_not_le hlt)] at hr
      exact Bool.false_ne_true hr)
    (fun x _ cur _ hr => by
      by_contra hlt
      rw [replaces_of_start_lt (Nat.lt_of_not_le hlt)] at hr
      exact Bool.false_ne_true hr.symm)
  intro e he
  rw [hcand] at he
  exact hscan e (List.mem_cons_of_mem front he)

/-- An operation is answered from its start time on, and keeps the bus no longer
than its answer says. -/
theorem executeCommit_busTime (arb : BusArbiter) (op : BusOp) (tie : Bool) :
    (arb.executeCommit op tie).2.startTime = arb.startTime op ∧
      (arb.executeCommit op tie).1.busFreeTime ≤ arb.startTime op +
        ((arb.executeCommit op tie).2.commitTime - (arb.executeCommit op tie).2.startTime) := by
  cases h : arb.accepts op with
  | true =>
    rw [executeCommit_of_accepts h]
    refine ⟨rfl, ?_⟩
    change (arb.grant op tie).2.commitTime ≤
      arb.startTime op + ((arb.grant op tie).2.commitTime - arb.startTime op)
    omega
  | false =>
    obtain ⟨reason, detail, heq⟩ := executeCommit_of_rejected tie h
    rw [heq]
    exact ⟨rfl, Nat.le_trans (Nat.le_max_right _ _) (Nat.le_add_right _ _)⟩

/-- What is committable after a round was committable before it. -/
theorem committable_later (h : arb.nextRound pending = some (next, tie)) {r : CommitResult}
    (hr : r ∈ pending.eraseIdx next.2)
    (hcommittable : (arb.executeCommit next.1.op tie).1.isCommittable r.op = true) :
    arb.startTime next.1.op ≤ arb.startTime r.op := by
  rw [executeCommit_isCommittable] at hcommittable
  obtain ⟨i, hi⟩ := List.mem_iff_getElem?.mp (List.eraseIdx_subset hr)
  exact nextRound_earliest h (r, i)
    (List.mem_filter.mpr ⟨List.mem_zipIdx_iff_getElem?.mpr hi, hcommittable⟩)

/-! ### The rounds of a batch -/

/-- A result is of a pending operation that was let through. -/
theorem mem_commitRounds (n : Nat) (arb : BusArbiter) (pending : List CommitResult) :
    ∀ r ∈ (commitRounds n arb pending).2, arb.isCommittable r.op = true ∧
      ∃ p ∈ pending, p.op = r.op := by
  induction n generalizing arb pending with
  | zero => exact fun r hr => absurd hr List.not_mem_nil
  | succ n ih =>
    intro r hr
    cases h : arb.nextRound pending with
    | none =>
      rw [commitRounds_of_none h] at hr
      exact absurd hr List.not_mem_nil
    | some round =>
      obtain ⟨next, tie⟩ := round
      rw [commitRounds_of_some h] at hr
      rcases List.mem_cons.mp hr with rfl | hr
      · have hmem := (nextRound_made h).next
        exact ⟨(List.mem_filter.mp hmem).2, next.1,
          List.mem_of_getElem? (nextRound_getElem? h), rfl⟩
      · obtain ⟨hcommittable, p, hp, hop⟩ := ih _ _ r hr
        rw [executeCommit_isCommittable] at hcommittable
        exact ⟨hcommittable, p, List.eraseIdx_subset hp, hop⟩

/-- An operation waits for what is granted before it. -/
theorem commitRounds_waits (n : Nat) (arb : BusArbiter) (pending : List CommitResult) :
    ∀ (i : Nat) (hi : i < (commitRounds n arb pending).2.length),
      (commitRounds n arb pending).2[i].response.startTime ≤
        max (commitRounds n arb pending).2[i].op.reqTime arb.busFreeTime +
          (((commitRounds n arb pending).2.take i).map busTime).sum := by
  induction n generalizing arb pending with
  | zero => exact fun i hi => absurd hi (Nat.not_lt_zero i)
  | succ n ih =>
    cases h : arb.nextRound pending with
    | none =>
      rw [commitRounds_of_none h]
      exact fun i hi => absurd hi (Nat.not_lt_zero i)
    | some round =>
      obtain ⟨next, tie⟩ := round
      rw [commitRounds_of_some h]
      obtain ⟨hstart, hbus⟩ := executeCommit_busTime arb next.1.op tie
      intro i hi
      cases i with
      | zero => exact Nat.le_of_eq hstart
      | succ i =>
        have hi' := Nat.lt_of_succ_lt_succ hi
        have hwait := ih (arb.executeCommit next.1.op tie).1 (pending.eraseIdx next.2) i hi'
        obtain ⟨hcommittable, p, hp, hop⟩ := mem_commitRounds _ _ _ _ (List.getElem_mem hi')
        -- the granted operation starts no later than this one could have
        have hfirst := committable_later h hp (hop ▸ hcommittable)
        rw [hop, startTime, startTime] at hfirst
        rw [startTime] at hbus
        rw [List.getElem_cons_succ, List.take_succ_cons, List.map_cons, List.sum_cons]
        change _ ≤ _ + ((arb.executeCommit next.1.op tie).2.commitTime -
          (arb.executeCommit next.1.op tie).2.startTime + _)
        omega

/-- Nothing that is let through is left over. -/
theorem commitRounds_all (n : Nat) (arb : BusArbiter) (pending : List CommitResult)
    (hn : pending.length ≤ n) (hrun : (commitRounds n arb pending).1.trace.shouldHalt = false) :
    ∀ p ∈ pending, arb.isCommittable p.op = true →
      ∃ r ∈ (commitRounds n arb pending).2, r.inputIndex = p.inputIndex ∧ r.op = p.op := by
  induction n generalizing arb pending with
  | zero =>
    rw [List.length_eq_zero_iff.mp (Nat.le_zero.mp hn)]
    exact fun p hp => absurd hp List.not_mem_nil
  | succ n ih =>
    intro p hp hcommittable
    obtain ⟨i, hi⟩ := List.mem_iff_getElem?.mp hp
    cases h : arb.nextRound pending with
    | none =>
      rw [commitRounds_of_none h] at hrun
      have hmem : (p, i) ∈ arb.committable pending :=
        List.mem_filter.mpr ⟨List.mem_zipIdx_iff_getElem?.mpr hi, hcommittable⟩
      rw [nextRound, if_neg (by rw [hrun]; exact Bool.false_ne_true)] at h
      split at h
      · rename_i hnil
        rw [hnil] at hmem
        exact absurd hmem List.not_mem_nil
      · exact absurd h (by simp)
    | some round =>
      obtain ⟨next, tie⟩ := round
      rw [commitRounds_of_some h] at hrun ⊢
      have hget := nextRound_getElem? h
      by_cases hsame : i = next.2
      · rw [hsame, hget] at hi
        obtain rfl := Option.some_inj.mp hi
        exact ⟨_, List.mem_cons_self, rfl, rfl⟩
      · have hlater : p ∈ pending.eraseIdx next.2 :=
          List.mem_eraseIdx_iff_getElem?.mpr ⟨i, hsame, hi⟩
        have hlen : (pending.eraseIdx next.2).length ≤ n := by
          rw [List.length_eraseIdx, if_pos (List.getElem?_eq_some_iff.mp hget).1]
          omega
        obtain ⟨r, hr, hindex, hop⟩ := ih _ _ hlen hrun p hlater
          (by rw [executeCommit_isCommittable]; exact hcommittable)
        exact ⟨r, List.mem_cons_of_mem _ hr, hindex, hop⟩

/-! ### Batches -/

theorem isCommittable_of_progress {a b : BusArbiter} (h : a.progress = b.progress) :
    a.isCommittable = b.isCommittable := by
  obtain ⟨htrack, hup⟩ := Prod.mk.inj h
  funext op
  rw [isCommittable, isCommittable, hasSafeHorizon, hasSafeHorizon, commitHorizon, commitHorizon,
    htrack, hup]

/-- **No operation of a batch waits for longer than the operations granted before
it take**, and none that the horizon lets through is left over, unless the log
halts the arbiter. -/
theorem commitBatch_waits (arb : BusArbiter) (ops : List BusOp) :
    (∀ (i : Nat) (hi : i < (arb.commitBatch ops).2.length),
      (arb.commitBatch ops).2[i].response.startTime ≤
        max (arb.commitBatch ops).2[i].op.reqTime arb.busFreeTime +
          (((arb.commitBatch ops).2.take i).map busTime).sum) ∧
    ((arb.commitBatch ops).1.trace.shouldHalt = false →
      ∀ p ∈ (arb.resetEnqueued.enqueue 0 ops).2, arb.isCommittable p.op = true →
        ∃ r ∈ (arb.commitBatch ops).2, r.inputIndex = p.inputIndex ∧ r.op = p.op) := by
  have hbus : (arb.resetEnqueued.enqueue 0 ops).1.busFreeTime = arb.busFreeTime :=
    hardware_busFreeTime (hardware_enqueue _ 0 ops)
  have hwaits := commitRounds_waits (arb.resetEnqueued.enqueue 0 ops).2.length
    (arb.resetEnqueued.enqueue 0 ops).1 (arb.resetEnqueued.enqueue 0 ops).2
  rw [hbus] at hwaits
  refine ⟨hwaits, fun hrun p hp hcommittable => ?_⟩
  refine commitRounds_all _ _ _ (Nat.le_refl _) hrun p hp ?_
  rw [isCommittable_of_progress (progress_enqueue _ 0 ops)]
  exact hcommittable

end BusArbiter

end Saturnis.Bus
