/-
The COMMIT records of a batch, by input index.

An operation handed to `commit_batch` gets its COMMIT record on one of two
paths: the enqueue contract turns it away, or a round of the commit loop
executes it.  `batchRecords` lists the records of both with the position of
their operation in the batch.

* `commitBatch_commits` — these are the records the call adds to the trace;
* `batchRecords_index_nodup` — no position gets two of them;
* `enqueueRecords_eq_nil_iff` — nothing is turned away exactly when each
  producer's operations come in the order of their requests.
-/
import Mathlib.Data.List.Perm.Subperm
import Saturnis.ArbiterRun
import Saturnis.ArbiterRounds

namespace Saturnis.Bus

open Saturnis.Core Saturnis.Mem Saturnis.Dev

namespace BusArbiter

variable {arb : BusArbiter} {op : BusOp} {ops : List BusOp}

/-! ### The enqueue contract -/

/-- The enqueue contract turns the operation away. -/
def turnsAway (arb : BusArbiter) (op : BusOp) : Bool :=
  arb.producerEnqueuedSeen (producerSlot op) &&
    op.reqTime < arb.producerLastEnqueuedReqTime (producerSlot op)

theorem validateEnqueueContract_of_pass (h : arb.turnsAway op = false) :
    arb.validateEnqueueContract op = (arb.noteEnqueued op, true) := by
  have hcond : ¬ (arb.producerEnqueuedSeen (producerSlot op) = true ∧
      op.reqTime < arb.producerLastEnqueuedReqTime (producerSlot op)) := by
    simpa [turnsAway] using h
  simp only [validateEnqueueContract]
  rw [if_neg hcond]
  rfl

theorem validateEnqueueContract_of_turnsAway (h : arb.turnsAway op = true) :
    arb.validateEnqueueContract op =
      ((arb.faultResponse op (arb.startTime op) "ENQUEUE_NON_MONOTONIC_REQ_TIME"
        (BitVec.ofNat 32 op.reqTime)).1, false) := by
  have hcond : arb.producerEnqueuedSeen (producerSlot op) = true ∧
      op.reqTime < arb.producerLastEnqueuedReqTime (producerSlot op) := by
    simpa [turnsAway] using h
  simp only [validateEnqueueContract]
  rw [if_pos hcond]

theorem turnsAway_eq_false :
    arb.turnsAway op = false ↔ (arb.producerEnqueuedSeen (producerSlot op) = true →
      arb.producerLastEnqueuedReqTime (producerSlot op) ≤ op.reqTime) := by
  rw [turnsAway]
  cases arb.producerEnqueuedSeen (producerSlot op) <;> simp

/-! ### Records with their positions -/

/-- The records of the operations that the enqueue loop turns away, from input
index `i` on. -/
def enqueueRecords (arb : BusArbiter) : Nat → List BusOp → List (Nat × CommitEvent)
  | _, [] => []
  | i, op :: ops =>
    if arb.trace.shouldHalt then []
    else if arb.turnsAway op then
      (i, (Handled.ofEnqueue arb op).record) ::
        enqueueRecords (arb.validateEnqueueContract op).1 (i + 1) ops
    else enqueueRecords (arb.validateEnqueueContract op).1 (i + 1) ops

def resultRecord (result : CommitResult) : Nat × CommitEvent :=
  (result.inputIndex, record result.op result.response)

def batchRecords (arb : BusArbiter) (ops : List BusOp) : List (Nat × CommitEvent) :=
  arb.resetEnqueued.enqueueRecords 0 ops ++ (arb.commitBatch ops).2.map resultRecord

theorem enqueueRecords_log (arb : BusArbiter) (i : Nat) (ops : List BusOp) :
    (arb.enqueueRecords i ops).map Prod.snd = (arb.enqueueLog ops).map Handled.record := by
  induction ops generalizing arb i with
  | nil => rfl
  | cons op ops ih =>
    rw [enqueueRecords, enqueueLog]
    by_cases hhalt : arb.trace.shouldHalt = true
    · rw [if_pos hhalt, if_pos hhalt]
      rfl
    · rw [if_neg hhalt, if_neg hhalt]
      cases h : arb.turnsAway op with
      | true =>
        rw [if_pos rfl, validateEnqueueContract_of_turnsAway h, if_neg (by simp), List.map_cons,
          List.map_cons, ih]
      | false =>
        rw [if_neg (by simp), validateEnqueueContract_of_pass h, if_pos rfl, ih]

theorem commitBatch_commits (arb : BusArbiter) (ops : List BusOp) :
    (arb.commitBatch ops).1.trace.commits =
      arb.trace.commits ++ (arb.batchRecords ops).map Prod.snd := by
  have hrun := (batch_chained arb ops).commits (callLog_sound arb (.commitBatch ops))
  rw [hrun, batchLog, List.map_append, batchRecords, List.map_append, enqueueRecords_log,
    List.map_map]
  congr 2
  -- the rounds' records are those of the results
  have hres := commitRounds_results (arb.resetEnqueued.enqueue 0 ops).2.length
    (arb.resetEnqueued.enqueue 0 ops).1 (arb.resetEnqueued.enqueue 0 ops).2
  have hmap := congrArg (List.map fun p : BusOp × BusResponse => record p.1 p.2) hres
  rw [List.map_map, List.map_map] at hmap
  exact hmap.symm

/-- A record is about the operation at its position. -/
theorem enqueueRecords_get (arb : BusArbiter) (i : Nat) (ops : List BusOp) :
    ∀ r ∈ arb.enqueueRecords i ops, i ≤ r.1 ∧ ops[r.1 - i]? = some r.2.op := by
  induction ops generalizing arb i with
  | nil => simp [enqueueRecords]
  | cons op ops ih =>
    have hlater : ∀ c : BusArbiter, ∀ r ∈ c.enqueueRecords (i + 1) ops,
        i ≤ r.1 ∧ (op :: ops)[r.1 - i]? = some r.2.op := by
      intro c r hr
      obtain ⟨hle, hget⟩ := ih c (i + 1) r hr
      have hsucc : r.1 - i = r.1 - (i + 1) + 1 := by omega
      exact ⟨by omega, by rw [hsucc, List.getElem?_cons_succ, hget]⟩
    rw [enqueueRecords]
    split
    · simp
    · split
      · intro r hr
        rcases List.mem_cons.mp hr with rfl | hr
        · exact ⟨Nat.le_refl i, by rw [Nat.sub_self]; rfl⟩
        · exact hlater _ r hr
      · exact hlater _

theorem batchRecords_get (arb : BusArbiter) (ops : List BusOp) :
    ∀ r ∈ arb.batchRecords ops, ops[r.1]? = some r.2.op := by
  intro r hr
  rcases List.mem_append.mp hr with hr | hr
  · exact (enqueueRecords_get _ 0 ops r hr).2
  · obtain ⟨result, hresult, rfl⟩ := List.mem_map.mp hr
    exact commitBatch_inputIndex arb ops result hresult

/-! ### One record per position -/

/-- The positions turned away and those that stay pending, in the order of the
batch. -/
theorem enqueue_index_pairwise (arb : BusArbiter) (i : Nat) (ops : List BusOp) :
    ((arb.enqueueRecords i ops).map Prod.fst ++
      (arb.enqueue i ops).2.map (·.inputIndex)).Nodup := by
  induction ops generalizing arb i with
  | nil => simp [enqueueRecords, enqueue]
  | cons op ops ih =>
    -- later positions are not `i`
    have hfresh : ∀ c : BusArbiter, i ∉ (c.enqueueRecords (i + 1) ops).map Prod.fst ++
        (c.enqueue (i + 1) ops).2.map (·.inputIndex) := by
      intro c hi
      rcases List.mem_append.mp hi with hi | hi
      · obtain ⟨r, hr, heq⟩ := List.mem_map.mp hi
        have := (enqueueRecords_get c (i + 1) ops r hr).1
        omega
      · obtain ⟨r, hr, heq⟩ := List.mem_map.mp hi
        have := (enqueue_inputIndex c (i + 1) ops r hr).1
        omega
    rw [enqueueRecords, enqueue]
    by_cases hhalt : arb.trace.shouldHalt = true
    · rw [if_pos hhalt, if_pos hhalt]
      exact List.nodup_nil
    · rw [if_neg hhalt, if_neg hhalt]
      cases h : arb.turnsAway op with
      | true =>
        rw [if_pos rfl, validateEnqueueContract_of_turnsAway h]
        exact List.nodup_cons.mpr ⟨hfresh _, ih _ _⟩
      | false =>
        rw [if_neg (by simp), validateEnqueueContract_of_pass h]
        exact List.nodup_middle.mpr (List.nodup_cons.mpr ⟨hfresh _, ih _ _⟩)

theorem commitRounds_index (n : Nat) (arb : BusArbiter) (pending : List CommitResult) :
    ((commitRounds n arb pending).2.map (·.inputIndex)).Subperm
      (pending.map (·.inputIndex)) := by
  induction n generalizing arb pending with
  | zero => exact List.nil_subperm
  | succ n ih =>
    cases h : arb.nextRound pending with
    | none =>
      rw [commitRounds_of_none h]
      exact List.nil_subperm
    | some round =>
      obtain ⟨next, tie⟩ := round
      rw [commitRounds_of_some h, List.map_cons]
      obtain ⟨hlt, hget⟩ := List.getElem?_eq_some_iff.mp (nextRound_getElem? h)
      have hperm : pending.Perm (next.1 :: pending.eraseIdx next.2) := by
        rw [← hget]
        exact (List.getElem_cons_eraseIdx_perm hlt).symm
      have hindex := (hperm.map (·.inputIndex)).symm.subperm
      rw [List.map_cons] at hindex
      exact ((List.subperm_cons _).mpr (ih _ _)).trans hindex

theorem batchRecords_index_nodup (arb : BusArbiter) (ops : List BusOp) :
    ((arb.batchRecords ops).map Prod.fst).Nodup := by
  have hpairwise := enqueue_index_pairwise arb.resetEnqueued 0 ops
  have hsub := commitRounds_index (arb.resetEnqueued.enqueue 0 ops).2.length
    (arb.resetEnqueued.enqueue 0 ops).1 (arb.resetEnqueued.enqueue 0 ops).2
  rw [batchRecords, List.map_append, List.map_map]
  obtain ⟨indices, hperm, hsublist⟩ := (List.subperm_append_left _).mpr hsub
  exact hperm.nodup_iff.mp (hpairwise.sublist hsublist)

/-- No position is committed twice. -/
theorem commitBatch_index_nodup (arb : BusArbiter) (ops : List BusOp) :
    ((arb.commitBatch ops).2.map (·.inputIndex)).Nodup := by
  have hnodup := batchRecords_index_nodup arb ops
  rw [batchRecords, List.map_append, List.nodup_append, List.map_map] at hnodup
  exact hnodup.2.1

/-! ### Nothing turned away -/

theorem enqueueRecords_of_halt (h : arb.trace.shouldHalt = true) (i : Nat) (ops : List BusOp) :
    arb.enqueueRecords i ops = [] := by
  cases ops with
  | nil => rfl
  | cons op ops => rw [enqueueRecords, if_pos h]

/-- Each producer's operations come in the order of their requests. -/
def InOrder (ops : List BusOp) : Prop :=
  ops.Pairwise fun x y => producerSlot x = producerSlot y → x.reqTime ≤ y.reqTime

theorem enqueueRecords_eq_nil (hhalt : arb.trace.shouldHalt = false) (i : Nat) :
    arb.enqueueRecords i ops = [] ↔
      (∀ op ∈ ops, arb.turnsAway op = false) ∧ InOrder ops := by
  induction ops generalizing arb i with
  | nil => simp [enqueueRecords, InOrder]
  | cons op ops ih =>
    rw [enqueueRecords, if_neg (by simp [hhalt]), InOrder, List.pairwise_cons]
    cases h : arb.turnsAway op with
    | true => simp [h]
    | false =>
      -- recording `op` raises the mark of its own slot and no other
      have hnote : ∀ x, (arb.noteEnqueued op).turnsAway x = false ↔
          if producerSlot x = producerSlot op then op.reqTime ≤ x.reqTime
          else arb.turnsAway x = false := by
        intro x
        rw [turnsAway_eq_false]
        by_cases hslot : producerSlot x = producerSlot op
        · rw [if_pos hslot]
          simp [noteEnqueued, hslot]
        · rw [if_neg hslot, turnsAway_eq_false]
          simp [noteEnqueued, Function.update_of_ne hslot]
      rw [if_neg (by simp), validateEnqueueContract_of_pass h, ih (by exact hhalt)]
      constructor
      · rintro ⟨hpass, horder⟩
        refine ⟨fun x hx => ?_, fun x hx hslot => ?_, horder⟩
        · rcases List.mem_cons.mp hx with rfl | hx
          · exact h
          · by_cases hslot : producerSlot x = producerSlot op
            · -- `op` itself passed, and `x` is not before it
              have hx := (hnote x).mp (hpass x hx)
              rw [if_pos hslot] at hx
              rw [turnsAway_eq_false, hslot] at *
              exact fun hseen => Nat.le_trans (h hseen) hx
            · have hx := (hnote x).mp (hpass x hx)
              rwa [if_neg hslot] at hx
        · have hx := (hnote x).mp (hpass x hx)
          rwa [if_pos hslot.symm] at hx
      · -- in order, the raised mark turns none of the later ones away
        rintro ⟨hpass, hfirst, horder⟩
        refine ⟨fun x hx => (hnote x).mpr ?_, horder⟩
        by_cases hslot : producerSlot x = producerSlot op
        · rw [if_pos hslot]
          exact hfirst x hx hslot.symm
        · rw [if_neg hslot]
          exact hpass x (List.mem_cons_of_mem op hx)

theorem enqueueRecords_eq_nil_iff (arb : BusArbiter) (ops : List BusOp) :
    arb.resetEnqueued.enqueueRecords 0 ops = [] ↔
      arb.trace.shouldHalt = true ∨ InOrder ops := by
  have hkeep : arb.resetEnqueued.trace.shouldHalt = arb.trace.shouldHalt := rfl
  cases hhalt : arb.trace.shouldHalt with
  | true => simp [enqueueRecords_of_halt (hkeep.trans hhalt)]
  | false =>
    rw [enqueueRecords_eq_nil (hkeep.trans hhalt)]
    simp [turnsAway, resetEnqueued]

end BusArbiter

end Saturnis.Bus
