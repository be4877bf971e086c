/-
The commit loop on operations.

`commit_batch` works on pending entries, which carry their input index, and
removes them by position.  When no operation occurs twice the positions do not
matter: `rounds` is the same loop on the list of operations alone.

* `Honours` — the contract of a batch: valid operations, and each producer's
  own in program order;
* `commitBatch_eq_rounds` — a batch that honours it is committed by `rounds`;
* `rounds_eq_of_candidates` — the horizon only takes operations out of a batch;
* `Honours.after` — the contract still holds of the operations that are left
  once the oldest one of a producer is committed.
-/
import Mathlib.Data.List.InsertIdx
import Mathlib.Data.List.Nodup
import Saturnis.ArbiterCore
import Saturnis.Scan

namespace Saturnis.Bus

open Saturnis.Core Saturnis.Mem Saturnis.Dev

namespace BusArbiter

variable {arb a b : BusArbiter} {ops : List BusOp} {w x y : BusOp} {tie : Bool}

/-! ### Forgetting the enqueue bookkeeping -/

theorem resetEnqueued_core (h : a.resetEnqueued = b.resetEnqueued) : a.core = b.core :=
  (congrArg BusArbiter.core h : a.resetEnqueued.core = b.resetEnqueued.core)

theorem executeCommit_resetEnqueued (arb : BusArbiter) (op : BusOp) (tie : Bool) :
    arb.resetEnqueued.executeCommit op tie =
      ((arb.executeCommit op tie).1.resetEnqueued, (arb.executeCommit op tie).2) := by
  cases h : arb.accepts op with
  | true =>
    have h' : arb.resetEnqueued.accepts op = true := by rw [accepts_congr (core_resetEnqueued arb), h]
    rw [executeCommit_of_accepts h, executeCommit_of_accepts h']
    rfl
  | false =>
    by_cases hvalid : validateBusOp op ≠ .none
    · rw [executeCommit, executeCommit, if_pos hvalid, if_pos hvalid]
      rfl
    · have hseen : arb.producerSeen (producerSlot op) ∧
          op.reqTime < arb.producerLastReqTime (producerSlot op) := by
        simpa [accepts, not_not.mp hvalid] using h
      have hseen' : arb.resetEnqueued.producerSeen (producerSlot op) ∧
          op.reqTime < arb.resetEnqueued.producerLastReqTime (producerSlot op) := hseen
      rw [executeCommit, executeCommit, if_neg hvalid, if_neg hvalid, if_pos hseen, if_pos hseen']
      rfl

/-! ### The loop -/

/-- The operations the horizon lets through. -/
def candidates (arb : BusArbiter) (ops : List BusOp) : List BusOp :=
  ops.filter fun op => arb.isCommittable op

def choice (arb : BusArbiter) (ops : List BusOp) : Option BusOp :=
  match arb.candidates ops with
  | [] => none
  | front :: rest => some (Scan.best arb.replaces front (front :: rest))

/-- Another candidate would start with `w`, at the same priority. -/
def tied (arb : BusArbiter) (w : BusOp) (ops : List BusOp) : Bool :=
  (arb.candidates ops).any fun x =>
    x ≠ w && (arb.startTime x = arb.startTime w && arb.policy x = arb.policy w)

/-- What the next round commits, if there is one. -/
def opRound (arb : BusArbiter) (ops : List BusOp) : Option (BusOp × Bool) :=
  if arb.trace.shouldHalt then none
  else (arb.choice ops).map fun w => (w, arb.tied w ops)

def rounds : Nat → BusArbiter → List BusOp → BusArbiter × List (BusOp × BusResponse)
  | 0, arb, _ => (arb, [])
  | n + 1, arb, ops =>
    match arb.opRound ops with
    | none => (arb, [])
    | some (w, tie) =>
      ((rounds n (arb.executeCommit w tie).1 (ops.erase w)).1,
        (w, (arb.executeCommit w tie).2) ::
          (rounds n (arb.executeCommit w tie).1 (ops.erase w)).2)

theorem rounds_of_none {n : Nat} (h : arb.opRound ops = none) : rounds n arb ops = (arb, []) := by
  cases n with
  | zero => rfl
  | succ n => rw [rounds, h]

theorem rounds_of_some {n : Nat} (h : arb.opRound ops = some (w, tie)) :
    rounds (n + 1) arb ops =
      ((rounds n (arb.executeCommit w tie).1 (ops.erase w)).1,
        (w, (arb.executeCommit w tie).2) ::
          (rounds n (arb.executeCommit w tie).1 (ops.erase w)).2) := by
  rw [rounds, h]

theorem mem_candidates : x ∈ arb.candidates ops ↔ x ∈ ops ∧ arb.isCommittable x = true :=
  List.mem_filter

theorem candidates_of_untracked (h : arb.progressTrackingEnabled = false) (ops : List BusOp) :
    arb.candidates ops = ops :=
  List.filter_eq_self.mpr fun x _ => by simp [isCommittable, h]

theorem choice_mem (h : arb.choice ops = some w) : w ∈ arb.candidates ops := by
  rw [choice] at h
  split at h
  · exact absurd h (by simp)
  · rename_i front rest hcand
    have hmem := Scan.best_mem (r := arb.replaces) front (front :: rest)
    rw [hcand, ← Option.some_inj.mp h]
    simpa using hmem

theorem choice_eq_none : arb.choice ops = none ↔ arb.candidates ops = [] := by
  rw [choice]
  split <;> simp_all

theorem opRound_eq_some :
    arb.opRound ops = some (w, tie) ↔
      arb.trace.shouldHalt = false ∧ arb.choice ops = some w ∧ arb.tied w ops = tie := by
  rw [opRound]
  cases arb.trace.shouldHalt with
  | true => simp
  | false =>
    rw [if_neg (by simp)]
    constructor
    · intro h
      obtain ⟨v, hv, heq⟩ := Option.map_eq_some_iff.mp h
      obtain ⟨rfl, rfl⟩ := Prod.mk.inj heq
      exact ⟨rfl, hv, rfl⟩
    · rintro ⟨-, hw, rfl⟩
      rw [hw, Option.map_some]

theorem opRound_eq_none :
    arb.opRound ops = none ↔ arb.trace.shouldHalt = true ∨ arb.candidates ops = [] := by
  rw [opRound]
  cases arb.trace.shouldHalt with
  | true => simp
  | false => rw [if_neg (by simp), Option.map_eq_none_iff, choice_eq_none]; simp

theorem executeCommit_progress (arb : BusArbiter) (op : BusOp) (tie : Bool) :
    (arb.executeCommit op tie).1.progressTrackingEnabled = arb.progressTrackingEnabled ∧
      (arb.executeCommit op tie).1.progressUpTo = arb.progressUpTo := by
  cases h : arb.accepts op with
  | true =>
    rw [executeCommit_of_accepts h]
    exact ⟨rfl, rfl⟩
  | false =>
    obtain ⟨reason, detail, heq⟩ := executeCommit_of_rejected tie h
    rw [heq]
    exact ⟨rfl, rfl⟩

theorem rounds_progress (n : Nat) (arb : BusArbiter) (ops : List BusOp) :
    (rounds n arb ops).1.progressTrackingEnabled = arb.progressTrackingEnabled ∧
      (rounds n arb ops).1.progressUpTo = arb.progressUpTo := by
  induction n generalizing arb ops with
  | zero => exact ⟨rfl, rfl⟩
  | succ n ih =>
    cases h : arb.opRound ops with
    | none =>
      rw [rounds_of_none h]
      exact ⟨rfl, rfl⟩
    | some round =>
      obtain ⟨w, tie⟩ := round
      obtain ⟨htrack, hup⟩ := executeCommit_progress arb w tie
      rw [rounds_of_some h, ← htrack, ← hup]
      exact ih _ _

theorem executeCommit_isCommittable (arb : BusArbiter) (op : BusOp) (tie : Bool) :
    (arb.executeCommit op tie).1.isCommittable = arb.isCommittable := by
  obtain ⟨htrack, hup⟩ := executeCommit_progress arb op tie
  funext x
  rw [isCommittable, isCommittable, hasSafeHorizon, hasSafeHorizon, commitHorizon, commitHorizon,
    htrack, hup]

/-! ### The loop on entries is the loop on operations -/

theorem committable_map (arb : BusArbiter) (pending : List CommitResult) :
    (arb.committable pending).map (·.1.op) = arb.candidates (pending.map (·.op)) := by
  have hfst : pending.zipIdx.map (·.1) = pending := List.zipIdx_map_fst 0 pending
  rw [committable, candidates, ← hfst, List.map_map, List.filter_map, hfst]
  rfl

/-- In a list without repetitions the position is determined by the element. -/
theorem snd_eq_iff_of_nodup {pending : List CommitResult} (hnodup : (pending.map (·.op)).Nodup)
    {e e' : Entry} (he : e ∈ pending.zipIdx) (he' : e' ∈ pending.zipIdx) :
    e.2 = e'.2 ↔ e.1.op = e'.1.op := by
  have hi := List.mem_zipIdx_iff_getElem?.mp he
  have hj := List.mem_zipIdx_iff_getElem?.mp he'
  constructor
  · intro heq
    rw [heq, hj] at hi
    rw [Option.some_inj.mp hi]
  · intro heq
    have hi' : (pending.map (·.op))[e.2]? = some e.1.op := by rw [List.getElem?_map, hi]; rfl
    have hj' : (pending.map (·.op))[e'.2]? = some e'.1.op := by rw [List.getElem?_map, hj]; rfl
    have hlt : e.2 < (pending.map (·.op)).length := (List.getElem?_eq_some_iff.mp hi').1
    exact (List.getElem?_inj hlt hnodup).mp (by rw [hi', hj', heq])

theorem hadTie_eq_tied {pending : List CommitResult} (hnodup : (pending.map (·.op)).Nodup)
    {next : Entry} (hnext : next ∈ arb.committable pending) :
    arb.hadTie next (arb.committable pending) = arb.tied next.1.op (pending.map (·.op)) := by
  rw [tied, ← committable_map, List.any_map, hadTie, Bool.eq_iff_iff, List.any_eq_true,
    List.any_eq_true]
  have hiff : ∀ e ∈ arb.committable pending, (e.2 ≠ next.2 ↔ e.1.op ≠ next.1.op) := fun e he =>
    not_congr (snd_eq_iff_of_nodup hnodup (List.mem_of_mem_filter he)
      (List.mem_of_mem_filter hnext))
  refine exists_congr fun e => and_congr_right fun he => ?_
  simp only [Function.comp, Bool.and_eq_true, decide_eq_true_eq, hiff e he]

theorem pickNext_mem {pending : List CommitResult} {front : Entry} {rest : List Entry}
    (hcand : arb.committable pending = front :: rest) :
    arb.pickNext front (front :: rest) ∈ arb.committable pending := by
  rw [hcand]
  rcases List.mem_cons.mp (Scan.best_mem (r := fun x cur : Entry => arb.replaces x.1.op cur.1.op)
    front (front :: rest)) with h | h
  · exact List.mem_cons.mpr (Or.inl h)
  · exact h

/-- The next round of the entries, seen on their operations. -/
theorem nextRound_map (arb : BusArbiter) {pending : List CommitResult} (hnodup : (pending.map (·.op)).Nodup) :
    (arb.nextRound pending).map (fun n => (n.1.1.op, n.2)) =
      arb.opRound (pending.map (·.op)) := by
  rw [nextRound, opRound]
  split
  · rfl
  · rw [choice, ← committable_map]
    cases hcand : arb.committable pending with
    | nil => rfl
    | cons front rest =>
      have hpick : (arb.pickNext front (front :: rest)).1.op =
          Scan.best arb.replaces front.1.op ((front :: rest).map (·.1.op)) :=
        Scan.best_map (r := arb.replaces) (fun e : Entry => e.1.op) front (front :: rest)
      have htie := hadTie_eq_tied hnodup (pickNext_mem hcand)
      rw [hcand] at htie
      simp only [List.map_cons, Option.map_some] at hpick ⊢
      rw [htie, hpick]

/-- What a round picks and whether it was a tie. -/
theorem nextRound_eq_some {pending : List CommitResult} {next : Entry}
    (h : arb.nextRound pending = some (next, tie)) :
    ∃ front rest, arb.committable pending = front :: rest ∧
      arb.pickNext front (front :: rest) = next ∧ arb.hadTie next (front :: rest) = tie := by
  rw [nextRound] at h
  split at h
  · exact absurd h (by simp)
  · split at h
    · exact absurd h (by simp)
    · rename_i front rest hcand
      obtain ⟨rfl, htie⟩ := Prod.mk.inj (Option.some_inj.mp h)
      exact ⟨front, rest, hcand, rfl, hcand ▸ htie⟩

theorem nextRound_getElem? {pending : List CommitResult} {next : Entry}
    (h : arb.nextRound pending = some (next, tie)) : pending[next.2]? = some next.1 := by
  obtain ⟨front, rest, hcand, rfl, -⟩ := nextRound_eq_some h
  exact List.mem_zipIdx_iff_getElem?.mp (List.mem_of_mem_filter (pickNext_mem hcand))

theorem commitRounds_eq_rounds (n : Nat) (arb : BusArbiter) {pending : List CommitResult}
    (hnodup : (pending.map (·.op)).Nodup) :
    (commitRounds n arb pending).1 = (rounds n arb (pending.map (·.op))).1 ∧
      (commitRounds n arb pending).2.map (fun r => (r.op, r.response)) =
        (rounds n arb (pending.map (·.op))).2 := by
  induction n generalizing arb pending with
  | zero => exact ⟨rfl, rfl⟩
  | succ n ih =>
    have hmap := nextRound_map arb hnodup
    cases h : arb.nextRound pending with
    | none =>
      rw [h, Option.map_none] at hmap
      rw [commitRounds_of_none h, rounds_of_none hmap.symm]
      exact ⟨rfl, rfl⟩
    | some round =>
      obtain ⟨next, tie⟩ := round
      rw [h, Option.map_some] at hmap
      obtain ⟨hlt, hget⟩ := List.getElem?_eq_some_iff.mp (nextRound_getElem? h)
      have herase : (pending.eraseIdx next.2).map (·.op) = (pending.map (·.op)).erase next.1.op := by
        have hlt' : next.2 < (pending.map (·.op)).length := by rw [List.length_map]; exact hlt
        have hget' : (pending.map (·.op))[next.2] = next.1.op := by rw [List.getElem_map, hget]
        rw [← List.eraseIdx_map, ← hget', hnodup.erase_getElem]
      have hnodup' : ((pending.eraseIdx next.2).map (·.op)).Nodup := by
        rw [herase]
        exact hnodup.erase _
      have ih := ih (arb.executeCommit next.1.op tie).1 hnodup'
      rw [commitRounds_of_some h, rounds_of_some hmap.symm, List.map_cons, ← herase]
      exact ⟨ih.1, by rw [ih.2]⟩

/-! ### The contract of a batch -/

/-- Valid operations, each producer's own in program order and not before what
the arbiter recorded of it. -/
structure Honours (arb : BusArbiter) (ops : List BusOp) : Prop where
  valid : ∀ op ∈ ops, validateBusOp op = .none
  reqTime : ops.Pairwise fun x y => producerSlot x = producerSlot y → x.reqTime ≤ y.reqTime
  sequence : ops.Pairwise fun x y => producerSlot x = producerSlot y → x.sequence < y.sequence
  recorded : ∀ op ∈ ops, arb.producerSeen (producerSlot op) = true →
    arb.producerLastReqTime (producerSlot op) ≤ op.reqTime

namespace Honours

theorem nodup (h : Honours arb ops) : ops.Nodup :=
  h.sequence.imp fun {x y} hlt heq => by
    have := hlt (by rw [heq])
    rw [heq] at this
    exact Nat.lt_irrefl _ this

theorem accepts (h : Honours arb ops) (hx : x ∈ ops) : arb.accepts x = true := by
  rw [BusArbiter.accepts, h.valid x hx]
  cases hseen : arb.producerSeen (producerSlot x) with
  | false => simp
  | true =>
    have := h.recorded x hx hseen
    simp only [Bool.true_and, decide_true, Bool.not_eq_true', decide_eq_false_iff_not]
    omega

/-- No operation of the producer of `w` is older than `w`. -/
def Oldest (ops : List BusOp) (w : BusOp) : Prop :=
  ∀ x ∈ ops, producerSlot x = producerSlot w → w.sequence ≤ x.sequence

instance (ops : List BusOp) (w : BusOp) : Decidable (Oldest ops w) :=
  inferInstanceAs (Decidable (∀ x ∈ ops, _))

theorem reqTime_le (h : Honours arb ops) (hw : w ∈ ops) (hx : x ∈ ops)
    (hslot : producerSlot x = producerSlot w) (hseq : w.sequence ≤ x.sequence) :
    w.reqTime ≤ x.reqTime := by
  have hpair := h.reqTime.and h.sequence
  by_cases hxw : x = w
  · exact Nat.le_of_eq (by rw [hxw])
  · obtain ⟨i, hi, rfl⟩ := List.getElem_of_mem hw
    obtain ⟨j, hj, rfl⟩ := List.getElem_of_mem hx
    rcases Nat.lt_trichotomy i j with hij | hij | hij
    · exact (List.pairwise_iff_getElem.mp hpair i j hi hj hij).1 hslot.symm
    · exact absurd (by simp only [hij]) hxw
    · have := (List.pairwise_iff_getElem.mp hpair j i hj hi hij).2 hslot
      omega

/-- Committing the oldest operation of a producer leaves a batch that honours
the contract. -/
theorem after (h : Honours arb ops) (hw : w ∈ ops) (hold : Oldest ops w) (tie : Bool) :
    Honours (arb.executeCommit w tie).1 (ops.erase w) := by
  have hsub : ops.erase w ⊆ ops := List.erase_subset
  refine ⟨fun x hx => h.valid x (hsub hx), h.reqTime.sublist List.erase_sublist,
    h.sequence.sublist List.erase_sublist, fun x hx => ?_⟩
  rw [executeCommit_of_accepts (h.accepts hw)]
  intro hseen
  by_cases hslot : producerSlot x = producerSlot w
  · have hle := h.reqTime_le hw (hsub hx) hslot (hold x (hsub hx) hslot)
    change Function.update arb.producerLastReqTime (producerSlot w) w.reqTime (producerSlot x) ≤ _
    rw [hslot, Function.update_self]
    exact hle
  · change Function.update arb.producerSeen (producerSlot w) true (producerSlot x) = true at hseen
    change Function.update arb.producerLastReqTime (producerSlot w) w.reqTime (producerSlot x) ≤ _
    rw [Function.update_of_ne hslot] at hseen ⊢
    exact h.recorded x (hsub hx) hseen

end Honours

/-- The enqueue bookkeeping once `op` has passed the contract. -/
def noteEnqueued (arb : BusArbiter) (op : BusOp) : BusArbiter :=
  { arb with
    producerEnqueuedSeen := Function.update arb.producerEnqueuedSeen (producerSlot op) true
    producerLastEnqueuedReqTime :=
      Function.update arb.producerLastEnqueuedReqTime (producerSlot op) op.reqTime }

theorem enqueue_of_ordered (arb : BusArbiter) (i : Nat) (ops : List BusOp)
    (hhalt : arb.trace.shouldHalt = false)
    (hreq : ops.Pairwise fun x y => producerSlot x = producerSlot y → x.reqTime ≤ y.reqTime)
    (hlast : ∀ op ∈ ops, arb.producerEnqueuedSeen (producerSlot op) = true →
      arb.producerLastEnqueuedReqTime (producerSlot op) ≤ op.reqTime) :
    (arb.enqueue i ops).1.resetEnqueued = arb.resetEnqueued ∧
      (arb.enqueue i ops).2.map (·.op) = ops := by
  induction ops generalizing arb i with
  | nil => exact ⟨rfl, rfl⟩
  | cons op ops ih =>
    have hpass : arb.validateEnqueueContract op = (arb.noteEnqueued op, true) := by
      have hle := hlast op List.mem_cons_self
      simp only [validateEnqueueContract]
      rw [if_neg]
      · rfl
      · rintro ⟨hseen, hlt⟩
        have := hle hseen
        omega
    have hlast' : ∀ x ∈ ops, (arb.noteEnqueued op).producerEnqueuedSeen (producerSlot x) = true →
        (arb.noteEnqueued op).producerLastEnqueuedReqTime (producerSlot x) ≤ x.reqTime := by
      intro x hx hseen
      rw [noteEnqueued] at hseen ⊢
      by_cases hslot : producerSlot x = producerSlot op
      · have hle := (List.pairwise_cons.mp hreq).1 x hx hslot.symm
        rw [hslot]
        simpa using hle
      · simp only [Function.update_of_ne hslot] at hseen ⊢
        exact hlast x (List.mem_cons_of_mem op hx) hseen
    obtain ⟨hfst, hsnd⟩ := ih (arb.noteEnqueued op) (i + 1) hhalt hreq.of_cons hlast'
    rw [enqueue, if_neg (by simp [hhalt]), hpass]
    exact ⟨hfst, by rw [List.map_cons, hsnd]⟩

theorem opRound_congr (h : a.resetEnqueued = b.resetEnqueued) (ops : List BusOp) :
    a.opRound ops = b.opRound ops :=
  (congrArg (fun arb => BusArbiter.opRound arb ops) h :
    a.resetEnqueued.opRound ops = b.resetEnqueued.opRound ops)

theorem executeCommit_congr_resetEnqueued (h : a.resetEnqueued = b.resetEnqueued) (w : BusOp)
    (tie : Bool) :
    (a.executeCommit w tie).2 = (b.executeCommit w tie).2 ∧
      (a.executeCommit w tie).1.resetEnqueued = (b.executeCommit w tie).1.resetEnqueued := by
  have ha := executeCommit_resetEnqueued a w tie
  have hb := executeCommit_resetEnqueued b w tie
  rw [h, hb] at ha
  exact ⟨(congrArg Prod.snd ha).symm, (congrArg Prod.fst ha).symm⟩

/-- The loop does not look at the enqueue bookkeeping. -/
theorem rounds_congr (n : Nat) (h : a.resetEnqueued = b.resetEnqueued) (ops : List BusOp) :
    (rounds n a ops).1.resetEnqueued = (rounds n b ops).1.resetEnqueued ∧
      (rounds n a ops).2 = (rounds n b ops).2 := by
  induction n generalizing a b ops with
  | zero => exact ⟨h, rfl⟩
  | succ n ih =>
    have hround := opRound_congr h ops
    cases hb : b.opRound ops with
    | none =>
      rw [rounds_of_none hb, rounds_of_none (hround.trans hb)]
      exact ⟨h, rfl⟩
    | some round =>
      obtain ⟨w, tie⟩ := round
      obtain ⟨hresp, harb⟩ := executeCommit_congr_resetEnqueued h w tie
      rw [rounds_of_some hb, rounds_of_some (hround.trans hb), hresp, (ih harb (ops.erase w)).2]
      exact ⟨(ih harb (ops.erase w)).1, rfl⟩

/-- Operations without repetitions, each producer's own in the order of their
requests, are committed by the loop on operations. -/
theorem commitBatch_eq_rounds_of_ordered (arb : BusArbiter)
    (hreq : ops.Pairwise fun x y => producerSlot x = producerSlot y → x.reqTime ≤ y.reqTime)
    (hnodup : ops.Nodup) :
    (arb.commitBatch ops).1.resetEnqueued = (rounds ops.length arb ops).1.resetEnqueued ∧
      (arb.commitBatch ops).2.map (fun r => (r.op, r.response)) =
        (rounds ops.length arb ops).2 := by
  cases hhalt : arb.trace.shouldHalt with
  | true =>
    have hnone : arb.opRound ops = none := opRound_eq_none.mpr (Or.inl hhalt)
    have henqueue : arb.resetEnqueued.enqueue 0 ops = (arb.resetEnqueued, []) := by
      cases ops with
      | nil => rfl
      | cons op ops => rw [enqueue, if_pos (show arb.resetEnqueued.trace.shouldHalt = true from hhalt)]
    rw [rounds_of_none hnone]
    simp only [commitBatch, henqueue]
    exact ⟨rfl, rfl⟩
  | false =>
    obtain ⟨hcore, hops⟩ := enqueue_of_ordered arb.resetEnqueued 0 ops hhalt hreq
      fun op _ hseen => absurd hseen (by simp [resetEnqueued])
    obtain ⟨hfst, hsnd⟩ := commitRounds_eq_rounds (arb.resetEnqueued.enqueue 0 ops).2.length
      (arb.resetEnqueued.enqueue 0 ops).1 (by rw [hops]; exact hnodup)
    have hlen : (arb.resetEnqueued.enqueue 0 ops).2.length = ops.length := by
      rw [← hops, List.length_map, hops]
    obtain ⟨hcore', hres⟩ := rounds_congr ops.length (b := arb) hcore ops
    rw [hops, hlen] at hfst hsnd
    simp only [commitBatch]
    rw [hlen, hfst, hsnd]
    exact ⟨hcore', hres⟩

/-- A batch that honours the contract is committed by the loop on operations. -/
theorem commitBatch_eq_rounds (h : Honours arb ops) :
    (arb.commitBatch ops).1.resetEnqueued = (rounds ops.length arb ops).1.resetEnqueued ∧
      (arb.commitBatch ops).2.map (fun r => (r.op, r.response)) =
        (rounds ops.length arb ops).2 :=
  commitBatch_eq_rounds_of_ordered arb h.reqTime h.nodup

/-! ### The horizon only filters -/

theorem candidates_erase (hnodup : ops.Nodup) (w : BusOp) :
    arb.candidates (ops.erase w) = (arb.candidates ops).erase w := by
  have hnodup' : (arb.candidates ops).Nodup := hnodup.filter _
  rw [hnodup'.erase_eq_filter, hnodup.erase_eq_filter, candidates, candidates, List.filter_filter,
    List.filter_filter]
  exact List.filter_congr fun x _ => Bool.and_comm _ _

/-- Without a horizon the candidates are chosen from as with it. -/
theorem opRound_candidates (hcore : a.core = b.core) (hfree : ∀ x, b.isCommittable x = true)
    (ops : List BusOp) : b.opRound (a.candidates ops) = a.opRound ops := by
  have hcand : b.candidates (a.candidates ops) = a.candidates ops :=
    List.filter_eq_self.mpr fun x _ => hfree x
  have hchoice : b.choice (a.candidates ops) = a.choice ops := by
    rw [choice, choice, hcand, replaces_congr hcore]
  have htied : ∀ w, b.tied w (a.candidates ops) = a.tied w ops := by
    intro w
    have hstart : a.startTime = b.startTime := funext fun _ => startTime_congr hcore
    rw [tied, tied, hcand, core_policy hcore, hstart]
  rw [opRound, opRound, core_trace hcore, hchoice]
  simp only [htied]

theorem rounds_candidates (n : Nat) (hcore : a.core = b.core)
    (hfree : ∀ x, b.isCommittable x = true) (hnodup : ops.Nodup) :
    (rounds n a ops).1.core = (rounds n b (a.candidates ops)).1.core ∧
      (rounds n a ops).2 = (rounds n b (a.candidates ops)).2 := by
  induction n generalizing a b ops with
  | zero => exact ⟨hcore, rfl⟩
  | succ n ih =>
    have hround := opRound_candidates hcore hfree ops
    cases ha : a.opRound ops with
    | none =>
      rw [rounds_of_none ha, rounds_of_none (hround.trans ha)]
      exact ⟨hcore, rfl⟩
    | some round =>
      obtain ⟨w, tie⟩ := round
      have hcongr : (a.executeCommit w tie).2 = (b.executeCommit w tie).2 ∧
          (a.executeCommit w tie).1.core = (b.executeCommit w tie).1.core :=
        executeCommit_congr hcore
      obtain ⟨hresp, hcore'⟩ := hcongr
      have hcand : (a.executeCommit w tie).1.candidates (ops.erase w) =
          (a.candidates ops).erase w := by
        rw [← candidates_erase hnodup w, candidates, candidates, executeCommit_isCommittable]
      obtain ⟨hfst, hsnd⟩ := ih hcore'
        (fun x => by rw [executeCommit_isCommittable]; exact hfree x) (hnodup.erase w)
      rw [hcand] at hfst hsnd
      rw [rounds_of_some ha, rounds_of_some (hround.trans ha), hresp, hsnd]
      exact ⟨hfst, rfl⟩

/-- More rounds than operations are not needed. -/
theorem rounds_of_length_le {n : Nat} (hn : ops.length ≤ n) :
    rounds n arb ops = rounds ops.length arb ops := by
  induction n generalizing arb ops with
  | zero => rw [Nat.le_zero.mp hn]
  | succ n ih =>
    cases h : arb.opRound ops with
    | none => rw [rounds_of_none h, rounds_of_none h]
    | some round =>
      obtain ⟨w, tie⟩ := round
      have hmem : w ∈ ops := (mem_candidates.mp (choice_mem (opRound_eq_some.mp h).2.1)).1
      have hlen : ops.length = (ops.erase w).length + 1 := by
        have := List.length_pos_of_mem hmem
        rw [List.length_erase_of_mem hmem]
        omega
      rw [hlen, rounds_of_some h, rounds_of_some h, ih (by omega)]

/-- Two batches with the same candidates commit the same. -/
theorem rounds_eq_of_candidates {xs ys : List BusOp} (hcore : a.core = b.core)
    (hxs : xs.Nodup) (hys : ys.Nodup) (hcand : a.candidates xs = b.candidates ys) :
    (rounds xs.length a xs).1.core = (rounds ys.length b ys).1.core ∧
      (rounds xs.length a xs).2 = (rounds ys.length b ys).2 := by
  obtain ⟨hx, hx'⟩ := rounds_candidates xs.length (b := b.core) hcore (fun _ => rfl) hxs
  obtain ⟨hy, hy'⟩ := rounds_candidates ys.length (b := b.core) (a := b) rfl (fun _ => rfl) hys
  have hlex : (a.candidates xs).length ≤ xs.length := List.length_filter_le _ _
  have hley : (b.candidates ys).length ≤ ys.length := List.length_filter_le _ _
  rw [rounds_of_length_le hlex] at hx hx'
  rw [rounds_of_length_le hley, ← hcand] at hy hy'
  exact ⟨hx.trans hy.symm, hx'.trans hy'.symm⟩

/-! ### Where a result comes from -/

theorem rounds_result (n : Nat) (arb : BusArbiter) (ops : List BusOp) :
    ∀ r ∈ (rounds n arb ops).2, r.1 ∈ ops ∧
      ∃ (a : BusArbiter) (tie : Bool), r.2 = (a.executeCommit r.1 tie).2 := by
  induction n generalizing arb ops with
  | zero => simp [rounds]
  | succ n ih =>
    cases h : arb.opRound ops with
    | none =>
      rw [rounds_of_none h]
      simp
    | some round =>
      obtain ⟨w, tie⟩ := round
      rw [rounds_of_some h]
      intro r hr
      rcases List.mem_cons.mp hr with rfl | hr
      · exact ⟨(mem_candidates.mp (choice_mem (opRound_eq_some.mp h).2.1)).1, arb, tie, rfl⟩
      · obtain ⟨hmem, hresp⟩ := ih _ _ r hr
        exact ⟨List.mem_of_mem_erase hmem, hresp⟩

/-- No operation is committed twice. -/
theorem rounds_nodup (n : Nat) (arb : BusArbiter) (hnodup : ops.Nodup) :
    ((rounds n arb ops).2.map Prod.fst).Nodup := by
  induction n generalizing arb ops with
  | zero => exact List.nodup_nil
  | succ n ih =>
    cases h : arb.opRound ops with
    | none =>
      rw [rounds_of_none h]
      exact List.nodup_nil
    | some round =>
      obtain ⟨w, tie⟩ := round
      rw [rounds_of_some h, List.map_cons, List.nodup_cons]
      refine ⟨fun hmem => ?_, ih _ (hnodup.erase w)⟩
      obtain ⟨r, hr, rfl⟩ := List.mem_map.mp hmem
      exact hnodup.not_mem_erase (rounds_result n _ _ r hr).1

theorem enqueue_inputIndex (arb : BusArbiter) (i : Nat) (ops : List BusOp) :
    ∀ r ∈ (arb.enqueue i ops).2, i ≤ r.inputIndex ∧ ops[r.inputIndex - i]? = some r.op := by
  induction ops generalizing arb i with
  | nil => simp [enqueue]
  | cons op ops ih =>
    have hlater : ∀ (c : BusArbiter), ∀ r ∈ (c.enqueue (i + 1) ops).2,
        i ≤ r.inputIndex ∧ (op :: ops)[r.inputIndex - i]? = some r.op := by
      intro c r hr
      obtain ⟨hle, hget⟩ := ih c (i + 1) r hr
      have hsucc : r.inputIndex - i = r.inputIndex - (i + 1) + 1 := by omega
      exact ⟨by omega, by rw [hsucc, List.getElem?_cons_succ, hget]⟩
    rw [enqueue]
    split
    · simp
    · split
      · exact hlater _
      · intro r hr
        rcases List.mem_cons.mp hr with rfl | hr
        · simp
        · exact hlater _ r hr

theorem commitRounds_entry (n : Nat) (arb : BusArbiter) (pending : List CommitResult) :
    ∀ r ∈ (commitRounds n arb pending).2, ∃ p ∈ pending,
      r.inputIndex = p.inputIndex ∧ r.op = p.op := by
  induction n generalizing arb pending with
  | zero => simp [commitRounds]
  | succ n ih =>
    cases h : arb.nextRound pending with
    | none =>
      rw [commitRounds_of_none h]
      simp
    | some round =>
      obtain ⟨next, tie⟩ := round
      rw [commitRounds_of_some h]
      intro r hr
      rcases List.mem_cons.mp hr with rfl | hr
      · exact ⟨next.1, List.mem_of_getElem? (nextRound_getElem? h), rfl, rfl⟩
      · obtain ⟨p, hp, hpr⟩ := ih _ _ r hr
        exact ⟨p, List.eraseIdx_subset hp, hpr⟩

theorem commitBatch_inputIndex (arb : BusArbiter) (ops : List BusOp) :
    ∀ r ∈ (arb.commitBatch ops).2, ops[r.inputIndex]? = some r.op := by
  intro r hr
  obtain ⟨p, hp, hidx, hop⟩ := commitRounds_entry _ _ _ r hr
  have := (enqueue_inputIndex _ 0 ops p hp).2
  rw [hidx, hop]
  exact this

end BusArbiter

end Saturnis.Bus
