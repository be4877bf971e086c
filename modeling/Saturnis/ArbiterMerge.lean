/-
The merge of the request streams.

What the commit horizon is for, without horizons, batches or queues: of all
operations that are still to come, the earliest requested ones compete, one of
them is committed, and so on (`Merge.step`).  `Steady.merge_next` says when
one round of `commit_batch` is one step of the merge: the preferred candidate
is among the earliest requested ones, and if it is tied then also with one
requested at the same tick.
-/
import Mathlib.Logic.Function.Iterate
import Saturnis.ArbiterOrder

namespace Saturnis.Bus

open Saturnis.Core Saturnis.Mem Saturnis.Dev

/-- The arbiter, the operations still to come, and what has been committed. -/
structure Merge where
  arb : BusArbiter
  rest : List BusOp
  log : List (BusOp × BusResponse) := []

/-- The operations requested first. -/
def earliest (ops : List BusOp) : List BusOp :=
  ops.filter fun x => ops.all fun y => x.reqTime ≤ y.reqTime

theorem mem_earliest {ops : List BusOp} {x : BusOp} :
    x ∈ earliest ops ↔ x ∈ ops ∧ ∀ y ∈ ops, x.reqTime ≤ y.reqTime := by
  simp [earliest]

namespace Merge

def next (m : Merge) : Option (BusOp × Bool) :=
  match earliest m.rest with
  | [] => none
  | front :: rest =>
    let w := Scan.best m.arb.replaces front rest
    some (w, (front :: rest).any fun x => x ≠ w && m.arb.policy x = m.arb.policy w)

def step (m : Merge) : Merge :=
  match m.next with
  | none => m
  | some (w, tie) =>
    { arb := (m.arb.executeCommit w tie).1
      rest := m.rest.erase w
      log := m.log ++ [(w, (m.arb.executeCommit w tie).2)] }

theorem step_of_next {m : Merge} {w : BusOp} {tie : Bool} (h : m.next = some (w, tie)) :
    m.step =
      { arb := (m.arb.executeCommit w tie).1
        rest := m.rest.erase w
        log := m.log ++ [(w, (m.arb.executeCommit w tie).2)] } := by
  rw [step, h]

/-- A finished merge stays as it is. -/
theorem iterate_step_of_nil {m : Merge} (h : m.rest = []) (k : Nat) : step^[k] m = m := by
  have hstep : m.step = m := by
    rw [step, next, h]
    rfl
  exact Function.iterate_fixed hstep k

/-- Two finished merges from one start are the same. -/
theorem iterate_step_unique {m : Merge} {j k : Nat} (hj : (step^[j] m).rest = [])
    (hk : (step^[k] m).rest = []) : step^[j] m = step^[k] m := by
  rcases Nat.le_total j k with hjk | hjk
  · obtain ⟨d, rfl⟩ := Nat.exists_eq_add_of_le' hjk
    rw [Function.iterate_add_apply, iterate_step_of_nil hj]
  · obtain ⟨d, rfl⟩ := Nat.exists_eq_add_of_le' hjk
    rw [Function.iterate_add_apply, iterate_step_of_nil hk]

end Merge

namespace BusArbiter

variable {arb : BusArbiter} {ops later : List BusOp} {w x : BusOp} {m : Merge}

/-- The candidate `w` is preferred to all others, none was requested before it,
and if it is tied then also with one requested at the same tick. -/
structure Steady (arb : BusArbiter) (ops : List BusOp) (w : BusOp) : Prop where
  dominates : arb.Dominates (arb.candidates ops) w
  earliest : ∀ x ∈ arb.candidates ops, w.reqTime ≤ x.reqTime
  tied : arb.tied w ops = true →
    ∃ x ∈ arb.candidates ops, x ≠ w ∧ x.reqTime = w.reqTime ∧ arb.policy x = arb.policy w

/-- Whatever may be committed was requested before the operations to come. -/
def Beyond (arb : BusArbiter) (later : List BusOp) : Prop :=
  ∀ w, arb.isCommittable w = true → ∀ x ∈ later, w.reqTime < x.reqTime

/-- Nothing that is not a candidate was requested as early as `w`. -/
theorem Steady.reqTime_lt (hw : arb.Steady ops w) (hlater : arb.Beyond later)
    (hx : x ∈ ops ++ later) (hxc : x ∉ arb.candidates ops) : w.reqTime < x.reqTime := by
  have hcomm := (mem_candidates.mp hw.dominates.1).2
  rcases List.mem_append.mp hx with hx | hx
  · by_contra hge
    exact hxc (mem_candidates.mpr ⟨hx, isCommittable_mono (by omega) hcomm⟩)
  · exact hlater w hcomm x hx

theorem Steady.mem_earliest (hw : arb.Steady ops w) (hlater : arb.Beyond later)
    (hperm : m.rest.Perm (ops ++ later)) :
    x ∈ Bus.earliest m.rest ↔ x ∈ arb.candidates ops ∧ x.reqTime = w.reqTime := by
  have hwmem : w ∈ m.rest :=
    hperm.mem_iff.mpr (List.mem_append_left _ (mem_candidates.mp hw.dominates.1).1)
  rw [Bus.mem_earliest]
  constructor
  · rintro ⟨hx, hmin⟩
    have hle := hmin w hwmem
    by_cases hxc : x ∈ arb.candidates ops
    · exact ⟨hxc, Nat.le_antisymm hle (hw.earliest x hxc)⟩
    · have := hw.reqTime_lt hlater (hperm.mem_iff.mp hx) hxc
      omega
  · rintro ⟨hxc, heq⟩
    refine ⟨hperm.mem_iff.mpr (List.mem_append_left _ (mem_candidates.mp hxc).1), fun y hy => ?_⟩
    rw [heq]
    by_cases hyc : y ∈ arb.candidates ops
    · exact hw.earliest y hyc
    · exact Nat.le_of_lt (hw.reqTime_lt hlater (hperm.mem_iff.mp hy) hyc)

/-- A steady round commits what the merge commits, with the same tie flag. -/
theorem Steady.merge_next (hw : arb.Steady ops w) (hlater : arb.Beyond later)
    (hcore : m.arb.core = arb.core) (hperm : m.rest.Perm (ops ++ later)) : m.next = some (w, arb.tied w ops) := by
  have hmem := fun x => hw.mem_earliest hlater hperm (x := x)
  have hwe : w ∈ Bus.earliest m.rest := (hmem w).mpr ⟨hw.dominates.1, rfl⟩
  rw [Merge.next, replaces_congr hcore, core_policy hcore]
  cases hlist : Bus.earliest m.rest with
  | nil =>
    rw [hlist] at hwe
    exact absurd hwe (by simp)
  | cons front rest =>
    rw [hlist] at hwe hmem
    have hdom : ∀ x ∈ front :: rest, x ≠ w → arb.replaces w x = true ∧ arb.replaces x w = false :=
      fun x hx => hw.dominates.2 x ((hmem x).mp hx).1
    have hbest : Scan.best arb.replaces front rest = w := by
      refine Scan.best_of_dominates hwe (fun x hx hne => (hdom x hx hne).1) fun x hx => ?_
      by_cases hne : x = w
      · rw [hne]
        exact not_replaces_self w
      · exact (hdom x hx hne).2
    have htie : ((front :: rest).any fun x => x ≠ w && arb.policy x = arb.policy w) =
        arb.tied w ops := by
      rw [Bool.eq_iff_iff, List.any_eq_true]
      simp only [Bool.and_eq_true, decide_eq_true_eq]
      constructor
      · rintro ⟨x, hx, hne, hpol⟩
        obtain ⟨hxc, hreq⟩ := (hmem x).mp hx
        rw [BusArbiter.tied, List.any_eq_true]
        refine ⟨x, hxc, ?_⟩
        simp only [Bool.and_eq_true, decide_eq_true_eq]
        exact ⟨hne, by rw [startTime, startTime, hreq], hpol⟩
      · intro htied
        obtain ⟨x, hxc, hne, hreq, hpol⟩ := hw.tied htied
        exact ⟨x, (hmem x).mpr ⟨hxc, hreq⟩, hne, hpol⟩
    simp only [hbest]
    rw [htie]

/-- Every round of the batch is steady. -/
inductive SteadyRounds : BusArbiter → List BusOp → Prop
  | stop {arb : BusArbiter} {ops : List BusOp}
      (h : arb.trace.shouldHalt = true ∨ arb.candidates ops = []) : SteadyRounds arb ops
  | round {arb : BusArbiter} {ops : List BusOp} (w : BusOp) (hw : arb.Steady ops w)
      (hrest : SteadyRounds (arb.executeCommit w (arb.tied w ops)).1 (ops.erase w)) :
      SteadyRounds arb ops

theorem executeCommit_beyond (h : arb.Beyond later) (w : BusOp) (tie : Bool) :
    (arb.executeCommit w tie).1.Beyond later := by
  rw [Beyond, executeCommit_isCommittable]
  exact h

/-- The operations a loop leaves behind. -/
def leftOver (n : Nat) (arb : BusArbiter) (ops : List BusOp) : List BusOp :=
  ops.filter fun x => x ∉ (rounds n arb ops).2.map Prod.fst

theorem leftOver_of_none {n : Nat} (h : arb.opRound ops = none) : leftOver n arb ops = ops := by
  rw [leftOver, rounds_of_none h]
  simp

theorem leftOver_of_some {n : Nat} {tie : Bool} (hnodup : ops.Nodup)
    (h : arb.opRound ops = some (w, tie)) :
    leftOver (n + 1) arb ops = leftOver n (arb.executeCommit w tie).1 (ops.erase w) := by
  rw [leftOver, rounds_of_some h, leftOver]
  generalize (rounds n (arb.executeCommit w tie).1 (ops.erase w)).2 = results
  rw [hnodup.erase_eq_filter, List.filter_filter]
  refine List.filter_congr fun x _ => ?_
  rw [Bool.eq_iff_iff]
  simp only [List.map_cons, List.mem_cons, not_or, decide_eq_true_eq, Bool.and_eq_true,
    bne_iff_ne, ne_eq]
  exact and_comm

/-- A batch of steady rounds is a number of merge steps. -/
theorem SteadyRounds.merge (hs : SteadyRounds arb ops) (n : Nat) (hnodup : ops.Nodup)
    (hlater : arb.Beyond later) (hcore : m.arb.core = arb.core) (hperm : m.rest.Perm (ops ++ later)) :
    ∃ k, (Merge.step^[k] m).arb.core = (rounds n arb ops).1.core ∧
      (Merge.step^[k] m).rest.Perm (leftOver n arb ops ++ later) ∧
      (Merge.step^[k] m).log = m.log ++ (rounds n arb ops).2 := by
  induction hs generalizing n m with
  | stop hstop =>
    -- No round is left, and the merge stands still.
    have hnone := opRound_eq_none.mpr hstop
    refine ⟨0, ?_⟩
    rw [leftOver_of_none hnone, rounds_of_none hnone, List.append_nil]
    exact ⟨hcore, hperm, rfl⟩
  | @round arb ops w hw _ ih =>
    cases n with
    | zero =>
      refine ⟨0, hcore, ?_, (List.append_nil _).symm⟩
      simpa [leftOver, rounds] using hperm
    | succ n =>
      cases hround : arb.opRound ops with
      | none =>
        refine ⟨0, ?_⟩
        rw [leftOver_of_none hround, rounds_of_none hround, List.append_nil]
        exact ⟨hcore, hperm, rfl⟩
      | some round =>
        obtain ⟨v, tie⟩ := round
        obtain ⟨-, hchoice, htie⟩ := opRound_eq_some.mp hround
        have hv : w = v := Option.some_inj.mp (hw.dominates.choice.symm.trans hchoice)
        subst hv
        -- The dominating operation is the next one of the merge too.
        have hnext := hw.merge_next hlater hcore hperm
        have hmem : w ∈ ops := (mem_candidates.mp hw.dominates.1).1
        have hcongr : (m.arb.executeCommit w (arb.tied w ops)).2 =
              (arb.executeCommit w (arb.tied w ops)).2 ∧
            (m.arb.executeCommit w (arb.tied w ops)).1.core =
              (arb.executeCommit w (arb.tied w ops)).1.core := executeCommit_congr hcore
        obtain ⟨hresp, hcore'⟩ := hcongr
        have hperm' : (m.rest.erase w).Perm (ops.erase w ++ later) := by
          rw [← List.erase_append_left _ hmem]
          exact hperm.erase w
        obtain ⟨k, hk⟩ := ih n (m := m.step) (hnodup.erase w)
          (executeCommit_beyond hlater w _) (by rw [Merge.step_of_next hnext]; exact hcore')
          (by rw [Merge.step_of_next hnext]; exact hperm')
        refine ⟨k + 1, ?_⟩
        rw [Function.iterate_succ_apply, leftOver_of_some hnodup hround, rounds_of_some hround, ← htie]
        refine ⟨hk.1, hk.2.1, ?_⟩
        rw [hk.2.2, Merge.step_of_next hnext, hresp, List.append_assoc]
        rfl

end BusArbiter

end Saturnis.Bus
