/-
The commit loop on pending entries.

The loop of `commit_batch` chooses and removes pending entries by position.
The entries of a batch have distinct input indices, so it may as well choose
and remove the entries themselves: `entryRounds` is that loop.

* `commitRounds_eq_entryRounds` — it is the loop of the model;
* `entryRounds_map` — it does not depend on how the entries are numbered.
-/
import Saturnis.ArbiterLog

namespace Saturnis.Bus

open Saturnis.Core Saturnis.Mem Saturnis.Dev

namespace BusArbiter

variable {arb : BusArbiter} {pending : List CommitResult} {w x : CommitResult} {tie : Bool}

def entryCandidates (arb : BusArbiter) (pending : List CommitResult) : List CommitResult :=
  pending.filter fun e => arb.isCommittable e.op

def entryChoice (arb : BusArbiter) (pending : List CommitResult) : Option CommitResult :=
  match arb.entryCandidates pending with
  | [] => none
  | front :: rest =>
    some (Scan.best (fun e cur => arb.replaces e.op cur.op) front (front :: rest))

/-- Another candidate would start with `w`, at the same priority. -/
def entryTied (arb : BusArbiter) (w : CommitResult) (pending : List CommitResult) : Bool :=
  (arb.entryCandidates pending).any fun e =>
    e.inputIndex ≠ w.inputIndex &&
      (arb.startTime e.op = arb.startTime w.op && arb.policy e.op = arb.policy w.op)

/-- The entry and the tie flag of the next round, `none` where the loop ends. -/
def entryRound (arb : BusArbiter) (pending : List CommitResult) : Option (CommitResult × Bool) :=
  if arb.trace.shouldHalt then none
  else (arb.entryChoice pending).map fun w => (w, arb.entryTied w pending)

def entryRounds : Nat → BusArbiter → List CommitResult → BusArbiter × List CommitResult
  | 0, arb, _ => (arb, [])
  | n + 1, arb, pending =>
    match arb.entryRound pending with
    | none => (arb, [])
    | some (w, tie) =>
      ((entryRounds n (arb.executeCommit w.op tie).1 (pending.erase w)).1,
        { w with response := (arb.executeCommit w.op tie).2 } ::
          (entryRounds n (arb.executeCommit w.op tie).1 (pending.erase w)).2)

theorem entryRounds_of_none {n : Nat} (h : arb.entryRound pending = none) :
    entryRounds n arb pending = (arb, []) := by
  cases n with
  | zero => rfl
  | succ n => rw [entryRounds, h]

theorem entryRounds_of_some {n : Nat} (h : arb.entryRound pending = some (w, tie)) :
    entryRounds (n + 1) arb pending =
      ((entryRounds n (arb.executeCommit w.op tie).1 (pending.erase w)).1,
        { w with response := (arb.executeCommit w.op tie).2 } ::
          (entryRounds n (arb.executeCommit w.op tie).1 (pending.erase w)).2) := by
  rw [entryRounds, h]

/-- The entries are numbered apart. -/
def Numbered (pending : List CommitResult) : Prop := (pending.map (·.inputIndex)).Nodup

theorem Numbered.nodup (h : Numbered pending) : pending.Nodup := List.Nodup.of_map _ h

theorem Numbered.erase (h : Numbered pending) (w : CommitResult) : Numbered (pending.erase w) :=
  h.sublist (List.erase_sublist.map _)

theorem Numbered.eq (h : Numbered pending) (hw : w ∈ pending) (hx : x ∈ pending)
    (heq : w.inputIndex = x.inputIndex) : w = x :=
  List.inj_on_of_nodup_map h hw hx heq

/-! ### The loop of the model -/

theorem committable_fst (arb : BusArbiter) (pending : List CommitResult) :
    (arb.committable pending).map Prod.fst = arb.entryCandidates pending := by
  have hfst : pending.zipIdx.map Prod.fst = pending := List.zipIdx_map_fst 0 pending
  rw [committable, entryCandidates]
  nth_rewrite 2 [← hfst]
  rw [List.filter_map]
  rfl

theorem position_eq_iff (hnum : Numbered pending) {e e' : Entry} (he : e ∈ pending.zipIdx)
    (he' : e' ∈ pending.zipIdx) : e.2 = e'.2 ↔ e.1.inputIndex = e'.1.inputIndex := by
  have hi := List.mem_zipIdx_iff_getElem?.mp he
  have hj := List.mem_zipIdx_iff_getElem?.mp he'
  constructor
  · intro heq
    rw [heq, hj] at hi
    rw [Option.some_inj.mp hi]
  · intro heq
    have hsame := hnum.eq (List.mem_of_getElem? hi) (List.mem_of_getElem? hj) heq
    have hlt : e.2 < pending.length := (List.getElem?_eq_some_iff.mp hi).1
    exact (List.getElem?_inj hlt hnum.nodup).mp (by rw [hi, hj, hsame])

theorem nextRound_fst (arb : BusArbiter) (hnum : Numbered pending) :
    (arb.nextRound pending).map (fun n => (n.1.1, n.2)) = arb.entryRound pending := by
  rw [nextRound, entryRound]
  split
  · rfl
  · rw [entryChoice, ← committable_fst]
    cases hcand : arb.committable pending with
    | nil => rfl
    | cons front rest =>
      have hpick : (arb.pickNext front (front :: rest)).1 =
          Scan.best (fun e cur => arb.replaces e.op cur.op) front.1
            ((front :: rest).map Prod.fst) :=
        Scan.best_map (r := fun e cur : CommitResult => arb.replaces e.op cur.op)
          (Prod.fst : Entry → CommitResult) front (front :: rest)
      have hmem := pickNext_mem hcand
      have htie : arb.hadTie (arb.pickNext front (front :: rest)) (front :: rest) =
          arb.entryTied (arb.pickNext front (front :: rest)).1 pending := by
        rw [entryTied, ← committable_fst, List.any_map, hadTie, hcand, Bool.eq_iff_iff,
          List.any_eq_true, List.any_eq_true]
        refine exists_congr fun e => and_congr_right fun he => ?_
        rw [← hcand] at he
        have hposition := position_eq_iff hnum (List.mem_of_mem_filter he)
          (List.mem_of_mem_filter hmem)
        simp only [Function.comp, Bool.and_eq_true, decide_eq_true_eq, ne_eq, hposition]
      simp only [List.map_cons, Option.map_some] at hpick ⊢
      rw [htie, hpick]

theorem commitRounds_eq_entryRounds (n : Nat) (arb : BusArbiter) (hnum : Numbered pending) :
    commitRounds n arb pending = entryRounds n arb pending := by
  induction n generalizing arb pending with
  | zero => rfl
  | succ n ih =>
    have hround := nextRound_fst arb hnum
    cases h : arb.nextRound pending with
    | none =>
      rw [h, Option.map_none] at hround
      rw [commitRounds_of_none h, entryRounds_of_none hround.symm]
    | some next =>
      obtain ⟨next, tie⟩ := next
      rw [h, Option.map_some] at hround
      obtain ⟨hlt, hget⟩ := List.getElem?_eq_some_iff.mp (nextRound_getElem? h)
      have herase : pending.eraseIdx next.2 = pending.erase next.1 := by
        rw [← hget, hnum.nodup.erase_getElem]
      rw [commitRounds_of_some h, entryRounds_of_some hround.symm, herase, ih _ (hnum.erase _)]

theorem enqueue_numbered (arb : BusArbiter) (i : Nat) (ops : List BusOp) :
    Numbered (arb.enqueue i ops).2 :=
  (List.nodup_append.mp (enqueue_index_pairwise arb i ops)).2.1

theorem commitBatch_eq_entryRounds (arb : BusArbiter) (ops : List BusOp) :
    arb.commitBatch ops =
      entryRounds (arb.resetEnqueued.enqueue 0 ops).2.length (arb.resetEnqueued.enqueue 0 ops).1
        (arb.resetEnqueued.enqueue 0 ops).2 :=
  commitRounds_eq_entryRounds _ _ (enqueue_numbered _ _ _)

/-! ### One round -/

theorem mem_entryCandidates :
    x ∈ arb.entryCandidates pending ↔ x ∈ pending ∧ arb.isCommittable x.op = true :=
  List.mem_filter

theorem entryRound_eq_some :
    arb.entryRound pending = some (w, tie) ↔
      arb.trace.shouldHalt = false ∧ arb.entryChoice pending = some w ∧
        arb.entryTied w pending = tie := by
  rw [entryRound]
  cases arb.trace.shouldHalt with
  | true => simp
  | false =>
    rw [if_neg (by simp)]
    constructor
    · intro h
      obtain ⟨v, hv, heq⟩ := Option.map_eq_some_iff.mp h
      obtain ⟨rfl, rfl⟩ := Prod.mk.inj heq
      exact ⟨rfl, hv, rfl⟩
    · rintro ⟨-, hw, rfl⟩
      rw [hw, Option.map_some]

theorem entryRound_mem (h : arb.entryRound pending = some (w, tie)) : w ∈ pending := by
  have hchoice := (entryRound_eq_some.mp h).2.1
  rw [entryChoice] at hchoice
  split at hchoice
  · exact absurd hchoice (by simp)
  · rename_i front rest hcand
    have hmem := Scan.best_mem (r := fun e cur : CommitResult => arb.replaces e.op cur.op)
      front (front :: rest)
    rw [Option.some_inj.mp hchoice] at hmem
    have hmem' : w ∈ arb.entryCandidates pending := by
      rw [hcand]
      rcases List.mem_cons.mp hmem with h | h
      · exact List.mem_cons.mpr (Or.inl h)
      · exact h
    exact (mem_entryCandidates.mp hmem').1

/-! ### Numbering -/

/-- A way to number the entries anew. -/
structure Renumbers (f : CommitResult → CommitResult) : Prop where
  op : ∀ e, (f e).op = e.op
  response : ∀ e r, f { e with response := r } = { f e with response := r }
  index : ∀ e e', (f e).inputIndex = (f e').inputIndex ↔ e.inputIndex = e'.inputIndex
  inj : Function.Injective f

theorem entryRound_map {f : CommitResult → CommitResult} (hf : Renumbers f) :
    arb.entryRound (pending.map f) = (arb.entryRound pending).map fun n => (f n.1, n.2) := by
  have hcand : arb.entryCandidates (pending.map f) = (arb.entryCandidates pending).map f := by
    rw [entryCandidates, entryCandidates, List.filter_map]
    refine congrArg (List.map f) (List.filter_congr fun e _ => ?_)
    rw [Function.comp_apply, hf.op]
  have htied : ∀ w, arb.entryTied (f w) (pending.map f) = arb.entryTied w pending := by
    intro w
    rw [entryTied, entryTied, hcand, List.any_map]
    refine List.any_congr rfl fun e => ?_
    simp only [Function.comp_apply, hf.op, ne_eq, hf.index]
  have hchoice : arb.entryChoice (pending.map f) = (arb.entryChoice pending).map f := by
    rw [entryChoice, entryChoice, hcand]
    cases arb.entryCandidates pending with
    | nil => rfl
    | cons front rest =>
      have hbest := Scan.best_map (r := fun e cur : CommitResult => arb.replaces e.op cur.op) f
        front (front :: rest)
      simp only [hf.op] at hbest
      rw [Option.map_some, hbest]
      rfl
  rw [entryRound, entryRound]
  split
  · rfl
  · rw [hchoice, Option.map_map, Option.map_map]
    cases arb.entryChoice pending with
    | none => rfl
    | some w =>
      simp only [Option.map_some, Function.comp_apply]
      rw [htied]

theorem entryRounds_map {f : CommitResult → CommitResult} (hf : Renumbers f) (n : Nat)
    (arb : BusArbiter) (pending : List CommitResult) :
    entryRounds n arb (pending.map f) =
      ((entryRounds n arb pending).1, (entryRounds n arb pending).2.map f) := by
  induction n generalizing arb pending with
  | zero => rfl
  | succ n ih =>
    have hround : arb.entryRound (pending.map f) =
        (arb.entryRound pending).map fun n => (f n.1, n.2) := entryRound_map hf
    cases h : arb.entryRound pending with
    | none =>
      rw [h, Option.map_none] at hround
      rw [entryRounds_of_none h, entryRounds_of_none hround]
      rfl
    | some round =>
      obtain ⟨w, tie⟩ := round
      rw [h, Option.map_some] at hround
      have hresponse := hf.response w (arb.executeCommit w.op tie).2
      have hlater := ih (arb.executeCommit w.op tie).1 (pending.erase w)
      rw [List.map_erase hf.inj] at hlater
      rw [entryRounds_of_some h, entryRounds_of_some hround, List.map_cons, hresponse]
      simp only [hf.op, hlater]

/-! ### Lines and counters -/

theorem entryRounds_appends (n : Nat) (pending : List CommitResult) :
    Appends fun arb => entryRounds n arb pending := by
  induction n generalizing pending with
  | zero => exact Appends.pure (fun _ => []) fun _ _ => rfl
  | succ n ih =>
    intro arb
    have hround : ∀ l, (arb.relog l).entryRound pending = arb.entryRound pending := fun _ => rfl
    cases h : arb.entryRound pending with
    | none =>
      refine ⟨arb, [], [], fun l => ?_⟩
      beta_reduce
      rw [entryRounds_of_none ((hround l).trans h), List.append_nil]
    | some round =>
      obtain ⟨w, tie⟩ := round
      obtain ⟨b, lines, response, hb⟩ := executeCommit_appends w.op tie arb
      obtain ⟨c, lines', results, hc⟩ := ih (pending.erase w) b
      refine ⟨c, lines ++ lines', { w with response } :: results, fun l => ?_⟩
      beta_reduce at hb hc ⊢
      rw [entryRounds_of_some ((hround l).trans h), hb, hc, List.append_assoc]

end BusArbiter

end Saturnis.Bus
