/-
Host enqueue order.

`pick_next` scans the candidates with a comparison that is total but not
transitive: an operation may lose to an older one of its own producer, which
loses to one of another producer, which loses to the first.  The batch is
committed in the same way from every host order exactly when no round has to
decide such a cycle, that is, when one candidate is preferred to all others
(`Decisive`).

* `orderFree_iff_decisive` — for every policy, and every batch in which no two
  producers share a CPU number.
-/
import Saturnis.ArbiterRounds
import Saturnis.Streams

namespace Saturnis.Bus

open Saturnis.Core Saturnis.Mem Saturnis.Dev

namespace BusArbiter

variable {arb a b : BusArbiter} {ops ops' : List BusOp} {w x y : BusOp} {tie : Bool}

/-! ### The comparison of `pick_next` -/

theorem replaces_of_start_lt (h : arb.startTime x < arb.startTime y) :
    arb.replaces x y = true := by
  rw [replaces, if_pos h]

theorem not_replaces_of_start_lt (h : arb.startTime x < arb.startTime y) :
    arb.replaces y x = false := by
  rw [replaces, if_neg (by omega), if_pos h]

theorem start_le_of_replaces (h : arb.replaces x y = true) :
    arb.startTime x ≤ arb.startTime y := by
  by_contra hlt
  rw [not_replaces_of_start_lt (by omega)] at h
  exact absurd h (by simp)

theorem startTime_mono (h : x.reqTime ≤ y.reqTime) : arb.startTime x ≤ arb.startTime y := by
  rw [startTime, startTime]
  omega

/-- An operation does not replace an older one of its producer. -/
theorem not_replaces_younger (hslot : producerSlot x = producerSlot y)
    (hreq : x.reqTime ≤ y.reqTime) (hseq : x.sequence < y.sequence) :
    arb.replaces y x = false := by
  have hle : arb.startTime x ≤ arb.startTime y := startTime_mono hreq
  by_cases hlt : arb.startTime x < arb.startTime y
  · exact not_replaces_of_start_lt hlt
  · rw [replaces, if_neg (by omega), if_neg (by omega), if_pos hslot.symm]
    simp only [Bool.or_eq_false_iff, Bool.and_eq_false_iff, decide_eq_false_iff_not]
    omega

theorem replaces_older (hslot : producerSlot x = producerSlot y)
    (hreq : x.reqTime ≤ y.reqTime) (hseq : x.sequence < y.sequence) :
    arb.replaces x y = true := by
  have hle : arb.startTime x ≤ arb.startTime y := startTime_mono hreq
  by_cases hlt : arb.startTime x < arb.startTime y
  · exact replaces_of_start_lt hlt
  · rw [replaces, if_neg hlt, if_neg (by omega), if_pos hslot]
    simp [hseq]

theorem not_replaces_self (x : BusOp) : arb.replaces x x = false := by
  rw [replaces, if_neg (by omega), if_neg (by omega), if_pos rfl]
  simp

/-- The rank of a CPU number among equal priorities: the CPU that was not
granted last comes before the other one. -/
def turn (arb : BusArbiter) (cpuId : Int) : Int :=
  if isCpu cpuId then
    if cpuId = (if arb.lastGrantCpu = 0 then 1 else 0) then 0 else 1
  else cpuId

theorem turn_injective {i j : Int} (h : arb.turn i = arb.turn j) : i = j := by
  simp only [turn, isCpu, Bool.or_eq_true, decide_eq_true_eq] at h
  split_ifs at h <;> omega

/-- The order across producers: start time, priority, turn. -/
def Precedes (arb : BusArbiter) (x y : BusOp) : Prop :=
  arb.startTime x < arb.startTime y ∨
    arb.startTime x = arb.startTime y ∧
      ((arb.policy y).rank < (arb.policy x).rank ∨
        (arb.policy x).rank = (arb.policy y).rank ∧ arb.turn x.cpuId < arb.turn y.cpuId)

theorem Precedes.trans {z : BusOp} (h : arb.Precedes x y) (h' : arb.Precedes y z) :
    arb.Precedes x z := by
  unfold Precedes at *
  omega

theorem precedes_total (h : x.cpuId ≠ y.cpuId) : arb.Precedes x y ∨ arb.Precedes y x := by
  have hne : arb.turn x.cpuId ≠ arb.turn y.cpuId := fun heq => h (turn_injective heq)
  unfold Precedes
  omega

theorem replaces_iff_precedes (hslot : producerSlot x ≠ producerSlot y)
    (hid : x.cpuId ≠ y.cpuId) : arb.replaces x y = true ↔ arb.Precedes x y := by
  rw [replaces, Precedes]
  by_cases hlt : arb.startTime x < arb.startTime y
  · simp [hlt]
  by_cases hgt : arb.startTime x > arb.startTime y
  · rw [if_neg hlt, if_pos hgt]
    simp only [Bool.false_eq_true, false_iff]
    omega
  rw [if_neg hlt, if_neg hgt, if_neg hslot]
  by_cases hrank : (arb.policy x).rank > (arb.policy y).rank
  · rw [if_pos hrank]
    simp only [true_iff]
    omega
  by_cases hrank' : (arb.policy x).rank < (arb.policy y).rank
  · rw [if_neg hrank, if_pos hrank']
    simp only [Bool.false_eq_true, false_iff]
    omega
  rw [if_neg hrank, if_neg hrank']
  have hturn : arb.Precedes x y ↔ arb.turn x.cpuId < arb.turn y.cpuId := by
    rw [Precedes]
    omega
  rw [← Precedes, hturn, turn, turn]
  simp only [isCpu, Bool.and_eq_true, Bool.or_eq_true, decide_eq_true_eq, hid, ne_eq,
    not_false_eq_true, and_true]
  by_cases hx : x.cpuId = 0 ∨ x.cpuId = 1
  · by_cases hy : y.cpuId = 0 ∨ y.cpuId = 1
    · -- two CPUs: the one that was not granted last is preferred
      rw [if_pos ⟨hx, hy⟩, if_pos hx, if_pos hy]
      simp only [decide_eq_true_eq]
      split_ifs <;> omega
    · rw [if_neg (fun h => hy h.2), if_pos trivial, if_pos hx, if_neg hy]
      simp only [decide_eq_true_eq]
      split_ifs <;> omega
  · rw [if_neg (fun h => hx h.1), if_pos trivial, if_neg hx]
    simp only [decide_eq_true_eq]
    split_ifs <;> omega

/-- Between two producers one operation replaces the other. -/
theorem replaces_total_of_ne (hslot : producerSlot x ≠ producerSlot y) (hid : x.cpuId ≠ y.cpuId)
    (h : arb.replaces x y = false) : arb.replaces y x = true := by
  rw [replaces_iff_precedes hslot.symm hid.symm]
  refine (precedes_total hid).resolve_left fun hxy => ?_
  rw [(replaces_iff_precedes hslot hid).mpr hxy] at h
  exact absurd h (by simp)

/-- No two producers share a CPU number. -/
def ProducersApart (ops : List BusOp) : Prop :=
  ∀ x ∈ ops, ∀ y ∈ ops, x.cpuId = y.cpuId → producerSlot x = producerSlot y

instance (ops : List BusOp) : Decidable (ProducersApart ops) :=
  inferInstanceAs (Decidable (∀ x ∈ ops, ∀ y ∈ ops, _))

theorem Honours.pairwise (h : Honours arb ops) :
    ops.Pairwise fun x y => producerSlot x = producerSlot y →
      x.reqTime ≤ y.reqTime ∧ x.sequence < y.sequence :=
  (h.reqTime.and h.sequence).imp fun hxy hslot => ⟨hxy.1 hslot, hxy.2 hslot⟩

/-- Of two operations of one producer the one listed first is the older one. -/
theorem Honours.comparable (h : Honours arb ops) (hx : x ∈ ops) (hy : y ∈ ops) (hne : x ≠ y)
    (hslot : producerSlot x = producerSlot y) :
    (x.reqTime ≤ y.reqTime ∧ x.sequence < y.sequence) ∨
      (y.reqTime ≤ x.reqTime ∧ y.sequence < x.sequence) := by
  obtain ⟨i, hi, rfl⟩ := List.getElem_of_mem hx
  obtain ⟨j, hj, rfl⟩ := List.getElem_of_mem hy
  rcases Nat.lt_trichotomy i j with hij | hij | hij
  · exact Or.inl (List.pairwise_iff_getElem.mp h.pairwise i j hi hj hij hslot)
  · exact absurd (by simp only [hij]) hne
  · exact Or.inr (List.pairwise_iff_getElem.mp h.pairwise j i hj hi hij hslot.symm)

theorem replaces_total (h : Honours arb ops) (hapart : ProducersApart ops) (hx : x ∈ ops)
    (hy : y ∈ ops) (hne : x ≠ y) (hxy : b.replaces x y = false) : b.replaces y x = true := by
  by_cases hslot : producerSlot x = producerSlot y
  · rcases h.comparable hx hy hne hslot with ⟨hreq, hseq⟩ | ⟨hreq, hseq⟩
    · rw [replaces_older hslot hreq hseq] at hxy
      exact absurd hxy (by simp)
    · exact replaces_older hslot.symm hreq hseq
  · exact replaces_total_of_ne hslot (fun hid => hslot (hapart x hx y hy hid)) hxy

/-! ### Batches without cycles -/

/-- The operation is preferred to every other one of the list. -/
def Dominates (arb : BusArbiter) (ops : List BusOp) (w : BusOp) : Prop :=
  w ∈ ops ∧ ∀ x ∈ ops, x ≠ w → arb.replaces w x = true ∧ arb.replaces x w = false

/-- In every round one candidate is preferred to all others. -/
inductive Decisive : BusArbiter → List BusOp → Prop
  | stop {arb : BusArbiter} {ops : List BusOp}
      (h : arb.trace.shouldHalt = true ∨ arb.candidates ops = []) : Decisive arb ops
  | round {arb : BusArbiter} {ops : List BusOp} (w : BusOp)
      (hw : arb.Dominates (arb.candidates ops) w)
      (hrest : Decisive (arb.executeCommit w (arb.tied w ops)).1 (ops.erase w)) : Decisive arb ops

theorem choice_of_cons {front : BusOp} {rest : List BusOp}
    (h : arb.candidates ops = front :: rest) :
    arb.choice ops = some (Scan.best arb.replaces front rest) := by
  rw [choice, h]
  simp only
  rw [Scan.best_cons, if_neg (by rw [not_replaces_self]; simp)]

theorem candidates_perm (h : ops.Perm ops') : (arb.candidates ops).Perm (arb.candidates ops') :=
  h.filter _

theorem tied_perm (h : ops.Perm ops') : arb.tied w ops = arb.tied w ops' :=
  (candidates_perm h).any_eq

theorem Dominates.choice (h : arb.Dominates (arb.candidates ops) w) :
    arb.choice ops = some w := by
  obtain ⟨hmem, hdom⟩ := h
  cases hcand : arb.candidates ops with
  | nil =>
    rw [hcand] at hmem
    exact absurd hmem (by simp)
  | cons front rest =>
    rw [hcand] at hmem hdom
    rw [choice_of_cons hcand]
    refine congrArg some (Scan.best_of_dominates hmem (fun x hx hne => (hdom x hx hne).1)
      fun x hx => ?_)
    by_cases hne : x = w
    · rw [hne]
      exact not_replaces_self w
    · exact (hdom x hx hne).2

theorem Dominates.perm (h : arb.Dominates ops w) (hperm : ops.Perm ops') :
    arb.Dominates ops' w :=
  ⟨hperm.mem_iff.mp h.1, fun x hx => h.2 x (hperm.mem_iff.mpr hx)⟩

/-- A batch without cycles is committed alike from every order. -/
theorem Decisive.rounds_perm (h : Decisive arb ops) (n : Nat) (hperm : ops.Perm ops') :
    rounds n arb ops' = rounds n arb ops := by
  induction h generalizing n ops' with
  | @stop arb ops hstop =>
    have hstop' : arb.trace.shouldHalt = true ∨ arb.candidates ops' = [] :=
      hstop.imp_right fun hnil => by
        have hcand : (arb.candidates ops').Perm (arb.candidates ops) := candidates_perm hperm.symm
        rwa [hnil, List.perm_nil] at hcand
    rw [rounds_of_none (opRound_eq_none.mpr hstop), rounds_of_none (opRound_eq_none.mpr hstop')]
  | @round arb ops w hw _ ih =>
    cases n with
    | zero => rfl
    | succ n =>
      cases hhalt : arb.trace.shouldHalt with
      | true =>
        rw [rounds_of_none (opRound_eq_none.mpr (Or.inl hhalt)),
          rounds_of_none (opRound_eq_none.mpr (Or.inl hhalt))]
      | false =>
        have hround := opRound_eq_some.mpr ⟨hhalt, hw.choice, rfl⟩
        have hround' := opRound_eq_some.mpr
          ⟨hhalt, (hw.perm (candidates_perm hperm)).choice, (tied_perm hperm).symm⟩
        rw [rounds_of_some hround, rounds_of_some hround', ih n (hperm.erase w)]

/-! ### The condition is necessary -/

/-- The scan from the order that lists the producer of `w` first. -/
theorem candidates_stream_others (arb : BusArbiter) (slot : Fin 3) (ops : List BusOp) :
    arb.candidates (Streams.stream producerSlot slot ops ++ Streams.others producerSlot slot ops) =
      Streams.stream producerSlot slot (arb.candidates ops) ++
        Streams.others producerSlot slot (arb.candidates ops) := by
  simp only [candidates, Streams.stream, Streams.others, List.filter_append, List.filter_filter,
    Bool.and_comm]

theorem Honours.candidates (h : Honours arb ops) : Honours arb (arb.candidates ops) :=
  ⟨fun x hx => h.valid x (mem_candidates.mp hx).1, h.reqTime.sublist List.filter_sublist,
    h.sequence.sublist List.filter_sublist, fun x hx => h.recorded x (mem_candidates.mp hx).1⟩

/-- An operation that is chosen when its producer is listed first is replaced
by no other candidate. -/
theorem not_replaced_of_choice (h : Honours arb ops)
    (hw : arb.choice (Streams.stream producerSlot (producerSlot w) ops ++
      Streams.others producerSlot (producerSlot w) ops) = some w) :
    ∀ x ∈ arb.candidates ops, arb.replaces x w = false := by
  set cand := arb.candidates ops with hcand
  set first := Streams.stream producerSlot (producerSlot w) cand with hfirst
  set rest := Streams.others producerSlot (producerSlot w) cand with hrest
  have hwrest : w ∉ rest := fun hmem => (Streams.mem_others.mp hmem).2 rfl
  have hmem : w ∈ first ++ rest := by
    have := choice_mem hw
    rwa [candidates_stream_others] at this
  have hpair : first.Pairwise fun x y => x.reqTime ≤ y.reqTime ∧ x.sequence < y.sequence :=
    Streams.pairwise_iff.mp h.candidates.pairwise _
  have hsame : ∀ x ∈ first, producerSlot x = producerSlot w := fun x hx =>
    (Streams.mem_stream.mp hx).2
  have hsplit := candidates_stream_others arb (producerSlot w) ops
  rw [← hcand, ← hfirst, ← hrest] at hsplit
  clear_value first
  cases first with
  | nil => exact absurd hmem hwrest
  | cons head tail =>
    have hyounger : ∀ x ∈ tail, arb.replaces x head = false := fun x hx =>
      have hlt := (List.pairwise_cons.mp hpair).1 x hx
      not_replaces_younger ((hsame head List.mem_cons_self).trans
        (hsame x (List.mem_cons_of_mem _ hx)).symm) hlt.1 hlt.2
    -- the scan of the producer's own operations keeps the oldest one
    have hscan : Scan.best arb.replaces head rest = w := by
      rw [List.cons_append] at hsplit
      rw [← Option.some_inj, ← hw, choice_of_cons hsplit, Scan.best_append,
        Scan.best_eq_front hyounger]
    have hhead : w = head := by
      have := Scan.best_mem (r := arb.replaces) head rest
      rw [hscan] at this
      rcases List.mem_cons.mp this with h | h
      · exact h
      · exact absurd h hwrest
    subst hhead
    intro x hx
    by_cases hslot : producerSlot x = producerSlot w
    · have hxfirst : x ∈ w :: tail := hfirst ▸ Streams.mem_stream.mpr ⟨hx, hslot⟩
      rcases List.mem_cons.mp hxfirst with rfl | hx
      · exact not_replaces_self x
      · exact hyounger x hx
    · exact Scan.not_replaces_of_best_eq_front hscan hwrest x (Streams.mem_others.mpr ⟨hx, hslot⟩)

theorem isCommittable_mono (h : x.reqTime ≤ y.reqTime) (hy : arb.isCommittable y = true) :
    arb.isCommittable x = true := by
  simp only [isCommittable, Bool.or_eq_true, Bool.and_eq_true, decide_eq_true_eq] at hy ⊢
  rcases hy with hy | ⟨hsafe, hlt⟩
  · exact Or.inl hy
  · exact Or.inr ⟨hsafe, by omega⟩

theorem Honours.isFirst_iff (h : Honours arb ops) (hw : w ∈ ops) :
    Streams.IsFirst producerSlot ops w ↔ Honours.Oldest ops w := by
  constructor
  · rintro ⟨l₁, l₂, rfl, hl₁⟩ x hx hslot
    rcases List.mem_append.mp hx with hx | hx
    · exact absurd hslot (hl₁ x hx)
    · rcases List.mem_cons.mp hx with rfl | hx
      · exact Nat.le_refl _
      · have htail := (List.pairwise_append.mp h.sequence).2.1
        exact Nat.le_of_lt ((List.pairwise_cons.mp htail).1 x hx hslot.symm)
  · intro hold
    obtain ⟨l₁, l₂, rfl⟩ := List.append_of_mem hw
    refine ⟨l₁, l₂, rfl, fun x hx hslot => ?_⟩
    have hlt := (List.pairwise_append.mp h.sequence).2.2 x hx w List.mem_cons_self hslot
    have hle := hold x (List.mem_append_left _ hx) hslot
    omega

/-- A preferred candidate is the oldest operation of its producer. -/
theorem Dominates.oldest (h : Honours arb ops) (hw : arb.Dominates (arb.candidates ops) w) :
    Honours.Oldest ops w := by
  intro x hx hslot
  by_contra hlt
  obtain ⟨hmem, hdom⟩ := hw
  obtain ⟨hwops, hwcomm⟩ := mem_candidates.mp hmem
  have hne : x ≠ w := fun heq => hlt (Nat.le_of_eq (by rw [heq]))
  rcases h.comparable hx hwops hne hslot with ⟨hreq, hseq⟩ | ⟨_, hseq⟩
  · have hxc := mem_candidates.mpr ⟨hx, isCommittable_mono hreq hwcomm⟩
    have := (hdom x hxc hne).2
    rw [replaces_older hslot hreq hseq] at this
    exact absurd this (by simp)
  · omega

theorem decisive_of_orderFree {n : Nat} (hlen : ops.length = n) (h : Honours arb ops)
    (hapart : ProducersApart ops)
    (hfree : ∀ ops', Streams.Same producerSlot ops ops' →
      (rounds n arb ops').2 = (rounds n arb ops).2) : Decisive arb ops := by
  induction n generalizing arb ops with
  | zero =>
    rw [List.length_eq_zero_iff.mp hlen]
    exact .stop (Or.inr rfl)
  | succ n ih =>
    cases hround : arb.opRound ops with
    | none => exact .stop (opRound_eq_none.mp hround)
    | some round =>
      obtain ⟨w, tie⟩ := round
      obtain ⟨hhalt, hchoice, htie⟩ := opRound_eq_some.mp hround
      -- every host order starts with the same operation
      have hsame : ∀ ops', Streams.Same producerSlot ops ops' → arb.choice ops' = some w := by
        intro ops' hops
        have heq := hfree ops' hops
        rw [rounds_of_some hround] at heq
        cases hround' : arb.opRound ops' with
        | none =>
          rw [rounds_of_none hround'] at heq
          exact absurd heq (by simp)
        | some round' =>
          obtain ⟨w', tie'⟩ := round'
          rw [rounds_of_some hround'] at heq
          have hw : w' = w := (Prod.mk.inj (List.cons.inj heq).1).1
          rw [← hw]
          exact (opRound_eq_some.mp hround').2.1
      have hmem := choice_mem hchoice
      have hdom : arb.Dominates (arb.candidates ops) w := by
        have hkeep := not_replaced_of_choice h
          (hsame _ (Streams.Same.stream_others producerSlot (producerSlot w) ops))
        refine ⟨hmem, fun x hx hne => ⟨?_, hkeep x hx⟩⟩
        exact replaces_total h hapart (mem_candidates.mp hx).1 (mem_candidates.mp hmem).1 hne
          (hkeep x hx)
      have hops := (mem_candidates.mp hmem).1
      have hold := hdom.oldest h
      have hcons := Streams.Same.cons_erase ((h.isFirst_iff hops).mpr hold)
      refine .round w hdom (ih ?_ (h.after hops hold _) ?_ fun l hl => ?_)
      · rw [List.length_erase_of_mem hops, hlen, Nat.add_sub_cancel]
      · exact fun x hx y hy => hapart x (List.erase_subset hx) y (List.erase_subset hy)
      · -- a host order of the rest is one of the whole batch, with `w` in front
        have hall := hcons.trans (hl.cons w)
        have heq := hfree (w :: l) hall
        have hround' : arb.opRound (w :: l) = some (w, tie) :=
          opRound_eq_some.mpr ⟨hhalt, hsame _ hall, by rw [← htie, tied_perm hall.perm]⟩
        rw [rounds_of_some hround, rounds_of_some hround', List.erase_cons_head] at heq
        rw [htie]
        exact (List.cons.inj heq).2

/-! ### Host order -/

/-- What `commit_batch` does, up to the bookkeeping of the enqueue contract. -/
structure Outcome where
  results : List (BusOp × BusResponse)
  memory : CommittedMemory
  busFreeTime : Nat
  lastGrantCpu : Int
  commits : List CommitEvent
deriving DecidableEq

def outcome (arb : BusArbiter) (ops : List BusOp) : Outcome where
  results := (arb.commitBatch ops).2.map fun r => (r.op, r.response)
  memory := (arb.commitBatch ops).1.memory
  busFreeTime := (arb.commitBatch ops).1.busFreeTime
  lastGrantCpu := (arb.commitBatch ops).1.lastGrantCpu
  commits := (arb.commitBatch ops).1.trace.commits

/-- Every interleaving of the same producer streams has the same outcome. -/
def OrderFree (arb : BusArbiter) (ops : List BusOp) : Prop :=
  ∀ ops', Streams.Same producerSlot ops ops' → arb.outcome ops' = arb.outcome ops

theorem Honours.same (h : Honours arb ops) (hops : Streams.Same producerSlot ops ops') :
    Honours arb ops' :=
  ⟨fun x hx => h.valid x (hops.mem_iff.mpr hx), hops.pairwise h.reqTime, hops.pairwise h.sequence,
    fun x hx => h.recorded x (hops.mem_iff.mpr hx)⟩

theorem outcome_eq_of_rounds_eq (h : Honours arb ops) (h' : Honours arb ops')
    (heq : rounds ops'.length arb ops' = rounds ops.length arb ops) :
    arb.outcome ops' = arb.outcome ops := by
  obtain ⟨harb, hres⟩ := commitBatch_eq_rounds h
  obtain ⟨harb', hres'⟩ := commitBatch_eq_rounds h'
  have hcore := resetEnqueued_core (harb'.trans ((by rw [heq] : _ = _).trans harb.symm))
  rw [outcome, outcome, hres, hres', heq, core_memory hcore, core_busFreeTime hcore,
    core_lastGrantCpu hcore, core_trace hcore]

/-- **The outcome of a batch is free of the host order if and only if every
round has a preferred candidate.** -/
theorem orderFree_iff_decisive (arb : BusArbiter) (ops : List BusOp) (h : Honours arb ops)
    (hapart : ProducersApart ops) : OrderFree arb ops ↔ Decisive arb ops := by
  constructor
  · intro hfree
    refine decisive_of_orderFree rfl h hapart fun ops' hops => ?_
    have heq := congrArg Outcome.results (hfree ops' hops)
    simp only [outcome] at heq
    rw [(commitBatch_eq_rounds h).2, (commitBatch_eq_rounds (h.same hops)).2] at heq
    rw [← heq, hops.perm.length_eq]
  · intro hdec ops' hops
    refine outcome_eq_of_rounds_eq h (h.same hops) ?_
    rw [← hops.perm.length_eq]
    exact hdec.rounds_perm _ hops.perm

/-- Two CPUs that read at one tick are served in the same order whoever comes first. -/
theorem orderFree_two_reads :
    OrderFree { memory := .make 16 } [{ cpuId := 0 }, { cpuId := 1, physAddr := 4 }] := by
  refine (orderFree_iff_decisive { memory := .make 16 }
    [{ cpuId := 0 }, { cpuId := 1, physAddr := 4 }]
    ⟨by decide, by decide, by decide, by decide⟩ (by decide)).mpr ?_
  refine .round { cpuId := 0 } ⟨by decide, by decide⟩ ?_
  refine .round { cpuId := 1, physAddr := 4 } ⟨by decide, by decide⟩ ?_
  exact .stop (Or.inr rfl)

/-- A RAM read of CPU 0, its next operation, a device read, and a device read
of CPU 1: the first is preferred to the second, the second to the third and
the third to the first. -/
theorem not_orderFree_cycle :
    let arb : BusArbiter := { memory := .make 16 }
    let ram : BusOp := { cpuId := 0, sequence := 0 }
    let device : BusOp := { cpuId := 0, sequence := 1, kind := .mmioRead, physAddr := 0x05FE0000 }
    let other : BusOp := { cpuId := 1, kind := .mmioRead, physAddr := 0x05FE0004 }
    (Honours arb [ram, device, other] ∧ ProducersApart [ram, device, other] ∧
      arb.policy = defaultPolicy) ∧
    Streams.Same producerSlot [ram, device, other] [ram, other, device] ∧
      (arb.outcome [ram, device, other]).results.map (·.1) = [other, ram, device] ∧
      (arb.outcome [ram, other, device]).results.map (·.1) = [device, other, ram] := by
  intro arb ram device other
  refine ⟨⟨⟨by decide, by decide, by decide, by decide⟩, by decide, rfl⟩, ?_, by decide, by decide⟩
  intro slot
  revert slot
  decide

end BusArbiter

end Saturnis.Bus
