/-
What a round of the single-threaded driver commits.

In a run of `run_scripted_pair` that ends, every round with something pending
commits the earliest of the pending requests, both if they are requested at the
same tick.  Horizons and watermarks are gone from this description, so it can
be compared with a driver whose watermarks come at other times.

* `candidates_eq_earliest` — what the horizon lets through, when the watermarks
  are not past the tick after the next request of their CPU;
* `round_earliest` — the rounds of a run that ends.
-/
import Saturnis.ArbiterMerge
import Saturnis.ScriptedProgress

namespace Saturnis.Bus.BusArbiter

open Saturnis.Core Saturnis.Mem Saturnis.Dev

variable {arb a b : BusArbiter}

/-- What may be committed was not requested after a tick the watermark of a CPU
is at most one past. -/
theorem reqTime_le_of_isCommittable {clock : Fin 2 → Nat}
    (htrack : arb.progressTrackingEnabled = true)
    (hmarks : ∀ c, arb.progressUpTo c = tickMax ∨ arb.progressUpTo c ≤ clock c + 1) {op : BusOp}
    (h : arb.isCommittable op = true) (c : Fin 2) : op.reqTime ≤ clock c := by
  simp only [isCommittable, hasSafeHorizon, commitHorizon, htrack, Bool.not_true, Bool.false_or,
    Bool.and_eq_true, decide_eq_true_eq, Nat.lt_min] at h
  obtain ⟨⟨hzero, hone⟩, hlt⟩ := h
  have hmark : ∀ c, arb.progressUpTo c ≠ tickMax ∧ op.reqTime < arb.progressUpTo c :=
    Fin.forall_fin_two.mpr ⟨⟨hzero, hlt.1⟩, hone, hlt.2⟩
  have := (hmarks c).resolve_left (hmark c).1
  have := (hmark c).2
  omega

/-- Of the CPUs `cs`, those with `visible` have their operation in the batch. If
something is let through and no tie is out of sight, it is the earliest. -/
theorem candidates_eq_earliest {cs : List (Fin 2)} {ask : Fin 2 → BusOp} {visible : Fin 2 → Bool}
    (hle : ∀ c ∈ cs, ∀ d ∈ cs, arb.isCommittable (ask c) = true → visible c = true →
      (ask c).reqTime ≤ (ask d).reqTime)
    (htie : ∀ c ∈ cs, ∀ d ∈ cs, arb.isCommittable (ask c) = true → visible c = true →
      visible d = false → (ask d).reqTime ≠ (ask c).reqTime)
    (hsome : arb.candidates ((cs.filter visible).map ask) ≠ []) :
    arb.candidates ((cs.filter visible).map ask) = earliest (cs.map ask) := by
  obtain ⟨op, hop⟩ := List.exists_mem_of_ne_nil _ hsome
  obtain ⟨hmem, hcomm⟩ := mem_candidates.mp hop
  obtain ⟨d, hd, rfl⟩ := List.mem_map.mp hmem
  obtain ⟨hdcs, hdvis⟩ := List.mem_filter.mp hd
  rw [candidates, earliest, List.filter_map, List.filter_map, List.filter_filter]
  refine congrArg (List.map ask) (List.filter_congr fun c hc => ?_)
  rw [Bool.eq_iff_iff, Bool.and_eq_true]
  simp only [Function.comp, List.all_eq_true, decide_eq_true_eq, List.forall_mem_map]
  constructor
  · rintro ⟨hcc, hcv⟩ e he
    exact hle c hc e he hcc hcv
  · intro hmin
    have hcd := hmin d hdcs
    refine ⟨isCommittable_mono hcd hcomm, ?_⟩
    cases hvis : visible c with
    | true => rfl
    | false =>
      exact absurd (Nat.le_antisymm hcd (hle d hdcs c hc hcomm hdvis))
        (htie d hdcs c hc hcomm hdvis hvis)

/-- The next round depends on the watermarks only through what they let through. -/
theorem opRound_congr_of_isCommittable (hcore : a.core = b.core)
    (hcomm : a.isCommittable = b.isCommittable) (ops : List BusOp) :
    a.opRound ops = b.opRound ops := by
  have hcand : a.candidates ops = b.candidates ops := by
    rw [candidates, candidates, hcomm]
  rw [← opRound_candidates (b := b.core) hcore (fun _ => rfl) ops, hcand,
    opRound_candidates (a := b) (b := b.core) rfl (fun _ => rfl) ops]

end Saturnis.Bus.BusArbiter

namespace Saturnis.Core

open Saturnis.Core Saturnis.Mem Saturnis.Dev Saturnis.Bus Saturnis.Cpu

namespace ScriptedPair

variable {s s' : ScriptedPair} {c : Fin 2} {p : PendingBusOp} {fuel : Nat} {final : ScriptedPair}

/-! ### Clocks -/

/-- No tick has run back, and no watermark is past the next tick of its CPU. -/
structure Timely (s : ScriptedPair) : Prop where
  sound : s.Sound
  clock : ∀ c, (s.cpu c).localTime < tickModulus
  marks : ∀ c, s.arb.progressUpTo c = tickMax ∨ s.arb.progressUpTo c ≤ (s.cpu c).localTime + 1

theorem timely_start (script : Fin 2 → List ScriptOp) (arb : BusArbiter)
    (harb : ∀ c, arb.progressUpTo c = tickMax) : (start script arb).Timely :=
  ⟨sound_start _ _, fun _ => show 0 < tickModulus by decide, fun c => Or.inl (harb c)⟩

theorem Timely.fetch (ht : s.Timely) (hfit : ∀ c, s.pending c = none → (s.cpu c).ProduceFits) :
    s.fetch.Timely := by
  have htime := fun c => fetch_localTime hfit (ht.clock c)
  refine ⟨ht.sound.fetch, fun c => (htime c).2, fun c => ?_⟩
  have := (htime c).1
  exact (ht.marks c).imp_right fun hle => Nat.le_trans hle (Nat.succ_le_succ this)

theorem mark_le (ht : s.Timely) (c : Fin 2) : s.mark c ≤ (s.cpu c).localTime + 1 := by
  rw [mark]
  cases hp : s.pending c with
  | none => exact Nat.le_succ _
  | some p =>
    rw [← (ht.sound.outstanding c p hp).reqTime]
    exact Nat.mod_le _ _

theorem Timely.publish (ht : s.Timely) : s.publish.Timely := by
  refine ⟨⟨ht.sound.cpuId, ht.sound.lineSize, ht.sound.outstanding⟩, ht.clock, fun c => ?_⟩
  rw [publish_slot]
  split
  · exact Or.inr (mark_le ht c)
  · exact ht.marks c

/-- An answer does not turn a clock back. -/
theorem Serve.timely (h : Serve s s') (ht : s.Timely)
    (hfit : ∀ x ∈ s'.served, x.2.startTime ≤ x.2.commitTime) :
    s'.Timely ∧ ∀ c, (s.cpu c).localTime ≤ (s'.cpu c).localTime := by
  cases h with
  | note arb heq =>
    have hup : arb.progressUpTo = s.arb.progressUpTo :=
      (congrArg BusArbiter.progressUpTo heq :
        arb.resetEnqueued.progressUpTo = s.arb.resetEnqueued.progressUpTo)
    refine ⟨⟨⟨ht.sound.cpuId, ht.sound.lineSize, ht.sound.outstanding⟩, ht.clock, fun c => ?_⟩,
      fun c => Nat.le_refl _⟩
    change arb.progressUpTo c = tickMax ∨ arb.progressUpTo c ≤ _
    rw [hup]
    exact ht.marks c
  | serve d p tie hp =>
    have hout := ht.sound.outstanding d p hp
    have hans := (s.cpu d).applyResponse_answered p.scriptIndex
      (s.arb.executeCommit p.op tie).2 p.op.producerToken
    have hwait := s.arb.executeCommit_wait p.op tie (by rw [hout.reqTime]; exact ht.clock d)
      (hfit ((d, p), (s.arb.executeCommit p.op tie).2) (by
        rw [ScriptedPair.serve, answer_served]
        exact List.mem_append_right _ List.mem_cons_self))
    have hcpu : ∀ c, (s.serve d p tie).cpu c = Function.update s.cpu d
        ((s.cpu d).applyResponse p.scriptIndex (s.arb.executeCommit p.op tie).2
          p.op.producerToken).1 c := fun c => rfl
    -- only the served core's clock moves, and by the time it waited
    have htime : ∀ c, (s.cpu c).localTime ≤ ((s.serve d p tie).cpu c).localTime ∧
        ((s.serve d p tie).cpu c).localTime < tickModulus := by
      intro c
      rw [hcpu]
      by_cases hc : c = d
      · rw [hc, Function.update_self, hans.localTime, ← hout.reqTime]
        exact ⟨hwait, tickAdd_lt _ _⟩
      · rw [Function.update_of_ne hc]
        exact ⟨Nat.le_refl _, ht.clock c⟩
    refine ⟨⟨ht.sound.serve d p tie, fun c => (htime c).2, fun c => ?_⟩, fun c => (htime c).1⟩
    rw [ht.sound.serve_arb hp, (BusArbiter.executeCommit_progress _ _ _).2]
    exact (ht.marks c).imp_right fun hle =>
      Nat.le_trans hle (Nat.succ_le_succ (htime c).1)

theorem Serves.timely (h : Serves s s') (ht : s.Timely)
    (hfit : ∀ x ∈ s'.served, x.2.startTime ≤ x.2.commitTime) :
    s'.Timely ∧ ∀ c, (s.cpu c).localTime ≤ (s'.cpu c).localTime := by
  induction h with
  | refl => exact ⟨ht, fun c => Nat.le_refl _⟩
  | tail _ hstep ih =>
    obtain ⟨hmid, hle⟩ := ih fun x hx => hfit x (hstep.served.subset hx)
    obtain ⟨hnext, hle'⟩ := hstep.timely hmid hfit
    exact ⟨hnext, fun c => Nat.le_trans (hle c) (hle' c)⟩

theorem Timely.step (ht : s.Timely) (hfit : s.TicksFit) (hnext : (Loop.step iterate s).TicksFit) :
    (Loop.step iterate s).Timely ∧
      ∀ c, (s.fetch.cpu c).localTime ≤ ((Loop.step iterate s).cpu c).localTime := by
  have hready := (ht.fetch hfit.produce).publish
  rcases s.iterate_cases with ⟨-, heq⟩ | ⟨-, -, heq⟩
  · have hserved := hnext.served
    rw [Loop.step, heq] at hserved ⊢
    exact (commit_serves hready.sound).timely hready hserved
  · rw [Loop.step, heq]
    exact ⟨hready, fun c => Nat.le_refl _⟩

/-! ### Rounds of a run that ends -/

/-- A round that finds nothing to commit is followed by another one. -/
theorem step_of_opRound_none (hs : s.Sound) (hpending : ∃ c, (s.fetch.pending c).isSome = true)
    (hnone : s.fetch.publish.arb.opRound s.fetch.publish.pendingOps = none) :
    (iterate s).2 = false ∧ (Loop.step iterate s).Sound ∧
      (∃ c, ((Loop.step iterate s).fetch.pending c).isSome = true) ∧
      (Loop.step iterate s).fetch.publish.arb.opRound
        (Loop.step iterate s).fetch.publish.pendingOps = none := by
  have hfetch := hs.fetch
  have hready : s.fetch.publish.Sound := ⟨hfetch.cpuId, hfetch.lineSize, hfetch.outstanding⟩
  obtain ⟨arb, harb, hcommit⟩ := hready.commit_of_none hnone
  rcases s.iterate_cases with ⟨-, heq⟩ | ⟨hall, -⟩
  · rw [Loop.step, heq]
    simp only
    rw [hcommit, s.refetch arb]
    refine ⟨trivial, ⟨hfetch.cpuId, hfetch.lineSize, hfetch.outstanding⟩, hpending, ?_⟩
    rw [← hnone]
    -- publishing the same watermarks once more changes nothing
    have hup : arb.progressUpTo = s.fetch.publish.arb.progressUpTo :=
      (congrArg BusArbiter.progressUpTo harb :
        arb.resetEnqueued.progressUpTo = s.fetch.publish.arb.resetEnqueued.progressUpTo)
    have hslots : ∀ c, ({ s.fetch with arb } : ScriptedPair).publish.arb.progressUpTo c =
        s.fetch.publish.arb.progressUpTo c := by
      intro c
      have hagain := publish_slot { s.fetch with arb } c
      have honce := publish_slot s.fetch c
      change _ = if arb.progressUpTo c = tickMax ∨ s.fetch.mark c > arb.progressUpTo c then
        s.fetch.mark c else arb.progressUpTo c at hagain
      rw [hagain, hup, honce]
      split_ifs <;> omega
    have hcore : ({ s.fetch with arb } : ScriptedPair).publish.arb.core =
        s.fetch.publish.arb.core :=
      (publish_core _).trans (BusArbiter.resetEnqueued_core harb)
    refine BusArbiter.opRound_congr_of_isCommittable hcore ?_ _
    have htrack : ∀ t : ScriptedPair, t.publish.arb.progressTrackingEnabled = true := fun t =>
      BusArbiter.updateProgress_tracks _ 1 _
    funext op
    rw [BusArbiter.isCommittable, BusArbiter.isCommittable, BusArbiter.hasSafeHorizon,
      BusArbiter.hasSafeHorizon, BusArbiter.commitHorizon, BusArbiter.commitHorizon, htrack,
      htrack, hslots, hslots]
  · obtain ⟨c, hc⟩ := hpending
    rw [hall c] at hc
    exact absurd hc Bool.false_ne_true

theorem sound_step (hs : s.Sound) : (Loop.step iterate s).Sound := by
  have hfetch := hs.fetch
  have hready : s.fetch.publish.Sound := ⟨hfetch.cpuId, hfetch.lineSize, hfetch.outstanding⟩
  rcases s.iterate_cases with ⟨-, heq⟩ | ⟨-, -, heq⟩
  · rw [Loop.step, heq]
    exact (commit_serves hready).sound hready
  · rw [Loop.step, heq]
    exact hready

/-- A run that ends commits something in every round with something pending. -/
theorem opRound_ne_none (hs : s.Sound) (hrun : runScriptedPair fuel s = some final) (n : Nat)
    (hpending : ∃ c, (((Loop.step iterate)^[n] s).fetch.pending c).isSome = true) :
    ((Loop.step iterate)^[n] s).fetch.publish.arb.opRound
      ((Loop.step iterate)^[n] s).fetch.publish.pendingOps ≠ none := by
  intro hnone
  have hsn : ((Loop.step iterate)^[n] s).Sound := Loop.invariant (fun _ ht => sound_step ht) hs n
  have hstuck : ∀ k, (iterate ((Loop.step iterate)^[k + n] s)).2 = false := by
    intro k
    have hkeep : ∀ t : ScriptedPair, (t.Sound ∧ (∃ c, (t.fetch.pending c).isSome = true) ∧
        t.fetch.publish.arb.opRound t.fetch.publish.pendingOps = none) →
          (Loop.step iterate t).Sound ∧
            (∃ c, ((Loop.step iterate t).fetch.pending c).isSome = true) ∧
              (Loop.step iterate t).fetch.publish.arb.opRound
                (Loop.step iterate t).fetch.publish.pendingOps = none :=
      fun t ht => (step_of_opRound_none ht.1 ht.2.1 ht.2.2).2
    have hinv := Loop.invariant hkeep ⟨hsn, hpending, hnone⟩ k
    rw [← Function.iterate_add_apply] at hinv
    exact (step_of_opRound_none hinv.1 hinv.2.1 hinv.2.2).1
  obtain ⟨m, -, hbreak, -⟩ := Loop.run_eq_some_iff.mp hrun
  rcases Nat.lt_or_ge m n with hlt | hge
  · obtain ⟨c, hc⟩ := hpending
    have hnil := pending_of_break hbreak (n - m) c
    rw [← Function.iterate_add_apply, Nat.sub_add_cancel (Nat.le_of_lt hlt)] at hnil
    rw [hnil] at hc
    exact absurd hc Bool.false_ne_true
  · have := hstuck (m - n)
    rw [Nat.sub_add_cancel hge] at this
    exact absurd (this.symm.trans hbreak) Bool.false_ne_true

/-- **A round of a run that ends commits the earliest of the pending requests.** -/
theorem round_earliest (ht : s.Timely) (hfit : s.TicksFit)
    (hround : s.fetch.publish.arb.opRound s.fetch.publish.pendingOps ≠ none) :
    s.fetch.publish.arb.candidates s.fetch.publish.pendingOps =
      earliest s.fetch.publish.pendingOps := by
  have hready := (ht.fetch hfit.produce).publish
  have hsome : s.fetch.publish.arb.candidates s.fetch.publish.pendingOps ≠ [] := fun hnil =>
    hround (BusArbiter.opRound_eq_none.mpr (Or.inr hnil))
  have hall : (requesters s.fetch.publish.pending).filter (fun _ => true) =
      requesters s.fetch.publish.pending := List.filter_eq_self.mpr fun _ _ => rfl
  rw [pendingOps, ← hall] at hsome ⊢
  refine (BusArbiter.candidates_eq_earliest (fun c _ d hd hcomm _ => ?_)
    (fun c _ d _ _ _ hvis => absurd hvis (by simp)) hsome).trans (by rw [hall])
  have hreq := (hready.sound.outstanding d _ (pending_eq hd)).reqTime
  rw [hreq]
  exact BusArbiter.reqTime_le_of_isCommittable (BusArbiter.updateProgress_tracks _ 1 _)
    hready.marks hcomm d

end ScriptedPair

end Saturnis.Core
