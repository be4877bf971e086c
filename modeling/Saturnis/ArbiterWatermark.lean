/-
The commit horizon over a whole run.

The watermark of a CPU starts at the largest tick, which stands for "not yet
published", and a call moves it up only.  So it is the largest value the CPU has
published, as long as that value is never published.

* `progressUpTo_reactAll` — the watermarks after a run;
* `horizonTracks_iff` — **the horizon is the monotone minimum of the watermarks
  in every run that does not publish the largest tick**;
* `not_horizonTracks` — a CPU that publishes it closes the horizon.
-/
import Mathlib.Data.List.MinMax
import Saturnis.ArbiterHalt

namespace Saturnis.Bus

open Saturnis.Core Saturnis.Mem Saturnis.Dev

/-! ### Published watermarks -/

/-- The watermark that the event publishes for the CPU. -/
def BusEvent.watermark (cpu : Fin 2) : BusEvent → Option Nat
  | .call (.entry (.updateProgress cpuId t)) => if cpuId = cpu.val then some t else none
  | _ => none

/-- The watermarks that a CPU publishes in a run, oldest first. -/
def published (cpu : Fin 2) (events : List BusEvent) : List Nat :=
  events.filterMap (BusEvent.watermark cpu)

/-- Both CPUs have published. -/
def BothPublished (events : List BusEvent) : Prop := ∀ cpu, published cpu events ≠ []

/-- No CPU publishes the tick that stands for "not yet published". -/
def ShortOfMax (events : List BusEvent) : Prop := ∀ cpu, ∀ t ∈ published cpu events, t < tickMax

instance (events : List BusEvent) : Decidable (ShortOfMax events) :=
  inferInstanceAs (Decidable (∀ _, _))

instance (events : List BusEvent) : Decidable (BothPublished events) :=
  inferInstanceAs (Decidable (∀ _, _))

theorem published_concat (cpu : Fin 2) (events : List BusEvent) (event : BusEvent) :
    published cpu (events ++ [event]) = published cpu events ++ (event.watermark cpu).toList := by
  rw [published, List.filterMap_append]
  cases h : event.watermark cpu <;> simp [published, h]

theorem published_subset {cpu : Fin 2} {pre events : List BusEvent} (h : pre <+: events) :
    published cpu pre ⊆ published cpu events := by
  obtain ⟨rest, rfl⟩ := h
  rw [published, published, List.filterMap_append]
  exact List.subset_append_left _ _

theorem ShortOfMax.of_prefix {pre events : List BusEvent} (h : ShortOfMax events)
    (hpre : pre <+: events) : ShortOfMax pre :=
  fun cpu t hmem => h cpu t (published_subset hpre hmem)

theorem BothPublished.of_prefix {pre events : List BusEvent} (h : BothPublished pre)
    (hpre : pre <+: events) : BothPublished events :=
  fun cpu hnil => h cpu (List.subset_nil.mp (hnil ▸ published_subset hpre))

/-- Where both CPUs have published, each has a largest watermark. -/
theorem BothPublished.exists_largest {events : List BusEvent} (h : BothPublished events) :
    ∃ largest : Fin 2 → Nat,
      ∀ cpu, (published cpu events).maximum = WithBot.some (largest cpu) := by
  have hsome : ∀ cpu, ∃ m : Nat, (published cpu events).maximum = WithBot.some m := fun cpu =>
    WithBot.ne_bot_iff_exists.mp (fun hbot => h cpu (List.maximum_eq_bot.mp hbot)) |>.imp
      fun _ heq => heq.symm
  choose largest hlargest using hsome
  exact ⟨largest, hlargest⟩

namespace BusArbiter

/-! ### What the calls do to the watermarks -/

/-- Only `update_progress` works on these. -/
def progress (arb : BusArbiter) : Bool × (Fin 2 → Nat) :=
  (arb.progressTrackingEnabled, arb.progressUpTo)

theorem progress_validateEnqueueContract (arb : BusArbiter) (op : BusOp) :
    (arb.validateEnqueueContract op).1.progress = arb.progress := by
  simp only [validateEnqueueContract]
  split <;> rfl

theorem progress_executeCommit (arb : BusArbiter) (op : BusOp) (tie : Bool) :
    (arb.executeCommit op tie).1.progress = arb.progress := by
  obtain ⟨htrack, hup⟩ := executeCommit_progress arb op tie
  rw [progress, htrack, hup, progress]

theorem progress_commit (arb : BusArbiter) (op : BusOp) :
    (arb.commit op).1.progress = arb.progress := by
  have hvalidate := progress_validateEnqueueContract arb op
  rw [commit]
  split
  · rfl
  · split
    case h_1 arb' heq =>
      rw [heq] at hvalidate
      exact hvalidate
    case h_2 arb' heq =>
      rw [heq] at hvalidate
      rw [progress_executeCommit, hvalidate]

theorem progress_enqueue (arb : BusArbiter) (i : Nat) (ops : List BusOp) :
    (arb.enqueue i ops).1.progress = arb.progress :=
  enqueue_keeps (P := fun next => next.progress = arb.progress)
    (fun next op h => (progress_validateEnqueueContract next op).trans h) rfl i ops

theorem progress_commitRounds (rounds : Nat) (arb : BusArbiter) (pending : List CommitResult) :
    (commitRounds rounds arb pending).1.progress = arb.progress :=
  commitRounds_keeps (P := fun next => next.progress = arb.progress)
    (fun next op tie h => (progress_executeCommit next op tie).trans h) rfl rounds pending

theorem progress_commitBatch (arb : BusArbiter) (ops : List BusOp) :
    (arb.commitBatch ops).1.progress = arb.progress :=
  (progress_commitRounds _ _ _).trans (progress_enqueue arb.resetEnqueued 0 ops)

/-- An event is an `update_progress` call, or keeps all watermarks. -/
theorem react_progress (arb : BusArbiter) (event : BusEvent) :
    (∃ cpuId t, event = .call (.entry (.updateProgress cpuId t))) ∨
      ((∀ cpu, event.watermark cpu = none) ∧ (arb.react event).progress = arb.progress) := by
  match event with
  | .call (.entry (.updateProgress cpuId t)) => exact Or.inl ⟨cpuId, t, rfl⟩
  | .call (.entry (.commit op)) => exact Or.inr ⟨fun _ => rfl, progress_commit arb op⟩
  | .call (.entry (.commitDma op)) => exact Or.inr ⟨fun _ => rfl, progress_commit arb _⟩
  | .call (.entry (.commitBatch ops)) => exact Or.inr ⟨fun _ => rfl, progress_commitBatch arb ops⟩
  | .call (.commitPending ops) =>
    refine Or.inr ⟨fun _ => rfl, ?_⟩
    change (arb.commitPending ops).1.progress = _
    rw [(Holder.commitPending_fst arb ops).1]
    exact progress_commitBatch arb ops
  | .addState snapshot => exact Or.inr ⟨fun _ => rfl, rfl⟩
  | .addFault event => exact Or.inr ⟨fun _ => rfl, rfl⟩

theorem updateProgress_of_other (arb : BusArbiter) {cpuId : Int} (t : Nat) {cpu : Fin 2}
    (h : cpuId ≠ cpu.val) :
    (arb.updateProgress cpuId t).progressUpTo cpu = arb.progressUpTo cpu := by
  by_cases hcpu : isCpu cpuId = true
  · obtain ⟨other, rfl⟩ : ∃ other : Fin 2, cpuId = other.val := by
      simp only [isCpu, Bool.or_eq_true, decide_eq_true_eq] at hcpu
      exact hcpu.elim (fun h0 => ⟨0, h0⟩) fun h1 => ⟨1, h1⟩
    exact updateProgress_of_ne arb (fun heq => h (by rw [heq])) t
  · rw [updateProgress, if_pos (by simpa using hcpu)]

theorem updateProgress_keeps_tracking (arb : BusArbiter) (cpuId : Int) (t : Nat)
    (h : arb.progressTrackingEnabled = true) :
    (arb.updateProgress cpuId t).progressTrackingEnabled = true := by
  rw [updateProgress]
  split
  · exact h
  · rfl

/-- An event moves the watermark of a CPU by what it publishes for it. -/
theorem react_progressUpTo (arb : BusArbiter) (event : BusEvent) (cpu : Fin 2) :
    (arb.react event).progressUpTo cpu =
      match event.watermark cpu with
      | none => arb.progressUpTo cpu
      | some t =>
        if arb.progressUpTo cpu = tickMax ∨ t > arb.progressUpTo cpu then t
        else arb.progressUpTo cpu := by
  rcases arb.react_progress event with ⟨cpuId, t, rfl⟩ | ⟨hnone, hkeep⟩
  · change (arb.updateProgress cpuId t).progressUpTo cpu = _
    rw [BusEvent.watermark]
    by_cases hcpu : cpuId = cpu.val
    · rw [if_pos hcpu, hcpu]
      exact updateProgress_self arb cpu t
    · rw [if_neg hcpu]
      exact updateProgress_of_other arb t hcpu
  · rw [hnone cpu]
    exact congrFun (congrArg Prod.snd hkeep) cpu

theorem react_tracking (arb : BusArbiter) (event : BusEvent) (cpu : Fin 2)
    (h : arb.progressTrackingEnabled = true ∨ event.watermark cpu ≠ none) :
    (arb.react event).progressTrackingEnabled = true := by
  rcases arb.react_progress event with ⟨cpuId, t, rfl⟩ | ⟨hnone, hkeep⟩
  · change (arb.updateProgress cpuId t).progressTrackingEnabled = true
    rcases h with h | h
    · exact updateProgress_keeps_tracking arb cpuId t h
    · have hcpu : cpuId = cpu.val := by
        by_contra hne
        exact h (by rw [BusEvent.watermark, if_neg hne])
      rw [hcpu]
      exact updateProgress_tracks arb cpu t
  · rw [show (arb.react event).progressTrackingEnabled = arb.progressTrackingEnabled from
      congrArg Prod.fst hkeep]
    exact h.resolve_right (fun hne => hne (hnone cpu))

/-! ### Runs -/

theorem reactAll_concat (arb : BusArbiter) (events : List BusEvent) (event : BusEvent) :
    arb.reactAll (events ++ [event]) = (arb.reactAll events).react event := by
  rw [reactAll, List.foldl_append]
  rfl

/-- The watermark of a CPU is the largest value it has published. -/
theorem progressUpTo_reactAll {arb : BusArbiter} (hfresh : ∀ cpu, arb.progressUpTo cpu = tickMax)
    (events : List BusEvent) (hshort : ShortOfMax events) (cpu : Fin 2) :
    (arb.reactAll events).progressUpTo cpu =
      (published cpu events).maximum.unbotD tickMax := by
  induction events using List.reverseRecOn with
  | nil => exact hfresh cpu
  | append_singleton events event ih =>
    have hpre := List.prefix_append events [event]
    have ih := ih (hshort.of_prefix hpre)
    rw [reactAll_concat, react_progressUpTo, published_concat, ih]
    cases hmark : event.watermark cpu with
    | none => simp
    | some t =>
      rw [Option.toList_some, List.maximum_concat]
      cases hmax : (published cpu events).maximum with
      | bot => simp
      | coe m =>
        -- the value kept so far is a published one, so it is not the largest tick
        have hm : m ≠ tickMax :=
          Nat.ne_of_lt (hshort.of_prefix hpre cpu m (List.maximum_mem hmax))
        simp only [WithBot.unbotD_coe, hm, false_or]
        rw [← WithBot.coe_max, WithBot.unbotD_coe]
        split <;> omega

theorem tracking_reactAll (arb : BusArbiter) {events : List BusEvent} {cpu : Fin 2}
    (h : published cpu events ≠ []) :
    (arb.reactAll events).progressTrackingEnabled = true := by
  induction events using List.reverseRecOn with
  | nil => exact absurd rfl h
  | append_singleton events event ih =>
    rw [reactAll_concat]
    by_cases hpre : published cpu events = []
    · refine react_tracking _ event cpu (Or.inr fun hnone => h ?_)
      rw [published_concat, hpre, hnone]
      rfl
    · exact react_tracking _ event cpu (Or.inl (ih hpre))

/-- In every part of a run in which both CPUs have published, the horizon is
safe and the lesser of the largest watermarks, and what follows neither lowers
it nor takes back what could be committed. -/
structure HorizonTracks (arb : BusArbiter) (events : List BusEvent) : Prop where
  safe : ∀ pre, pre <+: events → BothPublished pre → (arb.reactAll pre).hasSafeHorizon = true
  horizon : ∀ pre, pre <+: events → ∀ largest : Fin 2 → Nat,
    (∀ cpu, (published cpu pre).maximum = WithBot.some (largest cpu)) →
      (arb.reactAll pre).commitHorizon = min (largest 0) (largest 1)
  monotone : ∀ pre mid, pre <+: mid → mid <+: events → BothPublished pre →
    (arb.reactAll pre).commitHorizon ≤ (arb.reactAll mid).commitHorizon
  committable : ∀ pre mid, pre <+: mid → mid <+: events → BothPublished pre → ∀ op,
    (arb.reactAll pre).isCommittable op = true → (arb.reactAll mid).isCommittable op = true

section Fresh

variable {arb : BusArbiter} {events pre mid : List BusEvent}

/-- With both CPUs published, the watermarks are the largest values. -/
theorem progressUpTo_largest (hfresh : ∀ cpu, arb.progressUpTo cpu = tickMax)
    (hshort : ShortOfMax events) {largest : Fin 2 → Nat}
    (hlargest : ∀ cpu, (published cpu events).maximum = WithBot.some (largest cpu)) (cpu : Fin 2) :
    (arb.reactAll events).progressUpTo cpu = largest cpu ∧ largest cpu ≠ tickMax := by
  refine ⟨?_, Nat.ne_of_lt (hshort cpu _ (List.maximum_mem (hlargest cpu)))⟩
  rw [progressUpTo_reactAll hfresh events hshort, hlargest, WithBot.unbotD_coe]

theorem hasSafeHorizon_reactAll (hfresh : ∀ cpu, arb.progressUpTo cpu = tickMax)
    (hshort : ShortOfMax events) (hboth : BothPublished events) :
    (arb.reactAll events).hasSafeHorizon = true := by
  obtain ⟨largest, hlargest⟩ := hboth.exists_largest
  have hmark := progressUpTo_largest hfresh hshort hlargest
  rw [hasSafeHorizon, (hmark 0).1, (hmark 1).1]
  simp [(hmark 0).2, (hmark 1).2]

theorem commitHorizon_reactAll (hfresh : ∀ cpu, arb.progressUpTo cpu = tickMax)
    (hshort : ShortOfMax events) {largest : Fin 2 → Nat}
    (hlargest : ∀ cpu, (published cpu events).maximum = WithBot.some (largest cpu)) :
    (arb.reactAll events).commitHorizon = min (largest 0) (largest 1) := by
  have hmark := progressUpTo_largest hfresh hshort hlargest
  rw [commitHorizon, (hmark 0).1, (hmark 1).1]

theorem commitHorizon_mono (hfresh : ∀ cpu, arb.progressUpTo cpu = tickMax)
    (hshort : ShortOfMax mid) (hpre : pre <+: mid) (hboth : BothPublished pre) :
    (arb.reactAll pre).commitHorizon ≤ (arb.reactAll mid).commitHorizon := by
  obtain ⟨largest, hlargest⟩ := hboth.exists_largest
  obtain ⟨largest', hlargest'⟩ := (hboth.of_prefix hpre).exists_largest
  have hle : ∀ cpu, largest cpu ≤ largest' cpu := by
    intro cpu
    have hmax := List.maximum_mono (@published_subset cpu _ _ hpre)
    rw [hlargest, hlargest'] at hmax
    exact WithBot.coe_le_coe.mp hmax
  rw [commitHorizon_reactAll hfresh (hshort.of_prefix hpre) hlargest,
    commitHorizon_reactAll hfresh hshort hlargest']
  exact min_le_min (hle 0) (hle 1)

theorem horizonTracks_of_shortOfMax (hfresh : ∀ cpu, arb.progressUpTo cpu = tickMax)
    (hshort : ShortOfMax events) : HorizonTracks arb events where
  safe pre hpre hboth := hasSafeHorizon_reactAll hfresh (hshort.of_prefix hpre) hboth
  horizon pre hpre largest hlargest :=
    commitHorizon_reactAll hfresh (hshort.of_prefix hpre) hlargest
  monotone pre mid hpre hmid hboth :=
    commitHorizon_mono hfresh (hshort.of_prefix hmid) hpre hboth
  committable pre mid hpre hmid hboth op hop := by
    have htrack := tracking_reactAll arb (hboth 0)
    rw [isCommittable, htrack, Bool.not_true, Bool.false_or, Bool.and_eq_true,
      decide_eq_true_eq] at hop
    have hsafe := hasSafeHorizon_reactAll hfresh (hshort.of_prefix hmid) (hboth.of_prefix hpre)
    have hmono := commitHorizon_mono hfresh (hshort.of_prefix hmid) hpre hboth
    rw [isCommittable, hsafe, decide_eq_true (Nat.lt_of_lt_of_le hop.2 hmono), Bool.and_true,
      Bool.or_true]

/-- A CPU that publishes the largest tick closes the horizon. -/
theorem hasSafeHorizon_updateProgress_tickMax {cpu : Fin 2}
    (htick : arb.progressUpTo cpu ≤ tickMax) :
    (arb.updateProgress cpu.val tickMax).hasSafeHorizon = false := by
  have hmark : (arb.updateProgress cpu.val tickMax).progressUpTo cpu = tickMax := by
    rw [updateProgress_self]
    split <;> omega
  by_contra hopen
  rw [Bool.not_eq_false, hasSafeHorizon, updateProgress_tracks, Bool.not_true, Bool.false_or,
    Bool.and_eq_true, decide_eq_true_eq, decide_eq_true_eq] at hopen
  have hunset : ∀ c, (arb.updateProgress cpu.val tickMax).progressUpTo c ≠ tickMax :=
    Fin.forall_fin_two.mpr hopen
  exact hunset cpu hmark

/-- **In a run in which no CPU publishes the largest tick, the horizon is the
monotone minimum of the watermarks**; where one CPU has published, the other
breaks this exactly by publishing that tick. -/
theorem horizonTracks_iff (hfresh : ∀ cpu, arb.progressUpTo cpu = tickMax)
    (hshort : ShortOfMax events) :
    HorizonTracks arb events ∧
      ∀ (cpu : Fin 2) (t : Nat), t ≤ tickMax → published cpu.rev events ≠ [] →
        (HorizonTracks arb (events ++ [.call (.entry (.updateProgress cpu.val t))]) ↔
          t ≠ tickMax) := by
  have hpair : ∀ cpu c : Fin 2, c = cpu ∨ c = cpu.rev := by decide
  have hapart : ∀ cpu : Fin 2, (cpu.val : Int) ≠ cpu.rev.val := by decide
  refine ⟨horizonTracks_of_shortOfMax hfresh hshort, fun cpu t ht hother => ?_⟩
  have hself : published cpu (events ++ [.call (.entry (.updateProgress cpu.val t))]) =
      published cpu events ++ [t] := by
    rw [published_concat, BusEvent.watermark, if_pos rfl]
    rfl
  have hrev : published cpu.rev (events ++ [.call (.entry (.updateProgress cpu.val t))]) =
      published cpu.rev events := by
    rw [published_concat, BusEvent.watermark, if_neg (hapart cpu)]
    exact List.append_nil _
  constructor
  · rintro htracks rfl
    have hboth : BothPublished (events ++ [.call (.entry (.updateProgress cpu.val tickMax))]) := by
      intro c
      rcases hpair cpu c with rfl | rfl
      · rw [hself]
        exact List.append_ne_nil_of_right_ne_nil _ (by simp)
      · rw [hrev]
        exact hother
    have hopen := htracks.safe _ (List.prefix_refl _) hboth
    have hmark : (arb.reactAll events).progressUpTo cpu ≤ tickMax := by
      rw [progressUpTo_reactAll hfresh events hshort]
      cases hmax : (published cpu events).maximum with
      | bot => exact Nat.le_refl _
      | coe m => exact Nat.le_of_lt (hshort cpu m (List.maximum_mem hmax))
    have hclosed := hasSafeHorizon_updateProgress_tickMax hmark
    rw [reactAll_concat] at hopen
    exact absurd (hopen.symm.trans hclosed) (by simp)
  · intro hne
    refine horizonTracks_of_shortOfMax hfresh fun c x hx => ?_
    rcases hpair cpu c with rfl | rfl
    · rw [hself] at hx
      rcases List.mem_append.mp hx with hx | hx
      · exact hshort _ x hx
      · rw [List.mem_singleton.mp hx]
        exact Nat.lt_of_le_of_ne ht hne
    · rw [hrev] at hx
      exact hshort _ x hx

end Fresh

/-- CPU 0 publishes 4 and CPU 1 publishes 9; then CPU 0 publishes 2. -/
theorem horizonTracks_iff_reversal :
    HorizonTracks { memory := .make 16 }
      [.call (.entry (.updateProgress 0 4)), .call (.entry (.updateProgress 1 9))] ∧
      ∀ (cpu : Fin 2) (t : Nat), t ≤ tickMax → published cpu.rev
        [.call (.entry (.updateProgress 0 4)), .call (.entry (.updateProgress 1 9))] ≠ [] →
        (HorizonTracks { memory := .make 16 }
          ([.call (.entry (.updateProgress 0 4)), .call (.entry (.updateProgress 1 9))] ++
            [.call (.entry (.updateProgress cpu.val t))]) ↔ t ≠ tickMax) :=
  horizonTracks_iff (fun _ => rfl) (by decide)

/-- CPU 0 publishes the largest tick, and the horizon stays closed when CPU 1
publishes 5. -/
theorem not_horizonTracks :
    ¬ HorizonTracks { memory := .make 16 }
      [.call (.entry (.updateProgress 0 tickMax)), .call (.entry (.updateProgress 1 5))] := by
  intro h
  have hsafe := h.safe _ (List.prefix_refl _) (by decide)
  exact absurd hsafe (by decide)

end BusArbiter

end Saturnis.Bus
