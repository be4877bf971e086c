/-
Schedules of delivery, progress and commits.

A `Session` is an arbiter, the queue its caller keeps for `commit_pending`, and
the operations the two CPUs have yet to deliver.  Whatever the schedule, a
session whose rounds are all steady (`Steady`) stands at some step of the merge
of the two streams (`Session.Stands`), so two schedules that commit everything
commit the same (`schedules_agree`).
-/
import Mathlib.Data.Fin.VecNotation
import Saturnis.ArbiterMerge

namespace Saturnis.Bus

open Saturnis.Core Saturnis.Mem Saturnis.Dev

namespace BusArbiter

variable {arb a b : BusArbiter} {ops : List BusOp}

/-! ### What `commit_pending` leaves in the queue -/

private theorem filterMap_zipIdx_guard {α : Type*} (p : α → Bool) (l : List α) :
    (l.zipIdx.filterMap fun e => Option.guard p e.1) = l.filter p := by
  conv_rhs => rw [← List.zipIdx_map_fst 0 l, ← List.filterMap_eq_filter, List.filterMap_map]
  rfl

/-- The queue keeps the operations that were not committed, in order. -/
theorem commitPending_of_honours (h : Honours arb ops) :
    (arb.commitPending ops).1 = (arb.commitBatch ops).1 ∧
      (arb.commitPending ops).2.1 = (arb.commitBatch ops).2 ∧
      (arb.commitPending ops).2.2 = leftOver ops.length arb ops := by
  have hres : (arb.commitBatch ops).2.map (·.op) = (rounds ops.length arb ops).2.map Prod.fst := by
    rw [← (commitBatch_eq_rounds h).2, List.map_map]
    rfl
  simp only [commitPending]
  split
  · rename_i hempty
    refine ⟨rfl, rfl, ?_⟩
    rw [leftOver, ← hres, List.isEmpty_iff.mp hempty]
    simp
  · refine ⟨rfl, rfl, ?_⟩
    have hany : ∀ e ∈ ops.zipIdx, ((arb.commitBatch ops).2.any fun r => r.inputIndex = e.2) =
        decide (e.1 ∈ (rounds ops.length arb ops).2.map Prod.fst) := by
      intro e he
      have hget := List.mem_zipIdx_iff_getElem?.mp he
      rw [← hres, Bool.eq_iff_iff, List.any_eq_true, decide_eq_true_iff, List.mem_map]
      constructor
      · rintro ⟨r, hr, hidx⟩
        have hop := commitBatch_inputIndex arb ops r hr
        rw [of_decide_eq_true hidx, hget] at hop
        exact ⟨r, hr, (Option.some_inj.mp hop).symm⟩
      · rintro ⟨r, hr, hop⟩
        have hidx := commitBatch_inputIndex arb ops r hr
        rw [hop] at hidx
        have hlt := (List.getElem?_eq_some_iff.mp hidx).1
        exact ⟨r, hr, decide_eq_true ((List.getElem?_inj hlt h.nodup).mp (hidx.trans hget.symm))⟩
    have hkeep : ∀ e ∈ ops.zipIdx,
        (if (arb.commitBatch ops).2.any fun r => r.inputIndex = e.2 then none else some e.1) =
          Option.guard (fun x => decide (x ∉ (rounds ops.length arb ops).2.map Prod.fst)) e.1 := by
      intro e he
      rw [hany e he, Option.guard]
      by_cases hmem : e.1 ∈ (rounds ops.length arb ops).2.map Prod.fst <;> simp [hmem]
    simp only
    rw [List.filterMap_congr hkeep, filterMap_zipIdx_guard, leftOver]

theorem Honours.congr (h : Honours a ops) (hcore : a.core = b.core) : Honours b ops :=
  ⟨h.valid, h.reqTime, h.sequence, fun x hx => by
    rw [← core_producerSeen hcore, ← core_producerLastReqTime hcore]
    exact h.recorded x hx⟩

end BusArbiter

/-! ### Sessions -/

/-- An arbiter, the caller's queue, the operations each CPU has yet to deliver,
and the operations committed so far with their responses. -/
structure Session where
  arb : BusArbiter
  undelivered : Fin 2 → List BusOp
  pending : List BusOp := []
  log : List (BusOp × BusResponse) := []

inductive Action
  | deliver (cpu : Fin 2)
  | progress (cpu : Fin 2) (executedUpTo : Nat)
  | commitPending

namespace Session

def step (s : Session) : Action → Session
  | .deliver cpu =>
    match s.undelivered cpu with
    | [] => s
    | op :: ops =>
      { s with
        pending := s.pending ++ [op]
        undelivered := Function.update s.undelivered cpu ops }
  | .progress cpu t => { s with arb := s.arb.updateProgress cpu.val t }
  | .commitPending =>
    let (arb, committed, remaining) := s.arb.commitPending s.pending
    { s with
      arb
      pending := remaining
      log := s.log ++ committed.map fun r => (r.op, r.response) }

def run (s : Session) (schedule : List Action) : Session := schedule.foldl step s

/-- A CPU that publishes `t` has only operations from `t` on to deliver. -/
def Truthful (s : Session) : Action → Prop
  | .progress cpu t => ∀ op ∈ s.undelivered cpu, t ≤ op.reqTime
  | _ => True

instance (s : Session) (action : Action) : Decidable (s.Truthful action) :=
  match action with
  | .deliver _ => inferInstanceAs (Decidable True)
  | .progress cpu t => inferInstanceAs (Decidable (∀ op ∈ s.undelivered cpu, t ≤ op.reqTime))
  | .commitPending => inferInstanceAs (Decidable True)

/-- Every step of the schedule honours the watermark contract. -/
def Watermarked : Session → List Action → Prop
  | _, [] => True
  | s, action :: schedule => s.Truthful action ∧ Watermarked (s.step action) schedule

instance instDecidableWatermarked :
    (s : Session) → (schedule : List Action) → Decidable (Watermarked s schedule)
  | _, [] => inferInstanceAs (Decidable True)
  | s, action :: schedule =>
    have := instDecidableWatermarked (s.step action) schedule
    inferInstanceAs (Decidable (s.Truthful action ∧ Watermarked (s.step action) schedule))

/-- Where the session commits something, the horizon is on or nothing is left
to deliver, and every round is steady. -/
def SteadyAt (s : Session) : Action → Prop
  | .commitPending =>
    s.pending = [] ∨
      (s.arb.progressTrackingEnabled = true ∨ ∀ cpu, s.undelivered cpu = []) ∧
        BusArbiter.SteadyRounds s.arb s.pending
  | _ => True

/-- Every commit of the schedule is steady. -/
def SteadyRun : Session → List Action → Prop
  | _, [] => True
  | s, action :: schedule => s.SteadyAt action ∧ SteadyRun (s.step action) schedule

/-- Every operation has been delivered and committed. -/
def Complete (s : Session) : Prop := s.pending = [] ∧ ∀ cpu, s.undelivered cpu = []

instance (s : Session) : Decidable s.Complete := inferInstanceAs (Decidable (_ ∧ _))

/-- What has not been committed, the delivered operations first. -/
def rest (s : Session) : List BusOp := s.pending ++ (s.undelivered 0 ++ s.undelivered 1)

/-- The streams the CPUs deliver: valid operations in program order, attributed
to their CPU, and none before a watermark that is already published. -/
structure Sound (s : Session) : Prop where
  honours : BusArbiter.Honours s.arb s.rest
  cpu : ∀ cpu, ∀ op ∈ s.undelivered cpu, producerSlot op = cpu.castSucc
  watermark : ∀ cpu, ∀ op ∈ s.undelivered cpu,
    s.arb.progressUpTo cpu = tickMax ∨ s.arb.progressUpTo cpu ≤ op.reqTime

/-- The session has committed what some steps of the merge `m` commit. -/
def Stands (m : Merge) (s : Session) : Prop :=
  ∃ k, (Merge.step^[k] m).arb.core = s.arb.core ∧ (Merge.step^[k] m).rest.Perm s.rest ∧
    (Merge.step^[k] m).log = s.log

variable {s : Session} {m : Merge}

/-- The horizon holds back whatever has not been delivered. -/
theorem Sound.beyond (hs : s.Sound)
    (h : s.arb.progressTrackingEnabled = true ∨ ∀ cpu, s.undelivered cpu = []) :
    s.arb.Beyond (s.undelivered 0 ++ s.undelivered 1) := by
  intro w hw x hx
  rcases h with htrack | hnil
  · simp only [BusArbiter.isCommittable, BusArbiter.hasSafeHorizon, BusArbiter.commitHorizon,
      htrack, Bool.not_true, Bool.false_or, Bool.and_eq_true, decide_eq_true_eq] at hw
    have hlt := Nat.lt_min.mp (of_decide_eq_true hw.2)
    rcases List.mem_append.mp hx with hx | hx
    · have := (hs.watermark 0 x hx).resolve_left hw.1.1
      omega
    · have := (hs.watermark 1 x hx).resolve_left hw.1.2
      omega
  · rw [hnil 0, hnil 1] at hx
    exact absurd hx (by simp)

theorem step_deliver_of_nil {cpu : Fin 2} (h : s.undelivered cpu = []) :
    s.step (.deliver cpu) = s := by
  rw [step, h]

theorem step_deliver_of_cons {cpu : Fin 2} {op : BusOp} {ops : List BusOp}
    (h : s.undelivered cpu = op :: ops) :
    s.step (.deliver cpu) =
      { s with
        pending := s.pending ++ [op]
        undelivered := Function.update s.undelivered cpu ops } := by
  rw [step, h]

theorem step_commitPending (h : BusArbiter.Honours s.arb s.pending) :
    s.step .commitPending =
      { s with
        arb := (s.arb.commitBatch s.pending).1
        pending := BusArbiter.leftOver s.pending.length s.arb s.pending
        log := s.log ++ (BusArbiter.rounds s.pending.length s.arb s.pending).2 } := by
  obtain ⟨harb, hcommitted, hremaining⟩ := BusArbiter.commitPending_of_honours h
  simp only [step]
  rw [harb, hcommitted, hremaining, (BusArbiter.commitBatch_eq_rounds h).2]

/-- Delivering the next operation of a stream keeps the streams. -/
theorem Sound.rest_deliver {cpu : Fin 2} {op : BusOp} {ops : List BusOp} (hs : s.Sound)
    (h : s.undelivered cpu = op :: ops) :
    Streams.Same producerSlot s.rest (s.step (.deliver cpu)).rest := by
  rw [step_deliver_of_cons h, rest, rest]
  simp only [List.append_assoc]
  refine Streams.Same.append_left _ ?_
  match cpu with
  | 0 =>
    rw [h, Function.update_self, Function.update_of_ne (by decide)]
    exact Streams.Same.refl _
  | 1 =>
    rw [h, Function.update_self, Function.update_of_ne (by decide)]
    refine Streams.Same.move ops fun x hx => ?_
    rw [hs.cpu 0 x hx, hs.cpu 1 op (by rw [h]; exact List.mem_cons_self)]
    decide

theorem Sound.pending (hs : s.Sound) : BusArbiter.Honours s.arb s.pending :=
  ⟨fun x hx => hs.honours.valid x (List.mem_append_left _ hx),
    (List.pairwise_append.mp hs.honours.reqTime).1, (List.pairwise_append.mp hs.honours.sequence).1,
    fun x hx => hs.honours.recorded x (List.mem_append_left _ hx)⟩

end Session

namespace BusArbiter

variable {arb : BusArbiter} {ops later : List BusOp}

theorem commitBatch_progress (h : Honours arb ops) :
    (arb.commitBatch ops).1.progressUpTo = arb.progressUpTo :=
  (congrArg BusArbiter.progressUpTo (commitBatch_eq_rounds h).1 :
    (arb.commitBatch ops).1.resetEnqueued.progressUpTo =
      (rounds ops.length arb ops).1.resetEnqueued.progressUpTo).trans
    (rounds_progress _ _ _).2

/-- Steady rounds leave a queue that still honours the contract. -/
theorem SteadyRounds.honours (hs : SteadyRounds arb ops) (n : Nat)
    (h : Honours arb (ops ++ later)) :
    Honours (rounds n arb ops).1 (leftOver n arb ops ++ later) := by
  induction hs generalizing n with
  | stop hstop =>
    have hnone := opRound_eq_none.mpr hstop
    rw [leftOver_of_none hnone, rounds_of_none hnone]
    exact h
  | @round arb ops w hw _ ih =>
    cases n with
    | zero => simpa [leftOver, rounds] using h
    | succ n =>
      cases hround : arb.opRound ops with
      | none =>
        rw [leftOver_of_none hround, rounds_of_none hround]
        exact h
      | some round =>
        obtain ⟨v, tie⟩ := round
        obtain ⟨-, hchoice, htie⟩ := opRound_eq_some.mp hround
        have hv : w = v := Option.some_inj.mp (hw.dominates.choice.symm.trans hchoice)
        subst hv
        have hmem : w ∈ ops := (mem_candidates.mp hw.dominates.1).1
        have hops : Honours arb ops :=
          ⟨fun x hx => h.valid x (List.mem_append_left _ hx),
            (List.pairwise_append.mp h.reqTime).1, (List.pairwise_append.mp h.sequence).1,
            fun x hx => h.recorded x (List.mem_append_left _ hx)⟩
        have hold : Honours.Oldest (ops ++ later) w := by
          intro x hx hslot
          rcases List.mem_append.mp hx with hx | hx
          · exact hw.dominates.oldest hops x hx hslot
          · exact Nat.le_of_lt
              ((List.pairwise_append.mp h.sequence).2.2 w hmem x hx hslot.symm)
        have hafter := h.after (List.mem_append_left _ hmem) hold (arb.tied w ops)
        rw [List.erase_append_left _ hmem] at hafter
        rw [leftOver_of_some hops.nodup hround, rounds_of_some hround, ← htie]
        exact ih n hafter

end BusArbiter

namespace Session

variable {s : Session} {m : Merge}

/-! ### One step and whole schedules -/

theorem Sound.step (hs : s.Sound) {action : Action} (htrue : s.Truthful action)
    (hsteady : s.SteadyAt action) : (s.step action).Sound := by
  cases action with
  | deliver cpu =>
    cases h : s.undelivered cpu with
    | nil =>
      rw [step_deliver_of_nil h]
      exact hs
    | cons op ops =>
      -- A delivery moves an operation from the producer to the queue.
      have hrest := hs.rest_deliver h
      have hsub : ∀ c, ∀ x ∈ Function.update s.undelivered cpu ops c, x ∈ s.undelivered c := by
        intro c x hx
        by_cases hc : c = cpu
        · subst hc
          rw [Function.update_self] at hx
          rw [h]
          exact List.mem_cons_of_mem op hx
        · rwa [Function.update_of_ne hc] at hx
      rw [step_deliver_of_cons h] at hrest ⊢
      exact ⟨hs.honours.same hrest, fun c x hx => hs.cpu c x (hsub c x hx),
        fun c x hx => hs.watermark c x (hsub c x hx)⟩
  | progress cpu t =>
    -- The core does not hold the watermarks; the new one is truthful.
    refine ⟨hs.honours.congr (BusArbiter.core_updateProgress _ _ _).symm, hs.cpu,
      fun c x hx => ?_⟩
    have hmark := hs.watermark c x hx
    change (s.arb.updateProgress cpu.val t).progressUpTo c = tickMax ∨
      (s.arb.updateProgress cpu.val t).progressUpTo c ≤ x.reqTime
    rw [BusArbiter.updateProgress_progressUpTo]
    split
    · by_cases hc : c = cpu
      · subst hc
        rw [Function.update_self]
        exact Or.inr (htrue x hx)
      · rwa [Function.update_of_ne hc]
    · exact hmark
  | commitPending =>
    -- The rounds keep what the queue honours and leave the watermarks alone.
    have hcore := BusArbiter.resetEnqueued_core (BusArbiter.commitBatch_eq_rounds hs.pending).1
    have hrounds : BusArbiter.SteadyRounds s.arb s.pending := by
      rcases hsteady with hnil | ⟨-, hrounds⟩
      · rw [hnil]
        exact .stop (Or.inr rfl)
      · exact hrounds
    rw [step_commitPending hs.pending]
    refine ⟨(hrounds.honours s.pending.length hs.honours).congr hcore.symm, hs.cpu,
      fun c x hx => ?_⟩
    simp only
    rw [BusArbiter.commitBatch_progress hs.pending]
    exact hs.watermark c x hx

theorem Stands.step (hm : Stands m s) (hs : s.Sound) {action : Action}
    (hsteady : s.SteadyAt action) : Stands m (s.step action) := by
  obtain ⟨k, hcore, hperm, hlog⟩ := hm
  cases action with
  | deliver cpu =>
    cases h : s.undelivered cpu with
    | nil =>
      rw [step_deliver_of_nil h]
      exact ⟨k, hcore, hperm, hlog⟩
    | cons op ops =>
      have hrest := hs.rest_deliver h
      rw [step_deliver_of_cons h] at hrest ⊢
      exact ⟨k, hcore, hperm.trans hrest.perm, hlog⟩
  | progress cpu t =>
    exact ⟨k, hcore.trans (BusArbiter.core_updateProgress _ _ _).symm, hperm, hlog⟩
  | commitPending =>
    have hbatch := BusArbiter.resetEnqueued_core (BusArbiter.commitBatch_eq_rounds hs.pending).1
    rw [step_commitPending hs.pending]
    rcases hsteady with hnil | ⟨hgate, hrounds⟩
    · refine ⟨k, hcore.trans (hbatch.trans (by rw [hnil]; rfl)).symm, ?_, ?_⟩
      · rw [hnil]
        rw [rest, hnil] at hperm
        exact hperm
      · rw [hlog, hnil]
        exact (List.append_nil _).symm
    · obtain ⟨j, hcore', hperm', hlog'⟩ := hrounds.merge s.pending.length hs.pending.nodup
        (hs.beyond hgate) hcore hperm
      refine ⟨j + k, ?_⟩
      rw [Function.iterate_add_apply]
      exact ⟨hcore'.trans hbatch.symm, hperm', by rw [hlog', hlog]⟩

/-- A steady schedule follows the merge of the streams. -/
theorem Stands.run {schedule : List Action} (hm : Stands m s) (hs : s.Sound)
    (hmarks : Watermarked s schedule) (hsteady : SteadyRun s schedule) :
    Stands m (s.run schedule) := by
  induction schedule generalizing s with
  | nil => exact hm
  | cons action schedule ih =>
    exact ih (hm.step hs hsteady.1) (hs.step hmarks.1 hsteady.1) hmarks.2 hsteady.2

/-- **Steady schedules that commit everything commit the same.** -/
theorem schedules_agree (s : Session) (hs : s.Sound) (schedule schedule' : List Action)
    (hmarks : Watermarked s schedule) (hmarks' : Watermarked s schedule')
    (hdone : (s.run schedule).Complete) (hdone' : (s.run schedule').Complete)
    (hsteady : SteadyRun s schedule) (hsteady' : SteadyRun s schedule') :
    (s.run schedule).log = (s.run schedule').log ∧
      (s.run schedule).arb.trace.commits = (s.run schedule').arb.trace.commits := by
  have hstart : Stands ⟨s.arb, s.rest, s.log⟩ s := ⟨0, rfl, List.Perm.refl _, rfl⟩
  obtain ⟨j, hcore, hperm, hlog⟩ := hstart.run hs hmarks hsteady
  obtain ⟨k, hcore', hperm', hlog'⟩ := hstart.run hs hmarks' hsteady'
  have hnil : ∀ {s' : Session}, s'.Complete → s'.rest = [] := by
    intro s' hcomplete
    rw [rest, hcomplete.1, hcomplete.2 0, hcomplete.2 1]
    rfl
  rw [hnil hdone] at hperm
  rw [hnil hdone'] at hperm'
  have heq := Merge.iterate_step_unique (List.perm_nil.mp hperm) (List.perm_nil.mp hperm')
  rw [heq] at hcore hlog
  refine ⟨hlog.symm.trans hlog', ?_⟩
  rw [← BusArbiter.core_trace hcore, BusArbiter.core_trace hcore']

/-- One read of each CPU, committed at once or one after the other. -/
theorem schedules_agree_two_reads :
    let first : BusOp := { cpuId := 0 }
    let second : BusOp := { cpuId := 1, reqTime := 5 }
    let s : Session := { arb := { memory := .make 16 }, undelivered := ![[first], [second]] }
    (s.run [.deliver 0, .deliver 1, .progress 0 10, .progress 1 10, .commitPending]).log =
      (s.run [.progress 1 5, .deliver 0, .progress 0 10, .commitPending, .deliver 1,
        .progress 1 10, .commitPending]).log := by
  intro first second s
  have hs : s.Sound := ⟨⟨by decide, by decide, by decide, by decide⟩, by decide, by decide⟩
  refine (schedules_agree s hs _ _ (by decide) (by decide) (by decide) (by decide) ?_ ?_).1
  · refine ⟨trivial, trivial, trivial, trivial, Or.inr ⟨Or.inl rfl, ?_⟩, trivial⟩
    refine .round first ⟨⟨by decide, by decide⟩, by decide, by decide⟩ ?_
    refine .round second ⟨⟨by decide, by decide⟩, by decide, by decide⟩ ?_
    exact .stop (Or.inr rfl)
  · refine ⟨trivial, trivial, trivial, Or.inr ⟨Or.inl rfl, ?_⟩, trivial, trivial,
      Or.inr ⟨Or.inl rfl, ?_⟩, trivial⟩
    · refine .round first ⟨⟨by decide, by decide⟩, by decide, by decide⟩ ?_
      exact .stop (Or.inr rfl)
    · refine .round second ⟨⟨by decide, by decide⟩, by decide, by decide⟩ ?_
      exact .stop (Or.inr rfl)

/-- While the bus is taken until tick 3 the CPUs ask for it at ticks 1 and 2.
If the horizon passes tick 1 alone, the first read is committed without a tie. -/
theorem not_schedules_agree_tie :
    let write : BusOp := { cpuId := 0, kind := .write }
    let first : BusOp := { cpuId := 0, reqTime := 1, sequence := 1, physAddr := 4 }
    let second : BusOp := { cpuId := 1, reqTime := 2, physAddr := 8 }
    let s : Session :=
      { arb := { memory := .make 16 }, undelivered := ![[write, first], [second]] }
    let fine : List Action := [.deliver 0, .deliver 0, .deliver 1, .progress 0 2, .progress 1 2,
      .commitPending, .progress 0 10, .progress 1 10, .commitPending]
    let coarse : List Action := [.deliver 0, .deliver 0, .deliver 1, .progress 0 10,
      .progress 1 10, .commitPending]
    (s.Sound ∧ Watermarked s fine ∧ Watermarked s coarse ∧ (s.run fine).Complete ∧
      (s.run coarse).Complete) ∧
    (s.run fine).log.map (fun r => (r.1, r.2.startTime, r.2.commitTime)) =
      [(write, 0, 3), (first, 3, 7), (second, 7, 11)] ∧
    (s.run coarse).log.map (fun r => (r.1, r.2.startTime, r.2.commitTime)) =
      [(write, 0, 3), (first, 3, 8), (second, 8, 12)] := by
  intro write first second s fine coarse
  have hs : s.Sound := ⟨⟨by decide, by decide, by decide, by decide⟩, by decide, by decide⟩
  exact ⟨⟨hs, by decide, by decide, by decide, by decide⟩, by decide, by decide⟩

end Session

end Saturnis.Bus
