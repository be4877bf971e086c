/-
How fast the ticks of a run grow.

An iteration runs each core for sixteen instructions of at most two ticks and
commits at most two operations of at most fifteen.

* `commitBatch_until` — the finish ticks of a batch;
* `Sound.ticksBelow` — an iteration adds at most 64 to every tick, so none wraps
  before the modulus is that near.
-/
import Saturnis.BiosTrace

namespace Saturnis.Bus.BusArbiter

open Saturnis.Core

variable {arb : BusArbiter} {op : BusOp} {bound : Nat}

theorem executeCommit_until (tie : Bool) (hlatency : arb.latency = {}) (hbus : arb.busFreeTime ≤ bound)
    (hreq : op.reqTime ≤ bound) (hfit : bound + 15 < tickModulus) :
    (arb.executeCommit op tie).1.busFreeTime ≤ bound + 15 ∧
      op.reqTime ≤ tickAdd op.reqTime (arb.executeCommit op tie).2.stall ∧
      tickAdd op.reqTime (arb.executeCommit op tie).2.stall ≤ bound + 15 := by
  cases hacc : arb.accepts op with
  | true =>
    rw [executeCommit_of_accepts hacc]
    have hlat := (totalLatency_bounds hlatency op tie).2
    have hstart : arb.startTime op ≤ bound := Nat.max_le.mpr ⟨hreq, hbus⟩
    have hafter : op.reqTime ≤ arb.startTime op := Nat.le_max_left _ _
    have hfinish : tickAdd (arb.startTime op) (arb.totalLatency op tie) =
        arb.startTime op + arb.totalLatency op tie := tickAdd_of_lt (by omega)
    have hwait : tickAdd op.reqTime (arb.grant op tie).2.stall =
        arb.startTime op + arb.totalLatency op tie := by
      rw [← hfinish]
      exact tickAdd_tickSub (by omega) (tickAdd_lt _ _)
    rw [hwait]
    refine ⟨?_, by omega, by omega⟩
    show tickAdd (arb.startTime op) (arb.totalLatency op tie) ≤ bound + 15
    omega
  | false =>
    obtain ⟨reason, detail, heq⟩ := executeCommit_of_rejected tie hacc
    rw [heq]
    have hstay : tickAdd op.reqTime 0 = op.reqTime + 0 := tickAdd_of_lt (by omega)
    refine ⟨?_, ?_, ?_⟩
    · show arb.busFreeTime ≤ bound + 15
      omega
    · exact Nat.le_of_eq hstay.symm
    · show tickAdd op.reqTime 0 ≤ bound + 15
      omega

theorem commitRounds_until (n : Nat) {pending : List CommitResult} (hlatency : arb.latency = {})
    (hbus : arb.busFreeTime ≤ bound) (hreq : ∀ p ∈ pending, p.op.reqTime ≤ bound)
    (hfit : bound + 15 * n < tickModulus) :
    (commitRounds n arb pending).1.busFreeTime ≤ bound + 15 * n ∧
      ∀ r ∈ (commitRounds n arb pending).2,
        r.op.reqTime ≤ tickAdd r.op.reqTime r.response.stall ∧
          tickAdd r.op.reqTime r.response.stall ≤ bound + 15 * n := by
  induction n generalizing arb pending bound with
  | zero => exact ⟨hbus, by simp [commitRounds]⟩
  | succ n ih =>
    cases hround : arb.nextRound pending with
    | none =>
      rw [commitRounds_of_none hround]
      exact ⟨Nat.le_trans hbus (Nat.le_add_right _ _), by simp⟩
    | some round =>
      obtain ⟨next, tie⟩ := round
      rw [commitRounds_of_some hround]
      have hmem := List.mem_of_getElem? (nextRound_getElem? hround)
      obtain ⟨hbus', hwait, hwait'⟩ :=
        executeCommit_until tie hlatency hbus (hreq next.1 hmem) (by omega)
      have hlatency' := (arb.executeCommit_latency next.1.op tie).trans hlatency
      have hreq' : ∀ p ∈ pending.eraseIdx next.2, p.op.reqTime ≤ bound + 15 := fun p hp =>
        Nat.le_trans (hreq p (List.eraseIdx_subset hp)) (Nat.le_add_right _ _)
      obtain ⟨hlast, hrest⟩ := ih hlatency' hbus' hreq' (by omega)
      refine ⟨by simp only; omega, fun r hr => ?_⟩
      rcases List.mem_cons.mp hr with rfl | hr
      · exact ⟨hwait, by simp only; omega⟩
      · obtain ⟨hle, hle'⟩ := hrest r hr
        exact ⟨hle, by omega⟩

theorem enqueue_length_le_input (arb : BusArbiter) (i : Nat) (ops : List BusOp) :
    (arb.enqueue i ops).2.length ≤ ops.length := by
  induction ops generalizing arb i with
  | nil => exact Nat.le_refl 0
  | cons op ops ih =>
    rw [enqueue]
    split
    · exact Nat.zero_le _
    · split
      · rename_i next _
        exact Nat.le_succ_of_le (ih next (i + 1))
      · rename_i next _
        exact Nat.succ_le_succ (ih next (i + 1))

/-- The finish ticks of a batch. -/
theorem commitBatch_until {ops : List BusOp} (hlatency : arb.latency = {})
    (hbus : arb.busFreeTime ≤ bound) (hreq : ∀ op ∈ ops, op.reqTime ≤ bound)
    (hfit : bound + 15 * ops.length < tickModulus) :
    (arb.commitBatch ops).1.busFreeTime ≤ bound + 15 * ops.length ∧
      ∀ r ∈ (arb.commitBatch ops).2,
        r.op.reqTime ≤ tickAdd r.op.reqTime r.response.stall ∧
          tickAdd r.op.reqTime r.response.stall ≤ bound + 15 * ops.length := by
  have hsame := arb.resetEnqueued.hardware_enqueue 0 ops
  have hkeep := hardware_busFreeTime hsame
  have hkeep' := hardware_latency hsame
  have hlen := arb.resetEnqueued.enqueue_length_le_input 0 ops
  have hreq' : ∀ p ∈ (arb.resetEnqueued.enqueue 0 ops).2, p.op.reqTime ≤ bound := fun p hp =>
    hreq p.op (List.mem_of_getElem? (enqueue_inputIndex _ 0 ops p hp).2)
  obtain ⟨hbus', hrest⟩ := commitRounds_until (arb.resetEnqueued.enqueue 0 ops).2.length
    (hkeep'.trans hlatency) (hkeep.trans_le hbus) hreq' (by omega)
  refine ⟨Nat.le_trans hbus' (by omega), fun r hr => ?_⟩
  obtain ⟨hle, hle'⟩ := hrest r hr
  exact ⟨hle, by omega⟩

end Saturnis.Bus.BusArbiter

namespace Saturnis.Core.BiosRun

open Saturnis.Mem Saturnis.Bus Saturnis.Cpu

variable {s : BiosRun} {c : Fin 2} {bound : Nat}

/-- No tick of the run is past the bound. -/
structure Within (bound : Nat) (s : BiosRun) : Prop where
  clock : ∀ c, (s.core c).t ≤ bound
  bus : s.arb.busFreeTime ≤ bound

theorem produce_busFreeTime (s : BiosRun) (c : Fin 2) :
    (s.produce c).arb.busFreeTime = s.arb.busFreeTime := by
  cases h : s.p c with
  | some op => rw [produce_of_waits h]
  | none => rw [produce, h]

/-- A core runs for at most 32 ticks. -/
theorem Sound.produce_clock (hs : s.Sound) (c : Fin 2) (hfit : (s.core c).t + 32 < tickModulus) :
    (s.core c).t ≤ ((s.produce c).core c).t ∧ ((s.produce c).core c).t ≤ (s.core c).t + 32 := by
  cases h : s.p c with
  | some op =>
    rw [produce_of_waits h]
    omega
  | none =>
    have hcounted := hs.counted c
    have hbehind := hcounted.executed
    obtain ⟨k, hk, hpassed, -⟩ := ((s.core c).produceUntilBus_call s.seq s.arb.trace 16
      hcounted.clock (by omega)).passed
    obtain ⟨ticks, -, hticks, ht⟩ := hpassed.clock
    rw [tickAdd_of_lt (by omega)] at ht
    rw [BiosRun.produce, h]
    simp only [Function.update_self, ht]
    omega

theorem Sound.prepare_within (hs : s.Sound) (h : s.Within bound) (hfit : bound + 32 < tickModulus) :
    (∀ c, (s.core c).t ≤ (s.prepare.core c).t) ∧ s.prepare.Within (bound + 32) := by
  have h₀ := h.clock 0
  have h₁ := h.clock 1
  have hother := (s.produce 0).produce_of_ne (show (0 : Fin 2) ≠ 1 by decide)
  have hother' := s.produce_of_ne (show (1 : Fin 2) ≠ 0 by decide)
  obtain ⟨hlow, hhigh⟩ := hs.produce_clock 0 (by omega)
  have hsound := (hs.produce 0 hlow).1
  have hsame : ((s.produce 0).core 1).t = (s.core 1).t := by rw [hother'.1]
  obtain ⟨hlow', hhigh'⟩ := hsound.produce_clock 1 (by omega)
  have hmaster : (s.prepare.core 0).t = ((s.produce 0).core 0).t := congrArg SH2Core.t hother.1
  have hslave : (s.prepare.core 1).t = (((s.produce 0).produce 1).core 1).t := rfl
  refine ⟨fun c => ?_, fun c => ?_, ?_⟩
  · match c with
    | 0 => omega
    | 1 => omega
  · match c with
    | 0 => omega
    | 1 => omega
  · have hpublish : s.prepare.arb.busFreeTime = ((s.produce 0).produce 1).arb.busFreeTime := by
      refine (BusArbiter.core_busFreeTime (BusArbiter.core_updateProgress _ _ _)).trans ?_
      exact BusArbiter.core_busFreeTime (BusArbiter.core_updateProgress _ _ _)
    have hbus := h.bus
    rw [hpublish, produce_busFreeTime, produce_busFreeTime]
    omega

theorem fetches_length (s : BiosRun) : s.fetches.length ≤ 2 := by
  rw [fetches]
  exact List.length_filterMap_le _ _

theorem respondAll_busFreeTime (s : BiosRun) (answers : List (Fin 2 × CommitResult)) :
    (s.respondAll answers).arb.busFreeTime = s.arb.busFreeTime := by
  induction answers generalizing s with
  | nil => rfl
  | cons a answers ih => exact ih (s.respond a.1 a.2)

/-- An answer moves the clock of its core on, by at most 32 ticks. -/
theorem Sound.commit_within (hs : s.Sound) (h : s.Within bound) (hfit : bound + 32 < tickModulus) :
    (∀ c, s.commit.p c ≠ s.p c → (s.core c).t < (s.commit.core c).t) ∧
      s.commit.Within (bound + 32) := by
  -- the batch holds at most two operations, and each takes at most 15 ticks
  have hlen : (s.fetches.map (·.2)).length ≤ 2 := by
    rw [List.length_map]
    exact s.fetches_length
  have hreq : ∀ op ∈ s.fetches.map (·.2), op.reqTime ≤ bound := by
    intro op hop
    obtain ⟨x, hx, rfl⟩ := List.mem_map.mp hop
    rw [(hs.issues x.1 x.2 (mem_fetches.mp hx)).reqTime]
    exact h.clock x.1
  obtain ⟨hbus, hresults⟩ := BusArbiter.commitBatch_until hs.ready.latency h.bus hreq (by omega)
  have htook : ∀ a ∈ s.answered, Took s s.commit a →
      (s.core a.1).t < (s.commit.core a.1).t ∧ (s.commit.core a.1).t ≤ bound + 32 := by
    intro a ha htook
    have hresult : a.2 ∈ (s.arb.commitBatch (s.fetches.map (·.2))).2 := by
      obtain ⟨result, hresult, rfl⟩ := List.mem_map.mp ha
      exact hresult
    obtain ⟨hle, hle'⟩ := hresults a.2 hresult
    rw [(hs.issues _ _ (mem_answered ha)).reqTime] at hle hle'
    obtain ⟨trace, hcore⟩ := htook.core
    obtain ⟨ticks, hlow, hhigh, ht⟩ :=
      ((s.core a.1).applyIfetchAndStep_passed a.2.response trace).clock
    rw [← hcore, SH2Core.stalled] at ht
    simp only at ht
    rw [tickAdd_of_lt (by omega)] at ht
    omega
  refine ⟨fun c hne => ?_, fun c => ?_, ?_⟩
  · rcases s.commit_core c with ⟨a, ha, rfl, htaken⟩ | hsame
    · exact (htook a ha htaken).1
    · exact absurd hsame.p hne
  · rcases s.commit_core c with ⟨a, ha, rfl, htaken⟩ | hsame
    · exact (htook a ha htaken).2
    · rw [hsame.core]
      exact Nat.le_trans (h.clock c) (Nat.le_add_right _ _)
  · rw [commit_eq, respondAll_busFreeTime]
    simp only
    omega

theorem baseLatency_le {arb : BusArbiter} (h : arb.latency = {}) (op : BusOp) :
    arb.baseLatency op ≤ 15 := by
  have := (BusArbiter.totalLatency_bounds h op false).2
  rw [BusArbiter.totalLatency] at this
  omega

/-- An iteration that starts far enough below the modulus does not reach it. -/
theorem Sound.ticksBelow (hs : s.Sound) (h : s.Within bound) (hfit : bound + 64 < tickModulus) :
    s.TicksBelow ∧ s.prepare.Within (bound + 32) ∧ s.prepare.commit.Within (bound + 64) := by
  obtain ⟨hclock, hprepare⟩ := hs.prepare_within h (by omega)
  have hsound := (hs.prepare hclock).1
  obtain ⟨hmoved, hcommit⟩ := hsound.commit_within hprepare (by omega)
  refine ⟨⟨hclock, fun c op hop => ?_, hmoved⟩, hprepare, hcommit⟩
  rw [(hsound.issues c op hop).reqTime]
  have := hprepare.clock c
  have := baseLatency_le hs.ready.latency op
  omega

end Saturnis.Core.BiosRun
