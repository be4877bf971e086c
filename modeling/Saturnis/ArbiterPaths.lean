/-
What an operation waits for on the bus.

The bus is one server, and a granted operation a job: it is released at its request
time and has the bus for its latency.  So every granted operation starts when the
longest path of operations before it ends, and that path is either without a pause
since the start of the run, or begins with an operation that found the bus free.

* `Chained.finish` — the bus after a log;
* `Chained.paths` — one operation of it;
* `runCalls_criticalPath` — **the critical path of every operation of every run**.
-/
import Mathlib.Algebra.Order.Group.Nat
import Saturnis.ArbiterTimeline
import Saturnis.CriticalPath

namespace Saturnis.Bus

open Saturnis.Core Saturnis.Mem CriticalPath

/-- A granted operation, as a job. -/
def Handled.job (h : Handled) : Job Nat := ⟨h.op.reqTime, h.before.totalLatency h.op h.tie⟩

/-- The granted operations of a log, as jobs. -/
def jobs (log : List Handled) : List (Job Nat) := log.map Handled.job

namespace Handled

variable {h : Handled}

theorem OnTime.finish_job (ht : h.OnTime) (later : List (Job Nat)) :
    CriticalPath.finish h.before.busFreeTime (h.job :: later) =
      CriticalPath.finish h.after.busFreeTime later := by
  rw [CriticalPath.finish, ht.busFree, ht.finish, ht.start]
  rfl

end Handled

namespace BusArbiter

variable {a b : BusArbiter} {log : List Handled}

/-- The bus is free when its server is done with the granted operations. -/
theorem Chained.finish (hc : Chained a log b) (hs : ∀ h ∈ log, h.Sound)
    (ht : ∀ h ∈ log, h.granted = true → h.OnTime) :
    CriticalPath.finish a.busFreeTime (jobs (log.filter (·.granted))) = b.busFreeTime := by
  induction log generalizing a with
  | nil => exact core_busFreeTime hc
  | cons e log ih =>
    have hrest := ih hc.2 (fun x hx => hs x (List.mem_cons_of_mem e hx))
      fun x hx => ht x (List.mem_cons_of_mem e hx)
    rw [core_busFreeTime hc.1]
    cases hg : e.granted with
    | true =>
      rw [List.filter_cons_of_pos hg]
      exact ((ht e List.mem_cons_self hg).finish_job _).trans hrest
    | false =>
      rw [List.filter_cons_of_neg (by simp [hg]),
        ← (hs e List.mem_cons_self).busFreeTime_of_rejected hg]
      exact hrest

/-- An operation meets the bus as the log before it leaves it. -/
theorem Chained.upTo {later : List Handled} {h : Handled} (hc : Chained a (log ++ h :: later) b) :
    Chained a log h.before := by
  induction log generalizing a with
  | nil => exact hc.1
  | cons e log ih => exact ⟨hc.1, ih hc.2⟩

/-- A granted operation has the times of its job. -/
theorem Chained.times (hc : Chained a log b) (hs : ∀ h ∈ log, h.Sound)
    (ht : ∀ h ∈ log, h.granted = true → h.OnTime) {before after : List Handled} {h : Handled}
    (hsplit : log.filter (·.granted) = before ++ h :: after) :
    h.response.startTime =
        max h.op.reqTime (CriticalPath.finish a.busFreeTime (jobs before)) ∧
      h.response.commitTime = CriticalPath.finish a.busFreeTime (jobs (before ++ [h])) := by
  obtain ⟨granted, rest, rfl, rfl, hrest⟩ := List.filter_eq_append_iff.mp hsplit
  obtain ⟨refused, later, rfl, hrefused, hg, -⟩ := List.filter_eq_cons_iff.mp hrest
  have hnone : refused.filter (·.granted) = [] := List.filter_eq_nil_iff.mpr hrefused
  rw [← List.append_assoc] at hc hs ht
  have hbus := hc.upTo.finish (fun x hx => hs x (List.mem_append_left _ hx))
    fun x hx => ht x (List.mem_append_left _ hx)
  rw [List.filter_append, hnone, List.append_nil] at hbus
  have hon := ht h (List.mem_append_right _ List.mem_cons_self) hg
  have hstart : h.response.startTime =
      max h.op.reqTime (CriticalPath.finish a.busFreeTime (jobs (granted.filter (·.granted)))) := by
    rw [hbus]
    exact hon.start
  refine ⟨hstart, ?_⟩
  rw [jobs, List.map_append, List.map_singleton, finish_concat]
  change h.response.commitTime =
    max h.op.reqTime (CriticalPath.finish a.busFreeTime (jobs (granted.filter (·.granted)))) +
      h.before.totalLatency h.op h.tie
  rw [← hstart]
  exact hon.finish

/-- **The critical path.**  A granted operation of a run starts at its request, or when
the longest path of the operations before it ends if that is later, and takes its
latency; and the bus is free when the longest path of all operations ends. -/
theorem runCalls_criticalPath (arb : BusArbiter) (hlat : arb.latency = {})
    (calls : List ArbiterCall) (hfit : ∀ h ∈ runLog arb calls, h.Fits) :
    (∀ before h after, (runLog arb calls).filter (·.granted) = before ++ h :: after →
      IsGreatest (insert h.op.reqTime (paths arb.busFreeTime (jobs before)))
          h.response.startTime ∧
        IsGreatest (paths arb.busFreeTime (jobs (before ++ [h]))) h.response.commitTime) ∧
      IsGreatest (paths arb.busFreeTime (jobs ((runLog arb calls).filter (·.granted))))
        (arb.runCalls calls).busFreeTime := by
  have hc := runCalls_chained arb calls
  have hs := runLog_sound arb calls
  have ht : ∀ h ∈ runLog arb calls, h.granted = true → h.OnTime := fun h hh hg =>
    (hs h hh).onTime hg (hfit h hh) ((hc.latency hs h hh).trans hlat)
  refine ⟨fun before h after hsplit => ?_, ?_⟩
  · obtain ⟨hstart, hfinish⟩ := hc.times hs ht hsplit
    rw [hstart, hfinish]
    exact ⟨start_isGreatest _ _ _, finish_isGreatest _ _⟩
  · rw [← hc.finish hs ht]
    exact finish_isGreatest _ _

/-- A write, a read of the same word that waits for it, and a barrier that waits for
nothing. -/
theorem runCalls_criticalPath_three :
    let arb : BusArbiter := { memory := .make 16 }
    let calls : List ArbiterCall :=
      [.commit { kind := .write, data := 7 }, .commit { cpuId := 1, reqTime := 1 },
        .commit { reqTime := 20, kind := .barrier }]
    IsGreatest (paths 0 (jobs ((runLog arb calls).filter (·.granted))))
        (arb.runCalls calls).busFreeTime ∧
      jobs ((runLog arb calls).filter (·.granted)) = [⟨0, 3⟩, ⟨1, 6⟩, ⟨20, 1⟩] ∧
      (runLog arb calls).map (fun h => h.response.startTime) = [0, 3, 20] := by
  intro arb calls
  have hfit : ∀ h ∈ runLog arb calls, h.Fits := by
    have hall : (runLog arb calls).all (fun h =>
        h.before.startTime h.op + h.before.totalLatency h.op h.tie < tickModulus) = true := by
      decide
    exact fun h hh _ => of_decide_eq_true (List.all_eq_true.mp hall h hh)
  exact ⟨(runCalls_criticalPath arb rfl calls hfit).2, by rfl, by rfl⟩

end BusArbiter

end Saturnis.Bus
