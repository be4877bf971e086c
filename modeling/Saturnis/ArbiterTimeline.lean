/-
The bus is a single resource.

A grant starts when the operation and the bus are ready, takes at least one
tick of the default latency model, and leaves the bus free exactly when it
finishes; a rejection leaves it alone.  Hence the grants of a run lie one after
the other on the time line (`runCalls_serialised`), whatever the calls are,
as long as no finish time leaves the 64-bit clock.
-/
import Saturnis.ArbiterRun

namespace Saturnis.Bus

open Saturnis.Core Saturnis.Mem Saturnis.Dev

namespace BusArbiter

theorem baseLatency_pos {arb : BusArbiter} (h : arb.latency = {}) (op : BusOp) :
    0 < arb.baseLatency op := by
  rw [baseLatency, h]
  split_ifs <;> decide

theorem totalLatency_pos {arb : BusArbiter} (h : arb.latency = {}) (op : BusOp) (tie : Bool) :
    0 < arb.totalLatency op tie := by
  have := baseLatency_pos h op
  rw [totalLatency]
  omega

end BusArbiter

namespace Handled

/-- The finish time of the entry, if granted, is a tick. -/
def Fits (h : Handled) : Prop :=
  h.granted = true → h.before.startTime h.op + h.before.totalLatency h.op h.tie < tickModulus

/-- The times of a granted operation. -/
structure OnTime (h : Handled) : Prop where
  start : h.response.startTime = max h.op.reqTime h.before.busFreeTime
  finish : h.response.commitTime = h.response.startTime + h.before.totalLatency h.op h.tie
  stall : h.op.reqTime + h.response.stall = h.response.commitTime
  nonempty : h.response.startTime < h.response.commitTime
  busFree : h.after.busFreeTime = h.response.commitTime
  advances : h.before.busFreeTime < h.after.busFreeTime

variable {h : Handled}

theorem Sound.latency (hs : h.Sound) : h.after.latency = h.before.latency := by
  cases hg : h.granted with
  | true =>
    rw [(hs.of_granted hg).1]
    rfl
  | false =>
    obtain ⟨reason, detail, hafter, -⟩ := hs.of_rejected hg
    rw [hafter]
    rfl

theorem Sound.busFreeTime_of_rejected (hs : h.Sound) (hg : h.granted = false) :
    h.after.busFreeTime = h.before.busFreeTime := by
  obtain ⟨reason, detail, hafter, -⟩ := hs.of_rejected hg
  rw [hafter]
  rfl

theorem Sound.onTime (hs : h.Sound) (hg : h.granted = true) (hfit : h.Fits)
    (hlat : h.before.latency = {}) : h.OnTime := by
  obtain ⟨hafter, hresp⟩ := hs.of_granted hg
  have hpos := BusArbiter.totalLatency_pos hlat h.op h.tie
  have hlt := hfit hg
  have hstart : h.response.startTime = h.before.startTime h.op := by rw [hresp]; rfl
  have hfinish : h.response.commitTime =
      h.before.startTime h.op + h.before.totalLatency h.op h.tie := by
    rw [hresp]
    exact tickAdd_of_lt hlt
  have hstall : h.response.stall = h.response.commitTime - h.op.reqTime := by
    rw [hfinish, ← tickSub_of_le (by rw [BusArbiter.startTime]; omega) hlt,
      ← tickAdd_of_lt hlt, hresp]
    rfl
  have hfree : h.after.busFreeTime = h.response.commitTime := by
    rw [hafter, hresp]
    rfl
  have hmax : h.before.startTime h.op = max h.op.reqTime h.before.busFreeTime := rfl
  exact
    { start := hstart
      finish := by rw [hfinish, hstart]
      stall := by omega
      nonempty := by omega
      busFree := hfree
      advances := by omega }

end Handled

namespace BusArbiter

theorem Chained.latency {a b : BusArbiter} {log : List Handled} (hc : Chained a log b)
    (hs : ∀ h ∈ log, h.Sound) : ∀ h ∈ log, h.before.latency = a.latency := by
  induction log generalizing a with
  | nil => simp
  | cons e log ih =>
    have he : e.before.latency = a.latency := (core_latency hc.1).symm
    intro h hh
    rcases List.mem_cons.mp hh with rfl | hh
    · exact he
    · rw [ih hc.2 (fun x hx => hs x (List.mem_cons_of_mem e hx)) h hh,
        (hs e List.mem_cons_self).latency, he]

/-- Along a log, every grant starts after the arbiter's bus time, and the
grants follow each other. -/
theorem Chained.pairwise {a b : BusArbiter} {log : List Handled} (hc : Chained a log b)
    (hs : ∀ h ∈ log, h.Sound) (ht : ∀ h ∈ log, h.granted = true → h.OnTime) :
    (∀ h ∈ log, h.granted = true → a.busFreeTime ≤ h.response.startTime) ∧
      (log.filter (·.granted)).Pairwise fun h h' =>
        h.response.commitTime ≤ h'.response.startTime := by
  induction log generalizing a with
  | nil => simp
  | cons e log ih =>
    obtain ⟨hle, hpw⟩ := ih hc.2 (fun x hx => hs x (List.mem_cons_of_mem e hx))
      fun x hx => ht x (List.mem_cons_of_mem e hx)
    have hfree : a.busFreeTime = e.before.busFreeTime := core_busFreeTime hc.1
    cases hg : e.granted with
    | true =>
      -- a granted operation starts no sooner than the bus is free, and frees it when it commits
      have he := ht e List.mem_cons_self hg
      have hstart := he.start
      have hafter := he.busFree
      have hadv := he.advances
      refine ⟨fun h hh hgh => ?_, ?_⟩
      · rcases List.mem_cons.mp hh with rfl | hh
        · omega
        · have := hle h hh hgh
          omega
      · rw [List.filter_cons_of_pos (by simpa using hg), List.pairwise_cons]
        refine ⟨fun h hh => ?_, hpw⟩
        rw [List.mem_filter] at hh
        have := hle h hh.1 hh.2
        omega
    | false =>
      -- a rejected one leaves the bus as it was
      have hafter := (hs e List.mem_cons_self).busFreeTime_of_rejected hg
      refine ⟨fun h hh hgh => ?_, ?_⟩
      · rcases List.mem_cons.mp hh with rfl | hh
        · rw [hg] at hgh
          exact absurd hgh (by simp)
        · have := hle h hh hgh
          omega
      · rw [List.filter_cons_of_neg (by simp [hg])]
        exact hpw

/-- **The arbiter serialises the bus.** -/
theorem runCalls_serialised (arb : BusArbiter) (hlat : arb.latency = {})
    (calls : List ArbiterCall) (hfit : ∀ h ∈ runLog arb calls, h.Fits) :
    (∀ h ∈ runLog arb calls, h.granted = true → h.OnTime) ∧
      (∀ h ∈ runLog arb calls, h.granted = false →
        h.after.busFreeTime = h.before.busFreeTime) ∧
      ((runLog arb calls).filter (·.granted)).Pairwise
        (fun h h' => h.response.commitTime ≤ h'.response.startTime) ∧
      (arb.runCalls calls).trace.commits =
        arb.trace.commits ++ (runLog arb calls).map Handled.record ∧
      Chained arb (runLog arb calls) (arb.runCalls calls) := by
  have hc := runCalls_chained arb calls
  have hs := runLog_sound arb calls
  have ht : ∀ h ∈ runLog arb calls, h.granted = true → h.OnTime := fun h hh hg =>
    (hs h hh).onTime hg (hfit h hh) ((hc.latency hs h hh).trans hlat)
  exact ⟨ht, fun h hh hg => (hs h hh).busFreeTime_of_rejected hg, (hc.pairwise hs ht).2,
    runCalls_commits arb calls, hc⟩

/-- A write by CPU 0 and a read by CPU 1 of the same word: the read waits. -/
theorem runCalls_serialised_two :
    let arb : BusArbiter := { memory := .make 16 }
    let calls : List ArbiterCall :=
      [.commit { kind := .write, data := 7 }, .commit { cpuId := 1, reqTime := 1 }]
    (∀ h ∈ runLog arb calls, h.granted = true → h.OnTime) ∧
      (runLog arb calls).map (fun h => (h.response.startTime, h.response.commitTime)) =
        [(0, 3), (3, 9)] := by
  intro arb calls
  have hfit : ∀ h ∈ runLog arb calls, h.Fits := by
    intro h hh _
    have hmem : (h.before.startTime h.op, h.before.totalLatency h.op h.tie) ∈
        (runLog arb calls).map fun h => (h.before.startTime h.op, h.before.totalLatency h.op h.tie) :=
      List.mem_map.mpr ⟨h, hh, rfl⟩
    rw [show ((runLog arb calls).map fun h =>
      (h.before.startTime h.op, h.before.totalLatency h.op h.tie)) = [(0, 3), (3, 6)] from by
        decide] at hmem
    simp only [List.mem_cons, Prod.mk.injEq, List.not_mem_nil, or_false] at hmem
    rcases hmem with ⟨h1, h2⟩ | ⟨h1, h2⟩ <;> rw [h1, h2] <;> decide
  exact ⟨(runCalls_serialised arb rfl calls hfit).1, by decide⟩

end BusArbiter

end Saturnis.Bus
