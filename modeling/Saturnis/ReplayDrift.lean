/-
What the drifts of a replay measure.

A replay gives the records one after the other to one arbiter, and its two drifts
compare a record with where the arbiter is by then.  As a server with a job for each
record, the arbiter is at the end of the longest path of the records so far; so a
drift tells how much later that path ends than the trace says, however far back the
path begins.

* `Linked.foldl` — the arbiter after some records;
* `replay_result` — the comparison of a record;
* `replay_drift` — **the drifts of every record**.
-/
import Mathlib.Algebra.Order.Group.Nat
import Saturnis.BusarbTimeline
import Saturnis.CriticalPath
import Saturnis.ReplayTiming

namespace Saturnis.Replay

open Saturnis.Core Saturnis.Busarb CriticalPath

/-- What a record costs behind another one. -/
def cost (previous : Option TraceRecord) (record : TraceRecord) : Nat :=
  max 1 (ymirAccessCycles record.addr (record.rw = "W") record.size.toNat) +
    if previous.map TraceRecord.addr = some record.addr then 2 else 0

/-- Records as jobs, behind another one. -/
def replayJobs : Option TraceRecord → List TraceRecord → List (Job Nat)
  | _, [] => []
  | previous, record :: records =>
    ⟨record.tickFirstAttempt.toNat, cost previous record⟩ :: replayJobs (some record) records

/-- One more record is one more job. -/
theorem replayJobs_concat (previous : Option TraceRecord) (records : List TraceRecord)
    (record : TraceRecord) :
    ∃ work, replayJobs previous (records ++ [record]) =
      replayJobs previous records ++ [⟨record.tickFirstAttempt.toNat, work⟩] := by
  induction records generalizing previous with
  | nil => exact ⟨_, rfl⟩
  | cons first records ih =>
    obtain ⟨work, hwork⟩ := ih (some first)
    exact ⟨work, congrArg (List.cons _) hwork⟩

/-! ### The arbiter -/

namespace Replayed

/-- The arbiter has been given the previous record last. -/
structure Linked (s : Replayed) : Prop where
  accessCycles : s.arbiter.accessCycles = ymirAccessCycles
  config : s.arbiter.config = {}
  previous : s.arbiter.previousAddr = s.previousRecord.map TraceRecord.addr

theorem linked_empty : Linked {} := ⟨rfl, rfl, rfl⟩

variable {s : Replayed} {record : TraceRecord} {records : List TraceRecord}

theorem Linked.charge (h : s.Linked) (master : BusMasterId) (tick : Nat) :
    Busarb.charge s.arbiter.accessCycles s.arbiter.config s.arbiter.previousAddr
      ⟨requestOf master record, tick, false⟩ = cost s.previousRecord record := by
  rw [h.accessCycles, h.config, h.previous]
  rfl

theorem Linked.step (h : s.Linked) (hmaster : (parseMaster record.master).isSome = true)
    (hfit : max record.tickFirstAttempt.toNat s.arbiter.busFreeTick +
      cost s.previousRecord record < tickModulus) :
    (s.step true record).Linked ∧ (s.step true record).previousRecord = some record ∧
      (s.step true record).arbiter.busFreeTick =
        max record.tickFirstAttempt.toNat s.arbiter.busFreeTick +
          cost s.previousRecord record := by
  obtain ⟨master, hsome⟩ := Option.isSome_iff_exists.mp hmaster
  have harbiter : (s.step true record).arbiter = s.arbiter.commitGrant (requestOf master record)
      record.tickFirstAttempt.toNat false := by
    simp only [Replayed.step, hsome]
    rfl
  have hprevious : (s.step true record).previousRecord = some record := by
    simp only [Replayed.step, hsome]
    rfl
  rw [← h.charge master record.tickFirstAttempt.toNat] at hfit ⊢
  refine ⟨⟨?_, ?_, ?_⟩, hprevious, ?_⟩
  · rw [harbiter]
    exact h.accessCycles
  · rw [harbiter]
    exact h.config
  · rw [harbiter, hprevious]
    rfl
  · rw [harbiter]
    exact @Arbiter.commitGrant_finish s.arbiter
      ⟨requestOf master record, record.tickFirstAttempt.toNat, false⟩ hfit

/-- The arbiter is free when its server is done with the records. -/
theorem Linked.foldl (h : s.Linked)
    (hknown : ∀ r ∈ records, (parseMaster r.master).isSome = true)
    (hfit : finish s.arbiter.busFreeTick (replayJobs s.previousRecord records) < tickModulus) :
    (records.foldl (Replayed.step true) s).arbiter.busFreeTick =
      finish s.arbiter.busFreeTick (replayJobs s.previousRecord records) := by
  induction records generalizing s with
  | nil => rfl
  | cons record records ih =>
    have hfirst : max record.tickFirstAttempt.toNat s.arbiter.busFreeTick +
        cost s.previousRecord record < tickModulus := Nat.lt_of_le_of_lt (le_finish _ _) hfit
    obtain ⟨hlinked, hprevious, hfree⟩ := h.step (hknown record List.mem_cons_self) hfirst
    have hrest := ih hlinked fun r hr => hknown r (List.mem_cons_of_mem record hr)
    rw [hprevious, hfree] at hrest
    exact hrest hfit

end Replayed

/-- The bus of a replay is free when the server is done. -/
theorem busFree_eq_finish {records : List TraceRecord}
    (hknown : ∀ r ∈ records, (parseMaster r.master).isSome = true)
    (hfit : finish 0 (replayJobs none records) < tickModulus) :
    busFree records = finish 0 (replayJobs none records) :=
  Replayed.linked_empty.foldl hknown hfit

/-! ### One record -/

section

variable {records pre post : List TraceRecord} {record : TraceRecord}

/-- The record behind `pre` is compared with the bus before and after it. -/
theorem replay_result (malformedLines nonemptyLines : Nat)
    (h : included records = pre ++ record :: post) :
    ∃ previous, (replay true malformedLines nonemptyLines records).replayed.results[pre.length]? =
      some (compareModel (observe record) previous (busFree pre) (busFree (pre ++ [record]))) := by
  have hknown : ∀ r ∈ pre ++ record :: post, (parseMaster r.master).isSome = true := by
    rw [← h]
    exact fun r hr => (List.mem_filter.mp hr).2
  have hreplayed : (replay true malformedLines nonemptyLines records).replayed =
      (pre ++ record :: post).foldl (Replayed.step true) {} := by
    show (((sortRecords records).foldl Filtered.step {}).records).foldl _ _ = _
    rw [Filtered.foldl_records]
    show (included records).foldl _ _ = _
    rw [h]
  have hlength : (pre.foldl (Replayed.step true) {}).results.length = pre.length := by
    have hconserved := (Replayed.conserved_empty true).foldl
      fun r hr => hknown r (List.mem_append_left _ hr)
    rw [hconserved.processed, Nat.zero_add]
  obtain ⟨master, hsome⟩ := Option.isSome_iff_exists.mp
    (hknown record (List.mem_append_right _ List.mem_cons_self))
  have hresults : ∃ previous, ((pre.foldl (Replayed.step true) {}).step true record).results =
      (pre.foldl (Replayed.step true) {}).results ++
        [compareModel (observe record) previous (busFree pre) (busFree (pre ++ [record]))] := by
    rw [busFree, busFree, List.foldl_append, List.foldl_cons, List.foldl_nil]
    simp only [Replayed.step, hsome]
    exact ⟨_, rfl⟩
  obtain ⟨previous, hresults⟩ := hresults
  obtain ⟨later, hlater⟩ := Replayed.foldl_results true
    ((pre.foldl (Replayed.step true) {}).step true record) post
  refine ⟨previous, ?_⟩
  rw [hreplayed, List.foldl_append, List.foldl_cons, hlater, hresults, List.append_assoc,
    ← hlength]
  simp

/-- **The drifts of a record** are how much later its path starts than its first
attempt, and how much later it ends than the tick behind its completion, while all
these ticks are small enough for a signed cast. -/
theorem replay_drift (malformedLines nonemptyLines : Nat)
    (h : included records = pre ++ record :: post)
    (hcomplete : record.tickComplete.toNat + 1 < 2 ^ 63)
    (hfit : ∀ t ∈ paths 0 (replayJobs none (pre ++ [record])), t < 2 ^ 63) :
    ∃ (r : ReplayResult) (start finish : Nat),
      (replay true malformedLines nonemptyLines records).replayed.results[pre.length]? = some r ∧
      r.record = record ∧
      IsGreatest (insert record.tickFirstAttempt.toNat (paths 0 (replayJobs none pre))) start ∧
      IsGreatest (paths 0 (replayJobs none (pre ++ [record]))) finish ∧
      r.cumulativeDriftWait = (start : Int) - record.tickFirstAttempt.toNat ∧
      r.cumulativeDriftTotal = (finish : Int) - (record.tickComplete.toNat + 1 : Nat) := by
  have hknown : ∀ r ∈ pre ++ record :: post, (parseMaster r.master).isSome = true := by
    rw [← h]
    exact fun r hr => (List.mem_filter.mp hr).2
  obtain ⟨previous, hresult⟩ := replay_result malformedLines nonemptyLines h
  obtain ⟨work, hconcat⟩ := replayJobs_concat none pre record
  have hmodulus : tickModulus = 2 ^ 64 := rfl
  have hend := (finish_isGreatest 0 (replayJobs none (pre ++ [record]))).1
  have hlast := hfit _ hend
  -- the path starts before it ends
  have hfirst : max record.tickFirstAttempt.toNat (finish 0 (replayJobs none pre)) ≤
      finish 0 (replayJobs none (pre ++ [record])) := by
    rw [hconcat, finish_concat]
    exact Nat.le_add_right _ _
  have hbefore : busFree pre = finish 0 (replayJobs none pre) :=
    busFree_eq_finish (fun r hr => hknown r (List.mem_append_left _ hr)) (by omega)
  have hafter : busFree (pre ++ [record]) = finish 0 (replayJobs none (pre ++ [record])) := by
    refine busFree_eq_finish (fun r hr => hknown r ?_) (by omega)
    rw [List.append_cons]
    exact List.mem_append_left _ hr
  rw [hbefore, hafter] at hresult
  have hwait := (@exactDifference_iff (max (finish 0 (replayJobs none pre))
    record.tickFirstAttempt.toNat) record.tickFirstAttempt.toNat (by omega) (by omega)).mpr
      (by rw [SameHalf]; omega)
  have htotal := (@exactDifference_iff (finish 0 (replayJobs none (pre ++ [record])))
    (record.tickComplete.toNat + 1) (by omega) (by omega)).mpr (by rw [SameHalf]; omega)
  have hnext : BitVec.ofNat 64 (record.tickComplete.toNat + 1) = record.tickComplete + 1 := by
    rw [BitVec.ofNat_add, BitVec.ofNat_toNat, BitVec.setWidth_eq]
    rfl
  rw [BitVec.ofNat_toNat, BitVec.setWidth_eq] at hwait
  rw [hnext] at htotal
  refine ⟨_, _, _, hresult, rfl, start_isGreatest _ _ _, finish_isGreatest _ _, ?_, ?_⟩
  · rw [max_comm]
    exact hwait.1
  · exact htotal.1

/-- Of two reads of one word the second starts one tick late, and ends in time. -/
theorem replay_drift_two :
    let first : TraceRecord :=
      { seq := 1, master := "MSH2", tickFirstAttempt := 10, tickComplete := 11, addr := 0x06004000 }
    let second : TraceRecord :=
      { seq := 2, master := "SSH2", tickFirstAttempt := 11, tickComplete := 15, addr := 0x06004000 }
    ∃ r, (replay true 0 2 [first, second]).replayed.results[1]? = some r ∧ r.record = second ∧
      r.cumulativeDriftWait = 1 ∧ r.cumulativeDriftTotal = 0 := by
  intro first second
  have hsort : included [first, second] = [first] ++ second :: [] := by
    rw [included, sortRecords, List.mergeSort_of_pairwise (by decide)]
    rfl
  have hjobs : replayJobs none ([first] ++ [second]) = [⟨10, 2⟩, ⟨11, 4⟩] := by rfl
  have hend := finish_isGreatest 0 (replayJobs none ([first] ++ [second]))
  have hfit : ∀ t ∈ paths 0 (replayJobs none ([first] ++ [second])), t < 2 ^ 63 := fun t ht =>
    Nat.lt_of_le_of_lt (hend.2 ht) (by rw [hjobs]; decide)
  obtain ⟨r, start, last, hr, hrecord, hstart, hlast, hwait, htotal⟩ :=
    replay_drift 0 2 hsort (by decide) hfit
  have hstart : start = 12 := hstart.unique (start_isGreatest 0 11 (replayJobs none [first]))
  have hlast : last = 16 := hlast.unique hend
  rw [hstart] at hwait
  rw [hlast] at htotal
  exact ⟨r, hr, hrecord, hwait, htotal⟩

end

end Saturnis.Replay
