/-
The observed times of a replay, and its drift.

What the replay loop reports of a record is compared with what the semantics
document defines (`exactElapsed`, `exactWait`), as integers.  The loop writes
the cycles of the record to one member and reads them from another, which stays
zero, and it keeps 32 bits of the elapsed ticks.  The drifts are differences of
two 64-bit ticks that are cast to signed ones first.

* `observe_iff` — when the observed figures of a record are exact;
* `exactDifference_iff` — when a difference of cast ticks is exact: both ticks
  are below `2^63`, or neither is;
* `reportedExactly_iff` — so when the result of a record is exact, at any place
  of any replay.
-/
import Saturnis.ReplayTotals

namespace Saturnis.Replay

open Saturnis.Core Saturnis.Busarb

/-! ### The documented figures -/

/-- The ticks between the endpoints, or the cycles of all attempts where the
endpoints are inconsistent. -/
def TraceRecord.exactElapsed (record : TraceRecord) : Nat :=
  if record.tickFirstAttempt ≤ record.tickComplete then
    record.tickComplete.toNat - record.tickFirstAttempt.toNat
  else record.serviceCycles.toNat + record.retries.toNat * record.serviceCycles.toNat

/-- What is left of it beyond the service, if anything. -/
def TraceRecord.exactWait (record : TraceRecord) : Nat :=
  record.exactElapsed - record.serviceCycles.toNat

/-- The value is the difference, and the subtraction of the two ticks, both cast
to `int64_t`, does not overflow. -/
def ExactDifference (value : Int) (a b : Nat) : Prop :=
  value = (a : Int) - (b : Int) ∧
    BitVec.ssubOverflow (BitVec.ofNat 64 a) (BitVec.ofNat 64 b) = false

instance (value : Int) (a b : Nat) : Decidable (ExactDifference value a b) :=
  inferInstanceAs (Decidable (_ ∧ _))

namespace ReplayResult

structure ObservedExactly (r : ReplayResult) : Prop where
  elapsed : r.ymirElapsed.toNat = r.record.exactElapsed
  wait : r.ymirWait.toNat = r.record.exactWait

/-- The comparison of a record with the model, for the ticks at which the bus is
free before and after it. -/
structure ComparedExactly (r : ReplayResult) (before after : Nat) : Prop where
  deltaWait : r.normalizedDeltaWait = (r.arbiterPredictedWait.toNat : Int) - r.record.exactWait
  deltaTotal :
    r.normalizedDeltaTotal = (r.arbiterPredictedTotal.toNat : Int) - r.record.exactElapsed
  driftWait : ExactDifference r.cumulativeDriftWait
    (max before r.record.tickFirstAttempt.toNat) r.record.tickFirstAttempt.toNat
  driftTotal : ExactDifference r.cumulativeDriftTotal after (r.record.tickComplete.toNat + 1)

end ReplayResult

/-! ### When they are met -/

/-- Less than `2^32` ticks elapse, and no service is left out of the wait. -/
structure Timely (record : TraceRecord) : Prop where
  elapsed : record.exactElapsed < 2 ^ 32
  service : record.serviceCycles = 0 ∨ record.exactElapsed = 0

/-- Both ticks are below `2^63`, or neither is. -/
def SameHalf (a b : Nat) : Prop := a < 2 ^ 63 ↔ b < 2 ^ 63

instance (a b : Nat) : Decidable (SameHalf a b) := inferInstanceAs (Decidable (_ ↔ _))

theorem toInt_ofNat_of_le {a : Nat} (ha : a ≤ 2 ^ 64) :
    (BitVec.ofNat 64 a).toInt = if a < 2 ^ 63 then (a : Int) else a - 2 ^ 64 := by
  rw [BitVec.toInt_eq_toNat_cond, BitVec.toNat_ofNat]
  split_ifs with hlow hhalf hhalf
  · omega
  · omega
  · omega
  · omega

/-- A difference of cast ticks is exact within one half of the ticks. -/
theorem exactDifference_iff {a b : Nat} (ha : a < 2 ^ 64) (hb : b ≤ 2 ^ 64) :
    ExactDifference (BitVec.ofNat 64 a - BitVec.ofNat 64 b).toInt a b ↔ SameHalf a b := by
  have hx := toInt_ofNat_of_le (Nat.le_of_lt ha)
  have hy := toInt_ofNat_of_le hb
  rw [ExactDifference, SameHalf, BitVec.ssubOverflow, Bool.or_eq_false_iff,
    decide_eq_false_iff_not, decide_eq_false_iff_not]
  have hsub : ¬ BitVec.ssubOverflow (BitVec.ofNat 64 a) (BitVec.ofNat 64 b) →
      (BitVec.ofNat 64 a - BitVec.ofNat 64 b).toInt =
        (BitVec.ofNat 64 a).toInt - (BitVec.ofNat 64 b).toInt :=
    BitVec.toInt_sub_of_not_ssubOverflow
  rw [BitVec.ssubOverflow, Bool.or_eq_true, decide_eq_true_iff, decide_eq_true_iff] at hsub
  split_ifs at hx hy <;> omega

/-! ### One record -/

theorem observe_elapsed (record : TraceRecord) :
    (observe record).ymirElapsed.toNat =
      if record.tickFirstAttempt ≤ record.tickComplete then
        (record.tickComplete.toNat - record.tickFirstAttempt.toNat) % 2 ^ 32
      else 0 := by
  show (if _ then _ else _ : BitVec 32).toNat = _
  by_cases hticks : record.tickFirstAttempt ≤ record.tickComplete
  · rw [if_pos hticks, if_pos hticks, BitVec.toNat_setWidth, BitVec.toNat_sub_of_le hticks]
  · rw [if_neg hticks, if_neg hticks]
    rfl

/-- Nothing is taken off the elapsed ticks. -/
theorem observe_wait (record : TraceRecord) :
    (observe record).ymirWait = (observe record).ymirElapsed := by
  show (if (observe record).ymirElapsed > 0 then (observe record).ymirElapsed - 0 else 0) = _
  split
  · exact BitVec.sub_zero _
  · rename_i hzero
    exact (BitVec.le_zero_iff.mp (BitVec.not_lt.mp hzero)).symm

theorem observe_iff (record : TraceRecord) :
    (observe record).ObservedExactly ↔ Timely record := by
  have helapsed := observe_elapsed record
  have hexact : record.exactElapsed = if record.tickFirstAttempt ≤ record.tickComplete then
      record.tickComplete.toNat - record.tickFirstAttempt.toNat
    else record.serviceCycles.toNat + record.retries.toNat * record.serviceCycles.toNat := rfl
  have hservice : record.serviceCycles = 0 ↔ record.serviceCycles.toNat = 0 :=
    BitVec.toNat_inj.symm
  have hrecord : (observe record).record = record := rfl
  -- the value that is observed, and the exact one
  have hvalue : (observe record).ymirElapsed.toNat = record.exactElapsed ↔
      record.exactElapsed < 2 ^ 32 ∧
        (record.tickFirstAttempt ≤ record.tickComplete ∨ record.exactElapsed = 0) := by
    by_cases hticks : record.tickFirstAttempt ≤ record.tickComplete
    · rw [if_pos hticks] at helapsed hexact
      rw [helapsed, ← hexact]
      exact ⟨fun h => ⟨by omega, Or.inl hticks⟩, fun h => Nat.mod_eq_of_lt h.1⟩
    · rw [if_neg hticks] at helapsed
      rw [helapsed]
      exact ⟨fun h => ⟨by omega, Or.inr h.symm⟩, fun h => (h.2.resolve_left hticks).symm⟩
  -- with inconsistent ticks nothing elapses only if there is no service
  have hproxy : ¬ record.tickFirstAttempt ≤ record.tickComplete →
      record.serviceCycles.toNat = 0 → record.exactElapsed = 0 := by
    intro hticks hzero
    rw [if_neg hticks] at hexact
    rw [hexact, hzero, Nat.mul_zero]
  constructor
  · rintro ⟨hobserved, hwait⟩
    rw [observe_wait, hobserved, hrecord, TraceRecord.exactWait] at hwait
    exact ⟨(hvalue.mp hobserved).1, by rw [hservice]; omega⟩
  · rintro ⟨hlt, hzero⟩
    rw [hservice] at hzero
    have hobserved : (observe record).ymirElapsed.toNat = record.exactElapsed := by
      refine hvalue.mpr ⟨hlt, ?_⟩
      by_cases hticks : record.tickFirstAttempt ≤ record.tickComplete
      · exact Or.inl hticks
      · exact Or.inr (hzero.elim (hproxy hticks) id)
    refine ⟨hobserved, ?_⟩
    rw [observe_wait, hobserved, hrecord, TraceRecord.exactWait]
    omega

/-- The comparison of an exact observation is exact where both drifts are. -/
theorem compareModel_iff {record : TraceRecord} (previous : Option TraceRecord)
    {before after : Nat} (hbefore : before < tickModulus) (hafter : after < tickModulus)
    (hobserved : (observe record).ObservedExactly) :
    (compareModel (observe record) previous before after).ComparedExactly before after ↔
      SameHalf (max before record.tickFirstAttempt.toNat) record.tickFirstAttempt.toNat ∧
        SameHalf after (record.tickComplete.toNat + 1) := by
  have htfa := record.tickFirstAttempt.isLt
  have htc := record.tickComplete.isLt
  rw [tickModulus] at hbefore hafter
  have hwait := @exactDifference_iff (max before record.tickFirstAttempt.toNat)
    record.tickFirstAttempt.toNat (by omega) (by omega)
  have htotal := @exactDifference_iff after (record.tickComplete.toNat + 1) (by omega) (by omega)
  have hend : BitVec.ofNat 64 (record.tickComplete.toNat + 1) = record.tickComplete + 1 := by
    rw [BitVec.ofNat_add, BitVec.ofNat_toNat, BitVec.setWidth_eq]
    rfl
  rw [BitVec.ofNat_toNat, BitVec.setWidth_eq] at hwait
  rw [hend] at htotal
  constructor
  · intro h
    exact ⟨hwait.mp h.driftWait, htotal.mp h.driftTotal⟩
  · rintro ⟨hfirst, hlast⟩
    refine ⟨?_, ?_, hwait.mpr hfirst, htotal.mpr hlast⟩
    · show (_ : Int) - ((observe record).ymirWait.toNat : Int) = _
      rw [hobserved.wait]
      rfl
    · show (_ : Int) - ((observe record).ymirElapsed.toNat : Int) = _
      rw [hobserved.elapsed]
      rfl

/-! ### The loop -/

/-- The records that are replayed, in their order. -/
def included (records : List TraceRecord) : List TraceRecord :=
  (sortRecords records).filter fun record => (parseMaster record.master).isSome

theorem Filtered.foldl_records (f : Filtered) (records : List TraceRecord) :
    (records.foldl Filtered.step f).records =
      f.records ++ records.filter fun record => (parseMaster record.master).isSome := by
  induction records generalizing f with
  | nil => exact (List.append_nil _).symm
  | cons record records ih =>
    rw [List.foldl_cons, ih, Filtered.step]
    cases hmaster : parseMaster record.master with
    | none => rw [List.filter_cons_of_neg (by simp [hmaster])]
    | some master =>
      rw [List.filter_cons_of_pos (by simp [hmaster])]
      exact List.append_assoc f.records [record] _

/-- The tick at which the bus is free once some records are compared. -/
def busFree (records : List TraceRecord) : Nat :=
  (records.foldl (Replayed.step true) {}).arbiter.busFreeTick

theorem Replayed.step_busFree {s : Replayed} (h : s.arbiter.busFreeTick < tickModulus)
    (record : TraceRecord) : (s.step true record).arbiter.busFreeTick < tickModulus := by
  rw [Replayed.step]
  cases parseMaster record.master with
  | none => exact h
  | some master => exact tickAdd_lt _ _

theorem busFree_lt (records : List TraceRecord) : busFree records < tickModulus := by
  have hrun : ∀ s : Replayed, s.arbiter.busFreeTick < tickModulus →
      (records.foldl (Replayed.step true) s).arbiter.busFreeTick < tickModulus := by
    induction records with
    | nil => exact fun s h => h
    | cons record records ih => exact fun s h => ih _ (s.step_busFree h record)
  exact hrun {} (by decide)

/-- What is reported of a record is exact. -/
def ReplayResult.Exact (model : Bool) (r : ReplayResult) (before after : Nat) : Prop :=
  r.ObservedExactly ∧ (model = true → r.ComparedExactly before after)

/-- The figures of a record are in the reach of the code. -/
structure Undistorted (model : Bool) (record : TraceRecord) (before after : Nat) : Prop where
  timely : Timely record
  start : model = true →
    SameHalf (max before record.tickFirstAttempt.toNat) record.tickFirstAttempt.toNat
  finish : model = true → SameHalf after (record.tickComplete.toNat + 1)

/-- A record of a known master adds its result. -/
theorem Replayed.step_result (model : Bool) {s : Replayed} {record : TraceRecord}
    (hmaster : (parseMaster record.master).isSome = true) {before after : Nat}
    (hbefore : before < tickModulus) (hafter : after < tickModulus)
    (hticks : model = true → before = s.arbiter.busFreeTick ∧
      after = (s.step true record).arbiter.busFreeTick) :
    ∃ r, (s.step model record).results = s.results ++ [r] ∧ r.record = record ∧
      (r.Exact model before after ↔ Undistorted model record before after) := by
  obtain ⟨master, hsome⟩ := Option.isSome_iff_exists.mp hmaster
  have hobserve := observe_iff record
  cases model with
  | false =>
    rw [Replayed.step, hsome]
    refine ⟨_, rfl, rfl, ?_⟩
    constructor
    · rintro ⟨⟨helapsed, hwait⟩, -⟩
      exact ⟨hobserve.mp ⟨helapsed, hwait⟩, by simp, by simp⟩
    · intro h
      obtain ⟨helapsed, hwait⟩ := hobserve.mpr h.timely
      exact ⟨⟨helapsed, hwait⟩, by simp⟩
  | true =>
    obtain ⟨rfl, rfl⟩ := hticks rfl
    have hcompare := fun hobserved =>
      compareModel_iff s.previousRecord hbefore hafter (hobserve.mpr hobserved)
    have hstep : ∃ r, (s.step true record).results = s.results ++ [r] ∧
        r = compareModel (observe record) s.previousRecord s.arbiter.busFreeTick
          (s.step true record).arbiter.busFreeTick := by
      simp only [Replayed.step, hsome]
      exact ⟨_, rfl, rfl⟩
    obtain ⟨r, hresults, rfl⟩ := hstep
    refine ⟨_, hresults, rfl, ?_⟩
    constructor
    · rintro ⟨⟨helapsed, hwait⟩, hcompared⟩
      have htimely := hobserve.mp ⟨helapsed, hwait⟩
      obtain ⟨hstart, hfinish⟩ := (hcompare htimely).mp (hcompared rfl)
      exact ⟨htimely, fun _ => hstart, fun _ => hfinish⟩
    · intro h
      obtain ⟨helapsed, hwait⟩ := hobserve.mpr h.timely
      exact ⟨⟨helapsed, hwait⟩, fun _ => (hcompare h.timely).mpr ⟨h.start rfl, h.finish rfl⟩⟩

/-- Later records only append. -/
theorem Replayed.foldl_results (model : Bool) (s : Replayed) (records : List TraceRecord) :
    ∃ later, (records.foldl (Replayed.step model) s).results = s.results ++ later := by
  induction records generalizing s with
  | nil => exact ⟨[], (List.append_nil _).symm⟩
  | cons record records ih =>
    obtain ⟨later, hlater⟩ := ih (s.step model record)
    have hstep : ∃ added, (s.step model record).results = s.results ++ added := by
      rw [Replayed.step]
      cases parseMaster record.master with
      | none => exact ⟨[], (List.append_nil _).symm⟩
      | some master => cases model <;> exact ⟨_, rfl⟩
    obtain ⟨added, hadded⟩ := hstep
    exact ⟨added ++ later, by rw [List.foldl_cons, hlater, hadded, List.append_assoc]⟩

/-- The result of the record behind `pre` is there and exact. -/
def ReportedExactly (model : Bool) (report : Report) (pre : List TraceRecord)
    (record : TraceRecord) : Prop :=
  ∃ r, report.replayed.results[pre.length]? = some r ∧ r.record = record ∧
    r.Exact model (busFree pre) (busFree (pre ++ [record]))

/-- **The times of a record are reported exactly when** it elapses in less than
`2^32` ticks, has no service unless it has no time, and, in a comparison, the
ticks that are subtracted are in one half. -/
theorem reportedExactly_iff (model : Bool) (malformedLines nonemptyLines : Nat)
    {records pre post : List TraceRecord} {record : TraceRecord}
    (h : included records = pre ++ record :: post) :
    ReportedExactly model (replay model malformedLines nonemptyLines records) pre record ↔
      Undistorted model record (busFree pre) (busFree (pre ++ [record])) := by
  have hknown : ∀ r ∈ pre ++ record :: post, (parseMaster r.master).isSome = true := by
    rw [← h]
    exact fun r hr => (List.mem_filter.mp hr).2
  have hreplayed : (replay model malformedLines nonemptyLines records).replayed =
      (pre ++ record :: post).foldl (Replayed.step model) {} := by
    show (((sortRecords records).foldl Filtered.step {}).records).foldl _ _ = _
    rw [Filtered.foldl_records]
    show (included records).foldl _ _ = _
    rw [h]
  rw [ReportedExactly, hreplayed, List.foldl_append, List.foldl_cons]
  have hlength : (pre.foldl (Replayed.step model) {}).results.length = pre.length := by
    have hconserved := (Replayed.conserved_empty model).foldl
      fun r hr => hknown r (List.mem_append_left _ hr)
    rw [hconserved.processed, Nat.zero_add]
  obtain ⟨r, hresults, hrecord, hexact⟩ := @Replayed.step_result model
    (pre.foldl (Replayed.step model) {}) record
    (hknown record (List.mem_append_right _ (List.mem_cons_self ..))) _ _ (busFree_lt pre)
    (busFree_lt (pre ++ [record]))
    (by rintro rfl; exact ⟨rfl, by rw [busFree, List.foldl_append]; rfl⟩)
  obtain ⟨later, hlater⟩ := Replayed.foldl_results model
    ((pre.foldl (Replayed.step model) {}).step model record) post
  have hplace : (post.foldl (Replayed.step model)
      ((pre.foldl (Replayed.step model) {}).step model record)).results[pre.length]? = some r := by
    rw [hlater, hresults, List.append_assoc, ← hlength]
    simp
  constructor
  · rintro ⟨r', hr', -, hexact'⟩
    rw [hplace, Option.some_inj] at hr'
    rw [hr'] at hexact
    exact hexact.mp hexact'
  · intro hwithin
    exact ⟨r, hplace, hrecord, hexact.mpr hwithin⟩

/-- The record of the format document's example, with any service. -/
def documentedRecord (serviceCycles : BitVec 32) : TraceRecord :=
  { seq := 1, master := "MSH2", tickFirstAttempt := 1042, tickComplete := 1044, addr := 0x06004000,
    addrText := "0x06004000", size := 4, rw := "R", kind := "ifetch", serviceCycles,
    sourceLine := 1 }

theorem included_documentedRecord (serviceCycles : BitVec 32) :
    included [documentedRecord serviceCycles] = [] ++ documentedRecord serviceCycles :: [] := by
  rw [included, sortRecords, List.mergeSort_singleton]
  rfl

theorem reportedExactly_iff_noService :
    ReportedExactly true (replay true 0 1 [documentedRecord 0]) [] (documentedRecord 0) :=
  (reportedExactly_iff true 0 1 (included_documentedRecord 0)).mpr
    ⟨⟨by decide, by decide⟩, fun _ => by decide, fun _ => by decide⟩

/-- A wait of two ticks is reported for the example, although its service takes
both. -/
theorem not_reportedExactly :
    ¬ ∀ (model : Bool) (malformedLines nonemptyLines : Nat) (records pre post : List TraceRecord)
      (record : TraceRecord), included records = pre ++ record :: post →
        ReportedExactly model (replay model malformedLines nonemptyLines records) pre record := by
  intro h
  obtain ⟨r, hr, -, hobserved, -⟩ :=
    h false 0 1 [documentedRecord 2] [] [] _ (included_documentedRecord 2)
  have hwaits : (replay false 0 1 [documentedRecord 2]).replayed.results.map
      (fun r => (r.ymirWait.toNat, r.record.exactWait)) = [(2, 0)] := by
    rw [replay, sortRecords, List.mergeSort_singleton]
    decide
  have hwait := congrArg (Option.map fun r => (r.ymirWait.toNat, r.record.exactWait)) hr
  rw [← List.getElem?_map, hwaits, Option.map_some, hobserved.wait] at hwait
  have hpair := Prod.mk.inj (Option.some_inj.mp hwait)
  omega

end Saturnis.Replay
