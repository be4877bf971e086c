/-
The order of the records in the file does not matter.

Two files hold the same records when these are equal up to their source lines
and their order.  With distinct keys there is one way to sort them
(`sortRecords_unlined`), and nothing that the filter or the replay loop derives
depends on a source line (`Filtered.step_unlined`, `Replayed.step_unlined`).
So the reports are equal up to source lines (`replay_perm`).

* `report_classified` — the counters of a replay add up to its records, which
  is what `main` checks before it goes on.
-/
import Saturnis.ReplayLoop

namespace Saturnis.Replay

/-! ### Records without their source lines -/

def TraceRecord.unlined (record : TraceRecord) : TraceRecord := { record with sourceLine := 0 }

def ReplayResult.unlined (r : ReplayResult) : ReplayResult :=
  { r with record := r.record.unlined }

def Filtered.unlined (f : Filtered) : Filtered :=
  { f with records := f.records.map TraceRecord.unlined }

def Replayed.unlined (s : Replayed) : Replayed :=
  { s with
    previousRecord := s.previousRecord.map TraceRecord.unlined
    results := s.results.map ReplayResult.unlined }

def Report.unlined (report : Report) : Report :=
  { report with
    filtered := report.filtered.unlined
    replayed := report.replayed.unlined }

/-- The key of the sort. -/
def TraceRecord.key (record : TraceRecord) : BitVec 64 × BitVec 64 :=
  (record.tickComplete, record.seq)

/-! ### Sorting -/

variable {a b c : TraceRecord}

theorem notAfter_iff :
    notAfter a b = true ↔
      a.tickComplete.toNat < b.tickComplete.toNat ∨
        (a.tickComplete.toNat = b.tickComplete.toNat ∧ a.seq.toNat ≤ b.seq.toNat) := by
  rw [notAfter]
  by_cases heq : a.tickComplete = b.tickComplete
  · rw [if_neg (not_not.mpr heq), decide_eq_true_iff, BitVec.le_def, heq]
    omega
  · have hne : a.tickComplete.toNat ≠ b.tickComplete.toNat := fun h => heq (BitVec.toNat_inj.mp h)
    rw [if_pos heq, decide_eq_true_iff, BitVec.lt_def]
    omega

theorem notAfter_trans (hab : notAfter a b = true) (hbc : notAfter b c = true) :
    notAfter a c = true := by
  rw [notAfter_iff] at hab hbc ⊢
  omega

theorem notAfter_total (a b : TraceRecord) : (notAfter a b || notAfter b a) = true := by
  rw [Bool.or_eq_true, notAfter_iff, notAfter_iff]
  omega

/-- Neither is after the other only if the keys are equal. -/
theorem key_eq_of_notAfter (hab : notAfter a b = true) (hba : notAfter b a = true) :
    a.key = b.key := by
  rw [notAfter_iff] at hab hba
  have htick : a.tickComplete = b.tickComplete := BitVec.toNat_inj.mp (by omega)
  have hseq : a.seq = b.seq := BitVec.toNat_inj.mp (by omega)
  exact Prod.ext htick hseq

theorem sortRecords_sorted (records : List TraceRecord) :
    ((sortRecords records).map TraceRecord.unlined).Pairwise fun a b => notAfter a b = true := by
  have hsorted : (sortRecords records).Pairwise fun a b => notAfter a b = true :=
    @List.pairwise_mergeSort _ notAfter (fun _ _ _ => notAfter_trans) notAfter_total records
  exact List.pairwise_map.mpr hsorted

/-- The same records in any order are sorted to the same list, up to source lines. -/
theorem sortRecords_unlined {l l' : List TraceRecord} (hkeys : (l.map TraceRecord.key).Nodup)
    (hperm : (l.map TraceRecord.unlined).Perm (l'.map TraceRecord.unlined)) :
    (sortRecords l).map TraceRecord.unlined = (sortRecords l').map TraceRecord.unlined := by
  have hsort : ((sortRecords l).map TraceRecord.unlined).Perm (l.map TraceRecord.unlined) :=
    (List.mergeSort_perm l notAfter).map _
  have hsort' : ((sortRecords l').map TraceRecord.unlined).Perm (l'.map TraceRecord.unlined) :=
    (List.mergeSort_perm l' notAfter).map _
  have hboth := hsort.trans (hperm.trans hsort'.symm)
  refine List.Perm.eq_of_pairwise (fun a b ha hb hab hba => ?_) (sortRecords_sorted l)
    (sortRecords_sorted l') hboth
  -- records of one key are one record
  have hnodup : ((l.map TraceRecord.unlined).map TraceRecord.key).Nodup := by
    rw [List.map_map]
    exact hkeys
  have ha' := hsort.mem_iff.mp ha
  have hb' := hsort.mem_iff.mp (hboth.mem_iff.mpr hb)
  exact List.inj_on_of_nodup_map hnodup ha' hb' (key_eq_of_notAfter hab hba)

/-! ### The loops -/

theorem Filtered.step_unlined (f : Filtered) (record : TraceRecord) :
    f.unlined.step record.unlined = (f.step record).unlined := by
  have hmaster : record.unlined.master = record.master := rfl
  rw [Filtered.step, Filtered.step, hmaster]
  cases parseMaster record.master with
  | none => rfl
  | some master =>
    simp only [Filtered.unlined, List.map_append, List.map_cons, List.map_nil]
    rfl

theorem Filtered.foldl_unlined (f : Filtered) (records : List TraceRecord) :
    (records.map TraceRecord.unlined).foldl Filtered.step f.unlined =
      (records.foldl Filtered.step f).unlined := by
  induction records generalizing f with
  | nil => rfl
  | cons record records ih =>
    rw [List.map_cons, List.foldl_cons, List.foldl_cons, Filtered.step_unlined, ih]

theorem compareModel_unlined (r : ReplayResult) (previous : Option TraceRecord)
    (before after : Nat) :
    compareModel r.unlined (previous.map TraceRecord.unlined) before after =
      (compareModel r previous before after).unlined := by
  cases previous <;> rfl

theorem observe_unlined (record : TraceRecord) :
    observe record.unlined = (observe record).unlined := rfl

theorem Replayed.observeBucket_unlined (s : Replayed) (r : ReplayResult) :
    s.unlined.observeBucket r.unlined = (s.observeBucket r).unlined := rfl

theorem Replayed.count_unlined (s : Replayed) (r : ReplayResult) :
    s.unlined.count r.unlined = (s.count r).unlined := rfl

theorem Replayed.step_unlined (model : Bool) (s : Replayed) (record : TraceRecord) :
    s.unlined.step model record.unlined = (s.step model record).unlined := by
  have hmaster : record.unlined.master = record.master := rfl
  rw [Replayed.step, Replayed.step, hmaster]
  cases parseMaster record.master with
  | none => rfl
  | some master =>
    dsimp only
    rw [observe_unlined, Replayed.observeBucket_unlined]
    set t := s.observeBucket (observe record)
    cases model with
    | false =>
      simp only [Replayed.unlined, Bool.false_eq_true, if_false, List.map_append, List.map_cons,
        List.map_nil]
      rfl
    | true =>
      have hprevious : t.unlined.previousRecord = t.previousRecord.map TraceRecord.unlined := rfl
      rw [if_pos rfl, if_pos rfl, hprevious, compareModel_unlined, Replayed.count_unlined]
      simp only [Replayed.unlined, List.map_append, List.map_cons, List.map_nil]
      rfl

theorem Replayed.foldl_unlined (model : Bool) (s : Replayed) (records : List TraceRecord) :
    (records.map TraceRecord.unlined).foldl (Replayed.step model) s.unlined =
      (records.foldl (Replayed.step model) s).unlined := by
  induction records generalizing s with
  | nil => rfl
  | cons record records ih =>
    rw [List.map_cons, List.foldl_cons, List.foldl_cons, Replayed.step_unlined, ih]

/-- Nothing reported depends on a source line. -/
theorem report_unlined (model : Bool) (malformedLines nonemptyLines : Nat) (f : Filtered) :
    report model malformedLines nonemptyLines f.unlined =
      (report model malformedLines nonemptyLines f).unlined := by
  have hreplayed : (f.records.map TraceRecord.unlined).foldl (Replayed.step model) {} =
      (f.records.foldl (Replayed.step model) {}).unlined :=
    Replayed.foldl_unlined model {} f.records
  have hrecords : f.unlined.records = f.records.map TraceRecord.unlined := rfl
  simp only [report, hrecords, hreplayed, List.length_map]
  rfl

/-- **The replay does not depend on the order of the records in the file**: the
same records with distinct keys give the same results, distributions and
counters, up to source lines. -/
theorem replay_perm (model : Bool) (malformedLines nonemptyLines : Nat) {l l' : List TraceRecord}
    (hkeys : (l.map TraceRecord.key).Nodup)
    (hperm : (l.map TraceRecord.unlined).Perm (l'.map TraceRecord.unlined)) :
    (replay model malformedLines nonemptyLines l).unlined =
      (replay model malformedLines nonemptyLines l').unlined := by
  have hfiltered : ∀ records : List TraceRecord,
      ((sortRecords records).foldl Filtered.step {}).unlined =
        ((sortRecords records).map TraceRecord.unlined).foldl Filtered.step {} :=
    fun records => (Filtered.foldl_unlined {} (sortRecords records)).symm
  rw [replay, replay, ← report_unlined, ← report_unlined, hfiltered, hfiltered,
    sortRecords_unlined hkeys hperm]

/-- Two records of one tick, emitted in the order of their sequence numbers and against it. -/
theorem replay_perm_swapped :
    let a : TraceRecord := { seq := 1, master := "MSH2", tickFirstAttempt := 10, tickComplete := 12,
                             addr := 0x06004000, rw := "R", kind := "read", sourceLine := 1 }
    let b : TraceRecord := { seq := 2, master := "SSH2", tickFirstAttempt := 10, tickComplete := 12,
                             addr := 0x06004000, rw := "W", kind := "write", sourceLine := 2 }
    (replay true 0 2 [a, b]).unlined =
      (replay true 0 2 [{ b with sourceLine := 1 }, { a with sourceLine := 2 }]).unlined :=
  replay_perm true 0 2 (by decide) (List.Perm.swap ..)

/-! ### The checks of `main` -/

/-- The counters of a replay add up to its records. -/
structure Classified (model : Bool) (s : Replayed) : Prop where
  cumulative :
    s.cumulativeAgreementCount + s.cumulativeMismatchCount + s.knownGapCount = s.results.length
  normalized : model = true →
    s.normalizedAgreementCount + s.normalizedMismatchCount = s.results.length

theorem compareModel_classification (r : ReplayResult) (previous : Option TraceRecord)
    (before after : Nat) :
    (compareModel r previous before after).classification = "known_ymir_wait_model_gap" ∨
      (compareModel r previous before after).classification = "agreement" ∨
      (compareModel r previous before after).classification = "mismatch" := by
  simp only [compareModel]
  split
  · exact Or.inl rfl
  · split
    · exact Or.inr (Or.inl rfl)
    · exact Or.inr (Or.inr rfl)

/-- A classified result is counted once. -/
theorem Replayed.count_cumulative (s : Replayed) {r : ReplayResult}
    (h : r.classification = "known_ymir_wait_model_gap" ∨ r.classification = "agreement" ∨
      r.classification = "mismatch") :
    (s.count r).cumulativeAgreementCount + (s.count r).cumulativeMismatchCount +
        (s.count r).knownGapCount =
      s.cumulativeAgreementCount + s.cumulativeMismatchCount + s.knownGapCount + 1 := by
  simp only [Replayed.count]
  rcases h with h | h | h <;> simp [h] <;> omega

theorem Replayed.count_normalized (s : Replayed) (r : ReplayResult) :
    (s.count r).normalizedAgreementCount + (s.count r).normalizedMismatchCount =
      s.normalizedAgreementCount + s.normalizedMismatchCount + 1 := by
  simp only [Replayed.count]
  split <;> omega

theorem Classified.step {model : Bool} {s : Replayed} (h : Classified model s)
    (record : TraceRecord) : Classified model (s.step model record) := by
  rw [Replayed.step]
  cases parseMaster record.master with
  | none => exact h
  | some master =>
    dsimp only
    set t := s.observeBucket (observe record) with ht
    have hcumulative : t.cumulativeAgreementCount + t.cumulativeMismatchCount + t.knownGapCount =
        t.results.length := h.cumulative
    cases model with
    | false =>
      refine ⟨?_, fun hmodel => absurd hmodel Bool.false_ne_true⟩
      show t.cumulativeAgreementCount + 1 + t.cumulativeMismatchCount + t.knownGapCount =
        (t.results ++ [_]).length
      rw [List.length_append, List.length_singleton]
      omega
    | true =>
      have hnormalized : t.normalizedAgreementCount + t.normalizedMismatchCount =
          t.results.length := h.normalized rfl
      rw [if_pos rfl]
      refine ⟨?_, fun _ => ?_⟩
      · show _ = (t.results ++ [_]).length
        rw [List.length_append, List.length_singleton, ← hcumulative]
        exact t.count_cumulative (compareModel_classification _ _ _ _)
      · show _ = (t.results ++ [_]).length
        rw [List.length_append, List.length_singleton, ← hnormalized]
        exact t.count_normalized _

/-- `main` never reports that its classification invariants failed. -/
theorem report_classified (model : Bool) (malformedLines nonemptyLines : Nat) (f : Filtered) :
    Classified model (report model malformedLines nonemptyLines f).replayed := by
  have hfold : ∀ (records : List TraceRecord) (s : Replayed), Classified model s →
      Classified model (records.foldl (Replayed.step model) s) := by
    intro records
    induction records with
    | nil => exact fun s h => h
    | cons record records ih => exact fun s h => ih _ (h.step record)
  exact hfold f.records {} ⟨rfl, fun _ => rfl⟩

end Saturnis.Replay
