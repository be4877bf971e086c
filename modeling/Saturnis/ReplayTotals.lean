/-
The totals of a replay.

Every event of a file is a record or a malformed line; every record is included
or excluded for one reason; every included record is counted once in each
distribution, and is classified once.

* `loadInputRecords_counted` — what the loaders count;
* `Filtered.Conserved.step`, `Replayed.Conserved.step` — a record is counted once;
* `replay_conserved` — the totals of a report, and the checks of `main` pass.
-/
import Saturnis.ReplayOrder
import Saturnis.Tally

namespace Saturnis.Replay

open Tally

/-- `load_input_records`, on the contents of the file. -/
def loadInputRecords (path : List Char) (contents : List Byte) : Bool × Loading :=
  if path.length ≥ 4 ∧ path.drop (path.length - 4) = ".bin".toList then loadBinaryRecords contents
  else loadJsonlRecords (contents.map fun b => Char.ofNat b.toNat)

/-- The checks of `main` on the counters of the loop; a text is an error exit. -/
def Report.check (includeModelComparison : Bool) (r : Report) : Option String :=
  let recordsProcessed := r.replayed.results.length
  if r.replayed.cumulativeAgreementCount + r.replayed.cumulativeMismatchCount +
      r.replayed.knownGapCount ≠ recordsProcessed then
    some "error: classification invariant failed"
  else if includeModelComparison ∧
      r.replayed.normalizedAgreementCount + r.replayed.normalizedMismatchCount ≠
        recordsProcessed then
    some "error: normalized invariant failed"
  else none

/-! ### Loading -/

/-- Every event is a record or malformed. -/
def Loading.Counted (l : Loading) : Prop :=
  l.records.length + l.stats.malformedLines = l.stats.totalEvents

theorem Loading.Counted.take {l : Loading} (h : l.Counted) (parsed : Option TraceRecord) :
    (l.take parsed).Counted := by
  rw [Loading.Counted] at h
  cases parsed with
  | none =>
    show l.records.length + (l.stats.malformedLines + 1) = l.stats.totalEvents + 1
    omega
  | some rec =>
    show (l.records ++ [rec]).length + l.stats.malformedLines = l.stats.totalEvents + 1
    rw [List.length_append, List.length_singleton]
    omega

theorem loadLines_counted (lineNumber : Nat) (lines : List (List Char)) {l : Loading}
    (h : l.Counted) : (loadLines lineNumber lines l).Counted := by
  induction lines generalizing lineNumber l with
  | nil => exact h
  | cons line lines ih =>
    rw [loadLines]
    split
    · exact ih _ h
    · exact ih _ (h.take _)

theorem loadBinaryLoop_counted (fuel index : Nat) (input : List Byte) {l : Loading}
    (h : l.Counted) : (loadBinaryLoop fuel index input l).2.Counted := by
  induction fuel generalizing index input l with
  | zero => exact h
  | succ fuel ih =>
    simp only [loadBinaryLoop]
    split
    · exact h
    · split
      · exact h
      · exact ih _ _ (h.take _)

theorem loadInputRecords_counted (path : List Char) (contents : List Byte) :
    (loadInputRecords path contents).2.Counted := by
  rw [loadInputRecords]
  split
  · simp only [loadBinaryRecords]
    split_ifs
    · exact rfl
    · exact rfl
    · exact rfl
    · exact rfl
    · exact loadBinaryLoop_counted _ _ _ rfl
  · exact loadLines_counted _ _ rfl

/-! ### Filtering -/

/-- Every record so far is included once in each distribution, or excluded. -/
structure Filtered.Conserved (f : Filtered) (seen : Nat) : Prop where
  master : SumsTo f.includedMaster f.records.length
  region : SumsTo f.includedRegion f.records.length
  size : SumsTo f.includedSize f.records.length
  rw : SumsTo f.includedRw f.records.length
  accessKind : SumsTo f.includedAccessKind f.records.length
  masterRegion : SumsTo f.includedMasterRegion f.records.length
  cacheBucket : SumsTo f.includedCacheBucket f.records.length
  combined : SumsTo f.includedMasterRegionAccessKindCacheBucket f.records.length
  excluded : ∃ n, SumsTo f.excludedReason n ∧ f.records.length + n = seen

theorem Filtered.conserved_empty : Filtered.Conserved {} 0 :=
  ⟨sumsTo_empty, sumsTo_empty, sumsTo_empty, sumsTo_empty, sumsTo_empty, sumsTo_empty, sumsTo_empty,
    sumsTo_empty, 0, sumsTo_empty, rfl⟩

theorem Filtered.Conserved.step {f : Filtered} {seen : Nat} (h : f.Conserved seen)
    (record : TraceRecord) : (f.step record).Conserved (seen + 1) := by
  obtain ⟨n, hexcluded, hseen⟩ := h.excluded
  rw [Filtered.step]
  cases parseMaster record.master with
  | none =>
    refine ⟨h.master, h.region, h.size, h.rw, h.accessKind, h.masterRegion, h.cacheBucket,
      h.combined, n + 1, hexcluded.add _ 1, ?_⟩
    show f.records.length + (n + 1) = seen + 1
    omega
  | some master =>
    -- the record is appended
    have hlength : (f.records ++ [record]).length = f.records.length + 1 := List.length_append
    refine ⟨?_, ?_, ?_, ?_, ?_, ?_, ?_, ?_, n, hexcluded, ?_⟩
    · exact hlength ▸ h.master.add _ 1
    · exact hlength ▸ h.region.add _ 1
    · exact hlength ▸ h.size.add _ 1
    · exact hlength ▸ h.rw.add _ 1
    · exact hlength ▸ h.accessKind.add _ 1
    · exact hlength ▸ h.masterRegion.add _ 1
    · exact hlength ▸ h.cacheBucket.add _ 1
    · exact hlength ▸ h.combined.add _ 1
    · show (f.records ++ [record]).length + n = seen + 1
      rw [hlength]
      omega

theorem Filtered.Conserved.foldl {f : Filtered} {seen : Nat} (h : f.Conserved seen)
    (records : List TraceRecord) :
    (records.foldl Filtered.step f).Conserved (seen + records.length) := by
  induction records generalizing f seen with
  | nil => exact h
  | cons record records ih =>
    have hrest := ih (h.step record)
    rw [Nat.add_assoc, Nat.add_comm 1] at hrest
    exact hrest

/-- Every record that is kept has a known master. -/
theorem Filtered.foldl_known {f : Filtered} (h : ∀ r ∈ f.records, (parseMaster r.master).isSome)
    (records : List TraceRecord) :
    ∀ r ∈ (records.foldl Filtered.step f).records, (parseMaster r.master).isSome := by
  induction records generalizing f with
  | nil => exact h
  | cons record records ih =>
    refine ih ?_
    rw [Filtered.step]
    cases hmaster : parseMaster record.master with
    | none => exact h
    | some master =>
      intro r hr
      rcases List.mem_append.mp hr with hold | hnew
      · exact h r hold
      · rw [List.mem_singleton.mp hnew, hmaster]
        rfl

/-! ### Replaying -/

/-- Every record so far is processed and counted once in each distribution; a
normalized mismatch is counted once in each of its own. -/
structure Replayed.Conserved (model : Bool) (s : Replayed) (seen : Nat) : Prop where
  processed : s.results.length = seen
  histogram : SumsTo s.histogram seen
  observed : SumsTo (fun key => (s.observedBucketStats key).map (·.sampleSize)) seen
  samples : model = true → SumsTo s.sampleSizeByMasterRegionAccessKind seen
  byMaster : SumsTo s.normalizedByMaster s.normalizedMismatchCount
  byRegion : SumsTo s.normalizedByRegion s.normalizedMismatchCount
  bySize : SumsTo s.normalizedBySize s.normalizedMismatchCount
  byMasterRegionAccessKind :
    SumsTo s.normalizedMismatchByMasterRegionAccessKind s.normalizedMismatchCount

theorem Replayed.conserved_empty (model : Bool) : Replayed.Conserved model {} 0 :=
  ⟨rfl, sumsTo_empty, sumsTo_empty, fun _ => sumsTo_empty, sumsTo_empty, sumsTo_empty,
    sumsTo_empty, sumsTo_empty⟩

/-- A record adds one sample to its bucket. -/
theorem Replayed.observeBucket_sumsTo {s : Replayed} {seen : Nat}
    (h : SumsTo (fun key => (s.observedBucketStats key).map (·.sampleSize)) seen)
    (r : ReplayResult) :
    SumsTo (fun key => ((s.observeBucket r).observedBucketStats key).map (·.sampleSize))
      (seen + 1) := by
  have hadd := h.add (r.record.master ++ " | " ++ regionName r.record.addr ++ " | " ++
    r.record.kind ++ " | " ++ r.cacheBucket) 1
  convert hadd using 1
  funext key
  dsimp only [Replayed.observeBucket]
  by_cases hkey : key = r.record.master ++ " | " ++ regionName r.record.addr ++ " | " ++
      r.record.kind ++ " | " ++ r.cacheBucket
  · rw [hkey, Function.update_self, Function.update_self]
    cases s.observedBucketStats (r.record.master ++ " | " ++ regionName r.record.addr ++ " | " ++
      r.record.kind ++ " | " ++ r.cacheBucket) with
    | none => rfl
    | some stats => rfl
  · rw [Function.update_of_ne hkey, Function.update_of_ne hkey]

/-- The map of the mismatches has no entry for an agreement. -/
theorem Replayed.count_mismatches (s : Replayed)
    (h : SumsTo s.normalizedMismatchByMasterRegionAccessKind s.normalizedMismatchCount)
    (r : ReplayResult) :
    SumsTo (s.count r).normalizedMismatchByMasterRegionAccessKind
      (s.count r).normalizedMismatchCount := by
  dsimp only [Replayed.count]
  by_cases hdelta : r.normalizedDeltaWait = 0
  · rw [if_neg (not_not.mpr hdelta), if_pos hdelta]
    exact h
  · rw [if_pos hdelta, if_neg hdelta]
    exact h.add _ 1

theorem Replayed.Conserved.step {model : Bool} {s : Replayed} {seen : Nat}
    (h : s.Conserved model seen) {record : TraceRecord}
    (hknown : (parseMaster record.master).isSome = true) :
    (s.step model record).Conserved model (seen + 1) := by
  obtain ⟨master, hmaster⟩ := Option.isSome_iff_exists.mp hknown
  have hobserved := Replayed.observeBucket_sumsTo h.observed (observe record)
  have hlength : ∀ r : ReplayResult, (s.results ++ [r]).length = seen + 1 := by
    intro r
    rw [List.length_append, List.length_singleton, h.processed]
  rw [Replayed.step, hmaster]
  cases model with
  | false =>
    exact ⟨hlength _, h.histogram.add _ 1, hobserved, fun hmodel => absurd hmodel Bool.false_ne_true,
      h.byMaster, h.byRegion, h.bySize, h.byMasterRegionAccessKind⟩
  | true =>
    refine ⟨hlength _, h.histogram.add _ 1, hobserved, fun _ => (h.samples rfl).add _ 1,
      h.byMaster.add _ _, h.byRegion.add _ _, h.bySize.add _ _, ?_⟩
    exact (s.observeBucket (observe record)).count_mismatches h.byMasterRegionAccessKind _

theorem Replayed.Conserved.foldl {model : Bool} {s : Replayed} {seen : Nat}
    (h : s.Conserved model seen) {records : List TraceRecord}
    (hknown : ∀ r ∈ records, (parseMaster r.master).isSome = true) :
    (records.foldl (Replayed.step model) s).Conserved model (seen + records.length) := by
  induction records generalizing s seen with
  | nil => exact h
  | cons record records ih =>
    have hrest := ih (h.step (hknown record (List.mem_cons_self ..)))
      (fun r hr => hknown r (List.mem_cons_of_mem _ hr))
    rw [Nat.add_assoc, Nat.add_comm 1] at hrest
    exact hrest

/-! ### The report -/

/-- The totals of a report. -/
structure Report.Conserved (model : Bool) (r : Report) : Prop where
  events : r.includedEvents + r.excludedEvents = r.totalEvents
  excludedReason : SumsTo r.filtered.excludedReason r.excludedEvents
  includedMaster : SumsTo r.filtered.includedMaster r.includedEvents
  includedRegion : SumsTo r.filtered.includedRegion r.includedEvents
  includedSize : SumsTo r.filtered.includedSize r.includedEvents
  includedRw : SumsTo r.filtered.includedRw r.includedEvents
  includedAccessKind : SumsTo r.filtered.includedAccessKind r.includedEvents
  includedMasterRegion : SumsTo r.filtered.includedMasterRegion r.includedEvents
  includedCacheBucket : SumsTo r.filtered.includedCacheBucket r.includedEvents
  includedMasterRegionAccessKindCacheBucket :
    SumsTo r.filtered.includedMasterRegionAccessKindCacheBucket r.includedEvents
  replayed : r.replayed.Conserved model r.includedEvents
  classified : Classified model r.replayed

theorem Report.Conserved.check_eq_none {model : Bool} {r : Report} (h : r.Conserved model) :
    r.check model = none := by
  rw [Report.check, if_neg (not_not.mpr h.classified.cumulative), if_neg]
  rintro ⟨hmodel, hne⟩
  exact hne (h.classified.normalized hmodel)

theorem report_conserved (model : Bool) {malformedLines nonemptyLines seen : Nat} {f : Filtered}
    (hf : f.Conserved seen) (hknown : ∀ r ∈ f.records, (parseMaster r.master).isSome = true)
    (hevents : seen + malformedLines = nonemptyLines) :
    (report model malformedLines nonemptyLines f).Conserved model := by
  obtain ⟨n, hexcluded, hseen⟩ := hf.excluded
  have hle : nonemptyLines ≥ f.records.length := by omega
  have hsub : (report model malformedLines nonemptyLines f).excludedEvents =
      n + malformedLines := by
    show (if nonemptyLines ≥ f.records.length then _ else _) = _
    rw [if_pos hle]
    omega
  have hreplayed := (Replayed.conserved_empty model).foldl hknown
  rw [Nat.zero_add] at hreplayed
  refine ⟨?_, ?_, hf.master, hf.region, hf.size, hf.rw, hf.accessKind, hf.masterRegion,
    hf.cacheBucket, hf.combined, hreplayed, report_classified model _ _ f⟩
  · rw [hsub]
    show f.records.length + (n + malformedLines) = nonemptyLines
    omega
  · rw [hsub]
    exact hexcluded.add _ _

/-- **The totals of a replay.**  Of a file that loads, every event is included
or excluded, and the counts of both add up; the checks of `main` pass. -/
theorem replay_conserved (model : Bool) (path : List Char) (contents : List Byte) {l : Loading}
    (hload : loadInputRecords path contents = (true, l)) :
    (replay model l.stats.malformedLines l.stats.totalEvents l.records).Conserved model ∧
      (replay model l.stats.malformedLines l.stats.totalEvents l.records).check model = none := by
  have hcounted : l.Counted := by
    have h := loadInputRecords_counted path contents
    rwa [hload] at h
  have hfiltered := Filtered.conserved_empty.foldl (sortRecords l.records)
  rw [Nat.zero_add, sortRecords, List.length_mergeSort] at hfiltered
  have hnone : ∀ r ∈ ({} : Filtered).records, (parseMaster r.master).isSome = true := by
    intro r hr
    cases hr
  have hknown := Filtered.foldl_known hnone (sortRecords l.records)
  have hconserved := report_conserved model hfiltered hknown hcounted
  exact ⟨hconserved, hconserved.check_eq_none⟩

/-- A text of bytes comes back from a file. -/
theorem map_ofNat_toNat {text : List Char} (h : (text.all fun c => c.toNat < 256) = true) :
    (text.map fun c => BitVec.ofNat 8 c.toNat).map (fun b => Char.ofNat b.toNat) = text := by
  rw [List.map_map]
  refine (List.map_congr_left fun c hc => ?_).trans text.map_id
  have hlt : c.toNat < 256 := of_decide_eq_true (List.all_eq_true.mp h c hc)
  rw [Function.comp_apply, BitVec.toNat_ofNat, Nat.mod_eq_of_lt hlt, Char.ofNat_toNat, id]

/-- The line of a read by a master of that name. -/
def readLine (master : String) : List Char :=
  "\x7b\"seq\":1,\"master\":\"".toList ++ master.toList ++
    "\",\"tick_first_attempt\":4,\"tick_complete\":6,\"addr\":\"0x0\",\"size\":4,".toList ++
    "\"rw\":\"R\",\"kind\":\"read\",\"service_cycles\":2,\"retries\":0\x7d\n".toList

/-- Reads of two masters and of an unknown one, and a line without fields. -/
def mixedText : List Char := readLine "MSH2" ++ ['?', '\n'] ++ readLine "SCU" ++ readLine "DMA"

/-- The file with that text. -/
def mixedFile : List Byte := mixedText.map fun c => BitVec.ofNat 8 c.toNat

/-- What is loaded of it. -/
def mixedLoaded : Loading := (loadJsonlRecords mixedText).2

theorem replay_conserved_mixedFile :
    mixedLoaded.stats.totalEvents = 4 ∧ mixedLoaded.stats.malformedLines = 1 ∧
      mixedLoaded.records.map TraceRecord.master = ["MSH2", "SCU", "DMA"] ∧
      (replay true 1 4 mixedLoaded.records).Conserved true ∧
      (replay true 1 4 mixedLoaded.records).check true = none := by
  have hloaded : mixedLoaded.stats.totalEvents = 4 ∧ mixedLoaded.stats.malformedLines = 1 ∧
      mixedLoaded.records.map TraceRecord.master = ["MSH2", "SCU", "DMA"] := by
    decide +kernel
  obtain ⟨htotal, hmalformed, hmasters⟩ := hloaded
  have hload : loadInputRecords "a.jsonl".toList mixedFile = (true, mixedLoaded) := by
    have htext : mixedFile.map (fun b => Char.ofNat b.toNat) = mixedText :=
      map_ofNat_toNat (by decide +kernel)
    rw [loadInputRecords, if_neg (by decide)]
    exact congrArg loadJsonlRecords htext
  have hconserved := replay_conserved true "a.jsonl".toList mixedFile hload
  rw [htotal, hmalformed] at hconserved
  exact ⟨htotal, hmalformed, hmasters, hconserved⟩

end Saturnis.Replay
