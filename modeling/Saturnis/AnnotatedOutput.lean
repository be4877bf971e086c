/-
The annotated output of a replay, and what `parse_record` makes of it.

The writer gives the fields of the record first, then the observed times and,
with a model comparison, the predictions; nothing of that stands before a key of
the record.  But it puts a backslash before quotes and backslashes, which the
parser does not take away, and `rw` or `kind` may be the name of a later key:
then the value behind that text is read for it.

* `takeWhile_jsonEscape_iff` — a text is read back if nothing in it is escaped;
* `finds_kind`, `finds_serviceCycles`, `finds_retries` — the entry that is read;
* `parseRecord_annotatedLine_iff` — so when a record is read back.
-/
import Mathlib.Data.List.TakeWhile
import Saturnis.ReplayLoop
import Saturnis.TraceJson

namespace Saturnis.Replay

/-! ### The writer -/

def jsonEscape : List Char → List Char
  | [] => []
  | c :: input =>
    if c = '"' ∨ c = '\\' then '\\' :: c :: jsonEscape input else c :: jsonEscape input

/-- An unsigned number, as a stream writes it. -/
def unsignedValue {w : Nat} (x : BitVec w) : JsonValue := .number (decimal x.toNat)

/-- A signed number. -/
def signedValue (x : Int) : JsonValue := .number (signedDecimal x)

def escapedValue (text : String) : JsonValue := .text (jsonEscape text.toList)

def recordEntries (record : TraceRecord) : List Entry :=
  [("seq".toList, unsignedValue record.seq),
    ("master".toList, escapedValue record.master),
    ("tick_first_attempt".toList, unsignedValue record.tickFirstAttempt),
    ("tick_complete".toList, unsignedValue record.tickComplete),
    ("addr".toList, escapedValue record.addrText),
    ("size".toList, unsignedValue record.size),
    ("rw".toList, escapedValue record.rw),
    ("kind".toList, escapedValue record.kind),
    ("service_cycles".toList, unsignedValue record.serviceCycles),
    ("retries".toList, unsignedValue record.retries)]

def observedEntries (r : ReplayResult) : List Entry :=
  [("observed_service_cycles".toList, unsignedValue r.ymirServiceCycles),
    ("observed_retries".toList, unsignedValue r.ymirRetries),
    ("observed_elapsed".toList, unsignedValue r.ymirElapsed),
    ("observed_wait".toList, unsignedValue r.ymirWait),
    ("observed_wait_metric_kind".toList, .text r.ymirWaitMetricKind.toList),
    ("cache_bucket".toList, .text r.cacheBucket.toList),
    ("classification".toList, .text r.classification.toList)]

def modelEntries (r : ReplayResult) : List Entry :=
  [("model_predicted_wait".toList, unsignedValue r.arbiterPredictedWait),
    ("model_predicted_service".toList, unsignedValue r.arbiterPredictedService),
    ("model_predicted_total".toList, unsignedValue r.arbiterPredictedTotal),
    ("model_vs_trace_wait_delta".toList, signedValue r.normalizedDeltaWait),
    ("model_vs_trace_total_delta".toList, signedValue r.normalizedDeltaTotal),
    ("cumulative_drift_wait".toList, signedValue r.cumulativeDriftWait),
    ("cumulative_drift_total".toList, signedValue r.cumulativeDriftTotal),
    ("known_gap_reason".toList, .text r.knownGapReason.toList)]

/-- The line of a result, without the newline. -/
def annotatedLine (includeModelComparison : Bool) (r : ReplayResult) : List Char :=
  renderLine (recordEntries r.record ++
    (observedEntries r ++ if includeModelComparison then modelEntries r else []))

/-! ### Escaping -/

/-- Nothing in the text is escaped. -/
def Unescaped (chars : List Char) : Prop := '"' ∉ chars ∧ '\\' ∉ chars

instance (chars : List Char) : Decidable (Unescaped chars) := inferInstanceAs (Decidable (_ ∧ _))

theorem length_le_jsonEscape (chars : List Char) : chars.length ≤ (jsonEscape chars).length := by
  induction chars with
  | nil => exact Nat.le_refl _
  | cons c chars ih =>
    rw [jsonEscape]
    split
    · simp only [List.length_cons]
      omega
    · simp only [List.length_cons]
      omega

theorem jsonEscape_eq_iff (chars : List Char) : jsonEscape chars = chars ↔ Unescaped chars := by
  induction chars with
  | nil => exact ⟨fun _ => by decide, fun _ => rfl⟩
  | cons c chars ih =>
    rw [jsonEscape, Unescaped]
    by_cases hc : c = '"' ∨ c = '\\'
    · rw [if_pos hc]
      constructor
      · intro h
        have hlength := congrArg List.length h
        have hle := length_le_jsonEscape chars
        simp only [List.length_cons] at hlength
        omega
      · rintro ⟨hquote, hslash⟩
        rcases hc with rfl | rfl
        · exact absurd (List.mem_cons_self ..) hquote
        · exact absurd (List.mem_cons_self ..) hslash
    · rw [if_neg hc, List.cons.injEq, ih, Unescaped, List.mem_cons, List.mem_cons]
      rw [not_or] at hc
      constructor
      · rintro ⟨-, hquote, hslash⟩
        exact ⟨fun h => h.elim (hc.1 ·.symm) hquote, fun h => h.elim (hc.2 ·.symm) hslash⟩
      · rintro ⟨hquote, hslash⟩
        exact ⟨rfl, fun h => hquote (Or.inr h), fun h => hslash (Or.inr h)⟩

theorem quote_mem_jsonEscape (chars : List Char) : '"' ∈ jsonEscape chars ↔ '"' ∈ chars := by
  induction chars with
  | nil => exact Iff.rfl
  | cons c chars ih =>
    rw [jsonEscape]
    split
    · simp [ih]
    · simp [ih]

/-- An escaped text is read back if nothing in it is escaped. -/
theorem takeWhile_jsonEscape_iff (chars rest : List Char) :
    (jsonEscape chars ++ '"' :: rest).takeWhile (fun c => c ≠ '"') = chars ↔ Unescaped chars := by
  have hread : '"' ∉ chars →
      (jsonEscape chars ++ '"' :: rest).takeWhile (fun c => c ≠ '"') = jsonEscape chars := by
    intro hquote
    exact takeWhile_quote (fun hmem => hquote ((quote_mem_jsonEscape chars).mp hmem)) rest
  constructor
  · intro h
    have hquote : '"' ∉ chars := by
      intro hmem
      rw [← h] at hmem
      exact absurd (List.mem_takeWhile_imp hmem) (by simp)
    rw [hread hquote] at h
    exact (jsonEscape_eq_iff chars).mp h
  · intro h
    rw [hread h.1]
    exact (jsonEscape_eq_iff chars).mpr h

/-! ### The record that is replayed -/

/-- What a record has that is parsed and whose master is known. -/
structure Replayable (record : TraceRecord) : Prop where
  master : Plain record.master.toList ∧ Unescaped record.master.toList
  addr : Plain record.addrText.toList ∧ Unescaped record.addrText.toList
  parsed : parseAddr record.addrText.toList = some record.addr

theorem parseAddr_mem {text : List Char} {x : BitVec 32} (h : parseAddr text = some x) {c : Char}
    (hc : c ∈ text) : digitValue c < 16 ∨ c = 'x' ∨ c = 'X' := by
  rw [parseAddr] at h
  obtain ⟨value, hvalue, -⟩ := Option.map_eq_some_iff.mp h
  -- behind a marker there are only digits
  have hmarked : ∀ x, x = 'x' ∨ x = 'X' → ['0', x] <+: text →
      fromChars 16 (2 ^ 32) (text.drop 2) = some value →
      digitValue c < 16 ∨ c = 'x' ∨ c = 'X' := by
    rintro x hx ⟨digits, rfl⟩ hdigits
    rcases List.mem_append.mp hc with hc | hc
    · rcases List.mem_pair.mp hc with rfl | rfl
      · exact Or.inl (by decide)
      · exact Or.inr hx
    · exact Or.inl (fromChars_digits hdigits hc)
  split at hvalue
  · rename_i hmarker
    rw [Bool.or_eq_true, List.isPrefixOf_iff_prefix, List.isPrefixOf_iff_prefix] at hmarker
    rcases hmarker with hmarker | hmarker
    · exact hmarked 'x' (Or.inl rfl) hmarker hvalue
    · exact hmarked 'X' (Or.inr rfl) hmarker hvalue
  · exact Or.inl (fromChars_digits hvalue hc)

theorem parseAddr_plain {text : List Char} {x : BitVec 32} (h : parseAddr text = some x) :
    Plain text ∧ Unescaped text := by
  have hmem : ∀ c, 16 ≤ digitValue c → c ≠ 'x' → c ≠ 'X' → c ∉ text := by
    intro c hdigit hlower hupper hc
    rcases parseAddr_mem h hc with hlt | rfl | rfl
    · omega
    · exact hlower rfl
    · exact hupper rfl
  have hquote : '"' ∉ text := hmem _ (by decide) (by decide) (by decide)
  refine ⟨⟨hquote, hmem _ (by decide) (by decide) (by decide), fun hkey => ?_⟩,
    hquote, hmem _ (by decide) (by decide) (by decide)⟩
  rw [parseAddr_keys _ hkey] at h
  exact absurd h (by simp)

theorem parseMaster_plain {master : String} (h : (parseMaster master).isSome = true) :
    Plain master.toList ∧ Unescaped master.toList := by
  rw [parseMaster] at h
  split_ifs at h with hm hs hd
  · rw [hm]; decide
  · rw [hs]; decide
  · rw [hd]; decide
  · exact absurd h (by simp)

theorem replayable_of_parseRecord {line : List Char} {sourceLine : Nat} {record : TraceRecord}
    (h : parseRecord line sourceLine = some record)
    (hmaster : (parseMaster record.master).isSome = true) : Replayable record := by
  obtain ⟨value, hvalue⟩ := exists_values h
  have hread := ((parseRecord_iff hvalue).mp h).1
  have haddr : parseAddr record.addrText.toList = some record.addr := by
    rw [← hread.addrText, String.toList_ofList]
    exact hread.addr
  exact ⟨parseMaster_plain hmaster, parseAddr_plain haddr, haddr⟩

/-! ### Reading it back -/

/-- A decimal numeral. -/
def Numeral (text : List Char) (n : Nat) : Prop :=
  text ≠ [] ∧ (∀ c ∈ text, c.isDigit = true) ∧ Nat.ofDigitChars 10 text 0 = n

/-- Nothing in `rw` and `kind` is escaped, and where one of them is the name of a
later key, the value behind it is the right one. -/
structure ReadsBack (record : TraceRecord) : Prop where
  rw : Unescaped record.rw.toList
  kind : Unescaped record.kind.toList
  serviceCycles : record.rw = "service_cycles" →
    ∃ n < 2 ^ 64, Numeral record.kind.toList n ∧ n % 2 ^ 32 = record.serviceCycles.toNat
  retries : record.rw = "retries" →
    ∃ n < 2 ^ 64, Numeral record.kind.toList n ∧ n % 2 ^ 32 = record.retries.toNat
  shifted : record.kind = "retries" → record.serviceCycles = record.retries

theorem isDigit_of_digitValue {c : Char} (h : digitValue c < 10) : c.isDigit = true := by
  rw [digitValue] at h
  split_ifs at h with hdigit
  · simp only [Char.isDigit, Bool.and_eq_true, decide_eq_true_eq]
    exact hdigit
  · omega
  · omega
  · omega

theorem fromChars_ten_iff {bound n : Nat} {text : List Char} :
    fromChars 10 bound text = some n ↔ Numeral text n ∧ n < bound := by
  have hfold : (∀ c ∈ text, c.isDigit = true) →
      text.foldl (fun value c => 10 * value + digitValue c) 0 = Nat.ofDigitChars 10 text 0 := by
    intro hdigits
    rw [Nat.ofDigitChars_eq_foldl]
    exact List.foldl_ext _ _ _ fun value c hc => by rw [(digitValue_of_isDigit (hdigits c hc)).1]
  constructor
  · intro h
    have hdigits : ∀ c ∈ text, c.isDigit = true :=
      fun c hc => isDigit_of_digitValue (fromChars_digits h hc)
    rw [fromChars] at h
    split_ifs at h with hbad
    rw [hfold hdigits] at h
    dsimp only at h
    split_ifs at h with hlt
    obtain rfl := Option.some_inj.mp h
    rw [not_or] at hbad
    exact ⟨⟨hbad.1, hdigits, rfl⟩, hlt⟩
  · rintro ⟨⟨hne, hdigits, hvalue⟩, hlt⟩
    exact fromChars_eq hne (fun c hc => (digitValue_of_isDigit (hdigits c hc)).2)
      ((hfold hdigits).trans hvalue) hlt

/-- What is made of a text at the key of a 32-bit field. -/
theorem parseU64_setWidth_iff {text : List Char} {x : BitVec 32} :
    (parseU64 text).map (BitVec.setWidth 32) = some x ↔
      ∃ n < 2 ^ 64, Numeral text n ∧ n % 2 ^ 32 = x.toNat := by
  have hcut : ∀ n < 2 ^ 64, (BitVec.ofNat 64 n).setWidth 32 = x ↔ n % 2 ^ 32 = x.toNat := by
    intro n hn
    rw [← BitVec.toNat_inj, BitVec.toNat_setWidth, BitVec.toNat_ofNat, Nat.mod_eq_of_lt hn]
  rw [parseU64, Option.map_map, Option.map_eq_some_iff]
  constructor
  · rintro ⟨n, hn, hx⟩
    obtain ⟨hnumeral, hlt⟩ := fromChars_ten_iff.mp hn
    exact ⟨n, hlt, hnumeral, (hcut n hlt).mp hx⟩
  · rintro ⟨n, hlt, hnumeral, hx⟩
    exact ⟨n, fromChars_ten_iff.mpr ⟨hnumeral, hlt⟩, (hcut n hlt).mpr hx⟩

/-! ### Where the keys are found -/

variable {record : TraceRecord} {extra : List Entry} {key : List Char}

/-- The entries before `rw`. -/
def leadingEntries (record : TraceRecord) : List Entry := (recordEntries record).take 6

namespace Replayable

theorem escaped_master (h : Replayable record) :
    escapedValue record.master = .text record.master.toList := by
  rw [escapedValue, (jsonEscape_eq_iff _).mpr h.master.2]

theorem escaped_addrText (h : Replayable record) :
    escapedValue record.addrText = .text record.addrText.toList := by
  rw [escapedValue, (jsonEscape_eq_iff _).mpr h.addr.2]

theorem passable (h : Replayable record) (hkey : key ∈ keys) :
    ∀ entry ∈ leadingEntries record, Passable key entry := by
  show ∀ entry ∈ [("seq".toList, _), ("master".toList, _), ("tick_first_attempt".toList, _),
    ("tick_complete".toList, _), ("addr".toList, _), ("size".toList, _)], Passable key entry
  rw [h.escaped_master, h.escaped_addrText]
  simp only [List.forall_mem_cons]
  exact ⟨passable_number (by decide) _, passable_text hkey (by decide) h.master.1,
    passable_number (by decide) _, passable_number (by decide) _,
    passable_text hkey (by decide) h.addr.1, passable_number (by decide) _, by simp⟩

end Replayable

/-- The line of a record, whatever is appended to it. -/
def recordLine (record : TraceRecord) (extra : List Entry) : List Char :=
  renderLine (recordEntries record ++ extra)

def rwEntry (record : TraceRecord) : Entry := ("rw".toList, escapedValue record.rw)

def kindEntry (record : TraceRecord) : Entry := ("kind".toList, escapedValue record.kind)

def serviceCyclesEntry (record : TraceRecord) : Entry :=
  ("service_cycles".toList, unsignedValue record.serviceCycles)

def retriesEntry (record : TraceRecord) : Entry := ("retries".toList, unsignedValue record.retries)

theorem recordLine_eq (record : TraceRecord) (extra : List Entry) :
    recordLine record extra = renderLine (leadingEntries record ++ rwEntry record ::
      kindEntry record :: serviceCyclesEntry record :: retriesEntry record :: extra) := rfl

/-- A text in which nothing is escaped, and that is not the key. -/
theorem passable_escaped {name : List Char} {text : String} (hname : name ∈ keys)
    (htext : Unescaped text.toList) (hne : text.toList ≠ key) :
    Passable key (name, escapedValue text) := by
  rw [escapedValue, (jsonEscape_eq_iff _).mpr htext]
  exact ⟨(keys_keyWord name hname).1, htext.1, fun h => hne (JsonValue.text.inj h)⟩

theorem escaped_eq_key {text : String} (htext : Unescaped text.toList)
    (heq : text.toList = key) : escapedValue text = .text key := by
  rw [escapedValue, (jsonEscape_eq_iff _).mpr htext, heq]

namespace Replayable

/-- The first six fields are read back. -/
theorem findValueSpan_leading (h : Replayable record) (hkey : key ∈ keys) {value : JsonValue}
    (hget : (leadingEntries record).lookup key = some value) (hvalue : value.WellFormed) :
    findValueSpan (recordLine record extra) key = some value.content := by
  rw [recordLine_eq]
  exact findValueSpan_renderLine (keys_keyWord key hkey) (h.passable hkey) hget hvalue

theorem finds_rw (h : Replayable record) :
    Finds (recordLine record extra) "rw".toList (Member.ofEntry (rwEntry record)) :=
  finds_renderLine (by decide) (h.passable (by decide)) rfl

/-- An `rw` that is the name of a later key is read for it. -/
theorem finds_of_rw (h : Replayable record) (hrw : Unescaped record.rw.toList) (hkey : key ∈ keys)
    (hne : key ≠ "rw".toList) (hget : (leadingEntries record).lookup key = none)
    (heq : record.rw.toList = key) :
    Finds (recordLine record extra) key (Member.ofEntry (kindEntry record)) := by
  rw [recordLine_eq, rwEntry, escaped_eq_key hrw heq]
  exact finds_renderLine_misread (keys_keyWord key hkey) (h.passable hkey) hget (by decide) hne
    (show ':' ∉ "kind".toList by decide)

theorem passable_rw (h : Replayable record) (hrw : Unescaped record.rw.toList) (hkey : key ∈ keys)
    (hne : record.rw.toList ≠ key) :
    ∀ entry ∈ leadingEntries record ++ [rwEntry record], Passable key entry := by
  rw [List.forall_mem_append]
  refine ⟨h.passable hkey, ?_⟩
  rw [List.forall_mem_singleton]
  exact passable_escaped (by decide) hrw hne

/-- The entry that is read for `kind`, also behind an `rw` of that name. -/
theorem finds_kind (h : Replayable record) (hrw : Unescaped record.rw.toList) :
    Finds (recordLine record extra) "kind".toList (Member.ofEntry (kindEntry record)) := by
  by_cases heq : record.rw.toList = "kind".toList
  · exact h.finds_of_rw hrw (by decide) (by decide) rfl heq
  · rw [recordLine_eq, List.append_cons]
    exact finds_renderLine (by decide) (h.passable_rw hrw (by decide) heq) rfl

/-- So is a `kind`. -/
theorem finds_of_kind (h : Replayable record) (hrw : Unescaped record.rw.toList)
    (hkind : Unescaped record.kind.toList) (hkey : key ∈ keys) (hne : key ≠ "kind".toList)
    (hget : (leadingEntries record ++ [rwEntry record]).lookup key = none)
    (hrwNe : record.rw.toList ≠ key) (heq : record.kind.toList = key) :
    Finds (recordLine record extra) key (Member.ofEntry (serviceCyclesEntry record)) := by
  rw [recordLine_eq, List.append_cons, kindEntry, escaped_eq_key hkind heq]
  exact finds_renderLine_misread (keys_keyWord key hkey) (h.passable_rw hrw hkey hrwNe) hget
    (by decide) hne (show ':' ∉ "service_cycles".toList by decide)

theorem passable_kind (h : Replayable record) (hrw : Unescaped record.rw.toList)
    (hkind : Unescaped record.kind.toList) (hkey : key ∈ keys) (hrwNe : record.rw.toList ≠ key)
    (hne : record.kind.toList ≠ key) :
    ∀ entry ∈ leadingEntries record ++ [rwEntry record] ++ [kindEntry record],
      Passable key entry := by
  rw [List.forall_mem_append]
  refine ⟨h.passable_rw hrw hkey hrwNe, ?_⟩
  rw [List.forall_mem_singleton]
  exact passable_escaped (by decide) hkind hne

/-- The entry that is read for `service_cycles`. -/
theorem finds_serviceCycles (h : Replayable record) (hrw : Unescaped record.rw.toList)
    (hkind : Unescaped record.kind.toList) :
    Finds (recordLine record extra) "service_cycles".toList (Member.ofEntry
      (if record.rw = "service_cycles" then kindEntry record else serviceCyclesEntry record)) := by
  split
  · rename_i heq
    exact h.finds_of_rw hrw (by decide) (by decide) rfl (congrArg String.toList heq)
  · rename_i hne
    have hrwNe : record.rw.toList ≠ "service_cycles".toList := fun h => hne (String.toList_inj.mp h)
    by_cases heq : record.kind.toList = "service_cycles".toList
    · exact h.finds_of_kind hrw hkind (by decide) (by decide) rfl hrwNe heq
    · rw [recordLine_eq, List.append_cons, List.append_cons]
      exact finds_renderLine (by decide) (h.passable_kind hrw hkind (by decide) hrwNe heq) rfl

/-- The entry that is read for `retries`. -/
theorem finds_retries (h : Replayable record) (hrw : Unescaped record.rw.toList)
    (hkind : Unescaped record.kind.toList) :
    Finds (recordLine record extra) "retries".toList (Member.ofEntry
      (if record.rw = "retries" then kindEntry record
        else if record.kind = "retries" then serviceCyclesEntry record
        else retriesEntry record)) := by
  split
  · rename_i heq
    exact h.finds_of_rw hrw (by decide) (by decide) rfl (congrArg String.toList heq)
  · rename_i hne
    have hrwNe : record.rw.toList ≠ "retries".toList := fun h => hne (String.toList_inj.mp h)
    split
    · rename_i heq
      exact h.finds_of_kind hrw hkind (by decide) (by decide) rfl hrwNe
        (congrArg String.toList heq)
    · rename_i hkindNe
      have hkindNe' : record.kind.toList ≠ "retries".toList :=
        fun h => hkindNe (String.toList_inj.mp h)
      rw [recordLine_eq, List.append_cons, List.append_cons, List.append_cons]
      refine finds_renderLine (by decide) ?_ rfl
      rw [List.forall_mem_append]
      refine ⟨h.passable_kind hrw hkind (by decide) hrwNe hkindNe', ?_⟩
      rw [List.forall_mem_singleton]
      exact passable_number (by decide) _

end Replayable

/-! ### What is read back -/

theorem wellFormed_escaped {text : String} (h : Unescaped text.toList) :
    (escapedValue text).WellFormed :=
  fun hmem => h.1 ((quote_mem_jsonEscape _).mp hmem)

theorem content_escaped {text : String} (h : Unescaped text.toList) :
    (escapedValue text).content = text.toList :=
  (jsonEscape_eq_iff _).mpr h

/-- A text that is read back has nothing to escape. -/
theorem unescaped_of_finds {line name value : List Char} {text : String}
    (hfinds : Finds line key (Member.ofEntry (name, escapedValue text)))
    (hspan : findValueSpan line key = some value) (hread : String.ofList value = text) :
    Unescaped text.toList := by
  obtain ⟨rest, hrest⟩ := hfinds.takeWhile_text rfl
  rw [hspan, Option.some_inj] at hrest
  have hvalue : text.toList = value := by rw [← hread, String.toList_ofList]
  rw [← hvalue] at hrest
  exact (takeWhile_jsonEscape_iff _ rest).mp hrest.symm

namespace Replayable

theorem findValueSpan_rw (h : Replayable record) (hrw : Unescaped record.rw.toList) :
    findValueSpan (recordLine record extra) "rw".toList = some record.rw.toList := by
  rw [h.finds_rw.span (wellFormed_escaped hrw), span_ofEntry, rwEntry, content_escaped hrw]

theorem findValueSpan_kind (h : Replayable record) (hrw : Unescaped record.rw.toList)
    (hkind : Unescaped record.kind.toList) :
    findValueSpan (recordLine record extra) "kind".toList = some record.kind.toList := by
  rw [(h.finds_kind hrw).span (wellFormed_escaped hkind), span_ofEntry, kindEntry,
    content_escaped hkind]

theorem findValueSpan_serviceCycles (h : Replayable record) (hrw : Unescaped record.rw.toList)
    (hkind : Unescaped record.kind.toList) :
    findValueSpan (recordLine record extra) "service_cycles".toList =
      some (if record.rw = "service_cycles" then record.kind.toList
        else decimal record.serviceCycles.toNat) := by
  have hfinds := @finds_serviceCycles record extra h hrw hkind
  split_ifs at hfinds ⊢ with heq
  · rw [hfinds.span (wellFormed_escaped hkind), span_ofEntry, kindEntry, content_escaped hkind]
  · rw [hfinds.span (wellFormed_number _), span_ofEntry]
    rfl

theorem findValueSpan_retries (h : Replayable record) (hrw : Unescaped record.rw.toList)
    (hkind : Unescaped record.kind.toList) :
    findValueSpan (recordLine record extra) "retries".toList =
      some (if record.rw = "retries" then record.kind.toList
        else if record.kind = "retries" then decimal record.serviceCycles.toNat
        else decimal record.retries.toNat) := by
  have hfinds := @finds_retries record extra h hrw hkind
  split_ifs at hfinds ⊢ with heq heqKind
  · rw [hfinds.span (wellFormed_escaped hkind), span_ofEntry, kindEntry, content_escaped hkind]
  · rw [hfinds.span (wellFormed_number _), span_ofEntry]
    rfl
  · rw [hfinds.span (wellFormed_number _), span_ofEntry]
    rfl

/-- A record that is read back meets the conditions. -/
theorem readsBack_of_parseRecord (h : Replayable record) {sourceLine : Nat}
    (hparse : parseRecord (recordLine record extra) sourceLine = some { record with sourceLine }) :
    ReadsBack record := by
  obtain ⟨value, hvalue⟩ := exists_values hparse
  have hread := ((parseRecord_iff hvalue).mp hparse).1
  have hrw := unescaped_of_finds h.finds_rw (hvalue _ (by decide)) hread.rw
  have hkind := unescaped_of_finds (h.finds_kind hrw) (hvalue _ (by decide)) hread.kind
  have hservice := hvalue "service_cycles".toList (by decide)
  rw [h.findValueSpan_serviceCycles hrw hkind, Option.some_inj] at hservice
  have hretries := hvalue "retries".toList (by decide)
  rw [h.findValueSpan_retries hrw hkind, Option.some_inj] at hretries
  have hreadService := hread.serviceCycles
  have hreadRetries := hread.retries
  rw [← hservice] at hreadService
  rw [← hretries] at hreadRetries
  refine ⟨hrw, hkind, fun heq => ?_, fun heq => ?_, fun heq => ?_⟩
  · rw [if_pos heq] at hreadService
    exact parseU64_setWidth_iff.mp hreadService
  · rw [if_pos heq] at hreadRetries
    exact parseU64_setWidth_iff.mp hreadRetries
  · by_cases hboth : record.rw = "retries"
    · -- `kind` is read for `retries`, and is no numeral
      have hnone : parseU64 "retries".toList = none := by decide
      rw [if_pos hboth, heq, hnone] at hreadRetries
      exact absurd hreadRetries (by simp)
    · rw [if_neg hboth, if_pos heq, parseU64_decimal_setWidth (by omega)] at hreadRetries
      exact Option.some_inj.mp hreadRetries

theorem parseRecord_of_readsBack (h : Replayable record) (hback : ReadsBack record)
    (sourceLine : Nat) :
    parseRecord (recordLine record extra) sourceLine = some { record with sourceLine } := by
  have hnumber : ∀ {key : List Char} {n : Nat}, key ∈ keys →
      (leadingEntries record).lookup key = some (.number (decimal n)) →
      findValueSpan (recordLine record extra) key = some (decimal n) :=
    fun hkey hget => h.findValueSpan_leading hkey hget (wellFormed_number _)
  have hseq := @hnumber "seq".toList _ (by decide) rfl
  have hfirst := @hnumber "tick_first_attempt".toList _ (by decide) rfl
  have hlast := @hnumber "tick_complete".toList _ (by decide) rfl
  have hsize := @hnumber "size".toList _ (by decide) rfl
  have hmaster := @findValueSpan_leading record extra "master".toList h (by decide)
    (.text record.master.toList) (congrArg some h.escaped_master) h.master.1.1
  have haddr := @findValueSpan_leading record extra "addr".toList h (by decide)
    (.text record.addrText.toList) (congrArg some h.escaped_addrText) h.addr.1.1
  have hrw := @findValueSpan_rw record extra h hback.rw
  have hkind := @findValueSpan_kind record extra h hback.rw hback.kind
  have hservice := @findValueSpan_serviceCycles record extra h hback.rw hback.kind
  have hretries := @findValueSpan_retries record extra h hback.rw hback.kind
  have hall : ∀ key ∈ keys, findValueSpan (recordLine record extra) key =
      some ((findValueSpan (recordLine record extra) key).getD []) := by
    simp only [keys, List.forall_mem_cons, hseq, hmaster, hfirst, hlast, haddr, hsize, hrw, hkind,
      hservice, hretries, Option.getD_some]
    simp
  have hvalue : ∀ {key value : List Char},
      findValueSpan (recordLine record extra) key = some value →
      (findValueSpan (recordLine record extra) key).getD [] = value := by
    intro key value hget
    rw [hget, Option.getD_some]
  refine (parseRecord_iff hall).mpr ⟨?_, rfl⟩
  refine ReadAs.of_decimals (hvalue hseq) (hvalue hmaster) (hvalue hfirst) (hvalue hlast)
    (hvalue haddr) h.parsed (hvalue hsize) (hvalue hrw) (hvalue hkind) ?_ ?_
  · rw [hvalue hservice]
    split_ifs with heq
    · exact parseU64_setWidth_iff.mpr (hback.serviceCycles heq)
    · exact parseU64_decimal_setWidth (by omega) _
  · rw [hvalue hretries]
    split_ifs with heq heqKind
    · exact parseU64_setWidth_iff.mpr (hback.retries heq)
    · rw [hback.shifted heqKind]
      exact parseU64_decimal_setWidth (by omega) _
    · exact parseU64_decimal_setWidth (by omega) _

end Replayable

/-- **A record that is parsed and replayed is read back** from its annotated line
exactly when nothing in its `rw` and `kind` is escaped, and neither of them moves
another value to a later key. -/
theorem parseRecord_annotatedLine_iff (includeModelComparison : Bool) {r : ReplayResult}
    {line : List Char} {lineNumber : Nat} (sourceLine : Nat)
    (hparsed : parseRecord line lineNumber = some r.record)
    (hincluded : (parseMaster r.record.master).isSome = true) :
    parseRecord (annotatedLine includeModelComparison r) sourceLine =
      some { r.record with sourceLine } ↔ ReadsBack r.record := by
  have hreplayable := replayable_of_parseRecord hparsed hincluded
  exact ⟨hreplayable.readsBack_of_parseRecord, fun h => hreplayable.parseRecord_of_readsBack h _⟩

/-- The example of the format document comes back. -/
theorem parseRecord_annotatedLine_iff_example :
    parseRecord (annotatedLine true { record := exampleRecord.record 1 }) 1 =
      some (exampleRecord.record 1) := by
  have hparsed := (exampleRecord.laidOut Gap.empty).parseRecord_of_closed (by decide) 1
  exact (@parseRecord_annotatedLine_iff true { record := exampleRecord.record 1 } _ 1 1 hparsed
    (by decide)).mpr ⟨by decide, by decide, fun h => absurd h (by decide),
      fun h => absurd h (by decide), fun h => absurd h (by decide)⟩

/-- A line with a backslash in its `kind`. -/
def backslashLine : List Char :=
  "\x7b\"seq\":1,\"master\":\"MSH2\",\"tick_first_attempt\":1042,\"tick_complete\":1044,".toList ++
    ("\"addr\":\"0x06004000\",\"size\":4,\"rw\":\"R\",\"kind\":\"a\\b\",".toList ++
      "\"service_cycles\":2,\"retries\":0\x7d".toList)

def backslashRecord : TraceRecord :=
  { exampleRecord.record 1 with kind := "a\\b" }

/-- A backslash is written twice, and read twice. -/
theorem not_parseRecord_annotatedLine :
    ¬ ∀ (includeModelComparison : Bool) (r : ReplayResult) (line : List Char)
      (lineNumber sourceLine : Nat), parseRecord line lineNumber = some r.record →
        (parseMaster r.record.master).isSome = true →
          parseRecord (annotatedLine includeModelComparison r) sourceLine =
            some { r.record with sourceLine } := by
  intro h
  have hparsed : parseRecord backslashLine 1 = some backslashRecord := by decide +kernel
  have hincluded : (parseMaster backslashRecord.master).isSome = true := by decide
  have hback := (replayable_of_parseRecord hparsed hincluded).readsBack_of_parseRecord
    (h false { record := backslashRecord } backslashLine 1 1 hparsed hincluded)
  exact absurd hback.kind (by decide)

end Saturnis.Replay
