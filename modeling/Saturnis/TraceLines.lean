/-
The documented JSON lines, and what `parse_record` reads in them.

A documented line is rendered from its entries, without blanks.  A text that is
itself the name of a key would be taken for it; `Plain` texts are not.

* `findValueSpan_renderLine` — the value of a key is found;
* `parseU64_decimal`, `parseAddr_toHex32` — numbers come back;
* `parseRecord_line` — so the record of a line is the one it was rendered from.
-/
import Saturnis.TraceSearch

namespace Saturnis.Replay

/-! ### Searching for a key -/

variable {key : List Char}

/-- An entry in which the key is not found by mistake. -/
def Passable (key : List Char) (entry : Entry) : Prop :=
  '"' ∉ entry.1 ∧ entry.2.WellFormed ∧ entry.2 ≠ .text key

theorem Passable.skips {entry : Entry} (h : Passable key entry) (hne : key ≠ entry.1) :
    Skips key (Member.ofEntry entry) :=
  ⟨h.1, hne, h.2.1, h.2.2, by simp [Member.ofEntry, Gap.empty]⟩

theorem renderLine_eq (entries : List Entry) :
    renderLine entries = ['{'] ++ renderMembers [] (entries.map Member.ofEntry) := by
  rw [renderLine, renderEntries_eq]
  rfl

variable {front post : List Entry} {entry : Entry}

/-- Entries of other keys are passed over. -/
theorem skips_front (hall : ∀ entry ∈ front, Passable key entry) (hget : front.lookup key = none) :
    ∀ m ∈ front.map Member.ofEntry, Skips key m := by
  intro m hm
  obtain ⟨e, he, rfl⟩ := List.mem_map.mp hm
  refine (hall e he).skips fun h => ?_
  exact absurd (List.lookup_eq_none_iff.mp hget e he) (by simp [h])

theorem finds_renderLine {value : JsonValue} (hkey : KeyWord key)
    (hall : ∀ e ∈ front, Passable key e) (hget : front.lookup key = none) :
    Finds (renderLine (front ++ (key, value) :: post)) key (Member.ofEntry (key, value)) := by
  rw [renderLine_eq, List.map_append, List.map_cons]
  exact finds_members (m := Member.ofEntry (key, value)) (by decide) hkey (skips_front hall hget)

/-- The entry behind a text that is the key. -/
theorem finds_renderLine_misread {name : List Char} (hkey : KeyWord key)
    (hall : ∀ e ∈ front, Passable key e) (hget : front.lookup key = none) (hname : '"' ∉ name)
    (hne : key ≠ name) (hcolon : ':' ∉ entry.1) :
    Finds (renderLine (front ++ (name, .text key) :: entry :: post)) key
      (Member.ofEntry entry) := by
  rw [renderLine_eq, List.map_append, List.map_cons, List.map_cons]
  exact finds_misread (p := Member.ofEntry (name, .text key)) (m := Member.ofEntry entry) (by decide)
    hkey (skips_front hall hget) hname hne (by simp [Member.ofEntry, Gap.empty]) rfl hcolon

theorem span_ofEntry (entry : Entry) : (Member.ofEntry entry).span = entry.2.content := by
  obtain ⟨name, value⟩ := entry
  cases value with
  | number digits => exact List.append_nil digits
  | text chars => rfl

/-- The value of a key is found. -/
theorem findValueSpan_renderLine {value : JsonValue} (hkey : KeyWord key)
    (hall : ∀ entry ∈ front, Passable key entry) (hget : front.lookup key = some value)
    (hvalue : value.WellFormed) :
    findValueSpan (renderLine (front ++ post)) key = some value.content := by
  obtain ⟨pre, rest, rfl, hpre⟩ := List.lookup_eq_some_iff.mp hget
  have hfound := @finds_renderLine key pre (rest ++ post) value hkey
    (fun e he => hall e (List.mem_append_left _ he)) (List.lookup_eq_none_iff.mpr hpre)
  rw [List.append_assoc, List.cons_append, ← span_ofEntry (key, value)]
  exact hfound.span hvalue

/-! ### Numbers -/

theorem fromChars_eq {base bound value : Nat} {digits : List Char} (hne : digits ≠ [])
    (hdigits : ∀ d ∈ digits, digitValue d < base)
    (hvalue : digits.foldl (fun value d => base * value + digitValue d) 0 = value)
    (hlt : value < bound) : fromChars base bound digits = some value := by
  rw [fromChars, if_neg, hvalue, if_pos hlt]
  rintro (h | h)
  · exact hne h
  · obtain ⟨d, hd, hge⟩ := List.any_eq_true.mp h
    have hlt := hdigits d hd
    have hge := of_decide_eq_true hge
    omega

theorem digitValue_of_isDigit {d : Char} (h : d.isDigit = true) :
    digitValue d = d.toNat - '0'.toNat ∧ digitValue d < 10 := by
  simp only [Char.isDigit, Bool.and_eq_true, decide_eq_true_eq] at h
  have hvalue : digitValue d = d.toNat - '0'.toNat := if_pos h
  have hle : d.toNat ≤ '9'.toNat := h.2
  have hnine : '9'.toNat = 57 := rfl
  have hzero : '0'.toNat = 48 := rfl
  exact ⟨hvalue, by omega⟩

/-- The decimal text of a number. -/
def decimal (n : Nat) : List Char := Nat.toDigits 10 n

/-- The decimal text of a signed number. -/
def signedDecimal (x : Int) : List Char :=
  if x < 0 then '-' :: decimal x.natAbs else decimal x.natAbs

theorem isDigit_of_mem_decimal {n : Nat} {d : Char} (h : d ∈ decimal n) : d.isDigit = true :=
  Nat.isDigit_of_mem_toDigits (by omega) (by omega) h

theorem parseU64_decimal (x : BitVec 64) : parseU64 (decimal x.toNat) = some x := by
  have hfold : (decimal x.toNat).foldl (fun value d => 10 * value + digitValue d) 0 = x.toNat := by
    refine Eq.trans (List.foldl_ext _ _ _ fun value d hd => ?_) Nat.ofDigitChars_ten_toDigits
    rw [(digitValue_of_isDigit (isDigit_of_mem_decimal hd)).1]
  have hne : decimal x.toNat ≠ [] := Nat.toDigits_ne_nil
  rw [parseU64, fromChars_eq hne
    (fun d hd => (digitValue_of_isDigit (isDigit_of_mem_decimal hd)).2) hfold x.isLt,
    Option.map_some, BitVec.ofNat_toNat, BitVec.setWidth_eq]

theorem decimal_setWidth {w : Nat} (hw : w ≤ 64) (x : BitVec w) :
    decimal x.toNat = decimal (x.setWidth 64).toNat := by
  rw [BitVec.toNat_setWidth, Nat.mod_eq_of_lt]
  exact Nat.lt_of_lt_of_le x.isLt (Nat.pow_le_pow_right (by omega) hw)

/-- A number of fewer bits is read as 64 bits and cut again. -/
theorem parseU64_decimal_setWidth {w : Nat} (hw : w ≤ 64) (x : BitVec w) :
    (parseU64 (decimal x.toNat)).map (BitVec.setWidth w) = some x := by
  rw [decimal_setWidth hw, parseU64_decimal, Option.map_some, BitVec.setWidth_setWidth_of_le _ hw,
    BitVec.setWidth_eq]

/-- The record that the documented texts of its fields are read as. -/
theorem ReadAs.of_decimals {value : List Char → List Char} {record : TraceRecord}
    (hseq : value "seq".toList = decimal record.seq.toNat)
    (hmaster : value "master".toList = record.master.toList)
    (hfirst : value "tick_first_attempt".toList = decimal record.tickFirstAttempt.toNat)
    (hlast : value "tick_complete".toList = decimal record.tickComplete.toNat)
    (haddr : value "addr".toList = record.addrText.toList)
    (hparsed : parseAddr record.addrText.toList = some record.addr)
    (hsize : value "size".toList = decimal record.size.toNat)
    (hrw : value "rw".toList = record.rw.toList) (hkind : value "kind".toList = record.kind.toList)
    (hservice : (parseU64 (value "service_cycles".toList)).map (BitVec.setWidth 32) =
      some record.serviceCycles)
    (hretries : (parseU64 (value "retries".toList)).map (BitVec.setWidth 32) =
      some record.retries) : ReadAs value record where
  seq := by rw [hseq, parseU64_decimal]
  master := by rw [hmaster, String.ofList_toList]
  tickFirstAttempt := by rw [hfirst, parseU64_decimal]
  tickComplete := by rw [hlast, parseU64_decimal]
  addr := by rw [haddr, hparsed]
  addrText := by rw [haddr, String.ofList_toList]
  size := by rw [hsize, parseU64_decimal_setWidth (by omega)]
  rw := by rw [hrw, String.ofList_toList]
  kind := by rw [hkind, String.ofList_toList]
  serviceCycles := hservice
  retries := hretries

theorem digitValue_hexDigit {v : Nat} (hv : v < 16) :
    digitValue ("0123456789ABCDEF".toList.getD v '0') = v := by
  have hall : ∀ v : Fin 16, digitValue ("0123456789ABCDEF".toList.getD v '0') = v := by decide
  exact hall ⟨v, hv⟩

theorem digitValue_of_mem_hexDigits {n value : Nat} {d : Char} (h : d ∈ hexDigits n value) :
    digitValue d < 16 := by
  induction n generalizing value with
  | zero => exact absurd h List.not_mem_nil
  | succ n ih =>
    rcases List.mem_append.mp h with h | h
    · exact ih h
    · rw [List.mem_singleton.mp h, digitValue_hexDigit (Nat.mod_lt _ (by omega))]
      exact Nat.mod_lt _ (by omega)

theorem foldl_hexDigits (n value : Nat) :
    (hexDigits n value).foldl (fun value d => 16 * value + digitValue d) 0 = value % 16 ^ n := by
  induction n generalizing value with
  | zero => exact (Nat.mod_one value).symm
  | succ n ih =>
    rw [hexDigits, List.foldl_append, ih, List.foldl_cons, List.foldl_nil,
      digitValue_hexDigit (Nat.mod_lt _ (by omega)), Nat.pow_succ', Nat.mod_mul, Nat.add_comm]

theorem parseAddr_toHex32 (x : BitVec 32) : parseAddr (toHex32 x) = some x := by
  have hfold : (hexDigits 8 x.toNat).foldl (fun value d => 16 * value + digitValue d) 0 = x.toNat :=
    (foldl_hexDigits 8 x.toNat).trans (Nat.mod_eq_of_lt x.isLt)
  have hne : hexDigits 8 x.toNat ≠ [] := by
    rw [hexDigits]
    exact List.append_ne_nil_of_right_ne_nil _ (by simp)
  have htrim : (if ['0', 'x'].isPrefixOf (toHex32 x) || ['0', 'X'].isPrefixOf (toHex32 x)
      then (toHex32 x).drop 2 else toHex32 x) = hexDigits 8 x.toNat := rfl
  rw [parseAddr, htrim, fromChars_eq hne (fun d hd => digitValue_of_mem_hexDigits hd) hfold x.isLt,
    Option.map_some, BitVec.ofNat_toNat, BitVec.setWidth_eq]

/-! ### Records -/

/-- The fields of a record, with any byte for the enumerations and the size, and
cycles and retries as wide as the binary format has them. -/
structure FieldTuple where
  seq : BitVec 64
  tickFirstAttempt : BitVec 64
  tickComplete : BitVec 64
  serviceCycles : BitVec 64
  retries : BitVec 64
  addr : BitVec 32
  size : Byte
  master : Byte
  rw : Byte
  kind : Byte
deriving DecidableEq, Repr

/-- A text that may stand between quotes and is not the name of a key. -/
def Plain (chars : List Char) : Prop := '"' ∉ chars ∧ '\n' ∉ chars ∧ chars ∉ keys

instance (chars : List Char) : Decidable (Plain chars) := inferInstanceAs (Decidable (_ ∧ _))

/-- How a writer of JSON lines names the enumerators: the documented ones as
documented, and anything plain for the others. -/
structure Names where
  master : Byte → List Char
  rw : Byte → List Char
  kind : Byte → List Char
  master_eq : ∀ value text, decodeMaster value = some text → master value = text.toList
  rw_eq : ∀ value text, decodeRw value = some text → rw value = text.toList
  kind_eq : ∀ value text, decodeKind value = some text → kind value = text.toList
  master_plain : ∀ value, Plain (master value)
  rw_plain : ∀ value, Plain (rw value)
  kind_plain : ∀ value, Plain (kind value)

namespace FieldTuple

/-- The entries of a line, in the documented order. -/
def entries (names : Names) (t : FieldTuple) : List Entry :=
  [("seq".toList, .number (decimal t.seq.toNat)),
    ("master".toList, .text (names.master t.master)),
    ("tick_first_attempt".toList, .number (decimal t.tickFirstAttempt.toNat)),
    ("tick_complete".toList, .number (decimal t.tickComplete.toNat)),
    ("addr".toList, .text (toHex32 t.addr)),
    ("size".toList, .number (decimal t.size.toNat)),
    ("rw".toList, .text (names.rw t.rw)),
    ("kind".toList, .text (names.kind t.kind)),
    ("service_cycles".toList, .number (decimal t.serviceCycles.toNat)),
    ("retries".toList, .number (decimal t.retries.toNat))]

def line (names : Names) (t : FieldTuple) : List Char := renderLine (t.entries names)

end FieldTuple

variable {names : Names} {t : FieldTuple}

theorem wellFormed_number (n : Nat) : (JsonValue.number (decimal n)).WellFormed :=
  ⟨Nat.toDigits_ne_nil, fun _ h => isDigit_of_mem_decimal h⟩

theorem mem_hexDigits {n value : Nat} {d : Char} (h : d ∈ hexDigits n value) :
    d ∈ "0123456789ABCDEF".toList := by
  have hall : ∀ v : Fin 16, "0123456789ABCDEF".toList.getD v '0' ∈ "0123456789ABCDEF".toList := by
    decide
  induction n generalizing value with
  | zero => exact absurd h List.not_mem_nil
  | succ n ih =>
    rcases List.mem_append.mp h with h | h
    · exact ih h
    · rw [List.mem_singleton.mp h]
      exact hall ⟨value % 16, Nat.mod_lt _ (by omega)⟩

theorem plain_toHex32 (x : BitVec 32) : Plain (toHex32 x) := by
  have hmem : ∀ d, d ∉ "0123456789ABCDEF".toList → d ≠ '0' → d ≠ 'x' → d ∉ toHex32 x := by
    intro d hd hzero hx h
    rcases List.mem_cons.mp h with h | h
    · exact hzero h
    rcases List.mem_cons.mp h with h | h
    · exact hx h
    · exact hd (mem_hexDigits h)
  refine ⟨hmem _ (by decide) (by decide) (by decide), hmem _ (by decide) (by decide) (by decide),
    fun h => ?_⟩
  -- no key starts with a digit
  have hkeys : ∀ key ∈ keys, key.head? ≠ some '0' := by decide
  exact hkeys _ h rfl

theorem keys_keyWord : ∀ key ∈ keys, KeyWord key := by decide

theorem passable_number {name : List Char} (hname : name ∈ keys) (n : Nat) :
    Passable key (name, .number (decimal n)) :=
  ⟨(keys_keyWord name hname).1, wellFormed_number n, by simp⟩

theorem passable_text {name chars : List Char} (hkey : key ∈ keys) (hname : name ∈ keys)
    (hchars : Plain chars) : Passable key (name, .text chars) := by
  refine ⟨(keys_keyWord name hname).1, hchars.1, fun h => hchars.2.2 ?_⟩
  rw [JsonValue.text.inj h]
  exact hkey

/-- Every entry of a line may be passed over when another key is looked for. -/
theorem passable_entries (hkey : key ∈ keys) :
    ∀ entry ∈ t.entries names, Passable key entry := by
  simp only [FieldTuple.entries, List.forall_mem_cons]
  refine ⟨passable_number (by decide) _, passable_text hkey (by decide) (names.master_plain _),
    passable_number (by decide) _, passable_number (by decide) _,
    passable_text hkey (by decide) (plain_toHex32 _), passable_number (by decide) _,
    passable_text hkey (by decide) (names.rw_plain _),
    passable_text hkey (by decide) (names.kind_plain _), passable_number (by decide) _,
    passable_number (by decide) _, by simp⟩

/-- The number at a key of a line. -/
theorem findValueSpan_number {n : Nat} (hkey : key ∈ keys)
    (hget : (t.entries names).lookup key = some (.number (decimal n))) :
    findValueSpan (t.line names) key = some (decimal n) := by
  rw [FieldTuple.line, ← List.append_nil (t.entries names)]
  exact findValueSpan_renderLine (keys_keyWord key hkey) (passable_entries hkey) hget
    (wellFormed_number n)

/-- The text at a key of a line. -/
theorem findValueSpan_text {chars : List Char} (hkey : key ∈ keys) (hchars : Plain chars)
    (hget : (t.entries names).lookup key = some (.text chars)) :
    findValueSpan (t.line names) key = some chars := by
  rw [FieldTuple.line, ← List.append_nil (t.entries names)]
  exact findValueSpan_renderLine (keys_keyWord key hkey) (passable_entries hkey) hget hchars.1

/-- **A line is parsed to the record it was rendered from**, whatever its
enumerators and its size. -/
theorem parseRecord_line (sourceLine : Nat) :
    parseRecord (t.line names) sourceLine = some
      { seq := t.seq
        master := String.ofList (names.master t.master)
        tickFirstAttempt := t.tickFirstAttempt
        tickComplete := t.tickComplete
        addr := t.addr
        addrText := String.ofList (toHex32 t.addr)
        size := t.size
        rw := String.ofList (names.rw t.rw)
        kind := String.ofList (names.kind t.kind)
        serviceCycles := t.serviceCycles.setWidth 32
        retries := t.retries.setWidth 32
        sourceLine } := by
  have hsize : decimal t.size.toNat = decimal (t.size.setWidth 64).toNat :=
    decimal_setWidth (by omega) t.size
  rw [parseRecord, findValueSpan_number (by decide) rfl,
    findValueSpan_text (by decide) (names.master_plain _) rfl,
    findValueSpan_number (by decide) rfl, findValueSpan_number (by decide) rfl,
    findValueSpan_text (by decide) (plain_toHex32 _) rfl, findValueSpan_number (by decide) rfl,
    findValueSpan_text (by decide) (names.rw_plain _) rfl,
    findValueSpan_text (by decide) (names.kind_plain _) rfl,
    findValueSpan_number (by decide) rfl, findValueSpan_number (by decide) rfl]
  simp only [hsize, parseU64_decimal, parseAddr_toHex32]
  rw [BitVec.setWidth_setWidth_of_le _ (by omega), BitVec.setWidth_eq]

/-! ### Files -/

/-- The lines of some records, each with a newline behind it. -/
def jsonlFile (names : Names) (ts : List FieldTuple) : List Char :=
  (ts.map fun t => t.line names ++ ['\n']).flatten

theorem newline_not_mem_renderEntries {entries : List Entry}
    (h : ∀ entry ∈ entries, '\n' ∉ entry.1 ∧ '\n' ∉ entry.2.content) :
    '\n' ∉ renderEntries entries := by
  have hrender : ∀ value : JsonValue, '\n' ∉ value.content → '\n' ∉ value.render := by
    intro value hvalue
    cases value with
    | number digits => exact hvalue
    | text chars => simpa [JsonValue.render, JsonValue.content, quoted] using hvalue
  induction entries with
  | nil => decide
  | cons entry entries ih =>
    obtain ⟨name, value⟩ := entry
    obtain ⟨hname, hvalue⟩ := h _ (List.mem_cons_self ..)
    have hvalue := hrender value hvalue
    have hrest := ih fun e he => h e (List.mem_cons_of_mem _ he)
    cases entries with
    | nil =>
      simp only [renderEntries, quoted, List.mem_append, List.mem_cons, not_or]
      exact ⟨⟨⟨by decide, hname⟩, by decide, by simp⟩, by decide, hvalue, by decide, by simp⟩
    | cons entry entries =>
      simp only [renderEntries, quoted, List.mem_append, List.mem_cons, not_or]
      exact ⟨⟨⟨by decide, hname⟩, by decide, by simp⟩, by decide, hvalue, by decide, hrest⟩

theorem newline_not_mem_decimal (n : Nat) : '\n' ∉ decimal n :=
  fun h => absurd (isDigit_of_mem_decimal h) (by decide)

theorem newline_not_mem_line (names : Names) (t : FieldTuple) : '\n' ∉ t.line names := by
  rw [FieldTuple.line, renderLine, List.mem_cons, not_or]
  refine ⟨by decide, newline_not_mem_renderEntries ?_⟩
  simp only [FieldTuple.entries, List.forall_mem_cons]
  have hnum := newline_not_mem_decimal
  exact ⟨⟨by decide, hnum _⟩, ⟨by decide, (names.master_plain _).2.1⟩, ⟨by decide, hnum _⟩,
    ⟨by decide, hnum _⟩, ⟨by decide, (plain_toHex32 _).2.1⟩, ⟨by decide, hnum _⟩,
    ⟨by decide, (names.rw_plain _).2.1⟩, ⟨by decide, (names.kind_plain _).2.1⟩,
    ⟨by decide, hnum _⟩, ⟨by decide, hnum _⟩, by simp⟩

theorem getLines_jsonlFile (names : Names) (ts : List FieldTuple) :
    getLines (jsonlFile names ts) = ts.map (FieldTuple.line names) ++ [[]] := by
  induction ts with
  | nil => rfl
  | cons t ts ih =>
    rw [jsonlFile, List.map_cons, List.flatten_cons, List.append_assoc, List.singleton_append,
      getLines, List.splitOn_append_cons_self_of_not_mem (newline_not_mem_line names t),
      List.map_cons, List.cons_append, ← ih]
    rfl

/-- What the loader makes of the lines of some records. -/
theorem loadJsonlRecords_jsonlFile (names : Names) (ts : List FieldTuple) :
    loadJsonlRecords (jsonlFile names ts) =
      (true, Loading.takeAll {} (parseAll 0 (ts.map (FieldTuple.line names)))) := by
  rw [loadJsonlRecords, getLines_jsonlFile, loadLines_eq]
  intro line hline
  obtain ⟨t, -, rfl⟩ := List.mem_map.mp hline
  exact List.cons_ne_nil _ _

end Saturnis.Replay
