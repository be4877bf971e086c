/-
The documented records as JSON lines of any layout.

A layout has the members of a record in any order, with spaces and tabs between
any two tokens of the line.  `find_value_span` passes over the blanks before a
value, but a number goes on to the next comma or brace, and `parse_u64` fails on
a blank behind it.

* `Layout.findValueSpan_key` — every key is found, whatever the layout;
* `parseRecord_layout_iff` — the record comes back exactly when no number has a
  blank behind it.
-/
import Saturnis.TraceFormat
import Saturnis.TraceLines

namespace Saturnis.Replay

/-! ### Addresses -/

/-- A hexadecimal digit of either case. -/
structure HexDigit where
  nibble : BitVec 4
  upper : Bool
deriving DecidableEq, Repr

def HexDigit.char (d : HexDigit) : Char :=
  if d.upper then "0123456789ABCDEF".toList.getD d.nibble.toNat '0'
  else "0123456789abcdef".toList.getD d.nibble.toNat '0'

def hexValue (digits : List HexDigit) : Nat :=
  digits.foldl (fun value d => 16 * value + d.nibble.toNat) 0

inductive HexMarker
  | absent | lower | upper
deriving DecidableEq, Repr

def HexMarker.chars : HexMarker → List Char
  | absent => []
  | lower => ['0', 'x']
  | upper => ['0', 'X']

/-- A hex string, with or without a marker, of an address of 32 bits. -/
structure HexText where
  marker : HexMarker
  digits : List HexDigit
  nonempty : digits ≠ []
  fits : hexValue digits < 2 ^ 32

namespace HexText

def chars (a : HexText) : List Char := a.marker.chars ++ a.digits.map HexDigit.char

def addr (a : HexText) : BitVec 32 := BitVec.ofNat 32 (hexValue a.digits)

end HexText

theorem HexDigit.digitValue_char (d : HexDigit) : digitValue d.char = d.nibble.toNat := by
  have hall : ∀ (x : BitVec 4) (u : Bool), digitValue (HexDigit.char ⟨x, u⟩) = x.toNat := by decide
  exact hall d.nibble d.upper

theorem HexDigit.char_ne (d : HexDigit) {c : Char} (hc : 16 ≤ digitValue c) : d.char ≠ c := by
  rintro rfl
  rw [d.digitValue_char] at hc
  exact absurd d.nibble.isLt (by omega)

theorem HexDigit.notMem_map {digits : List HexDigit} {c : Char} (hc : 16 ≤ digitValue c) :
    c ∉ digits.map HexDigit.char := by
  intro h
  obtain ⟨d, -, hd⟩ := List.mem_map.mp h
  exact d.char_ne hc hd

/-- The digits alone are no marker. -/
theorem HexText.trimmed (a : HexText) :
    (if ['0', 'x'].isPrefixOf a.chars || ['0', 'X'].isPrefixOf a.chars then a.chars.drop 2
      else a.chars) = a.digits.map HexDigit.char := by
  cases hm : a.marker with
  | lower => rw [chars, hm]; rfl
  | upper => rw [chars, hm]; rfl
  | absent =>
    have hchars : a.chars = a.digits.map HexDigit.char := by rw [chars, hm]; rfl
    rw [hchars, if_neg]
    simp only [Bool.or_eq_true, List.isPrefixOf_iff_prefix, not_or]
    refine ⟨fun h => ?_, fun h => ?_⟩
    · exact HexDigit.notMem_map (c := 'x') (by decide) (h.subset (by simp))
    · exact HexDigit.notMem_map (c := 'X') (by decide) (h.subset (by simp))

theorem HexText.parseAddr_chars (a : HexText) : parseAddr a.chars = some a.addr := by
  have hfold : (a.digits.map HexDigit.char).foldl (fun value c => 16 * value + digitValue c) 0 =
      hexValue a.digits := by
    rw [List.foldl_map]
    exact List.foldl_ext _ _ _ fun value d _ => by rw [d.digitValue_char]
  have hdigits : ∀ c ∈ a.digits.map HexDigit.char, digitValue c < 16 := by
    intro c hc
    obtain ⟨d, -, rfl⟩ := List.mem_map.mp hc
    exact d.digitValue_char ▸ d.nibble.isLt
  rw [parseAddr, a.trimmed]
  rw [fromChars_eq (by simpa using a.nonempty) hdigits hfold a.fits]
  rfl

/-- No key is read as an address. -/
theorem parseAddr_keys : ∀ key ∈ keys, parseAddr key = none := by decide

theorem HexText.plain (a : HexText) : Plain a.chars := by
  have hmem : ∀ c, 16 ≤ digitValue c → c ∉ a.marker.chars → c ∉ a.chars :=
    fun c hc hmarker h =>
      (List.mem_append.mp h).elim hmarker (HexDigit.notMem_map hc)
  refine ⟨hmem _ (by decide) ?_, hmem _ (by decide) ?_, fun h => ?_⟩
  · cases a.marker <;> decide
  · cases a.marker <;> decide
  · have hnone := parseAddr_keys _ h
    rw [a.parseAddr_chars] at hnone
    exact absurd hnone (by simp)

/-! ### Records and their layouts -/

/-- A record with fields in the documented ranges. -/
structure JsonRecord where
  seq : BitVec 64
  master : Master
  tickFirstAttempt : BitVec 64
  tickComplete : BitVec 64
  addr : HexText
  size : AccessSize
  rw : Rw
  kind : AccessKind
  serviceCycles : BitVec 32
  retries : BitVec 32

namespace JsonRecord

/-- The names and values of the record. -/
def entries (r : JsonRecord) : List Entry :=
  [("seq".toList, .number (decimal r.seq.toNat)),
    ("master".toList, .text r.master.text.toList),
    ("tick_first_attempt".toList, .number (decimal r.tickFirstAttempt.toNat)),
    ("tick_complete".toList, .number (decimal r.tickComplete.toNat)),
    ("addr".toList, .text r.addr.chars),
    ("size".toList, .number (decimal r.size.code.toNat)),
    ("rw".toList, .text r.rw.text.toList),
    ("kind".toList, .text r.kind.text.toList),
    ("service_cycles".toList, .number (decimal r.serviceCycles.toNat)),
    ("retries".toList, .number (decimal r.retries.toNat))]

/-- What the loader should make of it. -/
def record (r : JsonRecord) (sourceLine : Nat) : TraceRecord where
  seq := r.seq
  master := r.master.text
  tickFirstAttempt := r.tickFirstAttempt
  tickComplete := r.tickComplete
  addr := r.addr.addr
  addrText := String.ofList r.addr.chars
  size := r.size.code
  rw := r.rw.text
  kind := r.kind.text
  serviceCycles := r.serviceCycles
  retries := r.retries
  sourceLine

/-- A one-line object with the members of the record, in any order and with any
gaps. -/
structure Layout (r : JsonRecord) where
  before : Gap
  members : List Member
  after : Gap
  perm : (members.map fun m => (m.key, m.value)).Perm r.entries

def Layout.line {r : JsonRecord} (l : Layout r) : List Char :=
  l.before.chars ++ '{' :: renderMembers l.after.chars l.members

end JsonRecord

/-- No blank stands behind a number. -/
def Member.Closed (m : Member) : Prop :=
  match m.value with
  | .number _ => m.afterValue.chars = []
  | .text _ => True

instance (m : Member) : Decidable m.Closed :=
  match h : m.value with
  | .number _ => decidable_of_iff (m.afterValue.chars = []) (by rw [Member.Closed, h])
  | .text _ => .isTrue (by rw [Member.Closed, h]; trivial)

/-! ### What is found -/

variable {r : JsonRecord} {key : List Char}

theorem keys_head : ∀ key ∈ keys, key.head? ≠ some ' ' ∧ key.head? ≠ some '\t' := by decide

theorem JsonRecord.plain_texts (r : JsonRecord) :
    Plain r.master.text.toList ∧ Plain r.rw.text.toList ∧ Plain r.kind.text.toList := by
  refine ⟨?_, ?_, ?_⟩
  · cases r.master <;> decide
  · cases r.rw <;> decide
  · cases r.kind <;> decide

theorem JsonRecord.passable (hkey : key ∈ keys) : ∀ entry ∈ r.entries, Passable key entry := by
  obtain ⟨hmaster, hrw, hkind⟩ := r.plain_texts
  simp only [JsonRecord.entries, List.forall_mem_cons]
  exact ⟨passable_number (by decide) _, passable_text hkey (by decide) hmaster,
    passable_number (by decide) _, passable_number (by decide) _,
    passable_text hkey (by decide) r.addr.plain, passable_number (by decide) _,
    passable_text hkey (by decide) hrw, passable_text hkey (by decide) hkind,
    passable_number (by decide) _, passable_number (by decide) _, by simp⟩

namespace JsonRecord.Layout

theorem mem_entries {l : Layout r} {m : Member} (hm : m ∈ l.members) :
    (m.key, m.value) ∈ r.entries :=
  l.perm.mem_iff.mp (List.mem_map_of_mem hm)

theorem map_key (l : Layout r) : (l.members.map Member.key).Perm keys := by
  have h := l.perm.map Prod.fst
  rw [List.map_map] at h
  exact h

/-- **Every key is found**, whatever the layout. -/
theorem findValueSpan_key (l : Layout r) {m : Member} (hm : m ∈ l.members) :
    findValueSpan l.line m.key = some m.span := by
  obtain ⟨pre, post, hsplit⟩ := List.append_of_mem hm
  have hkey : m.key ∈ keys := l.map_key.mem_iff.mp (List.mem_map_of_mem hm)
  have hnodup : (l.members.map Member.key).Nodup := l.map_key.nodup_iff.mpr (by decide)
  rw [hsplit, List.map_append, List.map_cons] at hnodup
  have hskip : ∀ p ∈ pre, Skips m.key p := by
    intro p hp
    have hmem : p ∈ l.members := by
      rw [hsplit]
      exact List.mem_append_left _ hp
    obtain ⟨hname, hvalue, htext⟩ := passable hkey _ (mem_entries hmem)
    refine ⟨hname, fun h => ?_, hvalue, htext, fun c hc => ?_⟩
    · exact (List.nodup_append.mp hnodup).2.2 _ (List.mem_map_of_mem hp) _ (List.mem_cons_self ..)
        h.symm
    · obtain ⟨hspace, htab⟩ := keys_head _ hkey
      rcases List.mem_append.mp hc with hc | hc
      · rcases p.afterKey.blank c hc with rfl | rfl
        · exact hspace
        · exact htab
      · rcases p.afterValue.blank c hc with rfl | rfl
        · exact hspace
        · exact htab
  have hopen : '"' ∉ l.before.chars ++ ['{'] := by
    rw [List.mem_append, not_or]
    exact ⟨l.before.notMem (by decide) (by decide), by decide⟩
  have hfound := (@finds_members _ pre post l.after.chars m hopen (keys_keyWord _ hkey) hskip).span
    (passable hkey _ (mem_entries hm)).2.1
  rw [List.append_assoc, ← hsplit] at hfound
  exact hfound

/-- The value at the key of an entry goes on to the end of the gap behind it. -/
theorem findValueSpan_entry (l : Layout r) {entry : Entry} (h : entry ∈ r.entries) :
    ∃ m ∈ l.members, m.value = entry.2 ∧ findValueSpan l.line entry.1 = some m.span := by
  obtain ⟨m, hm, heq⟩ := List.mem_map.mp (l.perm.mem_iff.mpr h)
  obtain ⟨hkey, hvalue⟩ := Prod.mk.inj heq
  exact ⟨m, hm, hvalue, hkey ▸ l.findValueSpan_key hm⟩

end JsonRecord.Layout

/-! ### What is parsed -/

theorem fromChars_digits {base bound value : Nat} {text : List Char}
    (h : fromChars base bound text = some value) {c : Char} (hc : c ∈ text) :
    digitValue c < base := by
  rw [fromChars] at h
  split_ifs at h with hbad
  by_contra hge
  exact hbad (Or.inr (List.any_eq_true.mpr ⟨c, hc, decide_eq_true (Nat.not_lt.mp hge)⟩))

/-- A blank is not a digit. -/
theorem parseU64_append_gap {digits : List Char} {gap : Gap}
    (h : (parseU64 (digits ++ gap.chars)).isSome = true) : gap.chars = [] := by
  obtain ⟨x, hx⟩ := Option.isSome_iff_exists.mp h
  obtain ⟨value, hvalue, -⟩ := Option.map_eq_some_iff.mp hx
  refine List.eq_nil_iff_forall_not_mem.mpr fun c hc => ?_
  have hdigit := fromChars_digits hvalue (List.mem_append_right digits hc)
  rcases gap.blank c hc with rfl | rfl
  · exact absurd hdigit (by decide)
  · exact absurd hdigit (by decide)

namespace JsonRecord

/-- A record that comes back has read all its numbers. -/
theorem isSome_of_readAs {value : List Char → List Char} {sourceLine : Nat}
    (h : ReadAs value (r.record sourceLine)) {digits : List Char}
    (hentry : (key, JsonValue.number digits) ∈ r.entries) : (parseU64 (value key)).isSome = true := by
  have hmap : ∀ {w : Nat} {o : Option (BitVec 64)} {x : BitVec w},
      o.map (BitVec.setWidth w) = some x → o.isSome = true := by
    intro w o x ho
    obtain ⟨y, rfl, -⟩ := Option.map_eq_some_iff.mp ho
    rfl
  simp only [entries, List.mem_cons, Prod.mk.injEq, JsonValue.number.injEq, reduceCtorEq, and_false,
    false_or, List.not_mem_nil, or_false] at hentry
  rcases hentry with ⟨rfl, -⟩ | ⟨rfl, -⟩ | ⟨rfl, -⟩ | ⟨rfl, -⟩ | ⟨rfl, -⟩ | ⟨rfl, -⟩
  · rw [h.seq]; rfl
  · rw [h.tickFirstAttempt]; rfl
  · rw [h.tickComplete]; rfl
  · exact hmap h.size
  · exact hmap h.serviceCycles
  · exact hmap h.retries

namespace Layout

/-- The values of the keys, wherever they are. -/
theorem forall_values (l : Layout r) :
    ∀ key ∈ keys, findValueSpan l.line key = some ((findValueSpan l.line key).getD []) := by
  intro key hkey
  obtain ⟨m, hm, rfl⟩ := List.mem_map.mp (l.map_key.mem_iff.mpr hkey)
  rw [l.findValueSpan_key hm, Option.getD_some]

theorem closed_of_parseRecord (l : Layout r) {sourceLine : Nat}
    (h : parseRecord l.line sourceLine = some (r.record sourceLine)) :
    ∀ m ∈ l.members, m.Closed := by
  intro m hm
  have hread := ((parseRecord_iff l.forall_values).mp h).1
  have hspan := l.findValueSpan_key hm
  have hentry := mem_entries hm
  rw [Member.Closed]
  cases hv : m.value with
  | number digits =>
    rw [hv] at hentry
    have hsome := isSome_of_readAs hread hentry
    rw [hspan, Option.getD_some, Member.span, hv] at hsome
    exact parseU64_append_gap hsome
  | text chars => trivial

theorem parseRecord_of_closed (l : Layout r) (h : ∀ m ∈ l.members, m.Closed) (sourceLine : Nat) :
    parseRecord l.line sourceLine = some (r.record sourceLine) := by
  have hvalue : ∀ entry ∈ r.entries,
      (findValueSpan l.line entry.1).getD [] = entry.2.content := by
    intro entry hentry
    obtain ⟨m, hm, hv, hspan⟩ := l.findValueSpan_entry hentry
    have hclosed := h m hm
    rw [hspan, Option.getD_some, Member.span, ← hv]
    rw [Member.Closed] at hclosed
    cases hmv : m.value with
    | number digits =>
      rw [hmv] at hclosed
      dsimp only at hclosed
      rw [hclosed]
      exact List.append_nil digits
    | text chars => rfl
  simp only [entries, List.forall_mem_cons] at hvalue
  obtain ⟨hseq, hmaster, hfirst, hlast, haddr, hsize, hrw, hkind, hservice, hretries, -⟩ := hvalue
  refine (parseRecord_iff l.forall_values).mpr ⟨?_, rfl⟩
  refine ReadAs.of_decimals hseq hmaster hfirst hlast ?_ ?_ hsize hrw hkind ?_ ?_
  · exact haddr.trans String.toList_ofList.symm
  · exact (congrArg parseAddr String.toList_ofList).trans r.addr.parseAddr_chars
  · rw [hservice]
    exact parseU64_decimal_setWidth (by omega) _
  · rw [hretries]
    exact parseU64_decimal_setWidth (by omega) _

end Layout

end JsonRecord

/-- **A documented record comes back** from a layout exactly when none of its
numbers has a blank behind it. -/
theorem parseRecord_layout_iff (r : JsonRecord) (l : r.Layout) (sourceLine : Nat) :
    parseRecord l.line sourceLine = some (r.record sourceLine) ↔ ∀ m ∈ l.members, m.Closed :=
  ⟨l.closed_of_parseRecord, fun h => l.parseRecord_of_closed h sourceLine⟩

/-- The documented order, with one gap behind the first value. -/
def JsonRecord.laidOut (r : JsonRecord) (gap : Gap) : r.Layout where
  before := Gap.empty
  members := { key := "seq".toList, value := .number (decimal r.seq.toNat), afterValue := gap } ::
    r.entries.tail.map Member.ofEntry
  after := Gap.empty
  perm := List.Perm.refl r.entries

/-- The example of the format document. -/
def exampleRecord : JsonRecord where
  seq := 1
  master := .msh2
  tickFirstAttempt := 1042
  tickComplete := 1044
  addr := ⟨.lower, [0, 6, 0, 0, 4, 0, 0, 0].map fun x => ⟨x, false⟩, by decide, by decide⟩
  size := .four
  rw := .r
  kind := .ifetch
  serviceCycles := 2
  retries := 0

/-- `"seq":1 ,` is refused. -/
theorem not_parseRecord_layout :
    ¬ ∀ (r : JsonRecord) (l : r.Layout) (sourceLine : Nat),
      parseRecord l.line sourceLine = some (r.record sourceLine) := by
  intro h
  have hclosed := (exampleRecord.laidOut ⟨[' '], by simp⟩).closed_of_parseRecord (h _ _ 1) _
    (List.mem_cons_self ..)
  exact absurd hclosed (List.cons_ne_nil _ _)

end Saturnis.Replay
