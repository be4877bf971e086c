/-
JSON lines, and where `find_value_span` finds a value in them.

A line is an object whose members are quoted keys with numbers or quoted texts,
with blanks between the tokens.  `find_value_span` looks for the quoted key
anywhere in the line, so a member is passed over only if neither its name nor
its text is that key (`Skips`).  The value of a text is what stands between its
quotes; that of a number goes on to the next comma or brace, so the blanks
behind the number belong to it (`Member.span`).

* `finds_members` — a key is found, if no member before it is taken for it;
* `finds_misread` — behind a text that is the key, the next member is found;
* `Finds.span` — the value that is read there;
* `parseRecord_iff` — what the values of the keys make of a record.
-/
import Mathlib.Data.Nat.Digits.Defs
import Saturnis.TraceReplay

namespace Saturnis.Replay

/-! ### Rendering -/

inductive JsonValue
  | number (digits : List Char)
  | text (chars : List Char)
deriving DecidableEq, Repr

namespace JsonValue

def render : JsonValue → List Char
  | number digits => digits
  | text chars => quoted chars

/-- What stands between the quotes, or the digits. -/
def content : JsonValue → List Char
  | number digits => digits
  | text chars => chars

/-- A number is some digits; a text has no quotes. -/
def WellFormed : JsonValue → Prop
  | number digits => digits ≠ [] ∧ ∀ c ∈ digits, c.isDigit = true
  | text chars => '"' ∉ chars

end JsonValue

/-- Spaces and tabs between two tokens. -/
structure Gap where
  chars : List Char
  blank : ∀ c ∈ chars, c = ' ' ∨ c = '\t'
deriving DecidableEq

def Gap.empty : Gap := ⟨[], by simp⟩

/-- A member of an object, with the gaps around its tokens. -/
structure Member where
  beforeKey : Gap := Gap.empty
  key : List Char
  afterKey : Gap := Gap.empty
  beforeValue : Gap := Gap.empty
  value : JsonValue
  afterValue : Gap := Gap.empty
deriving DecidableEq

namespace Member

/-- The member, and the text behind it. -/
def render (m : Member) (text : List Char) : List Char :=
  m.beforeKey.chars ++ (quoted m.key ++ (m.afterKey.chars ++ ':' ::
    (m.beforeValue.chars ++ (m.value.render ++ (m.afterValue.chars ++ text)))))

/-- What is taken for the value of the member. -/
def span (m : Member) : List Char :=
  match m.value with
  | .number digits => digits ++ m.afterValue.chars
  | .text chars => chars

end Member

/-- The members of an object, up to its closing brace and the text behind it. -/
def renderMembers (tail : List Char) : List Member → List Char
  | [] => '}' :: tail
  | [m] => m.render ('}' :: tail)
  | m :: m' :: members => m.render (',' :: renderMembers tail (m' :: members))

abbrev Entry := List Char × JsonValue

/-- The entries of an object, up to its closing brace. -/
def renderEntries : List Entry → List Char
  | [] => ['}']
  | [(key, value)] => quoted key ++ ':' :: (value.render ++ ['}'])
  | (key, value) :: entry :: entries =>
    quoted key ++ ':' :: (value.render ++ ',' :: renderEntries (entry :: entries))

def renderLine (entries : List Entry) : List Char := '{' :: renderEntries entries

/-- An entry with no gaps. -/
def Member.ofEntry (entry : Entry) : Member := { key := entry.1, value := entry.2 }

theorem renderEntries_eq (entries : List Entry) :
    renderEntries entries = renderMembers [] (entries.map Member.ofEntry) := by
  induction entries with
  | nil => rfl
  | cons entry entries ih =>
    cases entries with
    | nil => rfl
    | cons entry' entries =>
      rw [renderEntries, ih]
      rfl

/-- What stands behind the first member. -/
theorem renderMembers_cons (tail : List Char) (m : Member) (members : List Member) :
    ∃ sep text, (sep = ',' ∨ sep = '}') ∧
      renderMembers tail (m :: members) = m.render (sep :: text) := by
  cases members with
  | nil => exact ⟨'}', tail, Or.inr rfl, rfl⟩
  | cons m' members => exact ⟨',', _, Or.inl rfl, rfl⟩

/-! ### Searching for a key -/

variable {key text u : List Char} {c : Char}

theorem quoted_append (key text : List Char) : quoted key ++ text = '"' :: (key ++ '"' :: text) := by
  simp [quoted]

theorem afterFirst_of_prefix (needle text : List Char) (hne : needle ≠ []) :
    afterFirst needle (needle ++ text) = some text := by
  cases needle with
  | nil => exact absurd rfl hne
  | cons c needle =>
    rw [List.cons_append, afterFirst, if_pos]
    · exact congrArg some (@List.drop_left _ (c :: needle) text)
    · exact List.isPrefixOf_iff_prefix.mpr (List.prefix_append (c :: needle) text)

/-- Text without the first character of what is looked for is passed over. -/
theorem afterFirst_append {needle : List Char} (hu : c ∉ u) :
    afterFirst (c :: needle) (u ++ text) = afterFirst (c :: needle) text := by
  induction u with
  | nil => rfl
  | cons d u ih =>
    rw [List.mem_cons, not_or] at hu
    rw [List.cons_append, afterFirst, if_neg, ih hu.2]
    rw [List.isPrefixOf_iff_prefix, List.cons_prefix_cons]
    exact fun h => hu.1 h.1

/-- Text without quotes is passed over. -/
theorem afterFirst_quoted_append (hu : '"' ∉ u) :
    afterFirst (quoted key) (u ++ text) = afterFirst (quoted key) text :=
  afterFirst_append hu

/-- Two texts without quotes that end in a quote at the same place. -/
theorem eq_of_prefix_quote {a b t : List Char} (ha : '"' ∉ a) (hb : '"' ∉ b)
    (h : a ++ ['"'] <+: b ++ '"' :: t) : a = b := by
  induction a generalizing b with
  | nil =>
    cases b with
    | nil => rfl
    | cons d b =>
      rw [List.nil_append, List.cons_append, List.cons_prefix_cons] at h
      exact absurd (List.mem_cons.mpr (Or.inl h.1)) hb
  | cons c a ih =>
    rw [List.mem_cons, not_or] at ha
    cases b with
    | nil =>
      rw [List.cons_append, List.nil_append, List.cons_prefix_cons] at h
      exact absurd h.1.symm ha.1
    | cons d b =>
      rw [List.mem_cons, not_or] at hb
      rw [List.cons_append, List.cons_append, List.cons_prefix_cons] at h
      rw [h.1, ih ha.2 hb.2 h.2]

/-- A quoted text that is not the key is passed over, up to its closing quote. -/
theorem afterFirst_quoted_ne (hkey : '"' ∉ key) (hu : '"' ∉ u) (hne : key ≠ u) :
    afterFirst (quoted key) ('"' :: (u ++ '"' :: text)) = afterFirst (quoted key) ('"' :: text) := by
  rw [afterFirst, if_neg, afterFirst_quoted_append hu]
  rw [List.isPrefixOf_iff_prefix, quoted, List.cons_append, List.cons_prefix_cons]
  exact fun h => hne (eq_of_prefix_quote hkey hu h.2)

/-- A quote with another character behind it than the key has. -/
theorem afterFirst_close (hne : key ≠ []) (hhead : text.head? ≠ key.head?) :
    afterFirst (quoted key) ('"' :: text) = afterFirst (quoted key) text := by
  rw [afterFirst, if_neg]
  cases key with
  | nil => exact absurd rfl hne
  | cons d key =>
    rw [List.isPrefixOf_iff_prefix, quoted, List.cons_append, List.cons_prefix_cons,
      List.cons_append]
    rintro ⟨-, hprefix⟩
    cases text with
    | nil => exact absurd (List.prefix_nil.mp hprefix) (List.cons_ne_nil _ _)
    | cons e text =>
      rw [List.cons_prefix_cons] at hprefix
      exact hhead (congrArg some hprefix.1.symm)

/-- A key without quotes that does not look like the text behind a quote. -/
def KeyWord (key : List Char) : Prop :=
  '"' ∉ key ∧ key ≠ [] ∧ key.head? ≠ some ':' ∧ key.head? ≠ some ','

instance (key : List Char) : Decidable (KeyWord key) := inferInstanceAs (Decidable (_ ∧ _))

theorem isDigit_ne {d : Char} (h : d.isDigit = true) :
    d ≠ '"' ∧ d ≠ ',' ∧ d ≠ '}' ∧ d ≠ ' ' ∧ d ≠ '\t' := by
  refine ⟨?_, ?_, ?_, ?_, ?_⟩ <;> rintro rfl <;> exact absurd h (by decide)

theorem Gap.notMem (gap : Gap) (hspace : c ≠ ' ') (htab : c ≠ '\t') : c ∉ gap.chars :=
  fun h => (gap.blank c h).elim hspace htab

/-- A member in which the key is not found. -/
structure Skips (key : List Char) (m : Member) : Prop where
  name : '"' ∉ m.key
  other : key ≠ m.key
  value : m.value.WellFormed
  text : m.value ≠ .text key
  gaps : ∀ c ∈ m.afterKey.chars ++ m.afterValue.chars, key.head? ≠ some c

/-- What stands behind a gap is not the beginning of the key. -/
theorem head?_gap_append {gap : List Char} (hgap : ∀ c ∈ gap, key.head? ≠ some c)
    (hc : key.head? ≠ some c) : (gap ++ c :: text).head? ≠ key.head? := by
  cases gap with
  | nil => exact fun h => hc h.symm
  | cons d gap => exact fun h => hgap d (List.mem_cons_self ..) h.symm

theorem afterFirst_skip (hc : c ≠ '"') :
    afterFirst (quoted key) (c :: text) = afterFirst (quoted key) text :=
  afterFirst_quoted_append (u := [c]) (by simpa using hc.symm)

theorem afterFirst_gap (gap : Gap) :
    afterFirst (quoted key) (gap.chars ++ text) = afterFirst (quoted key) text :=
  afterFirst_quoted_append (gap.notMem (by decide) (by decide))

/-- The name of another key is passed over, and the colon. -/
theorem afterFirst_name {m : Member} (hkey : KeyWord key) (hname : '"' ∉ m.key) (hne : key ≠ m.key)
    (hgap : ∀ c ∈ m.afterKey.chars, key.head? ≠ some c) :
    afterFirst (quoted key) (m.render text) =
      afterFirst (quoted key) (m.value.render ++ (m.afterValue.chars ++ text)) := by
  obtain ⟨hquote, hnil, hcolon, -⟩ := hkey
  rw [Member.render, afterFirst_gap, quoted_append, afterFirst_quoted_ne hquote hname hne,
    afterFirst_close hnil (head?_gap_append hgap hcolon), afterFirst_gap,
    afterFirst_skip (by decide), afterFirst_gap]

/-- A member of another key is passed over. -/
theorem afterFirst_member {m : Member} (hkey : KeyWord key) (h : Skips key m) :
    afterFirst (quoted key) (m.render (',' :: text)) = afterFirst (quoted key) text := by
  rw [afterFirst_name hkey h.name h.other fun c hc => h.gaps c (List.mem_append_left _ hc)]
  obtain ⟨hquote, hnil, -, hcomma⟩ := hkey
  have hvalue := h.value
  have htext := h.text
  cases hv : m.value with
  | number digits =>
    rw [hv] at hvalue
    rw [JsonValue.render, afterFirst_quoted_append fun hd => (isDigit_ne (hvalue.2 _ hd)).1 rfl,
      afterFirst_gap, afterFirst_skip (by decide)]
  | text chars =>
    rw [hv] at hvalue htext
    have hgap : ∀ c ∈ m.afterValue.chars, key.head? ≠ some c :=
      fun c hc => h.gaps c (List.mem_append_right _ hc)
    rw [JsonValue.render, quoted_append,
      afterFirst_quoted_ne hquote hvalue fun he => htext (by rw [he]),
      afterFirst_close hnil (head?_gap_append hgap hcomma), afterFirst_gap,
      afterFirst_skip (by decide)]

/-- All members before some other are passed over. -/
theorem afterFirst_members {pre : List Member} (hkey : KeyWord key)
    (hpre : ∀ m ∈ pre, Skips key m) (tail : List Char) (m : Member) (post : List Member) :
    afterFirst (quoted key) (renderMembers tail (pre ++ m :: post)) =
      afterFirst (quoted key) (renderMembers tail (m :: post)) := by
  induction pre with
  | nil => rfl
  | cons p pre ih =>
    have hrest := ih fun m hm => hpre m (List.mem_cons_of_mem _ hm)
    have hfirst := hpre p (List.mem_cons_self ..)
    cases pre with
    | nil => exact afterFirst_member hkey hfirst
    | cons q pre => exact (afterFirst_member hkey hfirst).trans hrest

/-! ### Reading a value -/

variable {line rest : List Char}

/-- What is left of the line at the value of a key. -/
theorem findValueSpan_of_afterFirst {gap : Gap}
    (hfind : afterFirst (quoted key) line = some (u ++ ':' :: (gap.chars ++ c :: rest)))
    (hu : ':' ∉ u) (hspace : c ≠ ' ') (htab : c ≠ '\t') :
    findValueSpan line key =
      if c = '"' then
        if '"' ∈ rest then some (rest.takeWhile fun c => c ≠ '"') else none
      else some ((c :: rest).takeWhile fun c => c ≠ ',' && c ≠ '}') := by
  have hcolon : afterFirst [':'] (u ++ ':' :: (gap.chars ++ c :: rest)) =
      some (gap.chars ++ c :: rest) := by
    rw [afterFirst_append hu]
    exact afterFirst_of_prefix [':'] _ (by simp)
  have hblank : (gap.chars ++ c :: rest).dropWhile (fun c => c = ' ' || c = '\t') = c :: rest := by
    rw [List.dropWhile_append_of_pos fun d hd => by simpa using gap.blank d hd,
      List.dropWhile_cons_of_neg (by simp [hspace, htab])]
  rw [findValueSpan, hfind]
  dsimp only
  rw [hcolon]
  dsimp only
  rw [hblank]

/-- Up to the first quote. -/
theorem takeWhile_quote {chars : List Char} (h : '"' ∉ chars) (rest : List Char) :
    (chars ++ '"' :: rest).takeWhile (fun c => c ≠ '"') = chars := by
  have hstop : ∀ c ∈ chars, decide (c ≠ '"') = true :=
    fun c hc => decide_eq_true fun heq => h (heq ▸ hc)
  rw [List.takeWhile_append_of_pos hstop, List.takeWhile_cons_of_neg (by simp), List.append_nil]

/-- A quoted text is read up to the next quote. -/
theorem findValueSpan_text_of_afterFirst {gap : Gap} {chars : List Char}
    (hfind : afterFirst (quoted key) line = some (u ++ ':' :: (gap.chars ++ (quoted chars ++ rest))))
    (hu : ':' ∉ u) :
    findValueSpan line key = some ((chars ++ '"' :: rest).takeWhile fun c => c ≠ '"') := by
  rw [quoted_append] at hfind
  rw [findValueSpan_of_afterFirst hfind hu (by decide) (by decide), if_pos rfl, if_pos (by simp)]

/-- The search for the key ends before the value of the member. -/
def Finds (line key : List Char) (m : Member) : Prop :=
  ∃ u sep text, ':' ∉ u ∧ (sep = ',' ∨ sep = '}') ∧
    afterFirst (quoted key) line = some (u ++ ':' ::
      (m.beforeValue.chars ++ (m.value.render ++ (m.afterValue.chars ++ sep :: text))))

variable {pre post : List Member} {tail : List Char} {m : Member}

/-- Any text, up to its first quote. -/
theorem Finds.takeWhile_text (h : Finds line key m) {chars : List Char}
    (htext : m.value = .text chars) :
    ∃ rest, findValueSpan line key = some ((chars ++ '"' :: rest).takeWhile fun c => c ≠ '"') := by
  obtain ⟨u, sep, text, hu, -, hfind⟩ := h
  rw [htext] at hfind
  exact ⟨_, findValueSpan_text_of_afterFirst hfind hu⟩

/-- The span of a value. -/
theorem Finds.span (h : Finds line key m) (hvalue : m.value.WellFormed) :
    findValueSpan line key = some m.span := by
  rw [Member.span]
  cases hv : m.value with
  | number digits =>
    obtain ⟨u, sep, rest, hu, hsep, hfind⟩ := h
    rw [hv] at hvalue hfind
    obtain ⟨hne, hdigits⟩ := hvalue
    cases digits with
    | nil => exact absurd rfl hne
    | cons d digits =>
      rw [JsonValue.render, List.cons_append] at hfind
      obtain ⟨hquote, -, -, hspace, htab⟩ := isDigit_ne (hdigits d (List.mem_cons_self ..))
      have hstop : ∀ e ∈ d :: digits ++ m.afterValue.chars, (e ≠ ',' && e ≠ '}') = true := by
        intro e he
        rcases List.mem_append.mp he with he | he
        · obtain ⟨-, hcomma, hbrace, -, -⟩ := isDigit_ne (hdigits e he)
          simp [hcomma, hbrace]
        · rcases m.afterValue.blank e he with rfl | rfl <;> decide
      have hsep' : (sep ≠ ',' && sep ≠ '}') = false := by
        rcases hsep with rfl | rfl <;> decide
      have hsplit : d :: (digits ++ (m.afterValue.chars ++ sep :: rest)) =
          (d :: digits ++ m.afterValue.chars) ++ sep :: rest :=
        (List.append_assoc (d :: digits) _ _).symm
      rw [findValueSpan_of_afterFirst hfind hu hspace htab, if_neg hquote, hsplit,
        List.takeWhile_append_of_pos hstop,
        List.takeWhile_cons_of_neg (by rw [hsep']; exact Bool.false_ne_true), List.append_nil]
  | text chars =>
    obtain ⟨rest, hrest⟩ := h.takeWhile_text hv
    rw [hv] at hvalue
    rw [hrest, takeWhile_quote hvalue]

/-- **A key is found**, if no member before it is taken for it. -/
theorem finds_members (hu : '"' ∉ u) (hkey : KeyWord m.key) (hpre : ∀ p ∈ pre, Skips m.key p) :
    Finds (u ++ renderMembers tail (pre ++ m :: post)) m.key m := by
  obtain ⟨sep, text, hsep, hm⟩ := renderMembers_cons tail m post
  refine ⟨m.afterKey.chars, sep, text, m.afterKey.notMem (by decide) (by decide), hsep, ?_⟩
  rw [afterFirst_quoted_append hu, afterFirst_members hkey hpre, hm, Member.render, afterFirst_gap]
  exact afterFirst_of_prefix _ _ (by simp [quoted])

/-- **A text that is the key is taken for it**, and the next member is found. -/
theorem finds_misread {p : Member} (hu : '"' ∉ u) (hkey : KeyWord key)
    (hpre : ∀ q ∈ pre, Skips key q) (hname : '"' ∉ p.key) (hne : key ≠ p.key)
    (hgap : ∀ c ∈ p.afterKey.chars, key.head? ≠ some c) (htext : p.value = .text key)
    (hcolon : ':' ∉ m.key) :
    Finds (u ++ renderMembers tail (pre ++ p :: m :: post)) key m := by
  obtain ⟨sep, text, hsep, hm⟩ := renderMembers_cons tail m post
  refine ⟨p.afterValue.chars ++ ',' :: (m.beforeKey.chars ++ (quoted m.key ++ m.afterKey.chars)),
    sep, text, ?_, hsep, ?_⟩
  · have hblank : ∀ gap : Gap, ':' ∉ gap.chars := fun gap => gap.notMem (by decide) (by decide)
    simp [quoted, hblank, hcolon]
  · rw [afterFirst_quoted_append hu, afterFirst_members hkey hpre, renderMembers, hm,
      afterFirst_name hkey hname hne hgap, htext, JsonValue.render,
      afterFirst_of_prefix _ _ (by simp [quoted])]
    simp only [Member.render, List.append_assoc, List.cons_append]

/-! ### Records -/

/-- The keys of a line. -/
def keys : List (List Char) :=
  ["seq".toList, "master".toList, "tick_first_attempt".toList, "tick_complete".toList,
    "addr".toList, "size".toList, "rw".toList, "kind".toList, "service_cycles".toList,
    "retries".toList]

/-- A record with the values that stand at the keys. -/
structure ReadAs (value : List Char → List Char) (rec : TraceRecord) : Prop where
  seq : parseU64 (value "seq".toList) = some rec.seq
  master : String.ofList (value "master".toList) = rec.master
  tickFirstAttempt : parseU64 (value "tick_first_attempt".toList) = some rec.tickFirstAttempt
  tickComplete : parseU64 (value "tick_complete".toList) = some rec.tickComplete
  addr : parseAddr (value "addr".toList) = some rec.addr
  addrText : String.ofList (value "addr".toList) = rec.addrText
  size : (parseU64 (value "size".toList)).map (BitVec.setWidth 8) = some rec.size
  rw : String.ofList (value "rw".toList) = rec.rw
  kind : String.ofList (value "kind".toList) = rec.kind
  serviceCycles :
    (parseU64 (value "service_cycles".toList)).map (BitVec.setWidth 32) = some rec.serviceCycles
  retries : (parseU64 (value "retries".toList)).map (BitVec.setWidth 32) = some rec.retries

theorem parseRecord_iff {value : List Char → List Char} {sourceLine : Nat} {rec : TraceRecord}
    (h : ∀ key ∈ keys, findValueSpan line key = some (value key)) :
    parseRecord line sourceLine = some rec ↔ ReadAs value rec ∧ rec.sourceLine = sourceLine := by
  simp only [keys, List.forall_mem_cons] at h
  obtain ⟨hseq, hmaster, htfa, htc, haddr, hsize, hrw, hkind, hservice, hretries, -⟩ := h
  rw [parseRecord, hseq, hmaster, htfa, htc, haddr, hsize, hrw, hkind, hservice, hretries]
  constructor
  · intro hparse
    dsimp only at hparse
    split at hparse
    · rename_i hseq hfirst hlast haddr hsize hservice hretries
      obtain rfl := Option.some_inj.mp hparse
      refine ⟨⟨hseq, rfl, hfirst, hlast, haddr, rfl, ?_, rfl, rfl, ?_, ?_⟩, rfl⟩
      · rw [hsize, Option.map_some]
      · rw [hservice, Option.map_some]
      · rw [hretries, Option.map_some]
    · exact absurd hparse.symm (by simp)
  · rintro ⟨hread, rfl⟩
    obtain ⟨size, hsize, hsizeWidth⟩ := Option.map_eq_some_iff.mp hread.size
    obtain ⟨service, hservice, hserviceWidth⟩ := Option.map_eq_some_iff.mp hread.serviceCycles
    obtain ⟨retries, hretries, hretriesWidth⟩ := Option.map_eq_some_iff.mp hread.retries
    dsimp only
    rw [hread.seq, hread.tickFirstAttempt, hread.tickComplete, hread.addr, hsize, hservice,
      hretries]
    dsimp only
    rw [hread.master, hread.addrText, hread.rw, hread.kind, hsizeWidth, hserviceWidth,
      hretriesWidth]

/-- Every key of a line that is parsed has a value. -/
theorem exists_values {sourceLine : Nat} {rec : TraceRecord}
    (h : parseRecord line sourceLine = some rec) :
    ∃ value : List Char → List Char, ∀ key ∈ keys, findValueSpan line key = some (value key) := by
  refine ⟨fun key => (findValueSpan line key).getD [], fun key hkey => ?_⟩
  rw [parseRecord] at h
  split at h
  · rename_i hseq hmaster hfirst hlast haddr hsize hrw hkind hservice hretries
    have hall : ∀ key ∈ keys, (findValueSpan line key).isSome = true := by
      simp only [keys, List.forall_mem_cons, hseq, hmaster, hfirst, hlast, haddr, hsize, hrw, hkind,
        hservice, hretries]
      simp
    obtain ⟨value, hvalue⟩ := Option.isSome_iff_exists.mp (hall key hkey)
    show _ = some ((findValueSpan line key).getD [])
    rw [hvalue, Option.getD_some]
  · exact absurd h.symm (by simp)

end Saturnis.Replay
