/-
Texts of words with values between them.

A value ends where the word behind it begins if that word begins with a letter that
the value has not.  A text of such values and words can be read in one way only.

* `append_inj_of_ends` — one value;
* `weave_inj` — all values;
* `lines_inj` — lines, which end with a letter that no line has.
-/
import Mathlib.Data.List.Forall2

namespace Weave

variable {α : Type*}

/-- Every value, with the word behind it. -/
def weave : List (List α) → List (List α) → List α
  | value :: values, word :: words => value ++ (word ++ weave values words)
  | _, _ => []

/-- The value has not the letter with which the word begins. -/
def Ends (value word : List α) : Prop := ∃ c, word.head? = some c ∧ c ∉ value

/-- The letters with which the words begin. -/
theorem ends_of_stops {values words : List (List α)} {stops : List α}
    (hwords : words.map List.head? = stops.map some)
    (h : List.Forall₂ (fun value c => c ∉ value) values stops) :
    List.Forall₂ Ends values words := by
  induction h generalizing words with
  | nil =>
    rw [List.map_eq_nil_iff.mp hwords]
    exact .nil
  | cons hnot _ ih =>
    cases words with
    | nil => exact absurd hwords (by simp)
    | cons word words =>
      obtain ⟨hhead, htail⟩ := List.cons.inj hwords
      exact .cons ⟨_, hhead, hnot⟩ (ih htail)

theorem append_inj_of_stop {c : α} {value value' rest rest' : List α} (h : c ∉ value)
    (h' : c ∉ value') (heq : value ++ c :: rest = value' ++ c :: rest') :
    value = value' ∧ rest = rest' := by
  induction value generalizing value' with
  | nil =>
    cases value' with
    | nil => exact ⟨rfl, (List.cons.inj heq).2⟩
    | cons d value' => exact absurd (List.mem_cons.mpr (Or.inl (List.cons.inj heq).1)) h'
  | cons d value ih =>
    rw [List.mem_cons, not_or] at h
    cases value' with
    | nil => exact absurd (List.cons.inj heq).1.symm h.1
    | cons d' value' =>
      rw [List.mem_cons, not_or] at h'
      obtain ⟨rfl, htail⟩ := List.cons.inj heq
      obtain ⟨rfl, hrest⟩ := ih h.2 h'.2 htail
      exact ⟨rfl, hrest⟩

theorem append_inj_of_ends {value value' word rest rest' : List α} (h : Ends value word)
    (h' : Ends value' word) (heq : value ++ (word ++ rest) = value' ++ (word ++ rest')) :
    value = value' ∧ rest = rest' := by
  obtain ⟨c, hhead, hnot⟩ := h
  obtain ⟨c', hhead', hnot'⟩ := h'
  obtain rfl : c = c' := Option.some_inj.mp (hhead.symm.trans hhead')
  cases word with
  | nil => exact absurd hhead (by simp)
  | cons d word =>
    obtain rfl : d = c := Option.some_inj.mp hhead
    obtain ⟨hvalue, hrest⟩ := append_inj_of_stop hnot hnot' heq
    exact ⟨hvalue, List.append_cancel_left hrest⟩

/-- **The text tells its values**, and what comes behind them. -/
theorem weave_inj {values values' words : List (List α)} {rest rest' : List α}
    (h : List.Forall₂ Ends values words) (h' : List.Forall₂ Ends values' words)
    (heq : weave values words ++ rest = weave values' words ++ rest') :
    values = values' ∧ rest = rest' := by
  induction h generalizing values' with
  | nil =>
    cases h'
    exact ⟨rfl, heq⟩
  | cons hvalue _ ih =>
    cases h' with
    | cons hvalue' htail' =>
      rw [weave, weave, List.append_assoc, List.append_assoc, List.append_assoc,
        List.append_assoc] at heq
      obtain ⟨rfl, htail⟩ := append_inj_of_ends hvalue hvalue' heq
      obtain ⟨rfl, hrest⟩ := ih htail' htail
      exact ⟨rfl, hrest⟩

/-- A text of lines tells its lines. -/
theorem lines_inj {c : α} {lines lines' : List (List α)} (h : ∀ line ∈ lines, c ∉ line)
    (h' : ∀ line ∈ lines', c ∉ line)
    (heq : lines.flatMap (fun line => line ++ [c]) = lines'.flatMap fun line => line ++ [c]) :
    lines = lines' := by
  induction lines generalizing lines' with
  | nil =>
    cases lines' with
    | nil => rfl
    | cons line lines' => simp at heq
  | cons line lines ih =>
    cases lines' with
    | nil => simp at heq
    | cons line' lines' =>
      rw [List.flatMap_cons, List.flatMap_cons, List.append_assoc, List.append_assoc] at heq
      rw [List.forall_mem_cons] at h h'
      obtain ⟨rfl, hrest⟩ := append_inj_of_stop h.1 h'.1 heq
      rw [ih h.2 h'.2 hrest]

end Weave
