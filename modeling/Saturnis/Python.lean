/-
What the BIOS scripts use of Python.

`splitlines` and `strip` of texts, `int`, a `Counter` with its items in the order
of first encounter, and a stable sort of items by falling count, then by value.

* `splitlines_flatMap` — lines with a newline behind each come back;
* `mem_counter_iff`, `sum_counter` — the counts are exact and add up;
* `sortedItems_pairwise` — the sorted items are in order, each value once.
-/
import Mathlib.Algebra.BigOperators.Group.List.Basic
import Mathlib.Algebra.GroupWithZero.Nat
import Mathlib.Data.List.Nodup

namespace Saturnis.Python

/-! ### Texts -/

def isLineBreak (c : Char) : Bool :=
  c.toNat ∈ [0x0A, 0x0B, 0x0C, 0x0D, 0x1C, 0x1D, 0x1E, 0x85, 0x2028, 0x2029]

def isSpace (c : Char) : Bool :=
  c.toNat ∈ [0x09, 0x0A, 0x0B, 0x0C, 0x0D, 0x1C, 0x1D, 0x1E, 0x1F, 0x20, 0x85, 0xA0, 0x1680,
    0x2028, 0x2029, 0x202F, 0x205F, 0x3000] || (0x2000 ≤ c.toNat && c.toNat ≤ 0x200A)

/-- The lines of a text, from a line that is begun; a newline directly behind a
carriage return is part of the same break. -/
def splitlinesFrom (line : List Char) (afterReturn : Bool) : List Char → List (List Char)
  | [] => if line = [] then [] else [line]
  | c :: text =>
    if afterReturn && c = '\n' then splitlinesFrom [] false text
    else if isLineBreak c then line :: splitlinesFrom [] (c = '\r') text
    else splitlinesFrom (line ++ [c]) false text

def splitlines (text : List Char) : List (List Char) := splitlinesFrom [] false text

def strip (text : List Char) : List Char :=
  ((text.dropWhile isSpace).reverse.dropWhile isSpace).reverse

/-- Printable ASCII, the blank included. -/
def Printable (text : List Char) : Prop := ∀ c ∈ text, 0x20 ≤ c.toNat ∧ c.toNat < 0x7F

instance (text : List Char) : Decidable (Printable text) :=
  List.decidableBAll (fun c : Char => 0x20 ≤ c.toNat ∧ c.toNat < 0x7F) text

theorem printable_append {a b : List Char} : Printable (a ++ b) ↔ Printable a ∧ Printable b :=
  List.forall_mem_append

theorem Printable.notBreak {text : List Char} (h : Printable text) :
    ∀ c ∈ text, isLineBreak c = false := by
  intro c hc
  obtain ⟨hlow, hhigh⟩ := h c hc
  rw [isLineBreak, decide_eq_false_iff_not]
  simp only [List.mem_cons, List.not_mem_nil, or_false, not_or]
  omega

/-- Up to the end of the line. -/
theorem splitlinesFrom_append {u : List Char} (hu : ∀ c ∈ u, isLineBreak c = false)
    (line text : List Char) :
    splitlinesFrom line false (u ++ '\n' :: text) = (line ++ u) :: splitlines text := by
  induction u generalizing line with
  | nil =>
    rw [List.append_nil]
    rfl
  | cons c u ih =>
    have hc : isLineBreak c = false := hu c (List.mem_cons_self ..)
    rw [List.cons_append, splitlinesFrom, if_neg (by simp), hc, if_neg (by simp),
      ih fun d hd => hu d (List.mem_cons_of_mem _ hd), List.append_assoc, List.singleton_append]

theorem splitlines_flatMap {lines : List (List Char)} (h : ∀ line ∈ lines, Printable line) :
    splitlines (lines.flatMap fun line => line ++ ['\n']) = lines := by
  induction lines with
  | nil => rfl
  | cons line lines ih =>
    rw [List.flatMap_cons, List.append_assoc, List.singleton_append, splitlines,
      splitlinesFrom_append (h line (List.mem_cons_self ..)).notBreak, List.nil_append,
      ih fun l hl => h l (List.mem_cons_of_mem _ hl)]

theorem dropWhile_of_head {text : List Char} {c : Char} (h : text.head? = some c)
    (hc : isSpace c = false) : text.dropWhile isSpace = text := by
  cases text with
  | nil => rfl
  | cons d text =>
    rw [List.head?_cons, Option.some_inj] at h
    rw [List.dropWhile_cons_of_neg (by simp [h, hc])]

/-- A text that begins and ends in other characters is not stripped. -/
theorem strip_eq {text : List Char} {c d : Char} (hhead : text.head? = some c)
    (hlast : text.getLast? = some d) (hc : isSpace c = false) (hd : isSpace d = false) :
    strip text = text := by
  rw [← List.head?_reverse] at hlast
  rw [strip, dropWhile_of_head hhead hc, dropWhile_of_head hlast hd, List.reverse_reverse]

/-! ### Numbers -/

/-- Digits with single underscores between them, behind a number. -/
def digitsFrom (value : Option Nat) : List Char → Option Nat
  | [] => value
  | [c] => if c.isDigit then some (10 * value.getD 0 + (c.toNat - '0'.toNat)) else none
  | c :: d :: text =>
    if c.isDigit then digitsFrom (some (10 * value.getD 0 + (c.toNat - '0'.toNat))) (d :: text)
    else if c = '_' && value.isSome && d.isDigit then digitsFrom value (d :: text)
    else none

/-- `int` of a text of ASCII digits. -/
def intOfText (text : List Char) : Option Int :=
  match strip text with
  | '-' :: digits => (digitsFrom none digits).map fun n => -(n : Int)
  | '+' :: digits => (digitsFrom none digits).map Int.ofNat
  | digits => (digitsFrom none digits).map Int.ofNat

/-- A value of a dictionary, as far as `int` looks into it: of a float only what
is left when it is truncated, if it is finite. -/
inductive Value
  | null
  | bool (b : Bool)
  | int (n : Int)
  | float (truncated : Option Int)
  | str (text : List Char)
  | container
deriving DecidableEq, Repr

/-- `int(value)`, or `none` where it raises an exception. -/
def Value.toInt : Value → Option Int
  | null => none
  | bool b => some (if b then 1 else 0)
  | int n => some n
  | float truncated => truncated
  | str text => intOfText text
  | container => none

/-! ### Counting -/

variable {α : Type*} [DecidableEq α]

/-- `counter[x] += 1`. -/
def increment (x : α) : List (α × Nat) → List (α × Nat)
  | [] => [(x, 1)]
  | (y, n) :: items => if y = x then (y, n + 1) :: items else (y, n) :: increment x items

/-- The items of `Counter(xs)`. -/
def counter (xs : List α) : List (α × Nat) := xs.foldl (fun items x => increment x items) []

theorem map_fst_increment (x : α) (items : List (α × Nat)) :
    (increment x items).map Prod.fst =
      if x ∈ items.map Prod.fst then items.map Prod.fst else items.map Prod.fst ++ [x] := by
  induction items with
  | nil => rfl
  | cons item items ih =>
    obtain ⟨y, n⟩ := item
    rw [increment]
    by_cases hy : y = x
    · rw [if_pos hy, if_pos (by simp [hy])]
      rfl
    · rw [if_neg hy, List.map_cons, ih, List.map_cons]
      by_cases hx : x ∈ items.map Prod.fst
      · rw [if_pos hx, if_pos (List.mem_cons_of_mem _ hx)]
      · rw [if_neg hx, if_neg (by simp [Ne.symm hy, hx]), List.cons_append]

theorem sum_increment (x : α) (items : List (α × Nat)) :
    ((increment x items).map Prod.snd).sum = (items.map Prod.snd).sum + 1 := by
  induction items with
  | nil => rfl
  | cons item items ih =>
    obtain ⟨y, n⟩ := item
    rw [increment]
    split
    · simp only [List.map_cons, List.sum_cons]
      omega
    · simp only [List.map_cons, List.sum_cons, ih]
      omega

/-- The count of a value is the number in its item, or zero. -/
def countOf (items : List (α × Nat)) (x : α) : Nat := (items.lookup x).getD 0

theorem countOf_cons (x y : α) (n : Nat) (items : List (α × Nat)) :
    countOf ((y, n) :: items) x = if x = y then n else countOf items x := by
  rw [countOf, List.lookup_cons]
  by_cases hx : x = y
  · rw [if_pos hx, beq_iff_eq.mpr hx]
    rfl
  · rw [if_neg hx, beq_eq_false_iff_ne.mpr hx]
    rfl

theorem countOf_increment (x y : α) (items : List (α × Nat)) :
    countOf (increment x items) y = countOf items y + if y = x then 1 else 0 := by
  induction items with
  | nil =>
    rw [increment, countOf_cons]
    split
    · rfl
    · rfl
  | cons item items ih =>
    obtain ⟨z, n⟩ := item
    rw [increment]
    by_cases hz : z = x
    · rw [if_pos hz, countOf_cons, countOf_cons, hz]
      split
      · rfl
      · rfl
    · rw [if_neg hz, countOf_cons, countOf_cons, ih]
      by_cases hy : y = z
      · rw [if_pos hy, if_pos hy, if_neg (by rw [hy]; exact hz)]
        rfl
      · rw [if_neg hy, if_neg hy]

theorem mem_iff_countOf {items : List (α × Nat)} (hnodup : (items.map Prod.fst).Nodup) {x : α}
    {n : Nat} : (x, n) ∈ items ↔ x ∈ items.map Prod.fst ∧ n = countOf items x := by
  induction items with
  | nil => simp
  | cons item items ih =>
    obtain ⟨y, m⟩ := item
    rw [List.map_cons, List.nodup_cons] at hnodup
    rw [List.mem_cons, Prod.mk.injEq, ih hnodup.2, List.map_cons, List.mem_cons, countOf_cons]
    by_cases hx : x = y
    · subst hx
      rw [if_pos rfl]
      exact ⟨fun h => h.elim (fun h => ⟨Or.inl rfl, h.2⟩) fun h => absurd h.1 hnodup.1,
        fun h => Or.inl ⟨rfl, h.2⟩⟩
    · rw [if_neg hx]
      exact ⟨fun h => h.elim (fun h => absurd h.1 hx) fun h => ⟨Or.inr h.1, h.2⟩,
        fun h => Or.inr ⟨h.1.resolve_left hx, h.2⟩⟩

/-- What the items say of the values that are counted so far. -/
structure Counts (items : List (α × Nat)) (xs : List α) : Prop where
  nodup : (items.map Prod.fst).Nodup
  keys : ∀ x, x ∈ items.map Prod.fst ↔ x ∈ xs
  count : ∀ x, countOf items x = xs.count x
  sum : (items.map Prod.snd).sum = xs.length

theorem Counts.increment {items : List (α × Nat)} {xs : List α} (h : Counts items xs) (x : α) :
    Counts (increment x items) (xs ++ [x]) := by
  refine ⟨?_, fun y => ?_, fun y => ?_, ?_⟩
  · rw [map_fst_increment]
    split
    · exact h.nodup
    · rename_i hx
      exact List.nodup_append.mpr ⟨h.nodup, List.nodup_singleton x,
        fun y hy z hz heq => hx (List.mem_singleton.mp hz ▸ heq ▸ hy)⟩
  · rw [map_fst_increment, List.mem_append, List.mem_singleton]
    split
    · rename_i hx
      rw [h.keys]
      exact ⟨Or.inl, fun hy => hy.elim id fun hy => hy ▸ (h.keys x).mp hx⟩
    · rw [List.mem_append, List.mem_singleton, h.keys]
  · rw [countOf_increment, h.count, List.count_append, List.count_singleton]
    by_cases hy : y = x
    · rw [if_pos hy, if_pos (beq_iff_eq.mpr hy.symm)]
    · rw [if_neg hy, if_neg fun h => hy (beq_iff_eq.mp h).symm]
  · rw [sum_increment, h.sum, List.length_append, List.length_singleton]

theorem counts_counter (xs : List α) : Counts (counter xs) xs := by
  have hrun : ∀ (ys : List α) (items : List (α × Nat)) (zs : List α), Counts items zs →
      Counts (ys.foldl (fun items x => Python.increment x items) items) (zs ++ ys) := by
    intro ys
    induction ys with
    | nil =>
      intro items zs h
      rw [List.append_nil]
      exact h
    | cons y ys ih =>
      intro items zs h
      rw [List.foldl_cons, ← List.singleton_append, ← List.append_assoc]
      exact ih _ _ (h.increment y)
  exact hrun xs [] [] ⟨List.nodup_nil, fun x => Iff.rfl, fun x => rfl, rfl⟩

/-- **The counts are exact.** -/
theorem mem_counter_iff {xs : List α} {x : α} {n : Nat} :
    (x, n) ∈ counter xs ↔ 0 < n ∧ n = xs.count x := by
  have h := counts_counter xs
  rw [mem_iff_countOf h.nodup, h.keys, h.count, ← List.count_pos_iff]
  exact ⟨fun hn => ⟨hn.2 ▸ hn.1, hn.2⟩, fun hn => ⟨hn.2 ▸ hn.1, hn.2⟩⟩

theorem sum_counter (xs : List α) : ((counter xs).map Prod.snd).sum = xs.length :=
  (counts_counter xs).sum

/-! ### Sorting -/

/-- `sorted(items, key=lambda item: (-item[1], item[0]))`: the order of the keys. -/
def keyLe (a b : Int × Nat) : Bool := b.2 < a.2 || (b.2 = a.2 && a.1 ≤ b.1)

def sortedItems (items : List (Int × Nat)) : List (Int × Nat) := items.mergeSort keyLe

theorem keyLe_iff {a b : Int × Nat} : keyLe a b = true ↔ b.2 < a.2 ∨ b.2 = a.2 ∧ a.1 ≤ b.1 := by
  simp [keyLe]

/-- An item with a greater count comes first, and of two with the same count the
one with the smaller value. -/
def Before (a b : Int × Nat) : Prop := b.2 < a.2 ∨ b.2 = a.2 ∧ a.1 < b.1

/-- **The items are in order**, each value once. -/
theorem sortedItems_pairwise {items : List (Int × Nat)} (hnodup : (items.map Prod.fst).Nodup) :
    (sortedItems items).Pairwise Before := by
  have htrans : ∀ a b c : Int × Nat, keyLe a b → keyLe b c → keyLe a c := by
    intro a b c hab hbc
    rw [keyLe_iff] at hab hbc ⊢
    omega
  have htotal : ∀ a b : Int × Nat, (keyLe a b || keyLe b a) = true := by
    intro a b
    rw [Bool.or_eq_true, keyLe_iff, keyLe_iff]
    omega
  have hsorted := List.pairwise_mergeSort htrans htotal items
  have hdistinct : (sortedItems items).Pairwise fun a b => a.1 ≠ b.1 :=
    List.pairwise_map.mp (((List.mergeSort_perm items keyLe).map Prod.fst).nodup_iff.mpr hnodup)
  refine hsorted.imp₂ ?_ hdistinct
  intro a b hle hne
  rw [keyLe_iff] at hle
  rw [Before]
  omega

end Saturnis.Python
