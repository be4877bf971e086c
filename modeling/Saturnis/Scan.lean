/-
Selection by a linear scan.

`best r front l` walks over `l` and moves its choice to an element `x`
whenever `r x cur` holds for the current choice `cur`.  The relation
need not be transitive, so the result may depend on the order of `l`:

* `best_of_dominates` — an element that replaces every other one, and that
  none replaces, is chosen in whatever order the elements come;
* `best_minimal` — a key the relation respects is minimal at the choice;
* `best_invariant` — what holds of the front and survives a replacement
  holds of the choice.
-/
import Mathlib.Data.List.Nodup

namespace Scan

variable {α β : Type*} {r : α → α → Bool}

def best (r : α → α → Bool) (front : α) (l : List α) : α :=
  l.foldl (fun cur x => if r x cur then x else cur) front

@[simp] theorem best_nil (front : α) : best r front [] = front := rfl

theorem best_cons (front x : α) (l : List α) :
    best r front (x :: l) =
      best r (if r x front then x else front) l := rfl

theorem best_append (front : α) (l₁ l₂ : List α) :
    best r front (l₁ ++ l₂) = best r (best r front l₁) l₂ := by
  simp [best, List.foldl_append]

theorem best_concat (front x : α) (l : List α) :
    best r front (l ++ [x]) =
      if r x (best r front l) then x else best r front l := by
  rw [best_append, best_cons, best_nil]

theorem best_invariant {P : α → Prop} {front : α} {l : List α} (hfront : P front)
    (hstep : ∀ cur, ∀ x ∈ l, P cur → r x cur = true → P x) :
    P (best r front l) := by
  induction l generalizing front with
  | nil => exact hfront
  | cons x l ih =>
    rw [best_cons]
    refine ih ?_ fun cur y hy => hstep cur y (List.mem_cons_of_mem x hy)
    by_cases hx : r x front = true
    · rw [if_pos hx]
      exact hstep front x List.mem_cons_self hfront hx
    · rw [if_neg hx]
      exact hfront

theorem best_mem (front : α) (l : List α) : best r front l ∈ front :: l :=
  best_invariant (P := (· ∈ front :: l)) List.mem_cons_self
    fun _ _ hx _ _ => List.mem_cons_of_mem front hx

/-- The choice stays where no element replaces it. -/
theorem best_eq_front {front : α} {l : List α} (h : ∀ x ∈ l, r x front = false) :
    best r front l = front := by
  induction l with
  | nil => rfl
  | cons x l ih =>
    rw [best_cons, h x List.mem_cons_self]
    exact ih fun y hy => h y (List.mem_cons_of_mem x hy)

theorem best_of_dominates {front w : α} {l : List α} (hw : w ∈ front :: l)
    (hwin : ∀ x ∈ front :: l, x ≠ w → r w x = true)
    (hkeep : ∀ x ∈ front :: l, r x w = false) : best r front l = w := by
  rcases List.mem_cons.mp hw with rfl | hwl
  · exact best_eq_front fun x hx => hkeep x (List.mem_cons_of_mem w hx)
  · obtain ⟨l₁, l₂, rfl⟩ := List.append_of_mem hwl
    have hmem : best r front l₁ ∈ front :: (l₁ ++ w :: l₂) := by
      rcases List.mem_cons.mp (best_mem (r := r) front l₁) with h | h
      · exact List.mem_cons.mpr (Or.inl h)
      · exact List.mem_cons_of_mem front (List.mem_append_left _ h)
    have htake : (if r w (best r front l₁) then w
        else best r front l₁) = w := by
      by_cases heq : best r front l₁ = w
      · rw [heq, ite_self]
      · rw [if_pos (hwin _ hmem heq)]
    rw [best_append, best_cons, htake]
    refine best_eq_front fun x hx => hkeep x ?_
    exact List.mem_cons_of_mem front (List.mem_append_right l₁ (List.mem_cons_of_mem w hx))

/-- A choice that is the front and does not occur again was never replaced. -/
theorem not_replaces_of_best_eq_front {front : α} {l : List α} (h : best r front l = front)
    (hfront : front ∉ l) : ∀ x ∈ l, r x front = false := by
  induction l with
  | nil => simp
  | cons y l ih =>
    rw [best_cons] at h
    by_cases hy : r y front = true
    · rw [if_pos hy] at h
      exact absurd (h ▸ best_mem (r := r) y l) hfront
    · rw [if_neg hy] at h
      intro x hx
      rcases List.mem_cons.mp hx with rfl | hx
      · simpa using hy
      · exact ih h (fun hmem => hfront (List.mem_cons_of_mem y hmem)) x hx

/-- An element that replaces the choice before it, and that no later one
replaces, is chosen. -/
theorem best_eq_of_split {front w : α} {l l₁ l₂ : List α} (hsplit : front :: l = l₁ ++ w :: l₂)
    (htake : ∀ c m, l₁ = c :: m → r w (best r c m) = true) (hkeep : ∀ x ∈ l₂, r x w = false) :
    best r front l = w := by
  cases l₁ with
  | nil =>
    obtain ⟨rfl, rfl⟩ := List.cons.inj hsplit
    exact best_eq_front hkeep
  | cons c m =>
    rw [List.cons_append] at hsplit
    obtain ⟨rfl, rfl⟩ := List.cons.inj hsplit
    rw [best_append, best_cons, if_pos (htake _ m rfl)]
    exact best_eq_front hkeep

/-- No element listed after the choice replaces it. -/
theorem not_replaces_after_best {front w : α} {l l₁ l₂ : List α} (h : best r front l = w)
    (hsplit : front :: l = l₁ ++ w :: l₂) (hnodup : (front :: l).Nodup) :
    ∀ x ∈ l₂, r x w = false := by
  have hw : w ∉ l₂ := by
    rw [hsplit] at hnodup
    exact (List.nodup_cons.mp (List.nodup_append.mp hnodup).2.1).1
  cases l₁ with
  | nil =>
    obtain ⟨rfl, rfl⟩ := List.cons.inj hsplit
    exact not_replaces_of_best_eq_front h hw
  | cons c m =>
    rw [List.cons_append] at hsplit
    obtain ⟨rfl, rfl⟩ := List.cons.inj hsplit
    rw [best_append, best_cons] at h
    by_cases htake : r w (best r front m) = true
    · rw [if_pos htake] at h
      exact not_replaces_of_best_eq_front h hw
    · -- the choice before `w` would have to be `w` itself
      rw [if_neg htake] at h
      rcases List.mem_cons.mp (h ▸ best_mem (r := r) (best r front m) l₂) with heq | hmem
      · have hbefore := best_mem (r := r) front m
        rw [← heq] at hbefore
        rw [← List.cons_append] at hnodup
        exact absurd rfl ((List.nodup_append.mp hnodup).2.2 w hbefore w List.mem_cons_self)
      · exact absurd hmem hw

theorem best_minimal {front : α} {l : List α} (f : α → ℕ)
    (htake : ∀ x ∈ front :: l, ∀ cur ∈ front :: l, r x cur = true → f x ≤ f cur)
    (hkeep : ∀ x ∈ front :: l, ∀ cur ∈ front :: l, r x cur = false → f cur ≤ f x) :
    ∀ x ∈ front :: l, f (best r front l) ≤ f x := by
  induction l generalizing front with
  | nil =>
    intro x hx
    rw [List.mem_singleton.mp hx]
    exact Nat.le_refl _
  | cons y l ih =>
    intro x hx
    rw [best_cons]
    have hfront : front ∈ front :: y :: l := List.mem_cons_self
    have hy : y ∈ front :: y :: l := List.mem_cons_of_mem front List.mem_cons_self
    have hcur : ∀ z ∈ [front, y], f (if r y front then y else front) ≤ f z := by
      intro z hz
      by_cases hr : r y front = true
      · have := htake y hy front hfront hr
        rw [if_pos hr]
        rcases List.mem_pair.mp hz with rfl | rfl <;> omega
      · have := hkeep y hy front hfront (by simpa using hr)
        rw [if_neg hr]
        rcases List.mem_pair.mp hz with rfl | rfl <;> omega
    -- the choice so far and the rest were all listed
    have hsub : ∀ z ∈ (if r y front then y else front) :: l, z ∈ front :: y :: l := by
      intro z hz
      rcases List.mem_cons.mp hz with rfl | hz
      · split
        · exact hy
        · exact hfront
      · exact List.mem_cons_of_mem front (List.mem_cons_of_mem y hz)
    have hrest := ih (fun x hx cur hcur => htake x (hsub x hx) cur (hsub cur hcur))
      fun x hx cur hcur => hkeep x (hsub x hx) cur (hsub cur hcur)
    have hchoice := hrest (if r y front then y else front) List.mem_cons_self
    rcases List.mem_cons.mp hx with rfl | hx
    · exact Nat.le_trans hchoice (hcur x (by simp))
    · rcases List.mem_cons.mp hx with rfl | hx
      · exact Nat.le_trans hchoice (hcur x (by simp))
      · exact hrest x (List.mem_cons_of_mem _ hx)

/-- Scanning decorated elements is scanning what they carry. -/
theorem best_map (f : β → α) (front : β) (l : List β) :
    f (best (fun x cur => r (f x) (f cur)) front l) =
      best r (f front) (l.map f) := by
  induction l generalizing front with
  | nil => rfl
  | cons x l ih =>
    rw [List.map_cons, best_cons, best_cons, ih, apply_ite f]

/-- A non-empty list has an element with the least key. -/
theorem exists_minimal (f : α → ℕ) {l : List α} (hl : l ≠ []) :
    ∃ a ∈ l, ∀ b ∈ l, f a ≤ f b := by
  cases l with
  | nil => exact absurd rfl hl
  | cons front l =>
    refine ⟨best (fun x cur => decide (f x < f cur)) front l, best_mem front l, ?_⟩
    refine best_minimal f (fun x _ cur _ h => ?_) (fun x _ cur _ h => ?_)
    · exact Nat.le_of_lt (of_decide_eq_true h)
    · exact Nat.le_of_not_lt (of_decide_eq_false h)

end Scan
