/-
Interleavings of keyed streams.

A list whose elements carry a key is an interleaving of its streams, one for
each key.  Two interleavings of the same streams (`Same`) are permutations of
each other, satisfy the same conditions on the streams (`pairwise_iff`), and
may be started by any element that comes first in its own stream
(`Same.cons_erase`).
-/
import Mathlib.Data.List.Perm.Basic
import Mathlib.Data.List.Nodup

namespace Streams

variable {α κ : Type*} [DecidableEq κ] {f : α → κ} {l l' l₁ l₂ : List α} {k : κ} {w x : α}

/-- The stream of a key. -/
def stream (f : α → κ) (k : κ) (l : List α) : List α := l.filter fun x => f x = k

/-- The other elements. -/
def others (f : α → κ) (k : κ) (l : List α) : List α := l.filter fun x => f x ≠ k

/-- Interleavings of the same streams. -/
def Same (f : α → κ) (l l' : List α) : Prop := ∀ k, stream f k l = stream f k l'

/-- The element comes first in its stream. -/
def IsFirst (f : α → κ) (l : List α) (w : α) : Prop :=
  ∃ l₁ l₂, l = l₁ ++ w :: l₂ ∧ ∀ x ∈ l₁, f x ≠ f w

theorem mem_stream : x ∈ stream f k l ↔ x ∈ l ∧ f x = k := by
  rw [stream, List.mem_filter, decide_eq_true_iff]

theorem mem_others : x ∈ others f k l ↔ x ∈ l ∧ f x ≠ k := by
  rw [others, List.mem_filter, decide_eq_true_iff]

theorem stream_eq_nil (h : ∀ x ∈ l, f x ≠ k) : stream f k l = [] :=
  List.filter_eq_nil_iff.mpr fun x hx => by simpa using h x hx

/-- A stream of a list without a repeated key has one element. -/
theorem stream_of_nodup (h : (l.map f).Nodup) (hx : x ∈ l) : stream f (f x) l = [x] := by
  induction l with
  | nil => exact absurd hx (by simp)
  | cons y l ih =>
    rw [List.map_cons, List.nodup_cons] at h
    rcases List.mem_cons.mp hx with rfl | hx
    · have hnil : stream f (f x) l = [] := stream_eq_nil fun z hz heq =>
        h.1 (List.mem_map.mpr ⟨z, hz, heq⟩)
      rw [stream] at hnil ⊢
      rw [List.filter_cons_of_pos (by simp), hnil]
    · have hne : f y ≠ f x := fun heq => h.1 (List.mem_map.mpr ⟨x, hx, heq.symm⟩)
      have hrest := ih h.2 hx
      rw [stream] at hrest ⊢
      rw [List.filter_cons_of_neg (by simpa using hne), hrest]

@[simp] theorem stream_append : stream f k (l₁ ++ l₂) = stream f k l₁ ++ stream f k l₂ :=
  List.filter_append l₁ l₂

theorem stream_cons_self : stream f (f x) (x :: l) = x :: stream f (f x) l :=
  List.filter_cons_of_pos (by simp)

theorem stream_cons_of_ne (h : f x ≠ k) : stream f k (x :: l) = stream f k l :=
  List.filter_cons_of_neg (by simpa using h)

/-! ### Conditions on the streams -/

/-- A condition on the pairs of one stream may be read off the streams. -/
theorem pairwise_iff {r : α → α → Prop} :
    (l.Pairwise fun x y => f x = f y → r x y) ↔ ∀ k, (stream f k l).Pairwise r := by
  constructor
  · intro h k
    refine List.pairwise_filter.mpr (h.imp fun {x y} hxy hx hy => hxy ?_)
    rw [of_decide_eq_true hx, of_decide_eq_true hy]
  · intro h
    rw [List.pairwise_iff_forall_sublist]
    intro x y hsub hkey
    have := List.pairwise_iff_forall_sublist.mp (List.pairwise_filter.mp (h (f y))) hsub
    exact this (by simpa using hkey) (by simp)

namespace Same

theorem refl (l : List α) : Same f l l := fun _ => rfl

theorem trans {l'' : List α} (h : Same f l l') (h' : Same f l' l'') : Same f l l'' :=
  fun k => (h k).trans (h' k)

theorem mem_iff (h : Same f l l') : x ∈ l ↔ x ∈ l' := by
  have hx : x ∈ stream f (f x) l ↔ x ∈ stream f (f x) l' := by rw [h]
  simpa [mem_stream] using hx

theorem perm [DecidableEq α] (h : Same f l l') : l.Perm l' := by
  refine List.perm_iff_count.mpr fun x => ?_
  have hcount : ∀ m : List α, (stream f (f x) m).count x = m.count x := fun m =>
    List.count_filter (by simp)
  rw [← hcount l, ← hcount l', h]

theorem pairwise {r : α → α → Prop} (h : Same f l l')
    (hp : l.Pairwise fun x y => f x = f y → r x y) :
    l'.Pairwise fun x y => f x = f y → r x y := by
  refine pairwise_iff.mpr fun k => ?_
  rw [← h k]
  exact pairwise_iff.mp hp k

theorem cons (w : α) (h : Same f l l') : Same f (w :: l) (w :: l') := by
  intro k
  by_cases hk : f w = k
  · subst hk
    rw [stream_cons_self, stream_cons_self, h]
  · rw [stream_cons_of_ne hk, stream_cons_of_ne hk, h]

/-- One stream first, then the others. -/
theorem stream_others (f : α → κ) (k : κ) (l : List α) :
    Same f l (stream f k l ++ others f k l) := by
  intro j
  rw [stream_append]
  by_cases hj : j = k
  · have hothers : stream f j (others f k l) = [] :=
      stream_eq_nil fun x hx => hj ▸ (mem_others.mp hx).2
    rw [hothers, List.append_nil, hj, stream, stream, List.filter_filter]
    exact List.filter_congr fun x _ => by simp
  · have hstream : stream f j (stream f k l) = [] :=
      stream_eq_nil fun x hx heq => hj (heq.symm.trans (mem_stream.mp hx).2)
    rw [hstream, List.nil_append, stream, stream, others, List.filter_filter]
    refine List.filter_congr fun x _ => ?_
    by_cases hx : f x = j
    · simp [hx, hj]
    · simp [hx]

theorem append_left (l : List α) (h : Same f l₁ l₂) : Same f (l ++ l₁) (l ++ l₂) := fun k => by
  rw [stream_append, stream_append, h]

/-- An element may be moved over those of other streams. -/
theorem move (l₂ : List α) (h : ∀ x ∈ l₁, f x ≠ f w) :
    Same f (l₁ ++ w :: l₂) (w :: (l₁ ++ l₂)) := by
  intro k
  by_cases hk : f w = k
  · subst hk
    rw [stream_append, stream_cons_self, stream_cons_self, stream_append, stream_eq_nil h]
    rfl
  · rw [stream_append, stream_cons_of_ne hk, stream_cons_of_ne hk, stream_append]

/-- An element that comes first in its stream may come first of all. -/
theorem cons_erase [DecidableEq α] (h : IsFirst f l w) : Same f l (w :: l.erase w) := by
  obtain ⟨l₁, l₂, rfl, hl₁⟩ := h
  have hw : w ∉ l₁ := fun hmem => hl₁ w hmem rfl
  rw [List.erase_append_right _ hw, List.erase_cons_head]
  exact move l₂ hl₁

end Same

omit [DecidableEq κ] in
theorem IsFirst.mem (h : IsFirst f l w) : w ∈ l := by
  obtain ⟨l₁, l₂, rfl, -⟩ := h
  exact List.mem_append_right _ List.mem_cons_self

omit [DecidableEq κ] in
theorem IsFirst.append (h : IsFirst f l w) (l' : List α) : IsFirst f (l ++ l') w := by
  obtain ⟨l₁, l₂, rfl, hl₁⟩ := h
  exact ⟨l₁, l₂ ++ l', by simp, hl₁⟩

/-- Of a non-empty stream there is a first element. -/
theorem exists_isFirst (hx : x ∈ l) : ∃ w, IsFirst f l w ∧ f w = f x := by
  induction l with
  | nil => exact absurd hx (by simp)
  | cons y l ih =>
    by_cases hy : f y = f x
    · exact ⟨y, ⟨[], l, rfl, by simp⟩, hy⟩
    · have hxl : x ∈ l := by
        rcases List.mem_cons.mp hx with rfl | hx
        · exact absurd rfl hy
        · exact hx
      obtain ⟨w, ⟨l₁, l₂, rfl, hl₁⟩, hw⟩ := ih hxl
      refine ⟨w, ⟨y :: l₁, l₂, rfl, fun z hz => ?_⟩, hw⟩
      rcases List.mem_cons.mp hz with rfl | hz
      · rw [hw]
        exact hy
      · exact hl₁ z hz

end Streams
