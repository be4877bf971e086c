/-
Latches set and cleared by a history of events.

A latch says of every event, given the events before it, whether it sets or
clears.  The latch is held after a history when the last event that touches it
is a set.

* `Latch.held_concat` — what one more event does to a latch;
* `Latch.held_iff` — an observable that moves like the latch, event by event,
  is the latch;
* `Latch.Held.setter` — the event that a held latch is held from.
-/
import Mathlib.Data.List.Induction

variable {α : Type*}

/-- What sets and what clears, given the events before. -/
structure Latch (α : Type*) where
  sets : List α → α → Prop
  clears : List α → α → Prop
  exclusive : ∀ past event, sets past event → ¬ clears past event

namespace Latch

/-- The event sets or clears the latch. -/
def Touches (latch : Latch α) (past : List α) (event : α) : Prop :=
  latch.sets past event ∨ latch.clears past event

/-- The last event of the history that touches the latch is a set. -/
def Held (latch : Latch α) (history : List α) : Prop :=
  ∃ past event later, history = past ++ event :: later ∧ latch.sets past event ∧
    ∀ between next rest, later = between ++ next :: rest →
      ¬ latch.Touches (past ++ event :: between) next

theorem not_held_nil (latch : Latch α) : ¬ latch.Held [] := by
  rintro ⟨past, event, later, hsplit, -, -⟩
  simp at hsplit

/-- One more event: it sets the latch, or the latch was held and stays untouched. -/
theorem held_concat (latch : Latch α) (history : List α) (event : α) :
    latch.Held (history ++ [event]) ↔
      latch.sets history event ∨ (latch.Held history ∧ ¬ latch.Touches history event) := by
  constructor
  · rintro ⟨past, setter, later, hsplit, hsets, hquiet⟩
    rcases List.eq_nil_or_concat later with rfl | ⟨front, last, rfl⟩
    · -- The setter is the event itself.
      obtain ⟨hpast, hevent⟩ := List.append_inj' hsplit rfl
      obtain rfl : event = setter := by simpa using hevent
      subst hpast
      exact Or.inl hsets
    · -- The setter came before, and the event leaves the latch alone.
      have hparts : history ++ [event] = (past ++ setter :: front) ++ [last] := by
        rw [hsplit]; simp
      obtain ⟨hhistory, hlast⟩ := List.append_inj' hparts rfl
      obtain rfl : event = last := by simpa using hlast
      subst hhistory
      refine Or.inr ⟨⟨past, setter, front, rfl, hsets, ?_⟩, hquiet front event [] (by simp)⟩
      rintro between next rest rfl
      exact hquiet between next (rest ++ [event]) (by simp)
  · rintro (hsets | ⟨⟨past, setter, later, rfl, hsets, hquiet⟩, hleaves⟩)
    · refine ⟨history, event, [], rfl, hsets, ?_⟩
      intro between next rest hempty
      simp at hempty
    · refine ⟨past, setter, later ++ [event], by simp, hsets, ?_⟩
      intro between next rest hparts
      rcases List.eq_nil_or_concat rest with rfl | ⟨front, last, rfl⟩
      · obtain ⟨rfl, hnext⟩ := List.append_inj' hparts rfl
        obtain rfl : event = next := by simpa using hnext
        exact hleaves
      · have hsplit : later ++ [event] = (between ++ next :: front) ++ [last] := by
          rw [hparts]; simp
        obtain ⟨hlater, -⟩ := List.append_inj' hsplit rfl
        exact hquiet between next front hlater

/-- The latch has been set by an event that no later one touches. -/
theorem Held.setter {latch : Latch α} {history : List α} (h : latch.Held history) :
    ∃ k, ∃ event, history[k]? = some event ∧ latch.sets (history.take k) event ∧
      ∀ j next, k < j → history[j]? = some next → ¬ latch.Touches (history.take j) next := by
  obtain ⟨past, event, later, rfl, hsets, hquiet⟩ := h
  refine ⟨past.length, event, by simp, by rwa [List.take_left], fun j next hj hnext => ?_⟩
  -- the events between the two
  obtain ⟨n, rfl⟩ := Nat.exists_eq_add_of_lt hj
  rw [Nat.add_assoc, List.getElem?_append_right (Nat.le_add_right _ _), Nat.add_sub_cancel_left,
    List.getElem?_cons_succ] at hnext
  obtain ⟨hlt, rfl⟩ := List.getElem?_eq_some_iff.mp hnext
  rw [Nat.add_assoc, List.take_length_add_append, List.take_succ_cons]
  exact hquiet (later.take n) later[n] (later.drop (n + 1))
    (by rw [← List.drop_eq_getElem_cons hlt, List.take_append_drop])

/-- An observable that starts off and moves with every event as the latch does
is held exactly when the latch is. -/
theorem held_iff (latch : Latch α) (on : List α → Prop) (hfresh : ¬ on [])
    (hstep : ∀ history event, on (history ++ [event]) ↔
      latch.sets history event ∨ (on history ∧ ¬ latch.clears history event))
    (history : List α) : on history ↔ latch.Held history := by
  induction history using List.reverseRecOn with
  | nil => exact iff_of_false hfresh latch.not_held_nil
  | append_singleton history event ih =>
      rw [hstep, held_concat, ih]
      unfold Touches
      by_cases hsets : latch.sets history event
      · simp only [hsets, true_or]
      · simp only [hsets, false_or]

end Latch
