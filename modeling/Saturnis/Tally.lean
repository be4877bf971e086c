/-
Counts kept in a map.

A map of counts is a function from keys to the count that is stored, if any.
Its total is the sum over the keys that are stored.

* `SumsTo.add` — `counts[key] += n` adds `n` to the total.
-/
import Mathlib.Algebra.BigOperators.Group.Finset.Basic

namespace Saturnis.Tally

variable {κ : Type*} {counts : κ → Option Nat} {m n : Nat}

/-- The stored counts add up to `n`. -/
def SumsTo (counts : κ → Option Nat) (n : Nat) : Prop :=
  ∃ keys : Finset κ, (∀ k, k ∈ keys ↔ (counts k).isSome = true) ∧
    ∑ k ∈ keys, (counts k).getD 0 = n

theorem sumsTo_empty : SumsTo (fun _ : κ => none) 0 :=
  ⟨∅, fun _ => by simp, Finset.sum_empty⟩

/-- `counts[key] += n`, where a key that is not stored counts as 0. -/
theorem SumsTo.add [DecidableEq κ] (h : SumsTo counts m) (key : κ) (n : Nat) :
    SumsTo (Function.update counts key (some ((counts key).getD 0 + n))) (m + n) := by
  obtain ⟨keys, hkeys, rfl⟩ := h
  refine ⟨insert key keys, fun k => ?_, ?_⟩
  · rw [Finset.mem_insert]
    by_cases hk : k = key
    · subst hk
      rw [Function.update_self]
      simp
    · rw [Function.update_of_ne hk, hkeys]
      simp [hk]
  · -- the other keys keep their counts
    have hrest : ∀ s : Finset κ, key ∉ s →
        ∑ k ∈ s, (Function.update counts key (some ((counts key).getD 0 + n)) k).getD 0 =
          ∑ k ∈ s, (counts k).getD 0 := by
      intro s hkey
      refine Finset.sum_congr rfl fun k hk => ?_
      have hne : k ≠ key := fun heq => hkey (heq ▸ hk)
      rw [Function.update_of_ne hne]
    have hsplit : insert key keys = insert key (keys.erase key) := by
      ext k
      by_cases hk : k = key
      · simp [hk]
      · simp [hk]
    rw [hsplit, Finset.sum_insert (Finset.notMem_erase key keys), Function.update_self,
      hrest _ (Finset.notMem_erase key keys), Option.getD_some]
    by_cases hkey : key ∈ keys
    · rw [← Finset.add_sum_erase keys _ hkey]
      omega
    · have hnone : (counts key).getD 0 = 0 := by
        rw [hkeys, Bool.not_eq_true, Option.isSome_eq_false_iff, Option.isNone_iff_eq_none] at hkey
        rw [hkey, Option.getD_none]
      rw [Finset.erase_eq_of_notMem hkey, hnone]
      omega

end Saturnis.Tally
