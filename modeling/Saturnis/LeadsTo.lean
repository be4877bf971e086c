/-
What threads come to when each of them gets its turn again and again.

A schedule names the thread that moves at each time.  It is fair if every
thread comes up infinitely often.  `LeadsTo p q` says that from a state with
`p` every fair schedule passes a state with `q`.

* `LeadsTo.ensures` — one thread brings `q` about, and the others keep `p` until
  then;
* `LeadsTo.countdown` — a measure goes down as long as `q` is not reached.
-/
import Mathlib.Logic.Basic
import Mathlib.Tactic.Common

namespace Fair

variable {σ T : Type*} {step : σ → T → σ} {p q r : σ → Prop} {sched : Nat → T}

/-- The state after the first `n` moves. -/
def after (step : σ → T → σ) (sched : Nat → T) (s : σ) : Nat → σ
  | 0 => s
  | n + 1 => step (after step sched s n) (sched n)

theorem after_add (s : σ) (n k : Nat) :
    after step sched s (n + k) =
      after step (fun i => sched (n + i)) (after step sched s n) k := by
  induction k with
  | zero => rfl
  | succ k ih => exact congrArg (step · (sched (n + k))) ih

/-- A schedule given as a list is a front of one that goes on. -/
theorem after_eq_foldl (s : σ) (n : Nat) :
    after step sched s n = ((List.range n).map sched).foldl step s := by
  induction n with
  | zero => rfl
  | succ n ih =>
    rw [List.range_succ, List.map_append, List.foldl_append, ← ih]
    rfl

/-- What every move keeps holds at every time. -/
theorem after_of_step (hstep : ∀ s t, p s → p (step s t)) (sched : Nat → T) {s : σ} (hs : p s)
    (n : Nat) :
    p (after step sched s n) := by
  induction n with
  | zero => exact hs
  | succ n ih => exact hstep _ _ ih

/-- Every thread comes up again and again. -/
def Schedule (sched : Nat → T) : Prop := ∀ t n, ∃ k, n ≤ k ∧ sched k = t

theorem Schedule.shift (h : Schedule sched) (n : Nat) : Schedule fun i => sched (n + i) := by
  intro t m
  obtain ⟨k, hk, heq⟩ := h t (n + m)
  refine ⟨k - n, by omega, ?_⟩
  change sched (n + (k - n)) = t
  rw [Nat.add_sub_cancel' (by omega), heq]

/-- From a state with `p` every fair schedule passes a state with `q`. -/
def LeadsTo (step : σ → T → σ) (p q : σ → Prop) : Prop :=
  ∀ sched, Schedule sched → ∀ s, p s → ∃ n, q (after step sched s n)

namespace LeadsTo

theorem mono {p' q' : σ → Prop} (h : LeadsTo step p q) (hp : ∀ s, p' s → p s)
    (hq : ∀ s, q s → q' s) : LeadsTo step p' q' := by
  intro sched hfair s hs
  obtain ⟨n, hn⟩ := h sched hfair s (hp s hs)
  exact ⟨n, hq _ hn⟩

theorem trans (hpq : LeadsTo step p q) (hqr : LeadsTo step q r) : LeadsTo step p r := by
  intro sched hfair s hs
  obtain ⟨n, hn⟩ := hpq sched hfair s hs
  obtain ⟨k, hk⟩ := hqr _ (hfair.shift n) _ hn
  exact ⟨n + k, by rw [after_add]; exact hk⟩

/-- What leads to either of two, the second of which leads to the first. -/
theorem trans_or (hpq : LeadsTo step p fun s => r s ∨ q s) (hqr : LeadsTo step q r) :
    LeadsTo step p r := by
  refine hpq.trans fun sched hfair s hs => ?_
  rcases hs with hs | hs
  · exact ⟨0, hs⟩
  · exact hqr sched hfair s hs

theorem by_cases {a : σ → Prop} (h : LeadsTo step (fun s => p s ∧ a s) q)
    (hnot : LeadsTo step (fun s => p s ∧ ¬ a s) q) : LeadsTo step p q := by
  intro sched hfair s hs
  by_cases ha : a s
  · exact h sched hfair s ⟨hs, ha⟩
  · exact hnot sched hfair s ⟨hs, ha⟩

/-- One thread brings `q` about; until it comes up, the others keep `p`. -/
theorem ensures (t : T) (hkeep : ∀ s, p s → ∀ u, q (step s u) ∨ p (step s u))
    (hhelp : ∀ s, p s → q (step s t)) : LeadsTo step p q := by
  intro sched hfair s hs
  obtain ⟨k, -, hk⟩ := hfair t 0
  -- until its turn either `q` has been there or `p` still holds
  have hbefore : ∀ n, (∃ i, q (after step sched s i)) ∨ p (after step sched s n) := by
    intro n
    induction n with
    | zero => exact Or.inr hs
    | succ n ih =>
      rcases ih with hq | hp
      · exact Or.inl hq
      · exact (hkeep _ hp (sched n)).imp (fun hq => ⟨n + 1, hq⟩) id
  rcases hbefore k with hq | hp
  · exact hq
  · refine ⟨k + 1, ?_⟩
    rw [after, hk]
    exact hhelp _ hp

/-- A measure that goes down as long as `q` is not reached. -/
theorem countdown (μ : σ → Nat)
    (h : ∀ v, LeadsTo step (fun s => p s ∧ μ s = v) fun s => q s ∨ p s ∧ μ s < v) :
    LeadsTo step p q := by
  have hlead : ∀ v, LeadsTo step (fun s => p s ∧ μ s = v) q := by
    intro v
    induction v using Nat.strongRecOn with
    | ind v ih =>
      refine (h v).trans_or fun sched hfair s hs => ?_
      exact ih (μ s) hs.2 sched hfair s ⟨hs.1, rfl⟩
  intro sched hfair s hs
  exact hlead (μ s) sched hfair s ⟨hs, rfl⟩

end LeadsTo

end Fair
