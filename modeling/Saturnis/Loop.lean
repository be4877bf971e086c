/-
Loops that run until they break.

The body of a loop returns the next state and whether it breaks there; `run`
gives the state in which the loop ends, within a number of rounds.

* `run_eq_some_iff` — the loop ends in a state where the body breaks;
* `exists_run` — it ends if every round that does not break lowers a measure.
-/
import Mathlib.Logic.Function.Iterate

namespace Loop

variable {σ : Type*} {body : σ → σ × Bool} {s final : σ}

/-- The state after one round. -/
def step (body : σ → σ × Bool) (s : σ) : σ := (body s).1

def run (body : σ → σ × Bool) : Nat → σ → Option σ
  | 0, _ => none
  | fuel + 1, s => if (body s).2 then some (body s).1 else run body fuel (body s).1

theorem run_of_break (fuel : Nat) (h : (body s).2 = true) :
    run body (fuel + 1) s = some (step body s) := by
  rw [run, if_pos h]
  rfl

theorem run_of_continue (fuel : Nat) (h : (body s).2 = false) :
    run body (fuel + 1) s = run body fuel (step body s) := by
  rw [run, if_neg (by rw [h]; exact Bool.false_ne_true)]
  rfl

theorem run_eq_some_iff {fuel : Nat} :
    run body fuel s = some final ↔
      ∃ n < fuel, (body ((step body)^[n] s)).2 = true ∧
        (∀ m < n, (body ((step body)^[m] s)).2 = false) ∧ final = (step body)^[n + 1] s := by
  induction fuel generalizing s with
  | zero =>
    constructor
    · intro h
      exact absurd h (by simp [run])
    · rintro ⟨n, hn, -⟩
      omega
  | succ fuel ih =>
    cases h : (body s).2 with
    | true =>
      rw [run_of_break fuel h, Option.some_inj]
      constructor
      · rintro rfl
        exact ⟨0, by omega, h, fun m hm => by omega, rfl⟩
      · rintro ⟨n, -, -, hbefore, rfl⟩
        cases n with
        | zero => rfl
        | succ n =>
          have := (hbefore 0 (by omega)).symm.trans h
          exact absurd this Bool.false_ne_true
    | false =>
      rw [run_of_continue fuel h, ih]
      constructor
      · rintro ⟨n, hn, hbreak, hbefore, rfl⟩
        refine ⟨n + 1, by omega, hbreak, fun m hm => ?_, rfl⟩
        cases m with
        | zero => exact h
        | succ m => exact hbefore m (by omega)
      · rintro ⟨n, hn, hbreak, hbefore, rfl⟩
        cases n with
        | zero => exact absurd (h.symm.trans hbreak) Bool.false_ne_true
        | succ n =>
          exact ⟨n, by omega, hbreak, fun m hm => hbefore (m + 1) (by omega), rfl⟩

/-- A loop ends if every round lowers a measure. -/
theorem exists_run {I : σ → Prop} (μ : σ → Nat)
    (h : ∀ s, I s → (body s).2 = false → I (step body s) ∧ μ (step body s) < μ s) (hs : I s) :
    ∃ fuel final, run body fuel s = some final := by
  induction hμ : μ s using Nat.strongRecOn generalizing s with
  | ind m ih =>
    cases hbody : (body s).2 with
    | true => exact ⟨1, step body s, run_of_break 0 hbody⟩
    | false =>
      obtain ⟨hnext, hlt⟩ := h s hs hbody
      obtain ⟨fuel, final, hrun⟩ := ih (μ (step body s)) (hμ ▸ hlt) hnext rfl
      exact ⟨fuel + 1, final, by rw [run_of_continue fuel hbody, hrun]⟩

/-- What one round keeps, all keep. -/
theorem invariant {I : σ → Prop} (h : ∀ s, I s → I (step body s)) (hs : I s) (n : Nat) :
    I ((step body)^[n] s) := by
  induction n generalizing s with
  | zero => exact hs
  | succ n ih =>
    rw [Function.iterate_succ_apply]
    exact ih (h s hs)

end Loop
