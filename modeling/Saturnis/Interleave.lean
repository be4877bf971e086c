/-
Programs that take turns on a shared state.

Each participant has a list of operations.  An order of turns runs them one
operation at a time: whoever comes up executes its next operation on the shared
state, the others do not notice.
-/
import Mathlib.Data.List.Induction
import Mathlib.Logic.Function.Basic
import Mathlib.Tactic.Common

namespace Interleave

/-- The next operation of each participant, and the state they share. -/
structure State (ι σ : Type*) where
  pc : ι → Nat
  shared : σ

variable {ι α σ : Type*} [DecidableEq ι] {prog : ι → List α} {exec : ι → α → σ → σ}
  {s : State ι σ} {i : ι}

def start (shared : σ) : State ι σ := ⟨fun _ => 0, shared⟩

/-- The turn of `i`; past its last operation it does nothing. -/
def step (prog : ι → List α) (exec : ι → α → σ → σ) (s : State ι σ) (i : ι) : State ι σ :=
  match (prog i)[s.pc i]? with
  | none => s
  | some a => ⟨Function.update s.pc i (s.pc i + 1), exec i a s.shared⟩

def run (prog : ι → List α) (exec : ι → α → σ → σ) (s : State ι σ) (order : List ι) : State ι σ :=
  order.foldl (step prog exec) s

theorem step_of_getElem? {a : α} (h : (prog i)[s.pc i]? = some a) :
    step prog exec s i = ⟨Function.update s.pc i (s.pc i + 1), exec i a s.shared⟩ := by
  rw [step, h]

theorem run_append (s : State ι σ) (order order' : List ι) :
    run prog exec s (order ++ order') = run prog exec (run prog exec s order) order' :=
  List.foldl_append

theorem run_concat (s : State ι σ) (order : List ι) (i : ι) :
    run prog exec s (order ++ [i]) = step prog exec (run prog exec s order) i :=
  run_append s order [i]

/-- A participant executes one operation in each of its turns, in the order of
its program, and none after the last. -/
theorem pc_run (shared : σ) (order : List ι) (i : ι) :
    (run prog exec (start shared) order).pc i = min (order.count i) (prog i).length := by
  induction order using List.reverseRecOn with
  | nil => exact (Nat.zero_min _).symm
  | append_singleton order j ih =>
    rw [run_concat, List.count_append]
    by_cases hj : i = j
    · rw [← hj, List.count_singleton_self, step]
      cases hget : (prog i)[(run prog exec (start shared) order).pc i]? with
      | none =>
        have hlen := List.getElem?_eq_none_iff.mp hget
        rw [ih] at hlen
        change (run prog exec (start shared) order).pc i = _
        omega
      | some a =>
        have hlt := (List.getElem?_eq_some_iff.mp hget).1
        rw [ih] at hlt
        change Function.update _ i _ i = _
        rw [Function.update_self]
        omega
    · rw [List.count_singleton, if_neg (by simpa using Ne.symm hj), Nat.add_zero, ← ih, step]
      split
      · rfl
      · exact Function.update_of_ne hj _ _

end Interleave
