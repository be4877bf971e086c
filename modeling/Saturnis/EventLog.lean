/-
Logs that tell what happened.

A log of events explains a run of a machine when every event applies to the
machine as the events before it have left it, and the value it records is what
the machine answers there.

* `Explains.append` — logs that go on from each other;
* `Explains.getElem` — the value of an event is read off from the log alone;
* `Explains.unique` — logs that are alike lead to one machine.
-/
import Mathlib.Data.List.Forall2

namespace EventLog

variable {σ ε ν : Type*} (apply : σ → ε → σ) (answer : σ → ε → ν) (value : ε → ν)

/-- The events lead from the first machine to the last, and record its answers. -/
def Explains : σ → List ε → σ → Prop
  | s, [], s' => s = s'
  | s, e :: log, s' => value e = answer s e ∧ Explains (apply s e) log s'

variable {apply answer value} {s s' s'' : σ} {log log' : List ε}

theorem Explains.append (h : Explains apply answer value s log s')
    (h' : Explains apply answer value s' log' s'') :
    Explains apply answer value s (log ++ log') s'' := by
  induction log generalizing s with
  | nil =>
    obtain rfl : s = s' := h
    exact h'
  | cons e log ih => exact ⟨h.1, ih h.2⟩

/-- The value of an event follows from the events before it. -/
theorem Explains.getElem (h : Explains apply answer value s log s') (i : Nat)
    (hi : i < log.length) : value log[i] = answer ((log.take i).foldl apply s) log[i] := by
  induction log generalizing s i with
  | nil => exact absurd hi (Nat.not_lt_zero i)
  | cons e log ih =>
    cases i with
    | zero => exact h.1
    | succ i => exact ih h.2 i (Nat.lt_of_succ_lt_succ hi)

/-- Events that do the same wherever they record the answers of a machine. -/
theorem Explains.unique {r : ε → ε → Prop} {t t' : σ}
    (hr : ∀ s e e', r e e' → value e = answer s e → value e' = answer s e' →
      apply s e = apply s e')
    (hlogs : List.Forall₂ r log log') (h : Explains apply answer value s log t)
    (h' : Explains apply answer value s log' t') : t = t' := by
  induction hlogs generalizing s with
  | nil => exact h.symm.trans h'
  | cons hfirst _ ih =>
    have hnext := h'.2
    rw [← hr s _ _ hfirst h.1 h'.1] at hnext
    exact ih h.2 hnext

end EventLog
