/-
Words that are accessed through lanes.

A lane mask selects the bits that an access may touch.  The words of an access
lie `Within` its lanes; two words that agree off the lanes (`AgreeOff`) differ
at most in what the access may touch; lanes that cover a set of control bits
(`Covers`) contain every one of them.

* `AgreeOff.and`, `AgreeOff.or` — words that agree off the lanes still do after
  the same masking;
* `agreeOff_or`, `agreeOff_merge` — setting and merging bits within the lanes
  leaves the rest alone.
-/
import Mathlib.Data.Nat.Notation

namespace BitLanes

variable {n : ℕ}

/-- Every bit of the word lies in the lanes. -/
def Within (bits lanes : BitVec n) : Prop :=
  ∀ i, bits.getLsbD i = true → lanes.getLsbD i = true

/-- The words differ inside the lanes only. -/
def AgreeOff (lanes a b : BitVec n) : Prop :=
  ∀ i, lanes.getLsbD i = false → a.getLsbD i = b.getLsbD i

/-- The lanes contain all the control bits. -/
def Covers (lanes control : BitVec n) : Prop :=
  lanes &&& control = control

instance (lanes control : BitVec n) : Decidable (Covers lanes control) :=
  inferInstanceAs (Decidable (_ = _))

theorem within_and (x lanes : BitVec n) : Within (x &&& lanes) lanes := by
  intro i hbit
  rw [BitVec.getLsbD_and, Bool.and_eq_true] at hbit
  exact hbit.2

theorem Within.and {bits lanes : BitVec n} (h : Within bits lanes) (x : BitVec n) :
    Within (bits &&& x) lanes := by
  intro i hbit
  rw [BitVec.getLsbD_and, Bool.and_eq_true] at hbit
  exact h i hbit.1

theorem Within.eq_false {bits lanes : BitVec n} (h : Within bits lanes) {i : ℕ}
    (hoff : lanes.getLsbD i = false) : bits.getLsbD i = false := by
  refine Bool.eq_false_iff.mpr fun hbit => ?_
  rw [h i hbit] at hoff
  exact Bool.noConfusion hoff

/-- A word within lanes that miss a mask has nothing under the mask. -/
theorem Within.and_eq_zero {bits lanes mask : BitVec n} (h : Within bits lanes)
    (hmiss : lanes &&& mask = 0) : bits &&& mask = 0 := by
  apply BitVec.eq_of_getLsbD_eq
  intro i _
  have hbit := congrArg (·.getLsbD i) hmiss
  simp only [BitVec.getLsbD_and, BitVec.ofNat_eq_ofNat, BitVec.getLsbD_zero] at hbit ⊢
  cases hmask : mask.getLsbD i with
  | false => exact Bool.and_false _
  | true =>
      rw [hmask, Bool.and_true] at hbit
      rw [h.eq_false hbit, Bool.false_and]

theorem AgreeOff.refl (lanes a : BitVec n) : AgreeOff lanes a a :=
  fun _ _ => rfl

theorem AgreeOff.and {lanes a b : BitVec n} (h : AgreeOff lanes a b) (x : BitVec n) :
    AgreeOff lanes (a &&& x) (b &&& x) := by
  intro i hoff
  rw [BitVec.getLsbD_and, BitVec.getLsbD_and, h i hoff]

theorem AgreeOff.or {lanes a b : BitVec n} (h : AgreeOff lanes a b) (x : BitVec n) :
    AgreeOff lanes (a ||| x) (b ||| x) := by
  intro i hoff
  rw [BitVec.getLsbD_or, BitVec.getLsbD_or, h i hoff]

theorem AgreeOff.or_left {lanes a b : BitVec n} (h : AgreeOff lanes a b) (x : BitVec n) :
    AgreeOff lanes (x ||| a) (x ||| b) := by
  intro i hoff
  rw [BitVec.getLsbD_or, BitVec.getLsbD_or, h i hoff]

theorem agreeOff_or {lanes bits : BitVec n} (h : Within bits lanes) (a : BitVec n) :
    AgreeOff lanes (a ||| bits) a := by
  intro i hoff
  rw [BitVec.getLsbD_or, h.eq_false hoff, Bool.or_false]

/-- The bits that stay after some are cleared. -/
theorem getLsbD_andNot (a b : BitVec n) (i : ℕ) :
    (a &&& ~~~b).getLsbD i = true ↔ a.getLsbD i = true ∧ ¬ b.getLsbD i = true := by
  rw [BitVec.getLsbD_and, BitVec.getLsbD_not, Bool.and_eq_true, Bool.and_eq_true]
  rw [Bool.not_eq_true', Bool.eq_false_iff, decide_eq_true_eq]
  constructor
  · rintro ⟨ha, -, hb⟩
    exact ⟨ha, hb⟩
  · rintro ⟨ha, hb⟩
    refine ⟨ha, Nat.lt_of_not_le fun hge => ?_, hb⟩
    rw [BitVec.getLsbD_of_ge a i hge] at ha
    exact Bool.noConfusion ha

/-- A bit after some have been set, by a step that clears nothing where `q` says what it clears. -/
theorem getLsbD_or_iff {a bits : BitVec n} {i : ℕ} {p q : Prop} (hbits : bits.getLsbD i = true ↔ p)
    (hq : ¬ q) : (a ||| bits).getLsbD i = true ↔ p ∨ (a.getLsbD i = true ∧ ¬ q) := by
  rw [BitVec.getLsbD_or, Bool.or_eq_true, hbits]
  simp only [hq, not_false_eq_true, and_true, or_comm]

/-- And after some have been cleared, by a step that sets nothing. -/
theorem getLsbD_andNot_iff {a bits : BitVec n} {i : ℕ} {p q : Prop}
    (hbits : bits.getLsbD i = true ↔ q) (hp : ¬ p) :
    (a &&& ~~~bits).getLsbD i = true ↔ p ∨ (a.getLsbD i = true ∧ ¬ q) := by
  rw [getLsbD_andNot, hbits]
  simp only [hp, false_or]

/-- Merging the selected bits into a word leaves the word alone off the lanes. -/
theorem agreeOff_merge (lanes mask a bits : BitVec n) :
    AgreeOff lanes ((a &&& ~~~(lanes &&& mask)) ||| (bits &&& (lanes &&& mask))) a := by
  intro i hoff
  simp only [BitVec.getLsbD_or, BitVec.getLsbD_and, BitVec.getLsbD_not, hoff, Bool.false_and,
    Bool.and_false, Bool.or_false, Bool.not_false, Bool.and_true]
  by_cases hlt : i < n
  · rw [decide_eq_true hlt, Bool.and_true]
  · rw [BitVec.getLsbD_of_ge a i (Nat.le_of_not_lt hlt), Bool.false_and]

end BitLanes
