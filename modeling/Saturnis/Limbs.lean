/-
Numbers as lists of limbs, the least significant one first, and chains of
operations that hand a carry from limb to limb.

* `chain_sum` — a chain whose every step is an exact sum is an exact sum;
* `chain_difference` — a chain of subtractions that forgets the borrow where a
  largest limb meets one: it is exact if and only if that never happens.
-/
import Mathlib.Data.Nat.Digits.Defs
import Mathlib.Tactic.Ring
import Mathlib.Tactic.Linarith

namespace Saturnis.Limbs

variable {α : Type} (base : Nat) (val : α → Nat)

/-- The number the limbs stand for. -/
def value (limbs : List α) : Nat := Nat.ofDigits base (limbs.map val)

@[simp] theorem value_nil : value base val ([] : List α) = 0 := rfl

@[simp] theorem value_cons (x : α) (xs : List α) :
    value base val (x :: xs) = val x + base * value base val xs := rfl

theorem value_lt (hbase : 1 < base) (hval : ∀ x, val x < base) (xs : List α) :
    value base val xs < base ^ xs.length := by
  have hlt := Nat.ofDigits_lt_base_pow_length (l := xs.map val) hbase (by simp [hval])
  rwa [List.length_map] at hlt

theorem value_zero {xs : List α} (h : ∀ x ∈ xs, val x = 0) : value base val xs = 0 := by
  induction xs with
  | nil => rfl
  | cons x xs ih =>
    rw [value_cons, h x List.mem_cons_self, ih fun y hy => h y (List.mem_cons_of_mem x hy),
      Nat.mul_zero]

/-- One operation for each pair of limbs, which gives a limb and the carry that
the next one takes. -/
def chain (op : α → α → Bool → α × Bool) : Bool → List (α × α) → List α × Bool
  | carry, [] => ([], carry)
  | carry, (x, y) :: pairs =>
    let (out, carry) := op x y carry
    let (outs, carry) := chain op carry pairs
    (out :: outs, carry)

variable {base val} {op : α → α → Bool → α × Bool}

theorem chain_cons (carry : Bool) (x y : α) (pairs : List (α × α)) :
    chain op carry ((x, y) :: pairs) =
      ((op x y carry).1 :: (chain op (op x y carry).2 pairs).1,
        (chain op (op x y carry).2 pairs).2) := rfl

@[simp] theorem length_chain (carry : Bool) (pairs : List (α × α)) :
    (chain op carry pairs).1.length = pairs.length := by
  induction pairs generalizing carry with
  | nil => rfl
  | cons pair pairs ih => rw [chain_cons, List.length_cons, ih, List.length_cons]

/-! ### Sums -/

theorem chain_sum
    (hop : ∀ x y carry, val (op x y carry).1 + base * (op x y carry).2.toNat =
      val x + val y + carry.toNat) (carry : Bool) (pairs : List (α × α)) :
    value base val (chain op carry pairs).1 +
        base ^ pairs.length * (chain op carry pairs).2.toNat =
      value base val (pairs.map Prod.fst) + value base val (pairs.map Prod.snd) +
        carry.toNat := by
  induction pairs generalizing carry with
  | nil => simp [chain]
  | cons pair pairs ih =>
    obtain ⟨x, y⟩ := pair
    have hstep := hop x y carry
    have hrest := ih (op x y carry).2
    rw [chain_cons]
    simp only [value_cons, List.map_cons, List.length_cons, Nat.pow_succ]
    calc _ = val (op x y carry).1 + base * (value base val (chain op (op x y carry).2 pairs).1 +
          base ^ pairs.length * (chain op (op x y carry).2 pairs).2.toNat) := by ring
      _ = val (op x y carry).1 + base * (op x y carry).2.toNat + base * (value base val
          (pairs.map Prod.fst) + value base val (pairs.map Prod.snd)) := by rw [hrest]; ring
      _ = _ := by rw [hstep]; ring

/-! ### Differences -/

/-- No limb of the subtrahend that is the largest one meets a borrow. -/
def BorrowKept (base : Nat) (val : α → Nat) (carry : Bool) (pairs : List (α × α)) : Prop :=
  ∀ below pair above, pairs = below ++ pair :: above → val pair.2 + 1 = base →
    value base val (below.map Prod.snd) + carry.toNat ≤ value base val (below.map Prod.fst)

/-- The difference of the limbs and the borrow that is left. -/
def Subtracts (base : Nat) (val : α → Nat) (carry : Bool) (pairs : List (α × α))
    (outs : List α) (borrow : Bool) : Prop :=
  value base val (pairs.map Prod.fst) + base ^ pairs.length * borrow.toNat =
    value base val outs + value base val (pairs.map Prod.snd) + carry.toNat

/-- What a step of the chain does: it subtracts, but for a borrow that meets a
largest limb, where it gives back the minuend and no borrow. -/
structure Forgetful (base : Nat) (val : α → Nat) (op : α → α → Bool → α × Bool) : Prop where
  below : ∀ x y carry, val (op x y carry).1 < base
  exact : ∀ x y carry, ¬ (val y + 1 = base ∧ carry = true) →
    val x + base * (op x y carry).2.toNat = val (op x y carry).1 + val y + carry.toNat
  forgets : ∀ x y, val y + 1 = base → op x y true = (x, false)

theorem borrowKept_cons (hop : Forgetful base val op) {carry : Bool} {x y : α}
    (hexact : ¬ (val y + 1 = base ∧ carry = true)) {pairs : List (α × α)} :
    BorrowKept base val carry ((x, y) :: pairs) ↔ BorrowKept base val (op x y carry).2 pairs := by
  have hstep := hop.exact x y carry hexact
  have hlt := hop.below x y carry
  have hshift : ∀ a b : Nat, val y + base * b + carry.toNat ≤ val x + base * a ↔
      b + (op x y carry).2.toNat ≤ a := by
    intro a b
    constructor
    · intro hle
      by_contra hgt
      have hmul := Nat.mul_le_mul_left base (Nat.lt_of_not_le hgt)
      rw [Nat.succ_eq_add_one, Nat.mul_add, Nat.mul_add, Nat.mul_one] at hmul
      omega
    · intro hle
      have hmul := Nat.mul_le_mul_left base hle
      rw [Nat.mul_add] at hmul
      omega
  constructor
  · intro hkept below pair above hpairs hlargest
    have hle := hkept ((x, y) :: below) pair above (by rw [hpairs]; rfl) hlargest
    simp only [List.map_cons, value_cons] at hle
    exact (hshift _ _).mp hle
  · intro hkept below pair above hpairs hlargest
    cases below with
    | nil =>
      obtain ⟨rfl, -⟩ := List.cons.inj hpairs
      have hclear : carry = false := by
        cases carry with
        | false => rfl
        | true => exact absurd ⟨hlargest, rfl⟩ hexact
      rw [hclear]
      exact Nat.le_refl _
    | cons first below =>
      obtain ⟨rfl, hrest⟩ := List.cons.inj hpairs
      simp only [List.map_cons, value_cons]
      exact (hshift _ _).mpr (hkept below pair above hrest hlargest)

theorem subtracts_cons (hbase : 0 < base) {carry : Bool} {x y : α}
    (hstep : val x + base * (op x y carry).2.toNat = val (op x y carry).1 + val y + carry.toNat)
    (pairs : List (α × α)) (outs : List α) (borrow : Bool) :
    Subtracts base val carry ((x, y) :: pairs) ((op x y carry).1 :: outs) borrow ↔
      Subtracts base val (op x y carry).2 pairs outs borrow := by
  simp only [Subtracts, List.map_cons, value_cons, List.length_cons, Nat.pow_succ]
  constructor
  · intro h
    apply Nat.eq_of_mul_eq_mul_left hbase
    linarith
  · intro h
    have hmul := congrArg (base * ·) h
    linarith

/-- A chain that starts without a borrow is not short of one. -/
theorem not_short (hbase : 1 < base) (hop : Forgetful base val op) (pairs : List (α × α)) :
    ¬ Subtracts base val true pairs (chain op false pairs).1 (chain op false pairs).2 := by
  intro h
  cases pairs with
  | nil => simp [Subtracts, chain] at h
  | cons pair pairs =>
    obtain ⟨x, y⟩ := pair
    have hstep := hop.exact x y false (by simp)
    simp only [Subtracts, chain_cons, List.map_cons, value_cons, List.length_cons,
      Nat.pow_succ, Bool.toNat_true] at h
    simp only [Bool.toNat_false, Nat.add_zero] at hstep
    -- the two sides differ by one modulo the base
    have hone : base * (value base val (pairs.map Prod.fst) + base ^ pairs.length *
        (chain op (op x y false).2 pairs).2.toNat) = base * ((op x y false).2.toNat +
          value base val (chain op (op x y false).2 pairs).1 +
          value base val (pairs.map Prod.snd)) + 1 := by
      linarith
    have hdvd : base ∣ 1 := (Nat.dvd_add_right (Nat.dvd_mul_right base _)).mp
      (hone ▸ Nat.dvd_mul_right base _)
    exact absurd (Nat.le_of_dvd Nat.one_pos hdvd) (Nat.not_le_of_gt hbase)

theorem chain_difference (hbase : 1 < base) (hop : Forgetful base val op) (carry : Bool)
    (pairs : List (α × α)) :
    Subtracts base val carry pairs (chain op carry pairs).1 (chain op carry pairs).2 ↔
      BorrowKept base val carry pairs := by
  induction pairs generalizing carry with
  | nil =>
    refine iff_of_true ?_ fun below pair above h => absurd h (by simp)
    simp [Subtracts, chain]
  | cons pair pairs ih =>
    obtain ⟨x, y⟩ := pair
    by_cases hmeet : val y + 1 = base ∧ carry = true
    · obtain ⟨hlargest, rfl⟩ := hmeet
      refine iff_of_false ?_ fun hkept =>
        absurd (hkept [] (x, y) pairs rfl hlargest) (by simp)
      intro h
      rw [chain_cons, hop.forgets x y hlargest] at h
      refine not_short hbase hop pairs ?_
      simp only [Subtracts, List.map_cons, value_cons, List.length_cons, Nat.pow_succ,
        Bool.toNat_true] at h ⊢
      apply Nat.eq_of_mul_eq_mul_left (Nat.zero_lt_of_lt hbase)
      linarith
    · rw [chain_cons, subtracts_cons (Nat.zero_lt_of_lt hbase) (hop.exact x y carry hmeet), ih,
        borrowKept_cons hop hmeet]

end Saturnis.Limbs
