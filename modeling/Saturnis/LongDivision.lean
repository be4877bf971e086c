/-
Long division on bits, the most significant one first.

* `bitValue_bitsOf`, `bitsOf_shift` — the bits of a number, and what a shift
  with a new lowest bit does to them;
* `bitValue_inj` — bits of one length are known by their value;
* `bitValue_quotientBits` — the bits a long division writes down are the
  quotient.
-/
import Mathlib.Data.Nat.Bits
import Mathlib.Tactic.Ring

namespace Saturnis.LongDivision

/-! ### Bits -/

/-- The number a list of bits stands for. -/
def bitValue : List Bool → Nat
  | [] => 0
  | b :: bits => b.toNat * 2 ^ bits.length + bitValue bits

/-- The lowest `n` bits of `v`. -/
def bitsOf : Nat → Nat → List Bool
  | 0, _ => []
  | n + 1, v => v.testBit n :: bitsOf n v

@[simp] theorem length_bitsOf (n v : Nat) : (bitsOf n v).length = n := by
  induction n with
  | zero => rfl
  | succ n ih => rw [bitsOf, List.length_cons, ih]

theorem bitValue_lt (bits : List Bool) : bitValue bits < 2 ^ bits.length := by
  induction bits with
  | nil => exact Nat.one_pos
  | cons b bits ih =>
    rw [bitValue, List.length_cons, Nat.pow_succ]
    cases b with
    | false => simp only [Bool.toNat_false]; omega
    | true => simp only [Bool.toNat_true]; omega

theorem bitValue_inj {a b : List Bool} (hlen : a.length = b.length)
    (h : bitValue a = bitValue b) : a = b := by
  induction a generalizing b with
  | nil => exact (List.eq_nil_of_length_eq_zero hlen.symm).symm
  | cons x a ih =>
    cases b with
    | nil => exact absurd hlen (by simp)
    | cons y b =>
      have htail : a.length = b.length := Nat.succ.inj hlen
      have ha := bitValue_lt a
      have hb := bitValue_lt b
      rw [bitValue, bitValue, htail] at h
      rw [htail] at ha
      cases x <;> cases y <;> simp only [Bool.toNat_false, Bool.toNat_true] at h
      · rw [ih htail (by omega)]
      · omega
      · omega
      · rw [ih htail (by omega)]

theorem bitValue_bitsOf (n v : Nat) : bitValue (bitsOf n v) = v % 2 ^ n := by
  induction n with
  | zero => rw [Nat.pow_zero, Nat.mod_one]; rfl
  | succ n ih =>
    have hbit : (v.testBit n).toNat = v / 2 ^ n % 2 := Nat.toNat_testBit v n
    rw [bitsOf, bitValue, length_bitsOf, ih, hbit, Nat.mod_pow_succ]
    ring

theorem bitsOf_mod {n m : Nat} (h : n ≤ m) (v : Nat) : bitsOf n (v % 2 ^ m) = bitsOf n v := by
  induction n with
  | zero => rfl
  | succ n ih =>
    rw [bitsOf, bitsOf, ih (Nat.le_of_succ_le h), Nat.testBit_mod_two_pow,
      decide_eq_true (Nat.lt_of_succ_le h), Bool.true_and]

/-- A shift moves the bits up by one and takes in the new lowest bit. -/
theorem bitsOf_shift (n v : Nat) (c : Bool) : bitsOf (n + 1) (2 * v + c.toNat) = bitsOf n v ++ [c] := by
  have hhalf : (2 * v + c.toNat) / 2 = v := by
    cases c <;> simp only [Bool.toNat_false, Bool.toNat_true] <;> omega
  induction n with
  | zero =>
    have hlow : (2 * v + c.toNat).testBit 0 = c := by
      cases c <;> simp [Nat.testBit_zero]
    show [(2 * v + c.toNat).testBit 0] = [c]
    rw [hlow]
  | succ n ih =>
    rw [bitsOf, ih, Nat.testBit_succ, hhalf, bitsOf, List.cons_append]

/-! ### Division -/

/-- The quotient bits a long division by `d` writes down when `r` remains and
the bits of the dividend come in one by one. -/
def quotientBits (d : Nat) : Nat → List Bool → List Bool
  | _, [] => []
  | r, c :: bits =>
    if d ≤ 2 * r + c.toNat then true :: quotientBits d (2 * r + c.toNat - d) bits
    else false :: quotientBits d (2 * r + c.toNat) bits

theorem quotientBits_of_le {d r : Nat} {c : Bool} (h : d ≤ 2 * r + c.toNat) (bits : List Bool) :
    quotientBits d r (c :: bits) = true :: quotientBits d (2 * r + c.toNat - d) bits := by
  rw [quotientBits, if_pos h]

theorem quotientBits_of_lt {d r : Nat} {c : Bool} (h : 2 * r + c.toNat < d) (bits : List Bool) :
    quotientBits d r (c :: bits) = false :: quotientBits d (2 * r + c.toNat) bits := by
  rw [quotientBits, if_neg (Nat.not_le_of_gt h)]

@[simp] theorem length_quotientBits (d r : Nat) (bits : List Bool) :
    (quotientBits d r bits).length = bits.length := by
  induction bits generalizing r with
  | nil => rfl
  | cons c bits ih =>
    rw [quotientBits]
    split <;> rw [List.length_cons, ih, List.length_cons]

/-- The dividend of which `r` remains and `bits` are still to come. -/
def dividend (r : Nat) (bits : List Bool) : Nat := r * 2 ^ bits.length + bitValue bits

theorem dividend_cons (r : Nat) (c : Bool) (bits : List Bool) :
    dividend r (c :: bits) = dividend (2 * r + c.toNat) bits := by
  rw [dividend, dividend, bitValue, List.length_cons]
  ring

theorem dividend_sub {d s : Nat} (h : d ≤ s) (bits : List Bool) :
    dividend s bits = dividend (s - d) bits + 2 ^ bits.length * d := by
  obtain ⟨k, rfl⟩ := Nat.exists_eq_add_of_le h
  rw [dividend, dividend, Nat.add_sub_cancel_left]
  ring

theorem le_dividend (r : Nat) (bits : List Bool) : r ≤ dividend r bits :=
  Nat.le_trans (Nat.le_mul_of_pos_right r (Nat.two_pow_pos _)) (Nat.le_add_right _ _)

theorem dividend_lt {r d : Nat} (h : r < d) (bits : List Bool) :
    dividend r bits < 2 ^ bits.length * d := by
  have hbits := bitValue_lt bits
  have hmul : (r + 1) * 2 ^ bits.length ≤ d * 2 ^ bits.length := Nat.mul_le_mul_right _ h
  rw [Nat.add_mul, Nat.one_mul] at hmul
  rw [dividend, Nat.mul_comm _ d]
  omega

theorem bitValue_quotientBits {d r : Nat} (hr : r < d) (bits : List Bool) :
    bitValue (quotientBits d r bits) = dividend r bits / d := by
  have hd : 0 < d := Nat.zero_lt_of_lt hr
  induction bits generalizing r with
  | nil =>
    rw [dividend, bitValue, List.length_nil, Nat.pow_zero, Nat.mul_one, Nat.add_zero,
      Nat.div_eq_of_lt hr]
    rfl
  | cons c bits ih =>
    have hc : c.toNat ≤ 1 := Bool.toNat_le c
    rw [dividend_cons]
    by_cases hle : d ≤ 2 * r + c.toNat
    · have hnext : 2 * r + c.toNat - d < d := by omega
      rw [quotientBits_of_le hle, bitValue, length_quotientBits, ih hnext, dividend_sub hle,
        Nat.add_mul_div_right _ _ hd, Bool.toNat_true]
      omega
    · have hlt : 2 * r + c.toNat < d := Nat.lt_of_not_le hle
      rw [quotientBits_of_lt hlt, bitValue, ih hlt, Bool.toNat_false, Nat.zero_mul, Nat.zero_add]

end Saturnis.LongDivision
