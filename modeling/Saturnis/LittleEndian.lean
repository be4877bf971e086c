/-
Little-endian bytes of numbers.

`leBytes n x` are the `n` low bytes of `x`, least significant first, and
`leNat` is the number of some bytes.

* `leNat_leBytes` — a number that fits comes back;
* `leNat_append` — the number of bytes in two parts, which is what a reader
  with wider fields sees.
-/
import Mathlib.Data.Nat.Digits.Defs

namespace LittleEndian

def leBytes : Nat → Nat → List (BitVec 8)
  | 0, _ => []
  | n + 1, x => BitVec.ofNat 8 x :: leBytes n (x / 256)

def leNat (bytes : List (BitVec 8)) : Nat := Nat.ofDigits 256 (bytes.map BitVec.toNat)

/-- The `n` bytes at an offset. -/
def slice (bytes : List (BitVec 8)) (offset n : Nat) : List (BitVec 8) :=
  (bytes.drop offset).take n

@[simp] theorem leNat_nil : leNat [] = 0 := rfl

@[simp] theorem leNat_cons (b : BitVec 8) (bytes : List (BitVec 8)) :
    leNat (b :: bytes) = b.toNat + 256 * leNat bytes := rfl

@[simp] theorem length_leBytes (n x : Nat) : (leBytes n x).length = n := by
  induction n generalizing x with
  | zero => rfl
  | succ n ih => rw [leBytes, List.length_cons, ih]

theorem leNat_append (l m : List (BitVec 8)) :
    leNat (l ++ m) = leNat l + 256 ^ l.length * leNat m := by
  rw [leNat, List.map_append, Nat.ofDigits_append, List.length_map]
  rfl

theorem leNat_leBytes_mod (n x : Nat) : leNat (leBytes n x) = x % 256 ^ n := by
  induction n generalizing x with
  | zero =>
    rw [leBytes, Nat.pow_zero, Nat.mod_one]
    rfl
  | succ n ih =>
    rw [leBytes, leNat_cons, ih, BitVec.toNat_ofNat]
    show x % 256 + 256 * (x / 256 % 256 ^ n) = x % 256 ^ (n + 1)
    rw [Nat.pow_succ', Nat.mod_mul]

theorem leNat_leBytes {n x : Nat} (h : x < 256 ^ n) : leNat (leBytes n x) = x := by
  rw [leNat_leBytes_mod, Nat.mod_eq_of_lt h]

theorem slice_slice {bytes : List (BitVec 8)} {a m i n : Nat} (h : i + n ≤ m) :
    slice (slice bytes a m) i n = slice bytes (a + i) n := by
  rw [slice, slice, slice, List.drop_take, List.take_take, List.drop_drop,
    Nat.min_eq_left (by omega)]

end LittleEndian
