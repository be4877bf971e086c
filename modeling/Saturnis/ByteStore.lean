/-
Byte stores addressed by 32-bit words.

The reference for a big-endian memory of `size` bytes is a function from
addresses to bytes.  A store of `n` bytes at `phys` sets the bytes whose
distance from `phys` is below `n`, most significant byte first, and an access
that does not lie inside the memory leaves everything as it is (`refStore`).
`wordOf` reads a list of bytes as a big-endian word.

* `write_byteAt` — `CommittedMemory::write` refines `refStore`;
* `read_eq_wordOf` — `CommittedMemory::read` returns the big-endian word of
  the bytes it covers;
* `assemble_eq_iff` — bytes assemble to a word exactly when they are its lanes
  and the word has no more.
-/
import Mathlib.Data.List.Basic
import Saturnis.Memory

namespace Saturnis.Mem

/-- The big-endian word of some bytes. -/
def wordOf (bytes : List Byte) : Word :=
  bytes.foldl (fun word b => word <<< 8 ||| b.setWidth 32) 0

/-- The bytes of `n` consecutive addresses. -/
def bytesFrom (bytes : Addr → Byte) (phys : Addr) (n : Nat) : List Byte :=
  (List.range n).map fun i => bytes (phys + BitVec.ofNat 32 i)

/-- The access lies inside a memory of `size` bytes. -/
def Inside (size : Nat) (phys : Addr) (n : Nat) : Prop := phys.toNat + n ≤ size

instance (size : Nat) (phys : Addr) (n : Nat) : Decidable (Inside size phys n) :=
  inferInstanceAs (Decidable (_ ≤ _))

/-- The distance of a byte from the start of its access. -/
theorem toNat_add_ofNat_sub (phys : Addr) {i : Nat} (hi : i < 2 ^ 32) :
    (phys + BitVec.ofNat 32 i - phys).toNat = i := by
  rw [BitVec.add_comm, BitVec.add_sub_cancel, BitVec.toNat_ofNat, Nat.mod_eq_of_lt hi]

def refStore (size : Nat) (bytes : Addr → Byte) (phys : Addr) (n : Nat) (value : Word) :
    Addr → Byte :=
  if Inside size phys n then
    fun a => if (a - phys).toNat < n then laneByte value n (a - phys).toNat else bytes a
  else bytes

/-! ### Reading -/

private theorem foldl_shift (f : Nat → Word) (shift : Nat → Nat) (l : List Nat) (init : Word) :
    l.foldl (fun out i => out ||| f i <<< (shift i + 8)) (init <<< 8) =
      (l.foldl (fun out i => out ||| f i <<< shift i) init) <<< 8 := by
  induction l generalizing init with
  | nil => rfl
  | cons i l ih =>
    rw [List.foldl_cons, List.foldl_cons, ← ih, BitVec.shiftLeft_or_distrib,
      BitVec.shiftLeft_add]

theorem assemble_succ (n : Nat) (byteAt : Nat → Byte) :
    assemble (n + 1) byteAt = assemble n byteAt <<< 8 ||| (byteAt n).setWidth 32 := by
  have hshift : ∀ i ∈ List.range n, 8 * (n + 1 - 1 - i) = 8 * (n - 1 - i) + 8 := by
    intro i hi
    have := List.mem_range.mp hi
    omega
  have hlow : (List.range n).foldl
      (fun out i => out ||| (byteAt i).setWidth 32 <<< (8 * (n + 1 - 1 - i))) 0 =
      assemble n byteAt <<< 8 := by
    rw [assemble, ← foldl_shift]
    refine List.foldl_ext _ _ _ fun out i hi => ?_
    rw [hshift i hi]
  rw [assemble, List.range_succ, List.foldl_append, hlow]
  simp

theorem assemble_eq_wordOf (n : Nat) (byteAt : Nat → Byte) :
    assemble n byteAt = wordOf ((List.range n).map byteAt) := by
  induction n with
  | zero => rfl
  | succ n ih =>
    rw [assemble_succ, ih, List.range_succ, List.map_append, wordOf, wordOf, List.foldl_append]
    rfl

/-! ### Lanes -/

theorem getLsbD_assemble (n : Nat) (byteAt : Nat → Byte) {j : Nat} (hj : j < 32) :
    (assemble n byteAt).getLsbD j =
      (decide (j < 8 * n) && (byteAt (n - 1 - j / 8)).getLsbD (j % 8)) := by
  induction n generalizing j with
  | zero => simp [assemble]
  | succ n ih =>
    rw [assemble_succ, BitVec.getLsbD_or, BitVec.getLsbD_shiftLeft]
    by_cases h8 : j < 8
    · -- the last byte
      have hin : j < 8 * (n + 1) := by omega
      simp [h8, hin, hj, Nat.div_eq_of_lt h8, Nat.mod_eq_of_lt h8]
    · have hin : decide (j - 8 < 8 * n) = decide (j < 8 * (n + 1)) :=
        decide_eq_decide.mpr (by omega)
      have hlane : n - 1 - (j - 8) / 8 = n + 1 - 1 - j / 8 := by omega
      have hbit : (j - 8) % 8 = j % 8 := by omega
      rw [ih (show j - 8 < 32 by omega), hin, hlane, hbit]
      simp [h8, hj, BitVec.getLsbD_of_ge _ _ (Nat.not_lt.mp h8)]

theorem getLsbD_laneByte (value : Word) (n i : Nat) {j : Nat} (hj : j < 8) :
    (laneByte value n i).getLsbD j = value.getLsbD (8 * (n - 1 - i) + j) := by
  rw [laneByte, BitVec.getLsbD_setWidth, BitVec.getLsbD_ushiftRight, decide_eq_true hj,
    Bool.true_and]

theorem toNat_assemble_lt (n : Nat) (byteAt : Nat → Byte) :
    (assemble n byteAt).toNat < 2 ^ (8 * n) := by
  apply Nat.lt_pow_two_of_testBit
  intro j hj
  show (assemble n byteAt).getLsbD j = false
  by_cases hword : j < 32
  · rw [getLsbD_assemble n byteAt hword, decide_eq_false (by omega), Bool.false_and]
  · exact BitVec.getLsbD_of_ge _ _ (by omega)

theorem laneByte_assemble {n i : Nat} (hn : n ≤ 4) (hi : i < n) (byteAt : Nat → Byte) :
    laneByte (assemble n byteAt) n i = byteAt i := by
  apply BitVec.eq_of_getLsbD_eq
  intro j hj
  have hlane : n - 1 - (8 * (n - 1 - i) + j) / 8 = i := by omega
  have hbit : (8 * (n - 1 - i) + j) % 8 = j := by omega
  rw [getLsbD_laneByte _ _ _ hj, getLsbD_assemble n byteAt (by omega), hlane, hbit,
    decide_eq_true (by omega), Bool.true_and]

theorem assemble_laneByte {value : Word} {n : Nat} (h : value.toNat < 2 ^ (8 * n)) :
    assemble n (laneByte value n) = value := by
  apply BitVec.eq_of_getLsbD_eq
  intro j hj
  rw [getLsbD_assemble n _ hj]
  by_cases hin : j < 8 * n
  · have hbit : 8 * (n - 1 - (n - 1 - j / 8)) + j % 8 = j := by omega
    rw [getLsbD_laneByte _ _ _ (Nat.mod_lt j (by decide)), hbit, decide_eq_true hin, Bool.true_and]
  · have hhigh : value.getLsbD j = false :=
      Nat.testBit_lt_two_pow (Nat.lt_of_lt_of_le h (Nat.pow_le_pow_right (by decide) (by omega)))
    rw [decide_eq_false hin, Bool.false_and, hhigh]

theorem assemble_eq_iff {value : Word} {n : Nat} (hn : n ≤ 4) (byteAt : Nat → Byte) :
    assemble n byteAt = value ↔
      value.toNat < 2 ^ (8 * n) ∧ ∀ i < n, byteAt i = laneByte value n i := by
  constructor
  · rintro rfl
    exact ⟨toNat_assemble_lt n byteAt, fun i hi => (laneByte_assemble hn hi byteAt).symm⟩
  · rintro ⟨hfits, hlanes⟩
    have hsame : assemble n byteAt = assemble n (laneByte value n) := by
      rw [assemble_eq_wordOf, assemble_eq_wordOf]
      exact congrArg wordOf (List.map_congr_left fun i hi => hlanes i (List.mem_range.mp hi))
    rw [hsame, assemble_laneByte hfits]

theorem accessInRange_of_inside {size : Nat} {phys : Addr} {n : Nat} (h : Inside size phys n) :
    accessInRange size phys n = true :=
  decide_eq_true h

namespace CommittedMemory

theorem read_eq_wordOf {m : CommittedMemory} {phys : Addr} {n : Nat}
    (h : Inside m.size phys n) : m.read phys n = wordOf (bytesFrom m.byteAt phys n) := by
  rw [read, if_pos (accessInRange_of_inside h), assemble_eq_wordOf]
  rfl

theorem readBlock_eq_bytesFrom {m : CommittedMemory} {phys : Addr} {n : Nat}
    (h : Inside m.size phys n) : m.readBlock phys n = bytesFrom m.byteAt phys n := by
  rw [readBlock, if_pos (accessInRange_of_inside h)]
  rfl

/-! ### Writing -/

theorem write_of_not_inside {m : CommittedMemory} {phys : Addr} {n : Nat} {value : Word}
    (h : ¬ Inside m.size phys n) : m.write phys n value = m := by
  rw [write, if_neg (by simpa [accessInRange, Inside] using h)]

theorem foldl_set_length {α : Type*} (f : Nat → Nat) (g : Nat → α) (n : Nat)
    (l : List α) :
    ((List.range n).foldl (fun l i => l.set (f i) (g i)) l).length = l.length := by
  induction n with
  | zero => rfl
  | succ n ih =>
    rw [List.range_succ, List.foldl_append, List.foldl_cons, List.foldl_nil, List.length_set, ih]

theorem foldl_set_getD_of_miss {α : Type*} (f : Nat → Nat) (g : Nat → α) (n : Nat)
    (l : List α) (d : α) {k : Nat} (h : ∀ i < n, f i ≠ k) :
    ((List.range n).foldl (fun l i => l.set (f i) (g i)) l).getD k d = l.getD k d := by
  induction n with
  | zero => rfl
  | succ n ih =>
    rw [List.range_succ, List.foldl_append, List.foldl_cons, List.foldl_nil,
      List.getD_eq_getElem?_getD, List.getElem?_set, if_neg (h n (by omega)),
      ← List.getD_eq_getElem?_getD]
    exact ih fun i hi => h i (by omega)

theorem foldl_set_getD_of_hit {α : Type*} (f : Nat → Nat) (g : Nat → α) (n : Nat)
    (l : List α) (d : α) (hlen : ∀ i < n, f i < l.length)
    (hinj : ∀ i < n, ∀ j < n, f i = f j → i = j) {i : Nat} (hi : i < n) :
    ((List.range n).foldl (fun l i => l.set (f i) (g i)) l).getD (f i) d = g i := by
  induction n with
  | zero => omega
  | succ n ih =>
    rw [List.range_succ, List.foldl_append, List.foldl_cons, List.foldl_nil,
      List.getD_eq_getElem?_getD, List.getElem?_set]
    by_cases hin : i = n
    · rw [hin, if_pos rfl, foldl_set_length, if_pos (hlen n (by omega))]
      rfl
    · have hne : f n ≠ f i := fun h => hin (hinj i hi n (by omega) h.symm)
      rw [if_neg hne, ← List.getD_eq_getElem?_getD]
      exact ih (fun j hj => hlen j (by omega)) (fun j hj k hk => hinj j (by omega) k (by omega))
        (by omega)

theorem size_write (m : CommittedMemory) (phys : Addr) (n : Nat) (value : Word) :
    (m.write phys n value).size = m.size := by
  rw [write]
  split
  · exact foldl_set_length _ _ _ _
  · rfl

/-- A write of at most 2 ^ 32 bytes is a store of the reference. -/
theorem write_byteAt (m : CommittedMemory) (phys : Addr) {n : Nat} (hn : n ≤ 2 ^ 32)
    (value : Word) :
    (m.write phys n value).byteAt = refStore m.size m.byteAt phys n value := by
  by_cases hin : Inside m.size phys n
  · have hidx : ∀ i < n, (phys + BitVec.ofNat 32 i).toNat < m.bytes.length := by
      intro i hi
      have hle : (phys + BitVec.ofNat 32 i).toNat ≤ phys.toNat + i := by
        rw [BitVec.toNat_add, BitVec.toNat_ofNat]
        exact Nat.le_trans (Nat.mod_le _ _) (Nat.add_le_add_left (Nat.mod_le _ _) _)
      exact Nat.lt_of_le_of_lt hle (by rw [Inside, size] at hin; omega)
    have hinj : ∀ i < n, ∀ j < n, (phys + BitVec.ofNat 32 i).toNat =
        (phys + BitVec.ofNat 32 j).toNat → i = j := by
      intro i hi j hj hij
      have := BitVec.toNat_eq.mpr hij
      rw [BitVec.add_right_inj, ← BitVec.toNat_inj, BitVec.toNat_ofNat, BitVec.toNat_ofNat,
        Nat.mod_eq_of_lt (by omega), Nat.mod_eq_of_lt (by omega)] at this
      exact this
    funext a
    have hdist : ∀ i < n, (phys + BitVec.ofNat 32 i).toNat = a.toNat ↔ (a - phys).toNat = i := by
      intro i hi
      rw [← BitVec.toNat_eq]
      constructor
      · rintro rfl
        exact toNat_add_ofNat_sub phys (by omega)
      · rintro rfl
        rw [BitVec.ofNat_toNat, BitVec.setWidth_eq, BitVec.add_comm, BitVec.sub_add_cancel]
    rw [byteAt, write, if_pos (accessInRange_of_inside hin), refStore, if_pos hin]
    by_cases hcov : (a - phys).toNat < n
    · rw [if_pos hcov, ← (hdist _ hcov).mpr rfl]
      exact foldl_set_getD_of_hit (fun i => (phys + BitVec.ofNat 32 i).toNat) _ n _ _ hidx hinj hcov
    · rw [if_neg hcov]
      refine foldl_set_getD_of_miss _ _ n _ _ fun i hi hia => hcov ?_
      rw [(hdist i hi).mp hia]
      exact hi
  · rw [write_of_not_inside hin, refStore, if_neg hin]

end CommittedMemory

end Saturnis.Mem
