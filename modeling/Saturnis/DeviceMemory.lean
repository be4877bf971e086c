/-
Plain device registers as memory.

A register that can be written in full keeps its word, and an aligned access to
it selects the bytes of that word that an access to memory would cover.

* `toNat_sub_lt_iff` — an aligned access covers bytes of one word only;
* `registerByte_perform` — a write to a register, byte by byte;
* `read_eq_memory` — **after the same writes a read returns what memory returns**.
-/
import Saturnis.ByteStore
import Saturnis.DeviceLanes

namespace Saturnis.Dev

open Saturnis.Mem BitLanes

/-! ### Words and bytes -/

/-- All bits of the register can be written, and it reads as it is stored. -/
def FullyWritable (reg : Addr) : Prop := registerSpec reg = none ∨ reg = kScuDma0SrcAddr

/-- An aligned access to a register that can be written in full, which lies
inside a memory of `n` bytes when `base` is taken off its address. -/
structure PlainAccess (base : Addr) (n : Nat) (addr : Addr) (size : Nat) : Prop where
  validSize : size = 1 ∨ size = 2 ∨ size = 4
  aligned : addr.toNat % size = 0
  writable : FullyWritable (DeviceHub.wordAddr addr)
  inside : Inside n (addr - base) size

theorem wordAddr_eq_iff (a b : Addr) :
    DeviceHub.wordAddr a = DeviceHub.wordAddr b ↔ a.toNat / 4 = b.toNat / 4 := by
  have hshift : ∀ a : Addr, DeviceHub.wordAddr a = (a >>> 2) <<< 2 := by
    intro a
    apply BitVec.eq_of_getLsbD_eq
    intro i hi
    rw [DeviceHub.wordAddr, BitVec.getLsbD_and, BitVec.getLsbD_shiftLeft, BitVec.getLsbD_ushiftRight]
    have hmask : (~~~0x3#32).getLsbD i = decide (2 ≤ i) := by
      interval_cases i <;> decide
    rw [hmask]
    by_cases hlow : 2 ≤ i
    · simp [hlow, hi, Nat.not_lt.mpr hlow, Nat.add_sub_cancel' hlow]
    · simp [hlow, Nat.lt_of_not_le hlow]
  have hnat : ∀ a : Addr, (DeviceHub.wordAddr a).toNat = a.toNat / 4 * 4 := by
    intro a
    have hlt := a.isLt
    rw [hshift, BitVec.toNat_shiftLeft, BitVec.toNat_ushiftRight, Nat.shiftLeft_eq,
      Nat.shiftRight_eq_div_pow]
    exact Nat.mod_eq_of_lt (by omega)
  rw [← BitVec.toNat_inj, hnat, hnat]
  omega

theorem toNat_and_three (a : Addr) : (a &&& 0x3#32).toNat = a.toNat % 4 := by
  rw [BitVec.toNat_and]
  exact Nat.and_two_pow_sub_one_eq_mod a.toNat 2

/-- An aligned access covers bytes of one word. -/
theorem toNat_sub_lt_iff {addr : Addr} {size : Nat} (hsize : size = 1 ∨ size = 2 ∨ size = 4)
    (haligned : addr.toNat % size = 0) (a : Addr) :
    (a - addr).toNat < size ↔ a.toNat / 4 = addr.toNat / 4 ∧ addr.toNat % 4 ≤ a.toNat % 4 ∧
      a.toNat % 4 < addr.toNat % 4 + size := by
  have ha := a.isLt
  have haddr := addr.isLt
  rw [BitVec.toNat_sub]
  rcases hsize with rfl | rfl | rfl <;> omega

/-- And the distance is that of the lanes. -/
theorem toNat_sub_eq {addr : Addr} {size : Nat} (hsize : size = 1 ∨ size = 2 ∨ size = 4)
    (haligned : addr.toNat % size = 0) {a : Addr} (h : (a - addr).toNat < size) :
    (a - addr).toNat = a.toNat % 4 - addr.toNat % 4 := by
  have ha := a.isLt
  have haddr := addr.isLt
  rw [BitVec.toNat_sub] at h ⊢
  rcases hsize with rfl | rfl | rfl <;> omega

/-- The lanes of an aligned access, counted from the highest byte. -/
theorem laneShift_eq {addr : Addr} {size : Nat} (hsize : size = 1 ∨ size = 2 ∨ size = 4)
    (haligned : addr.toNat % size = 0) :
    laneShift addr size = 8 * (4 - size - addr.toNat % 4) := by
  rw [laneShift]
  rcases hsize with rfl | rfl | rfl
  · rw [if_pos rfl, toNat_and_three]
    omega
  · have htwo : (addr &&& 0x2#32).toNat = addr.toNat % 4 := by
      rw [← toNat_and_three]
      have hbit : addr.getLsbD 0 = false := by
        show addr.toNat.testBit 0 = false
        rw [Nat.testBit_zero]
        exact decide_eq_false (by omega)
      congr 1
      apply BitVec.eq_of_getLsbD_eq
      intro i hi
      rw [BitVec.getLsbD_and, BitVec.getLsbD_and]
      rcases i with _ | _ | i
      · rw [hbit, Bool.false_and, Bool.false_and]
      · rfl
      · have hlt : i < 30 := by omega
        interval_cases i <;> rfl
    rw [if_neg (by decide), if_pos rfl, htwo]
    omega
  · rw [if_neg (by decide), if_neg (by decide)]
    omega

theorem getLsbD_sizeMask {size : Nat} (hsize : size = 1 ∨ size = 2 ∨ size = 4) {i : Nat}
    (hi : i < 32) : (sizeMask size).getLsbD i = decide (i < 8 * size) := by
  rcases hsize with rfl | rfl | rfl <;> interval_cases i <;> decide

/-! ### Registers, byte by byte -/

namespace DeviceHub

/-- The stored byte of that address. -/
def registerByte (d : DeviceHub) (a : Addr) : Byte :=
  laneByte (readPersistedOrZero d.mmioRegs (wordAddr a)) 4 (a.toNat % 4)

/-- The registers with side effects and the status registers have a specification. -/
theorem registerSpec_isSome {reg : Addr} (h : reg ∈ eventRegisters ∨ reg ∈ statusRegisters) :
    (registerSpec reg).isSome = true := by
  simp only [eventRegisters, statusRegisters, List.mem_cons, List.not_mem_nil, or_false] at h
  rcases h with (h | h | h | h | h | h | h | h | h) | h | h | h <;> rw [h] <;> rfl

theorem kScuDma0SrcAddr_plain :
    kScuDma0SrcAddr ∉ eventRegisters ∧ kScuDma0SrcAddr ∉ statusRegisters ∧
      writableMask kScuDma0SrcAddr = BitVec.allOnes 32 := by
  decide

theorem fullyWritable_plain {reg : Addr} (h : FullyWritable reg) :
    reg ∉ eventRegisters ∧ reg ∉ statusRegisters ∧ writableMask reg = BitVec.allOnes 32 := by
  rcases h with hnone | rfl
  · have hnot : ¬ (reg ∈ eventRegisters ∨ reg ∈ statusRegisters) := by
      intro hmem
      have hsome := registerSpec_isSome hmem
      rw [hnone] at hsome
      exact Bool.noConfusion hsome
    obtain ⟨hevent, hstatus⟩ := not_or.mp hnot
    refine ⟨hevent, hstatus, ?_⟩
    rw [writableMask, hnone]
    rfl
  · exact kScuDma0SrcAddr_plain

/-- The word a register returns is the stored one. -/
theorem registerValue_full (d : DeviceHub) {reg : Addr} (h : FullyWritable reg) :
    d.registerValue reg = readPersistedOrZero d.mmioRegs reg := by
  obtain ⟨hevent, hstatus, -⟩ := fullyWritable_plain h
  rw [registerValue_of_plain d hevent hstatus]
  rcases h with hnone | rfl
  · rw [hnone]
    rfl
  · show (0x0#32 &&& ~~~0xFFFFFFFF#32) ||| (readPersistedOrZero d.mmioRegs kScuDma0SrcAddr &&&
      BitVec.allOnes 32) = _
    rw [BitVec.and_allOnes, BitVec.zero_and, BitVec.zero_or]

/-- A write merges its lanes into the stored word. -/
theorem readPersisted_perform (d : DeviceHub) {w : MmioWrite} (h : FullyWritable w.register)
    (reg : Addr) :
    readPersistedOrZero (d.perform w).mmioRegs reg =
      if reg = w.register then
        (readPersistedOrZero d.mmioRegs reg &&& ~~~w.lanes) ||| (w.bits &&& w.lanes)
      else readPersistedOrZero d.mmioRegs reg := by
  obtain ⟨hevent, -, hmask⟩ := fullyWritable_plain h
  have hlanes : w.lanes &&& writableMask w.register = w.lanes := by
    rw [hmask]
    exact BitVec.and_allOnes
  have hstored := stored_perform d w
  generalize d.perform w = d' at hstored ⊢
  have hnot : ∀ other ∈ eventRegisters, w.register ≠ other := fun other hmem heq =>
    hevent (heq ▸ hmem)
  cases hstored with
  | plain hreg =>
    rw [hlanes]
    by_cases heq : reg = w.register
    · rw [if_pos heq, heq]
      exact readPersistedOrZero_update _ _ _
    · rw [if_neg heq]
      exact congrArg (fun o : Option Word => o.getD 0) (Function.update_of_ne heq _ _)
  | readOnly hreg hzero =>
    -- no lanes are written
    rw [hlanes] at hzero
    have hsame : (readPersistedOrZero d.mmioRegs reg &&& ~~~w.lanes) ||| (w.bits &&& w.lanes) =
        readPersistedOrZero d.mmioRegs reg := by
      rw [hzero]
      show (_ &&& BitVec.allOnes 32) ||| (_ &&& 0#32) = _
      rw [BitVec.and_allOnes, BitVec.and_zero, BitVec.or_zero]
    rw [hsame, ite_self]
  | noPulse hreg =>
    rcases hreg with hreg | hreg
    · exact absurd hreg (hnot _ (by decide))
    · exact absurd hreg (hnot _ (by decide))
  | pulse hpulse =>
    rcases hpulse.register_eq with hreg | hreg
    · exact absurd hreg (hnot _ (by decide))
    · exact absurd hreg (hnot _ (by decide))
  | istSet hreg | istClear hreg | sourceSet hreg | sourceClear hreg | smpcCommand hreg
  | raise hreg | lower hreg | vdp1Command hreg => exact absurd hreg (hnot _ (by decide))

end DeviceHub

/-- The lanes of an aligned write, byte by byte. -/
theorem MmioWrite.getLsbD_lanes {w : MmioWrite} (hsize : w.size = 1 ∨ w.size = 2 ∨ w.size = 4)
    (haligned : w.addr.toNat % w.size = 0) {k j : Nat} (hk : k < 4) (hj : j < 8) :
    w.lanes.getLsbD (8 * (4 - 1 - k) + j) =
      decide (w.addr.toNat % 4 ≤ k ∧ k < w.addr.toNat % 4 + w.size) := by
  rw [lanes, BitVec.getLsbD_shiftLeft, laneShift_eq hsize haligned,
    decide_eq_true (show 8 * (4 - 1 - k) + j < 32 by omega), Bool.true_and,
    getLsbD_sizeMask hsize (by omega), ← decide_not, ← Bool.decide_and]
  refine decide_eq_decide.mpr ?_
  rcases hsize with h | h | h <;> rw [h] at haligned ⊢ <;> omega

/-- Under the lanes the written bits are those of the value. -/
theorem MmioWrite.getLsbD_value {w : MmioWrite} (hsize : w.size = 1 ∨ w.size = 2 ∨ w.size = 4)
    (haligned : w.addr.toNat % w.size = 0) {k j : Nat} (hlow : w.addr.toNat % 4 ≤ k)
    (hhigh : k < w.addr.toNat % 4 + w.size) (hj : j < 8) :
    (w.value <<< laneShift w.addr w.size).getLsbD (8 * (4 - 1 - k) + j) =
      w.value.getLsbD (8 * (w.size - 1 - (k - w.addr.toNat % 4)) + j) := by
  have hfit : w.addr.toNat % 4 + w.size ≤ 4 := by
    rcases hsize with h | h | h <;> rw [h] at haligned ⊢ <;> omega
  have hindex : 8 * (4 - 1 - k) + j - 8 * (4 - w.size - w.addr.toNat % 4) =
      8 * (w.size - 1 - (k - w.addr.toNat % 4)) + j := by omega
  rw [BitVec.getLsbD_shiftLeft, laneShift_eq hsize haligned, hindex,
    decide_eq_true (show 8 * (4 - 1 - k) + j < 32 by omega),
    decide_eq_false (show ¬ 8 * (4 - 1 - k) + j < 8 * (4 - w.size - w.addr.toNat % 4) by omega)]
  simp

namespace DeviceHub

/-- A write sets the bytes it covers. -/
theorem registerByte_perform (d : DeviceHub) {w : MmioWrite} {base : Addr} {n : Nat}
    (h : PlainAccess base n w.addr w.size) (a : Addr) :
    (d.perform w).registerByte a =
      if (a - w.addr).toNat < w.size then laneByte w.value w.size (a - w.addr).toNat
      else d.registerByte a := by
  have hcovers := toNat_sub_lt_iff h.validSize h.aligned a
  have hk : a.toNat % 4 < 4 := Nat.mod_lt _ (by decide)
  rw [registerByte, readPersisted_perform d h.writable]
  by_cases hword : wordAddr a = w.register
  · have hquot : a.toNat / 4 = w.addr.toNat / 4 := (wordAddr_eq_iff a w.addr).mp hword
    rw [if_pos hword]
    apply BitVec.eq_of_getLsbD_eq
    intro j hj
    have hlane := MmioWrite.getLsbD_lanes h.validSize h.aligned hk hj
    rw [getLsbD_laneByte _ _ _ hj, BitVec.getLsbD_or, BitVec.getLsbD_and, BitVec.getLsbD_not,
      BitVec.getLsbD_and, MmioWrite.bits, BitVec.getLsbD_and, hlane]
    by_cases hcov : (a - w.addr).toNat < w.size
    · -- under the lanes: the byte of the value
      obtain ⟨-, hlow, hhigh⟩ := hcovers.mp hcov
      rw [if_pos hcov, toNat_sub_eq h.validSize h.aligned hcov, getLsbD_laneByte _ _ _ hj,
        MmioWrite.getLsbD_value h.validSize h.aligned hlow hhigh hj]
      simp [hlow, hhigh]
    · -- off the lanes: the byte that is there
      have hoff : ¬ (w.addr.toNat % 4 ≤ a.toNat % 4 ∧ a.toNat % 4 < w.addr.toNat % 4 + w.size) :=
        fun hin => hcov (hcovers.mpr ⟨hquot, hin⟩)
      have hin : 8 * (4 - 1 - a.toNat % 4) + j < 32 := by omega
      rw [if_neg hcov, decide_eq_false hoff, registerByte, getLsbD_laneByte _ _ _ hj]
      simp [hin]
  · have hmiss : ¬ (a - w.addr).toNat < w.size := fun hlt =>
      hword ((wordAddr_eq_iff a w.addr).mpr (hcovers.mp hlt).1)
    rw [if_neg hword, if_neg hmiss, registerByte]

/-- A read of the bytes it covers. -/
theorem laneByte_read (d : DeviceHub) {base addr : Addr} {n size : Nat}
    (h : PlainAccess base n addr size) (t : Nat) (cpu : Int) {i : Nat} (hi : i < size) :
    laneByte (d.read t cpu addr size) size i = d.registerByte (addr + BitVec.ofNat 32 i) := by
  have hsize : size ≤ 4 := by rcases h.validSize with rfl | rfl | rfl <;> decide
  have hdist := toNat_add_ofNat_sub addr (show i < 2 ^ 32 by omega)
  have hcov : (addr + BitVec.ofNat 32 i - addr).toNat < size := by rw [hdist]; exact hi
  obtain ⟨hquot, hlow, hhigh⟩ := (toNat_sub_lt_iff h.validSize h.aligned _).mp hcov
  have hoffset := toNat_sub_eq h.validSize h.aligned hcov
  rw [hdist] at hoffset
  have hfit : addr.toNat % 4 + size ≤ 4 := by
    have haligned := h.aligned
    rcases h.validSize with rfl | rfl | rfl <;> omega
  rw [read, registerValue_full d h.writable, registerByte,
    (wordAddr_eq_iff _ addr).mpr hquot]
  apply BitVec.eq_of_getLsbD_eq
  intro j hj
  have hindex : laneShift addr size + (8 * (size - 1 - i) + j) =
      8 * (4 - 1 - (addr + BitVec.ofNat 32 i).toNat % 4) + j := by
    rw [laneShift_eq h.validSize h.aligned]
    omega
  rw [getLsbD_laneByte _ _ _ hj, getLsbD_laneByte _ _ _ hj, BitVec.getLsbD_and,
    BitVec.getLsbD_ushiftRight, hindex, getLsbD_sizeMask h.validSize (by omega),
    decide_eq_true (by omega), Bool.and_true]

theorem read_lt (d : DeviceHub) {base addr : Addr} {n size : Nat}
    (h : PlainAccess base n addr size) (t : Nat) (cpu : Int) :
    (d.read t cpu addr size).toNat < 2 ^ (8 * size) := by
  rw [read, BitVec.toNat_and]
  refine Nat.lt_of_le_of_lt Nat.and_le_right ?_
  rcases h.validSize with rfl | rfl | rfl <;> decide

/-! ### Histories -/

/-- A memory of `n` zero bytes after the same writes, `base` taken off. -/
def memoryAfter (base : Addr) (n : Nat) (writes : List MmioWrite) : CommittedMemory :=
  writes.foldl (fun m w => m.write (w.addr - base) w.size w.value) (.make n)

/-- The memory holds the bytes of the registers. -/
structure Mirrors (base : Addr) (n : Nat) (d : DeviceHub) (m : CommittedMemory) : Prop where
  size : m.size = n
  byte : ∀ a, m.byteAt (a - base) = d.registerByte a

theorem mirrors_fresh (base : Addr) (n : Nat) : Mirrors base n {} (.make n) := by
  refine ⟨List.length_replicate, fun a => ?_⟩
  rw [CommittedMemory.byteAt, CommittedMemory.make, List.getD_eq_getElem?_getD,
    List.getElem?_replicate, registerByte]
  have hzero : laneByte (readPersistedOrZero ({} : DeviceHub).mmioRegs (wordAddr a)) 4
      (a.toNat % 4) = 0 := by
    show laneByte 0#32 4 _ = 0
    rw [laneByte, BitVec.zero_ushiftRight]
    rfl
  rw [hzero]
  split <;> rfl

theorem Mirrors.perform {base : Addr} {n : Nat} {d : DeviceHub} {m : CommittedMemory}
    (h : Mirrors base n d m) {w : MmioWrite} (hw : PlainAccess base n w.addr w.size) :
    Mirrors base n (d.perform w) (m.write (w.addr - base) w.size w.value) := by
  have hsize : w.size ≤ 2 ^ 32 := by
    rcases hw.validSize with hsize | hsize | hsize <;> rw [hsize] <;> decide
  refine ⟨(CommittedMemory.size_write _ _ _ _).trans h.size, fun a => ?_⟩
  have hinside : Inside m.size (w.addr - base) w.size := by
    rw [h.size]
    exact hw.inside
  have hdist : a - base - (w.addr - base) = a - w.addr := by grind
  rw [CommittedMemory.write_byteAt m _ hsize, refStore, if_pos hinside, hdist,
    registerByte_perform d hw, h.byte]

theorem Mirrors.performs {base : Addr} {n : Nat} {writes : List MmioWrite} {d : DeviceHub}
    {m : CommittedMemory} (h : Mirrors base n d m)
    (hwrites : ∀ w ∈ writes, PlainAccess base n w.addr w.size) :
    Mirrors base n (writes.foldl DeviceHub.perform d)
      (writes.foldl (fun m w => m.write (w.addr - base) w.size w.value) m) := by
  induction writes generalizing d m with
  | nil => exact h
  | cons w writes ih =>
    exact ih (h.perform (hwrites w List.mem_cons_self))
      fun other hother => hwrites other (List.mem_cons_of_mem w hother)

theorem Mirrors.read {base : Addr} {n : Nat} {d : DeviceHub} {m : CommittedMemory}
    (h : Mirrors base n d m) {addr : Addr} {size : Nat} (haccess : PlainAccess base n addr size)
    (t : Nat) (cpu : Int) : d.read t cpu addr size = m.read (addr - base) size := by
  have hsize : size ≤ 4 := by rcases haccess.validSize with rfl | rfl | rfl <;> decide
  have hinside : Inside m.size (addr - base) size := by
    rw [h.size]
    exact haccess.inside
  rw [CommittedMemory.read, if_pos (accessInRange_of_inside hinside), eq_comm,
    assemble_eq_iff hsize]
  refine ⟨d.read_lt haccess t cpu, fun i hi => ?_⟩
  have hmoved : addr - base + BitVec.ofNat 32 i = addr + BitVec.ofNat 32 i - base := by grind
  rw [hmoved, h.byte, d.laneByte_read haccess t cpu hi]

/-- **After any aligned writes to registers that can be written in full, an
aligned read of such a register returns what memory returns** at the same
distance from the base. -/
theorem read_eq_memory {base : Addr} {n : Nat} {writes : List MmioWrite}
    (hwrites : ∀ w ∈ writes, PlainAccess base n w.addr w.size) {addr : Addr} {size : Nat}
    (haccess : PlainAccess base n addr size) (t : Nat) (cpu : Int) :
    (performAll writes).read t cpu addr size = (memoryAfter base n writes).read (addr - base) size :=
  ((mirrors_fresh base n).performs hwrites).read haccess t cpu

/-- A word and a byte of the DMA source register, read as a halfword. -/
theorem read_eq_memory_dmaSource :
    (performAll [⟨0, 0, kScuDma0SrcAddr, 4, 0x11223344#32⟩,
        ⟨1, 0, kScuDma0SrcAddr + 1, 1, 0xAA#32⟩]).read 2 0 kScuDma0SrcAddr 2 =
      (memoryAfter kScuDma0SrcAddr 4 [⟨0, 0, kScuDma0SrcAddr, 4, 0x11223344#32⟩,
        ⟨1, 0, kScuDma0SrcAddr + 1, 1, 0xAA#32⟩]).read (kScuDma0SrcAddr - kScuDma0SrcAddr) 2 := by
  refine read_eq_memory (fun w hw => ?_)
    ⟨Or.inr (Or.inl rfl), by decide, Or.inr (by decide), by decide⟩ 2 0
  rcases List.mem_pair.mp hw with rfl | rfl
  · exact ⟨Or.inr (Or.inr rfl), by decide, Or.inr (by decide), by decide⟩
  · exact ⟨Or.inl rfl, by decide, Or.inr (by decide), by decide⟩

end DeviceHub

end Saturnis.Dev
