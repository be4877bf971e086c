/-
The tiny cache against committed memory.

`holds` says that the line of an address is in the cache, `byteOf` is the byte
the cache has for it.  A cache is coherent with a memory when every byte it
holds is the byte of the memory.

* `Coherent.read` — a hit returns the word of the memory;
* `Coherent.write` — a write to both keeps them coherent, unless it crosses the
  end of a line and one of the lines it touches is in the cache;
* `Coherent.fill` — so does a fill with a line that lies inside the memory;
* `Coherent.fillLine`, `Coherent.frame` — so do a fill with any bytes the memory
  has, and a change of the memory outside the lines held.
-/
import Saturnis.ByteStore

namespace Saturnis.Mem

/-- The line of sixteen bytes an address is in. -/
def lineOf (a : Addr) : Word := a / 16#32

/-- The access crosses the end of a cache line. -/
def TinyCache.crosses (c : TinyCache) (phys : Addr) (size : Nat) : Bool :=
  decide (c.offset phys + size > c.lineSize)

namespace TinyCache

variable {c : TinyCache} {m : CommittedMemory} {phys a : Addr} {n : Nat}

/-- The line of the address is in the cache. -/
def holds (c : TinyCache) (a : Addr) : Bool :=
  (c.line (c.lineBase a)).valid && (c.line (c.lineBase a)).tag == c.lineBase a

/-- The byte of the address in the line it would be in. -/
def byteOf (c : TinyCache) (a : Addr) : Byte :=
  (c.line (c.lineBase a)).bytes.getD (c.offset a) 0

/-- What the constructor establishes: some lines, all of the line size. -/
structure WellFormed (c : TinyCache) : Prop where
  pos : 0 < c.lineSize
  small : c.lineSize < 256
  some : c.lines ≠ []
  length : ∀ line ∈ c.lines, line.bytes.length = c.lineSize

def Coherent (c : TinyCache) (m : CommittedMemory) : Prop :=
  ∀ a, c.holds a = true → c.byteOf a = m.byteAt a

theorem wellFormed_make {lineSize lineCount : Nat} (hpos : 0 < lineSize) (hsmall : lineSize < 256)
    (hcount : 0 < lineCount) : WellFormed (make lineSize lineCount) := by
  refine ⟨hpos, hsmall, ?_, fun line hline => ?_⟩
  · intro h
    have hlen := congrArg List.length h
    rw [make, List.length_replicate, List.length_nil] at hlen
    omega
  · rw [List.eq_of_mem_replicate hline]
    exact List.length_replicate

/-- An empty cache holds nothing. -/
theorem holds_make (lineSize lineCount : Nat) (a : Addr) :
    (make lineSize lineCount).holds a = false := by
  have hvalid : ((make lineSize lineCount).line ((make lineSize lineCount).lineBase a)).valid =
      false := by
    rw [line, List.getD_eq_getElem?_getD]
    simp only [make, List.getElem?_replicate]
    split <;> rfl
  rw [holds, hvalid]
  rfl

theorem coherent_make (lineSize lineCount : Nat) (m : CommittedMemory) :
    Coherent (make lineSize lineCount) m := by
  intro a ha
  rw [holds_make] at ha
  exact absurd ha (by simp)

/-! ### Lines and offsets -/

theorem WellFormed.ofNat_toNat (h : WellFormed c) : (BitVec.ofNat 32 c.lineSize).toNat = c.lineSize := by
  have := h.small
  rw [BitVec.toNat_ofNat]
  exact Nat.mod_eq_of_lt (by omega)

theorem WellFormed.lineBase (h : WellFormed c) (a : Addr) :
    (c.lineBase a).toNat = a.toNat / c.lineSize := by
  rw [TinyCache.lineBase, BitVec.toNat_udiv, h.ofNat_toNat]

/-- The line of a physical address ends in the address space. -/
theorem WellFormed.line_le (h : WellFormed c) (hphys : phys.toNat < 2 ^ 29) :
    (c.lineBase phys).toNat * c.lineSize + c.lineSize ≤ 2 ^ 32 := by
  have hle := Nat.div_mul_le_self phys.toNat c.lineSize
  have hsmall := h.small
  rw [h.lineBase]
  omega

theorem WellFormed.offset (h : WellFormed c) (a : Addr) : c.offset a = a.toNat % c.lineSize := by
  rw [TinyCache.offset, BitVec.toNat_umod, h.ofNat_toNat]

theorem WellFormed.offset_lt (h : WellFormed c) (a : Addr) : c.offset a < c.lineSize := by
  rw [h.offset]
  exact Nat.mod_lt _ h.pos

theorem WellFormed.index_lt (h : WellFormed c) (lineBase : Word) :
    c.index lineBase < c.lines.length :=
  Nat.mod_lt _ (List.length_pos_iff.mpr h.some)

theorem WellFormed.line_mem (h : WellFormed c) (lineBase : Word) : c.line lineBase ∈ c.lines := by
  rw [TinyCache.line, List.getD_eq_getElem?_getD,
    List.getElem?_eq_getElem (h.index_lt lineBase), Option.getD_some]
  exact List.getElem_mem _

theorem toNat_add_ofNat {i : Nat} (h : a.toNat + i < 2 ^ 32) :
    (a + BitVec.ofNat 32 i).toNat = a.toNat + i := by
  rw [BitVec.toNat_add, BitVec.toNat_ofNat, Nat.mod_eq_of_lt (b := 2 ^ 32) (a := i) (by omega),
    Nat.mod_eq_of_lt h]

/-- An access that does not cross the end of its line stays in it. -/
theorem WellFormed.within (h : WellFormed c) {i : Nat} (hfit : phys.toNat + i < 2 ^ 32)
    (hi : c.offset phys + i < c.lineSize) :
    c.lineBase (phys + BitVec.ofNat 32 i) = c.lineBase phys ∧
      c.offset (phys + BitVec.ofNat 32 i) = c.offset phys + i := by
  rw [h.offset] at hi
  rw [← BitVec.toNat_inj, h.lineBase, h.lineBase, h.offset, h.offset, toNat_add_ofNat hfit]
  have hdiv := Nat.div_add_mod phys.toNat c.lineSize
  have hsum : phys.toNat + i = (phys.toNat % c.lineSize + i) + c.lineSize * (phys.toNat / c.lineSize) := by
    omega
  rw [hsum, Nat.add_mul_div_left _ _ h.pos, Nat.add_mul_mod_self_left, Nat.mod_eq_of_lt hi,
    Nat.div_eq_of_lt hi, Nat.zero_add]
  exact ⟨rfl, rfl⟩

/-! ### Reading -/

theorem read_eq_some {size : Nat} {value : Word} (h : c.read phys size = some value) :
    c.holds phys = true ∧ c.offset phys + size ≤ c.lineSize ∧
      value = assemble size fun i =>
        (c.line (c.lineBase phys)).bytes.getD (c.offset phys + i) 0 := by
  simp only [read] at h
  split at h
  · exact absurd h (by simp)
  · rename_i hmiss
    split at h
    · exact absurd h (by simp)
    · rename_i hcross
      refine ⟨?_, by omega, (Option.some_inj.mp h).symm⟩
      rw [holds]
      simpa [Bool.or_eq_true, bne, not_or] using hmiss

theorem Coherent.read (h : Coherent c m) (hwf : WellFormed c) {size : Nat} {value : Word}
    (hfit : phys.toNat + size ≤ 2 ^ 32) (hread : c.read phys size = some value) :
    value = wordOf (bytesFrom m.byteAt phys size) := by
  obtain ⟨hholds, hcross, rfl⟩ := read_eq_some hread
  rw [assemble_eq_wordOf, bytesFrom]
  refine congrArg wordOf (List.map_congr_left fun i hi => ?_)
  have hi := List.mem_range.mp hi
  have hin : phys.toNat + i < 2 ^ 32 := by omega
  obtain ⟨hline, hoff⟩ := hwf.within hin (by omega)
  have hbyte := h (phys + BitVec.ofNat 32 i) (by rw [holds, hline]; exact hholds)
  rw [byteOf, hline, hoff] at hbyte
  exact hbyte

/-! ### Writing -/

/-- The cache with the line of a line address replaced. -/
def setLine (c : TinyCache) (base : Word) (entry : CacheLine) : TinyCache :=
  { c with lines := c.lines.set (c.index base) entry }

theorem setLine_line (hwf : WellFormed c) (base lineBase : Word) (entry : CacheLine) :
    (c.setLine base entry).line lineBase =
      if c.index base = c.index lineBase then entry else c.line lineBase := by
  have hindex : (c.setLine base entry).index lineBase = c.index lineBase := by
    rw [index, setLine, List.length_set, index]
  rw [line, hindex, setLine, List.getD_eq_getElem?_getD, List.getElem?_set]
  split
  · rename_i heq
    rw [if_pos (heq ▸ hwf.index_lt base)]
    rfl
  · rw [line, List.getD_eq_getElem?_getD]

theorem setLine_holds (hwf : WellFormed c) (base : Word) (entry : CacheLine) (a : Addr) :
    (c.setLine base entry).holds a =
      if c.index base = c.index (c.lineBase a) then entry.valid && entry.tag == c.lineBase a
      else c.holds a := by
  have hbase : (c.setLine base entry).lineBase a = c.lineBase a := rfl
  rw [holds, hbase, setLine_line hwf]
  split <;> rfl

theorem setLine_byteOf (hwf : WellFormed c) (base : Word) (entry : CacheLine) (a : Addr) :
    (c.setLine base entry).byteOf a =
      if c.index base = c.index (c.lineBase a) then entry.bytes.getD (c.offset a) 0
      else c.byteOf a := by
  have hbase : (c.setLine base entry).lineBase a = c.lineBase a := rfl
  have hoff : (c.setLine base entry).offset a = c.offset a := rfl
  rw [byteOf, hbase, hoff, setLine_line hwf]
  split <;> rfl

theorem WellFormed.setLine (h : WellFormed c) (base : Word) {entry : CacheLine}
    (hlen : entry.bytes.length = c.lineSize) : WellFormed (c.setLine base entry) := by
  refine ⟨h.pos, h.small, fun hnil => h.some ?_, fun line hline => ?_⟩
  · have hzero := congrArg List.length hnil
    rw [TinyCache.setLine, List.length_set] at hzero
    exact List.length_eq_zero_iff.mp hzero
  · rcases List.mem_or_eq_of_mem_set hline with hmem | rfl
    · exact h.length line hmem
    · exact hlen

/-- The line of `phys` with a word stored to it. -/
def stored (c : TinyCache) (phys : Addr) (size : Nat) (value : Word) : CacheLine :=
  { c.line (c.lineBase phys) with
    bytes := (List.range size).foldl
      (fun bytes i => bytes.set (c.offset phys + i) (laneByte value size i))
      (c.line (c.lineBase phys)).bytes }

/-- A write that takes effect. -/
theorem write_of_hit {size : Nat} {value : Word} (hholds : c.holds phys = true)
    (hcross : c.offset phys + size ≤ c.lineSize) :
    c.write phys size value = c.setLine (c.lineBase phys) (c.stored phys size value) := by
  have hhit : ¬ ((!(c.line (c.lineBase phys)).valid ||
      (c.line (c.lineBase phys)).tag != c.lineBase phys) = true) := by
    rw [holds] at hholds
    simpa [bne] using hholds
  simp only [write]
  rw [if_neg hhit, if_neg (by omega)]
  rfl

theorem write_of_miss {size : Nat} {value : Word}
    (h : c.holds phys = false ∨ c.offset phys + size > c.lineSize) :
    c.write phys size value = c := by
  simp only [write]
  split
  · rfl
  · rename_i hmiss
    rw [if_pos]
    refine h.resolve_left ?_
    rw [holds]
    simpa [Bool.or_eq_true, bne, not_or] using hmiss

theorem hit_or_miss (c : TinyCache) (phys : Addr) (size : Nat) :
    (c.holds phys = true ∧ c.offset phys + size ≤ c.lineSize) ∨
      (c.holds phys = false ∨ c.offset phys + size > c.lineSize) := by
  rcases Bool.eq_false_or_eq_true (c.holds phys) with hholds | hholds
  · rcases Nat.lt_or_ge c.lineSize (c.offset phys + size) with hlt | hle
    · exact Or.inr (Or.inr hlt)
    · exact Or.inl ⟨hholds, hle⟩
  · exact Or.inr (Or.inl hholds)

theorem WellFormed.write (h : WellFormed c) (phys : Addr) (size : Nat) (value : Word) :
    WellFormed (c.write phys size value) := by
  rcases c.hit_or_miss phys size with ⟨hholds, hcross⟩ | hmiss
  · rw [write_of_hit hholds hcross]
    exact h.setLine _ ((CommittedMemory.foldl_set_length (fun i => c.offset phys + i)
      (fun i => laneByte value size i) size _).trans (h.length _ (h.line_mem _)))
  · rw [write_of_miss hmiss]
    exact h

theorem eq_add_ofNat_sub (phys a : Addr) : a = phys + BitVec.ofNat 32 (a - phys).toNat := by
  rw [BitVec.ofNat_toNat, BitVec.setWidth_eq, BitVec.add_comm, BitVec.sub_add_cancel]

/-- In the line of the access, the bytes it covers are those at its offsets. -/
theorem WellFormed.covered (hwf : WellFormed c) {size : Nat} (hfit : phys.toNat + size ≤ 2 ^ 32)
    (hcross : c.offset phys + size ≤ c.lineSize) (hcov : (a - phys).toNat < size) :
    c.lineBase a = c.lineBase phys ∧ c.offset a = c.offset phys + (a - phys).toNat := by
  have heq := eq_add_ofNat_sub phys a
  have hin : phys.toNat + (a - phys).toNat < 2 ^ 32 := by omega
  obtain ⟨hline, hoff⟩ := hwf.within hin (by omega)
  rw [← heq] at hline hoff
  exact ⟨hline, hoff⟩

/-- Equal offsets in one line are equal addresses. -/
theorem WellFormed.eq_of_offset (hwf : WellFormed c) {b : Addr} (hline : c.lineBase a = c.lineBase b)
    (hoff : c.offset a = c.offset b) : a = b := by
  rw [← BitVec.toNat_inj]
  have hdiv := Nat.div_add_mod a.toNat c.lineSize
  have hdiv' := Nat.div_add_mod b.toNat c.lineSize
  rw [← hwf.lineBase, ← hwf.offset] at hdiv hdiv'
  rw [← hdiv, ← hdiv', hline, hoff]

theorem stored_getD (hwf : WellFormed c) {size : Nat} (value : Word)
    (hfit : phys.toNat + size ≤ 2 ^ 32) (hcross : c.offset phys + size ≤ c.lineSize)
    (hsame : c.lineBase a = c.lineBase phys) :
    (c.stored phys size value).bytes.getD (c.offset a) 0 =
      if (a - phys).toNat < size then laneByte value size (a - phys).toNat else c.byteOf a := by
  have hlen := hwf.length _ (hwf.line_mem (c.lineBase phys))
  rw [stored]
  show ((List.range size).foldl
    (fun bytes i => bytes.set (c.offset phys + i) (laneByte value size i))
    (c.line (c.lineBase phys)).bytes).getD (c.offset a) 0 = _
  by_cases hcov : (a - phys).toNat < size
  · rw [if_pos hcov, (hwf.covered hfit hcross hcov).2]
    exact CommittedMemory.foldl_set_getD_of_hit (fun i => c.offset phys + i) _ size _ _
      (fun i hi => by omega) (fun i _ j _ hij => by omega) hcov
  · rw [if_neg hcov, byteOf, hsame]
    refine CommittedMemory.foldl_set_getD_of_miss (fun i => c.offset phys + i) _ size _ _
      fun i hi heq => hcov ?_
    have hin : phys.toNat + i < 2 ^ 32 := by omega
    obtain ⟨hline, hoff⟩ := hwf.within hin (by omega)
    have haddr : a = phys + BitVec.ofNat 32 i :=
      hwf.eq_of_offset (hsame.trans hline.symm) (hoff.trans heq).symm
    rw [haddr, BitVec.add_comm, BitVec.add_sub_cancel, BitVec.toNat_ofNat]
    exact Nat.lt_of_le_of_lt (Nat.mod_le _ _) hi

theorem Coherent.write (h : Coherent c m) (hwf : WellFormed c) {size : Nat} (value : Word)
    (hfit : phys.toNat + size ≤ 2 ^ 32) (hin : Inside m.size phys size)
    (hcross : c.crosses phys size = true →
      ∀ i < size, c.holds (phys + BitVec.ofNat 32 i) = false) :
    Coherent (c.write phys size value) (m.write phys size value) := by
  have hmem : (m.write phys size value).byteAt = refStore m.size m.byteAt phys size value :=
    m.write_byteAt phys (by omega) value
  rw [refStore, if_pos hin] at hmem
  -- Byte by byte, for an address that the cache holds after the write.
  intro a ha
  rw [hmem]
  show _ = if (a - phys).toNat < size then laneByte value size (a - phys).toNat else m.byteAt a
  rcases c.hit_or_miss phys size with ⟨hholds, hle⟩ | hmiss
  · rw [write_of_hit hholds hle] at ha ⊢
    rw [setLine_holds hwf] at ha
    rw [setLine_byteOf hwf]
    by_cases hindex : c.index (c.lineBase phys) = c.index (c.lineBase a)
    · -- the line written to; its tag is that of `a`
      rw [if_pos hindex, Bool.and_eq_true] at ha
      rw [if_pos hindex]
      have htag : (c.line (c.lineBase phys)).tag = c.lineBase phys := by
        rw [holds, Bool.and_eq_true] at hholds
        exact eq_of_beq hholds.2
      have hsame : c.lineBase a = c.lineBase phys := (eq_of_beq ha.2).symm.trans htag
      rw [stored_getD hwf value hfit hle hsame]
      split
      · rfl
      · exact h a (by rw [holds, hsame]; exact hholds)
    · -- another line, which the access does not reach
      rw [if_neg hindex] at ha ⊢
      rw [if_neg fun hcov => hindex (by rw [(hwf.covered hfit hle hcov).1])]
      exact h a ha
  · -- the cache is left as it is, and no byte it holds is written to
    rw [write_of_miss hmiss] at ha ⊢
    rw [if_neg]
    · exact h a ha
    intro hcov
    by_cases hle : c.offset phys + size ≤ c.lineSize
    · rw [holds, (hwf.covered hfit hle hcov).1] at ha
      rcases hmiss with hmiss | hmiss
      · rw [holds, ha] at hmiss
        exact absurd hmiss (by simp)
      · omega
    · have hfalse := hcross (decide_eq_true (by omega)) _ hcov
      rw [← eq_add_ofNat_sub phys a, ha] at hfalse
      exact absurd hfalse (by simp)

/-! ### Filling -/

theorem WellFormed.fillLine (h : WellFormed c) (base : Word) (data : List Byte) :
    WellFormed (c.fillLine base data) := by
  rw [TinyCache.fillLine]
  split
  · exact h
  · rename_i hlen
    exact h.setLine base (not_not.mp hlen)

theorem Coherent.fill (h : Coherent c m) (hwf : WellFormed c)
    (hin : Inside m.size (c.lineBase phys * BitVec.ofNat 32 c.lineSize) c.lineSize)
    (hfit : (c.lineBase phys).toNat * c.lineSize + c.lineSize ≤ 2 ^ 32) :
    Coherent (c.fillLine (c.lineBase phys)
      (m.readBlock (c.lineBase phys * BitVec.ofNat 32 c.lineSize) c.lineSize)) m := by
  have hdata := CommittedMemory.readBlock_eq_bytesFrom hin
  have hstart : (c.lineBase phys * BitVec.ofNat 32 c.lineSize).toNat =
      (c.lineBase phys).toNat * c.lineSize := by
    have := hwf.pos
    rw [BitVec.toNat_mul, hwf.ofNat_toNat]
    exact Nat.mod_eq_of_lt (by omega)
  have hlen := m.length_readBlock (c.lineBase phys * BitVec.ofNat 32 c.lineSize) c.lineSize
  have hset : c.fillLine (c.lineBase phys)
        (m.readBlock (c.lineBase phys * BitVec.ofNat 32 c.lineSize) c.lineSize) =
      c.setLine (c.lineBase phys) ⟨true, c.lineBase phys,
        m.readBlock (c.lineBase phys * BitVec.ofNat 32 c.lineSize) c.lineSize⟩ := by
    rw [fillLine, if_neg (not_not.mpr hlen)]
    rfl
  intro a ha
  rw [hset, setLine_holds hwf] at ha
  rw [hset, setLine_byteOf hwf]
  by_cases hindex : c.index (c.lineBase phys) = c.index (c.lineBase a)
  · rw [if_pos hindex] at ha ⊢
    rw [Bool.and_eq_true] at ha
    have hsame : c.lineBase phys = c.lineBase a := eq_of_beq ha.2
    change (m.readBlock _ _).getD (c.offset a) 0 = m.byteAt a
    have hoff := hwf.offset_lt a
    rw [hdata, bytesFrom, List.getD_eq_getElem?_getD, List.getElem?_map,
      List.getElem?_range hoff]
    refine congrArg m.byteAt ?_
    -- the offset from the start of its line leads back to the address
    rw [← BitVec.toNat_inj, toNat_add_ofNat (by rw [hstart]; omega), hstart, hsame, hwf.lineBase,
      hwf.offset, Nat.mul_comm]
    exact Nat.div_add_mod _ _
  · rw [if_neg hindex] at ha ⊢
    exact h a ha

/-- A fill with the bytes of the memory, wherever the line lies. -/
theorem Coherent.fillLine (h : Coherent c m) (hwf : WellFormed c) {base : Word} {data : List Byte}
    (hdata : ∀ a, c.lineBase a = base → data.getD (c.offset a) 0 = m.byteAt a) :
    Coherent (c.fillLine base data) m := by
  rw [TinyCache.fillLine]
  split_ifs
  · exact h
  · intro a ha
    change (c.setLine base ⟨true, base, data⟩).holds a = true at ha
    change (c.setLine base ⟨true, base, data⟩).byteOf a = m.byteAt a
    rw [setLine_holds hwf] at ha
    rw [setLine_byteOf hwf]
    split_ifs at ha ⊢
    · rw [Bool.and_eq_true] at ha
      exact hdata a (eq_of_beq ha.2).symm
    · exact h a ha

/-! ### What a write and a fill bring in -/

/-- A cache that holds none of the bytes in which two memories differ. -/
theorem Coherent.frame {m' : CommittedMemory} (h : Coherent c m)
    (hsame : ∀ a, c.holds a = true → m'.byteAt a = m.byteAt a) :
    Coherent c m' := fun a ha => (h a ha).trans (hsame a ha).symm

/-- A write brings no line into the cache. -/
theorem holds_of_write (hwf : WellFormed c) {size : Nat} {value : Word}
    (h : (c.write phys size value).holds a = true) : c.holds a = true := by
  rcases c.hit_or_miss phys size with ⟨hholds, hcross⟩ | hmiss
  · rw [write_of_hit hholds hcross, setLine_holds hwf] at h
    split_ifs at h with hindex
    · -- the line written to is that of `phys`, tag included
      rw [holds, Bool.and_eq_true] at hholds
      rw [Bool.and_eq_true] at h
      have hline : c.lineBase a = c.lineBase phys :=
        (eq_of_beq h.2).symm.trans (eq_of_beq hholds.2)
      rw [holds, hline, hholds.1, hholds.2]
      rfl
    · exact h
  · rwa [write_of_miss hmiss] at h

/-- A fill brings one line into the cache. -/
theorem holds_of_fillLine (hwf : WellFormed c) {base : Word} {data : List Byte}
    (h : (c.fillLine base data).holds a = true) : c.lineBase a = base ∨ c.holds a = true := by
  rw [fillLine] at h
  split_ifs at h with hlen
  · exact Or.inr h
  · change (c.setLine base ⟨true, base, data⟩).holds a = true at h
    rw [setLine_holds hwf] at h
    split_ifs at h with hindex
    · rw [Bool.and_eq_true] at h
      exact Or.inl (eq_of_beq h.2).symm
    · exact Or.inr h

theorem holds_fillLine (hwf : WellFormed c) {data : List Byte} (hlength : data.length = c.lineSize)
    (a : Addr) : (c.fillLine (c.lineBase a) data).holds a = true := by
  rw [fillLine, if_neg (not_not.mpr hlength)]
  change (c.setLine (c.lineBase a) ⟨true, c.lineBase a, data⟩).holds a = true
  rw [setLine_holds hwf, if_pos rfl, Bool.true_and, beq_self_eq_true]

/-- A cache answers a read inside a line that it holds. -/
theorem read_of_holds {size : Nat} (h : c.holds phys = true)
    (hle : c.offset phys + size ≤ c.lineSize) : ∃ word, c.read phys size = some word := by
  rw [holds, Bool.and_eq_true] at h
  obtain ⟨hvalid, htag⟩ := h
  rw [read, if_neg (by simp [hvalid, eq_of_beq htag]), if_neg (Nat.not_lt.mpr hle)]
  exact ⟨_, rfl⟩

/-! ### Lines of sixteen bytes -/

theorem lineBase_eq (h : c.lineSize = 16) (a : Addr) : c.lineBase a = lineOf a := by
  rw [lineBase, h]
  rfl

end TinyCache

/-- The block of a line has the bytes of the memory, zeros past its end. -/
theorem CommittedMemory.readBlock_line (m : CommittedMemory) (hsize : m.size % 16 = 0)
    {phys a : Addr} (hphys : phys.toNat < 2 ^ 29) (hline : lineOf a = lineOf phys) :
    (m.readBlock (lineOf phys * 16#32) 16).getD (a.toNat % 16) 0 = m.byteAt a := by
  have hbase : (lineOf phys).toNat = phys.toNat / 16 := BitVec.toNat_udiv
  have hbase' : (lineOf a).toNat = a.toNat / 16 := BitVec.toNat_udiv
  rw [hline] at hbase'
  have hstart : (lineOf phys * 16#32).toNat = phys.toNat / 16 * 16 := by
    have hsixteen : (16#32).toNat = 16 := rfl
    rw [BitVec.toNat_mul, hbase, hsixteen]
    exact Nat.mod_eq_of_lt (by omega)
  by_cases hin : Inside m.size (lineOf phys * 16#32) 16
  · rw [readBlock_eq_bytesFrom hin, bytesFrom, List.getD_eq_getElem?_getD, List.getElem?_map,
      List.getElem?_range (Nat.mod_lt _ (by omega))]
    refine congrArg m.byteAt ?_
    rw [← BitVec.toNat_inj, TinyCache.toNat_add_ofNat (by omega)]
    omega
  · rw [Inside] at hin
    have hbeyond : m.bytes.length ≤ a.toNat := by
      change m.size ≤ a.toNat
      omega
    rw [readBlock, if_neg (by simpa [accessInRange] using hin), byteAt,
      List.getD_eq_getElem?_getD, List.getD_eq_getElem?_getD, List.getElem?_eq_none hbeyond,
      List.getElem?_replicate]
    split_ifs <;> rfl

end Saturnis.Mem
