/-
Committed memory, the tiny direct-mapped cache and the per-CPU store buffer.

Addresses and data words are 32-bit vectors, sizes are byte counts.  Every
multi-byte access is big-endian: byte `i` of a `size`-byte access is shifted
left by `8 * (size - 1 - i)`, which `assemble` and `laneByte` spell once for
the three places of the source that do it.
-/
import Mathlib.Algebra.GroupWithZero.Nat
import Mathlib.Data.List.Basic

namespace Saturnis.Mem

/-- A physical or virtual address. -/
abbrev Addr := BitVec 32

/-- A data word on the bus. -/
abbrev Word := BitVec 32

abbrev Byte := BitVec 8

def accessInRange (storageSize : Nat) (phys : Addr) (size : Nat) : Bool :=
  decide (phys.toNat + size ≤ storageSize)

/-- Big-endian assembly of `size` bytes, in the order the loops run. -/
def assemble (size : Nat) (byteAt : Nat → Byte) : Word :=
  (List.range size).foldl
    (fun out i => out ||| (byteAt i).setWidth 32 <<< (8 * (size - 1 - i))) 0

/-- Byte `i` of a `size`-byte store of `value`. -/
def laneByte (value : Word) (size i : Nat) : Byte :=
  (value >>> (8 * (size - 1 - i))).setWidth 8

/-! ### Store buffer -/

structure StoreEntry where
  storeId : Nat := 0
  phys : Addr := 0
  size : Nat := 4
  value : Word := 0
deriving DecidableEq, Repr

structure StoreBuffer where
  entries : List StoreEntry := []
deriving DecidableEq, Repr

namespace StoreBuffer

def push (b : StoreBuffer) (entry : StoreEntry) : StoreBuffer :=
  ⟨b.entries ++ [entry]⟩

/-- The newest entry with the same address and size answers. -/
def forward (b : StoreBuffer) (phys : Addr) (size : Nat) : Option Word :=
  (b.entries.reverse.find? fun e => e.phys = phys ∧ e.size = size).map (·.value)

/-- Drops the oldest entry with that id; the flag says whether there was one. -/
def retire (b : StoreBuffer) (storeId : Nat) : Bool × StoreBuffer :=
  (b.entries.any fun e => e.storeId = storeId,
    ⟨b.entries.eraseP fun e => e.storeId = storeId⟩)

def size (b : StoreBuffer) : Nat := b.entries.length

end StoreBuffer

/-! ### Tiny cache -/

structure CacheLine where
  valid : Bool := false
  tag : Word := 0
  bytes : List Byte := []
deriving DecidableEq, Repr

structure TinyCache where
  lineSize : Nat
  lines : List CacheLine
deriving DecidableEq, Repr

namespace TinyCache

/-- An empty cache of `lineCount` lines. -/
def make (lineSize lineCount : Nat) : TinyCache :=
  ⟨lineSize, List.replicate lineCount { bytes := List.replicate lineSize 0 }⟩

/-- `phys / line_size`, the tag of the line that holds `phys`. -/
def lineBase (c : TinyCache) (phys : Addr) : Word :=
  phys / BitVec.ofNat 32 c.lineSize

def index (c : TinyCache) (lineBase : Word) : Nat :=
  lineBase.toNat % c.lines.length

def line (c : TinyCache) (lineBase : Word) : CacheLine :=
  c.lines.getD (c.index lineBase) {}

def offset (c : TinyCache) (phys : Addr) : Nat :=
  (phys % BitVec.ofNat 32 c.lineSize).toNat

/-- `none` is a miss: no valid line, another tag, or an access that crosses
the end of the line. -/
def read (c : TinyCache) (phys : Addr) (size : Nat) : Option Word :=
  let line := c.line (c.lineBase phys)
  if !line.valid || line.tag != c.lineBase phys then none
  else if c.offset phys + size > c.lineSize then none
  else some (assemble size fun i => line.bytes.getD (c.offset phys + i) 0)

def write (c : TinyCache) (phys : Addr) (size : Nat) (value : Word) : TinyCache :=
  let line := c.line (c.lineBase phys)
  if !line.valid || line.tag != c.lineBase phys then c
  else if c.offset phys + size > c.lineSize then c
  else
    let bytes := (List.range size).foldl
      (fun bytes i => bytes.set (c.offset phys + i) (laneByte value size i)) line.bytes
    { c with lines := c.lines.set (c.index (c.lineBase phys)) { line with bytes } }

def fillLine (c : TinyCache) (lineBase : Word) (lineData : List Byte) : TinyCache :=
  if lineData.length ≠ c.lineSize then c
  else
    { c with lines := c.lines.set (c.index lineBase) ⟨true, lineBase, lineData⟩ }

theorem lineSize_write (c : TinyCache) (phys : Addr) (size : Nat) (value : Word) :
    (c.write phys size value).lineSize = c.lineSize := by
  simp only [write]
  split
  · rfl
  · split <;> rfl

theorem lineSize_fillLine (c : TinyCache) (lineBase : Word) (lineData : List Byte) :
    (c.fillLine lineBase lineData).lineSize = c.lineSize := by
  rw [fillLine]
  split <;> rfl

end TinyCache

/-! ### Committed memory -/

structure CommittedMemory where
  bytes : List Byte
deriving DecidableEq, Repr

namespace CommittedMemory

/-- Zero-filled storage of `sizeBytes` bytes. -/
def make (sizeBytes : Nat) : CommittedMemory := ⟨List.replicate sizeBytes 0⟩

def size (m : CommittedMemory) : Nat := m.bytes.length

def byteAt (m : CommittedMemory) (phys : Addr) : Byte := m.bytes.getD phys.toNat 0

def read (m : CommittedMemory) (phys : Addr) (size : Nat) : Word :=
  if accessInRange m.size phys size then
    assemble size fun i => m.byteAt (phys + BitVec.ofNat 32 i)
  else 0

def write (m : CommittedMemory) (phys : Addr) (size : Nat) (value : Word) : CommittedMemory :=
  if accessInRange m.size phys size then
    ⟨(List.range size).foldl
      (fun bytes i => bytes.set (phys + BitVec.ofNat 32 i).toNat (laneByte value size i)) m.bytes⟩
  else m

def readBlock (m : CommittedMemory) (phys : Addr) (size : Nat) : List Byte :=
  if accessInRange m.size phys size then
    (List.range size).map fun i => m.byteAt (phys + BitVec.ofNat 32 i)
  else List.replicate size 0

theorem length_readBlock (m : CommittedMemory) (phys : Addr) (size : Nat) :
    (m.readBlock phys size).length = size := by
  rw [readBlock]
  split
  · rw [List.length_map, List.length_range]
  · exact List.length_replicate

end CommittedMemory

/-! ### Address map -/

def toPhys (vaddr : Addr) : Addr := vaddr &&& 0x1FFFFFFF#32

theorem toPhys_lt (vaddr : Addr) : (toPhys vaddr).toNat < 2 ^ 29 := by
  rw [toPhys, BitVec.toNat_and]
  exact Nat.lt_of_le_of_lt Nat.and_le_right (by decide)

def isUncachedAlias (vaddr : Addr) : Bool := vaddr &&& 0x20000000#32 != 0#32

def isMmio (phys : Addr) : Bool :=
  (0x05C00000#32 ≤ phys && phys ≤ 0x05CFFFFF#32) ||
    (0x05D00000#32 ≤ phys && phys ≤ 0x05DFFFFF#32) ||
    (0x05F00000#32 ≤ phys && phys ≤ 0x05FFFFFF#32)

end Saturnis.Mem
