/-
The registers of an SH-2 core and the instructions that only work on them.

A register instruction changes registers other than `pc` and goes on to the
next instruction; a branch moves `pc` and may name the target of a delayed
branch.  Both read the `pc` of the instruction itself.
-/
import Mathlib.Logic.Function.Basic
import Saturnis.Sh2Decode

namespace Saturnis.Cpu

open Saturnis.Mem

def kSrTBit : Word := 0x00000001#32
def kSrQBit : Word := 0x00000100#32
def kSrMBit : Word := 0x00000200#32

structure Registers where
  pc : Addr := 0
  sr : Word := 0
  pr : Word := 0
  gbr : Word := 0
  vbr : Word := 0
  mach : Word := 0
  macl : Word := 0
  r : Fin 16 → Word := fun _ => 0

namespace Registers

def writeReg (x : Registers) (n : Fin 16) (value : Word) : Registers :=
  { x with r := Function.update x.r n value }

def setFlag (x : Registers) (bit : Word) (value : Bool) : Registers :=
  { x with sr := if value then x.sr ||| bit else x.sr &&& ~~~bit }

def tFlag (x : Registers) : Bool := x.sr &&& kSrTBit != 0#32

def qFlag (x : Registers) : Bool := x.sr &&& kSrQBit != 0#32

def mFlag (x : Registers) : Bool := x.sr &&& kSrMBit != 0#32

def setTFlag (x : Registers) (value : Bool) : Registers := x.setFlag kSrTBit value

def setQFlag (x : Registers) (value : Bool) : Registers := x.setFlag kSrQBit value

def setMFlag (x : Registers) (value : Bool) : Registers := x.setFlag kSrMBit value

def getSys (x : Registers) : SysReg → Word
  | .sr => x.sr
  | .gbr => x.gbr
  | .vbr => x.vbr
  | .mach => x.mach
  | .macl => x.macl
  | .pr => x.pr

def setSys (x : Registers) (target : SysReg) (value : Word) : Registers :=
  match target with
  | .sr => { x with sr := value }
  | .gbr => { x with gbr := value }
  | .vbr => { x with vbr := value }
  | .mach => { x with mach := value }
  | .macl => { x with macl := value }
  | .pr => { x with pr := value }

/-! ### Flags -/

section Flags

variable (x : Registers) (value : Bool)

@[simp] theorem setFlag_r (bit : Word) : (x.setFlag bit value).r = x.r := rfl

@[simp] theorem setTFlag_r : (x.setTFlag value).r = x.r := rfl

@[simp] theorem setQFlag_r : (x.setQFlag value).r = x.r := rfl

@[simp] theorem writeReg_sr (n : Fin 16) (word : Word) : (x.writeReg n word).sr = x.sr := rfl

/-- A test of one bit. -/
theorem and_bit_ne (a : Word) {i : Nat} (hi : i < 32) :
    (a &&& BitVec.twoPow 32 i != 0#32) = a.getLsbD i := by
  rw [BitVec.and_twoPow]
  cases a.getLsbD i with
  | false => rfl
  | true =>
    rw [if_pos rfl, bne_iff_ne]
    intro hzero
    have hbit := congrArg (·.getLsbD i) hzero
    simp [hi] at hbit

theorem tFlag_eq : x.tFlag = x.sr.getLsbD 0 := and_bit_ne x.sr (i := 0) (by decide)

theorem qFlag_eq : x.qFlag = x.sr.getLsbD 8 := and_bit_ne x.sr (i := 8) (by decide)

theorem mFlag_eq : x.mFlag = x.sr.getLsbD 9 := and_bit_ne x.sr (i := 9) (by decide)

/-- A flag changes its own bit and no other. -/
theorem getLsbD_setFlag {i j : Nat} (hj : j < 32) :
    (x.setFlag (BitVec.twoPow 32 i) value).sr.getLsbD j =
      if i = j then value else x.sr.getLsbD j := by
  cases value with
  | false =>
    show (x.sr &&& ~~~BitVec.twoPow 32 i).getLsbD j = _
    by_cases hij : i = j
    · simp [hij, hj]
    · simp [hij, Ne.symm hij, hj]
  | true =>
    show (x.sr ||| BitVec.twoPow 32 i).getLsbD j = _
    by_cases hij : i = j
    · simp [hij, hj]
    · simp [hij, Ne.symm hij, hj]

theorem getLsbD_setTFlag {j : Nat} (hj : j < 32) :
    (x.setTFlag value).sr.getLsbD j = if 0 = j then value else x.sr.getLsbD j :=
  getLsbD_setFlag x value (i := 0) hj

theorem getLsbD_setQFlag {j : Nat} (hj : j < 32) :
    (x.setQFlag value).sr.getLsbD j = if 8 = j then value else x.sr.getLsbD j :=
  getLsbD_setFlag x value (i := 8) hj

end Flags

end Registers

/-- `1` or `0`, as the flag is added to a sum. -/
def flagWord (flag : Bool) : Word := if flag then 1 else 0

def addOverflow (a b r : Word) : Bool := (~~~(a ^^^ b) &&& (a ^^^ r)) &&& 0x80000000#32 != 0#32

def subOverflow (a b r : Word) : Bool := ((a ^^^ b) &&& (a ^^^ r)) &&& 0x80000000#32 != 0#32

def signBit (a : Word) : Bool := a &&& 0x80000000#32 != 0#32

/-- One step of the division. -/
def Registers.div1 (x : Registers) (n m : Fin 16) : Registers :=
  let oldQ := x.qFlag
  let mStatus := x.mFlag
  let x := x.setQFlag (signBit (x.r n))
  let tmp := (x.r n <<< 1) ||| flagWord x.tFlag
  let rm := x.r m
  let (rn, newQ) :=
    if !oldQ then
      if !mStatus then (tmp - rm, decide (tmp - rm > tmp)) else (tmp + rm, decide (tmp + rm < tmp))
    else
      if !mStatus then (tmp + rm, decide (tmp + rm < tmp)) else (tmp - rm, decide (tmp - rm > tmp))
  ((x.setQFlag newQ).setTFlag (newQ == mStatus)).writeReg n rn

/-- What a register instruction does to the registers other than `pc`. -/
def RegOp.effect (op : RegOp) (instr : Instr) (x : Registers) : Registers :=
  let n := instr.fieldN
  let m := instr.fieldM
  let rn := x.r n
  let rm := x.r m
  match op with
  | .nop => x
  | .sett => x.setTFlag true
  | .div0u => { x with sr := x.sr &&& ~~~(kSrQBit ||| kSrMBit ||| kSrTBit) }
  | .clrt => x.setTFlag false
  | .movt => x.writeReg n (flagWord x.tFlag)
  | .cmpEq => x.setTFlag (rn == rm)
  | .cmpEqImm => x.setTFlag (x.r 0 == instr.signext8)
  | .tst => x.setTFlag (rn &&& rm == 0)
  | .movImm => x.writeReg n instr.signext8
  | .addImm => x.writeReg n (rn + instr.signext8)
  | .add => x.writeReg n (rn + rm)
  | .addc =>
    let sum : BitVec 64 := rn.setWidth 64 + rm.setWidth 64 + (flagWord x.tFlag).setWidth 64
    (x.setTFlag (sum >>> 32 != 0)).writeReg n (sum.setWidth 32)
  | .addv => (x.setTFlag (addOverflow rn rm (rn + rm))).writeReg n (rn + rm)
  | .mov => x.writeReg n rm
  | .and => x.writeReg n (rn &&& rm)
  | .xor => x.writeReg n (rn ^^^ rm)
  | .or => x.writeReg n (rn ||| rm)
  | .muluW => { x with macl := (rn &&& 0xFFFF#32) * (rm &&& 0xFFFF#32) }
  | .mulsW => { x with macl := (rn.setWidth 16).signExtend 32 * (rm.setWidth 16).signExtend 32 }
  | .div0s =>
    let x := (x.setQFlag (signBit rn)).setMFlag (signBit rm)
    x.setTFlag (x.qFlag == x.mFlag)
  | .not => x.writeReg n (~~~rm)
  | .negc =>
    let rhs := rm + flagWord x.tFlag
    (x.setTFlag (rhs != 0)).writeReg n (0 - rhs)
  | .neg => x.writeReg n (0 - rm)
  | .extuB => x.writeReg n (rm &&& 0x000000FF#32)
  | .extuW => x.writeReg n (rm &&& 0x0000FFFF#32)
  | .extsB => x.writeReg n ((rm.setWidth 8).signExtend 32)
  | .extsW => x.writeReg n ((rm.setWidth 16).signExtend 32)
  | .sub => x.writeReg n (rn - rm)
  | .subc =>
    let rhs := rm + flagWord x.tFlag
    (x.setTFlag (rn < rhs)).writeReg n (rn - rhs)
  | .subv => (x.setTFlag (subOverflow rn rm (rn - rm))).writeReg n (rn - rm)
  | .dmulsL =>
    let prod : BitVec 64 := rn.signExtend 64 * rm.signExtend 64
    { x with mach := (prod >>> 32).setWidth 32, macl := prod.setWidth 32 }
  | .dmuluL =>
    let prod : BitVec 64 := rn.setWidth 64 * rm.setWidth 64
    { x with mach := (prod >>> 32).setWidth 32, macl := prod.setWidth 32 }
  | .div1 => x.div1 n m
  | .cmpHs => x.setTFlag (rn ≥ rm)
  | .cmpGe => x.setTFlag (rm.sle rn)
  | .cmpHi => x.setTFlag (rn > rm)
  | .cmpGt => x.setTFlag (rm.slt rn)
  | .cmpPl => x.setTFlag ((0 : Word).slt rn)
  | .cmpPz => x.setTFlag ((0 : Word).sle rn)
  | .cmpStr =>
    let diff := rn ^^^ rm
    x.setTFlag (diff &&& 0xFF#32 == 0 || diff &&& 0xFF00#32 == 0 || diff &&& 0xFF0000#32 == 0 ||
      diff &&& 0xFF000000#32 == 0)
  | .andImm => x.writeReg 0 (x.r 0 &&& instr.fieldImm8)
  | .xorImm => x.writeReg 0 (x.r 0 ^^^ instr.fieldImm8)
  | .orImm => x.writeReg 0 (x.r 0 ||| instr.fieldImm8)
  | .stcGbr => x.writeReg n x.gbr
  | .stcVbr => x.writeReg n x.vbr
  | .ldcGbr => { x with gbr := rn }
  | .ldcSr => { x with sr := rn }
  | .stcSr => x.writeReg n x.sr
  | .ldcVbr => { x with vbr := rn }
  | .stsMacl => x.writeReg n x.macl
  | .stsMach => x.writeReg n x.mach
  | .ldsMacl => { x with macl := rn }
  | .ldsMach => { x with mach := rn }
  | .mulL => { x with macl := (rn.signExtend 64 * rm.signExtend 64).setWidth 32 }
  | .mova => x.writeReg 0 (((x.pc + 4) &&& ~~~3#32) + instr.fieldImm8 * 4)
  | .shll => (x.setTFlag (signBit rn)).writeReg n (rn <<< 1)
  | .shlr => (x.setTFlag (rn &&& 1 != 0)).writeReg n (rn >>> 1)
  | .rotl => (x.setTFlag (signBit rn)).writeReg n ((rn <<< 1) ||| flagWord (signBit rn))
  | .shllBy count => x.writeReg n (rn <<< count)
  | .shlrBy count => x.writeReg n (rn >>> count)
  | .shal => (x.setTFlag (signBit rn)).writeReg n (rn <<< 1)
  | .shar => (x.setTFlag (rn &&& 1 != 0)).writeReg n (rn.sshiftRight 1)
  | .rotcl => (x.setTFlag (signBit rn)).writeReg n ((rn <<< 1) ||| flagWord x.tFlag)
  | .rotcr =>
    let carryIn : Word := if x.tFlag then 0x80000000#32 else 0
    (x.setTFlag (rn &&& 1 != 0)).writeReg n ((rn >>> 1) ||| carryIn)
  | .shad =>
    if !signBit rm then x.writeReg n (rn <<< (rm &&& 0x1F#32).toNat)
    else x.writeReg n (rn.sshiftRight ((0 - rm) &&& 0x1F#32).toNat)
  | .shld =>
    if !signBit rm then x.writeReg n (rn <<< (rm &&& 0x1F#32).toNat)
    else x.writeReg n (rn >>> ((0 - rm) &&& 0x1F#32).toNat)

/-- The cycles an instruction takes beyond the one of every instruction. -/
def RegOp.extraCycles : RegOp → Nat
  | .mulL => 1
  | _ => 0

/-- A register instruction, then the next one. -/
def RegOp.exec (op : RegOp) (instr : Instr) (x : Registers) : Registers :=
  { op.effect instr x with pc := x.pc + 2 }

/-- Where a conditional branch goes. -/
def Registers.target8 (x : Registers) (instr : Instr) : Addr := x.pc + 4 + instr.signext8 * 2

def Registers.target12 (x : Registers) (instr : Instr) : Addr := x.pc + 4 + instr.signext12 * 2

/-- A branch: the registers after it and the target of a delayed branch. -/
def BranchOp.exec (op : BranchOp) (instr : Instr) (x : Registers) : Registers × Option Addr :=
  let next : Registers := { x with pc := x.pc + 2 }
  match op with
  | .bt => (if x.tFlag then { x with pc := x.target8 instr } else next, none)
  | .bf => (if !x.tFlag then { x with pc := x.target8 instr } else next, none)
  | .btS => (next, if x.tFlag then some (x.target8 instr) else none)
  | .bfS => (next, if !x.tFlag then some (x.target8 instr) else none)
  | .bra => (next, some (x.target12 instr))
  | .bsr => ({ next with pr := x.pc + 4 }, some (x.target12 instr))
  | .jsr => ({ next with pr := x.pc + 4 }, some (x.r instr.fieldN))
  | .rts => (next, some x.pr)
  | .jmp => (next, some (x.r instr.fieldN))

end Saturnis.Cpu
