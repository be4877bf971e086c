/-
Instruction words of the SH-2 and the two decoders of the core.

`executeTable` is the chain of tests of `execute_instruction`, `dataTable` the
chain of `produce_until_bus` that recognises the instructions with a data
access; both keep the order of the source, and the first row that matches wins.

* `lookup_some` — the row a lookup finds matches the instruction;
* `lookup_of_matches` — a row that matches is what a lookup finds, unless a row
  with another result tests no bit otherwise.
-/
import Saturnis.Memory

namespace Saturnis.Cpu

open Saturnis.Mem

/-- An instruction word. -/
abbrev Instr := BitVec 16

/-- There are 16 general registers. -/
instance neZero_registers : NeZero 16 := ⟨by decide⟩

namespace Instr

def fieldN (instr : Instr) : Fin 16 := Fin.ofNat 16 ((instr >>> 8) &&& 0x0F#16).toNat

def fieldM (instr : Instr) : Fin 16 := Fin.ofNat 16 ((instr >>> 4) &&& 0x0F#16).toNat

/-- The low byte, zero-extended. -/
def fieldImm8 (instr : Instr) : Word := (instr &&& 0x00FF#16).setWidth 32

def fieldDisp4 (instr : Instr) : Word := (instr &&& 0x000F#16).setWidth 32

def signext8 (instr : Instr) : Word := (instr.setWidth 8).signExtend 32

def signext12 (instr : Instr) : Word := (instr.setWidth 12).signExtend 32

end Instr

/-! ### Operations -/

/-- The system registers that can be pushed and popped. -/
inductive SysReg
  | sr | gbr | vbr | mach | macl | pr
deriving DecidableEq, Repr

/-- The byte count of a data access. -/
inductive AccessWidth
  | byte | word | long
deriving DecidableEq, Repr

def AccessWidth.bytes : AccessWidth → Nat
  | byte => 1
  | word => 2
  | long => 4

/-- Instructions that only compute on registers and go on to the next one. -/
inductive RegOp
  | nop | sett | div0u | clrt | movt
  | cmpEq | cmpEqImm | tst | movImm | addImm | add | addc | addv | mov
  | and | xor | or | muluW | mulsW | div0s | not | negc | neg
  | extuB | extuW | extsB | extsW | sub | subc | subv | dmulsL | dmuluL | div1
  | cmpHs | cmpGe | cmpHi | cmpGt | cmpPl | cmpPz | cmpStr
  | andImm | xorImm | orImm
  | stcGbr | stcVbr | ldcGbr | ldcSr | stcSr | ldcVbr | stsMacl | stsMach | ldsMacl | ldsMach
  | mulL | mova
  | shll | shlr | rotl | shllBy (count : Nat) | shlrBy (count : Nat)
  | shal | shar | rotcl | rotcr | shad | shld
deriving DecidableEq, Repr

inductive BranchOp
  | bt | bf | btS | bfS | bra | bsr | jsr | rts | jmp
deriving DecidableEq, Repr

/-- The branches of `execute_instruction`. -/
inductive Opcode
  | reg (op : RegOp)
  | branch (op : BranchOp)
  | pushSys (source : SysReg)
  | popSys (target : SysReg)
  | rte
  | trapa
  | illegal
deriving DecidableEq, Repr

inductive RmwOp
  | and | xor | or
deriving DecidableEq, Repr

/-- The instructions `produce_until_bus` turns into a data access. -/
inductive DataForm
  /-- `MOV @Rm,Rn` -/
  | load (width : AccessWidth)
  /-- `MOV.L @(disp,Rm),Rn` -/
  | loadDisp
  /-- `MOV.L Rm,@(disp,Rn)` -/
  | storeDisp
  /-- `STC.L`/`STS.L` to `@-Rn` -/
  | pushSys (source : SysReg)
  /-- `LDC.L`/`LDS.L` from `@Rm+` -/
  | popSys (target : SysReg)
  /-- `MOV @(disp,Rm),R0` -/
  | loadDispR0 (width : AccessWidth)
  /-- `MOV @(R0,Rm),Rn` -/
  | loadIndexed (width : AccessWidth)
  /-- `MOV.W @(disp,PC),Rn` -/
  | loadPcWord
  /-- `MOV.L @(disp,PC),Rn` -/
  | loadPcLong
  /-- `MOV @(disp,GBR),R0` -/
  | loadGbr (width : AccessWidth)
  /-- `MOV @Rm+,Rn` -/
  | loadPostInc (width : AccessWidth)
  /-- `MOV Rm,@Rn` -/
  | store (width : AccessWidth)
  /-- `MOV Rm,@(R0,Rn)` -/
  | storeIndexed (width : AccessWidth)
  /-- `MOV R0,@(disp,GBR)` -/
  | storeGbr (width : AccessWidth)
  /-- `MOV R0,@(disp,Rn)` with the register in bits 8 to 11 -/
  | storeDispHigh (width : AccessWidth)
  /-- `MOV R0,@(disp,Rn)` with the register in bits 4 to 7 -/
  | storeDispLow (width : AccessWidth)
  /-- `MOV Rm,@-Rn` -/
  | storePreDec (width : AccessWidth)
  /-- `AND.B`, `XOR.B`, `OR.B` on `@(R0,GBR)` -/
  | rmw (op : RmwOp)
deriving DecidableEq, Repr

/-! ### Tables -/

/-- A test `(instr & mask) == value` with what it selects. -/
structure Row (α : Type) where
  mask : Instr
  value : Instr
  result : α
deriving DecidableEq

def Row.matches {α : Type} (row : Row α) (instr : Instr) : Bool := instr &&& row.mask == row.value

def lookup {α : Type} (table : List (Row α)) (instr : Instr) : Option α :=
  (table.find? (·.matches instr)).map (·.result)

def executeTable : List (Row Opcode) := [
  ⟨0xFFFF, 0x0009, .reg .nop⟩,
  ⟨0xFFFF, 0x0018, .reg .sett⟩,
  ⟨0xFFFF, 0x0019, .reg .div0u⟩,
  ⟨0xFFFF, 0x0008, .reg .clrt⟩,
  ⟨0xF0FF, 0x0029, .reg .movt⟩,
  ⟨0xF00F, 0x3000, .reg .cmpEq⟩,
  ⟨0xFF00, 0x8800, .reg .cmpEqImm⟩,
  ⟨0xF00F, 0x2008, .reg .tst⟩,
  ⟨0xF000, 0xE000, .reg .movImm⟩,
  ⟨0xF000, 0x7000, .reg .addImm⟩,
  ⟨0xF00F, 0x300C, .reg .add⟩,
  ⟨0xF00F, 0x300E, .reg .addc⟩,
  ⟨0xF00F, 0x300F, .reg .addv⟩,
  ⟨0xF00F, 0x6003, .reg .mov⟩,
  ⟨0xF00F, 0x2009, .reg .and⟩,
  ⟨0xF00F, 0x200A, .reg .xor⟩,
  ⟨0xF00F, 0x200B, .reg .or⟩,
  ⟨0xF00F, 0x200E, .reg .muluW⟩,
  ⟨0xF00F, 0x200F, .reg .mulsW⟩,
  ⟨0xF00F, 0x2007, .reg .div0s⟩,
  ⟨0xF00F, 0x6007, .reg .not⟩,
  ⟨0xF00F, 0x600A, .reg .negc⟩,
  ⟨0xF00F, 0x600B, .reg .neg⟩,
  ⟨0xF00F, 0x600C, .reg .extuB⟩,
  ⟨0xF00F, 0x600D, .reg .extuW⟩,
  ⟨0xF00F, 0x600E, .reg .extsB⟩,
  ⟨0xF00F, 0x600F, .reg .extsW⟩,
  ⟨0xF00F, 0x3008, .reg .sub⟩,
  ⟨0xF00F, 0x300A, .reg .subc⟩,
  ⟨0xF00F, 0x300B, .reg .subv⟩,
  ⟨0xF00F, 0x300D, .reg .dmulsL⟩,
  ⟨0xF00F, 0x3005, .reg .dmuluL⟩,
  ⟨0xF00F, 0x3004, .reg .div1⟩,
  ⟨0xF00F, 0x3002, .reg .cmpHs⟩,
  ⟨0xF00F, 0x3003, .reg .cmpGe⟩,
  ⟨0xF00F, 0x3006, .reg .cmpHi⟩,
  ⟨0xF00F, 0x3007, .reg .cmpGt⟩,
  ⟨0xF0FF, 0x4015, .reg .cmpPl⟩,
  ⟨0xF0FF, 0x4011, .reg .cmpPz⟩,
  ⟨0xF00F, 0x200C, .reg .cmpStr⟩,
  ⟨0xFF00, 0xC900, .reg .andImm⟩,
  ⟨0xFF00, 0xCA00, .reg .xorImm⟩,
  ⟨0xFF00, 0xCB00, .reg .orImm⟩,
  ⟨0xFF00, 0x8900, .branch .bt⟩,
  ⟨0xFF00, 0x8B00, .branch .bf⟩,
  ⟨0xFF00, 0x8D00, .branch .btS⟩,
  ⟨0xFF00, 0x8F00, .branch .bfS⟩,
  ⟨0xF0FF, 0x0012, .reg .stcGbr⟩,
  ⟨0xF0FF, 0x0022, .reg .stcVbr⟩,
  ⟨0xF0FF, 0x4003, .pushSys .sr⟩,
  ⟨0xF0FF, 0x4013, .pushSys .gbr⟩,
  ⟨0xF0FF, 0x4023, .pushSys .vbr⟩,
  ⟨0xF0FF, 0x4002, .pushSys .mach⟩,
  ⟨0xF0FF, 0x4012, .pushSys .macl⟩,
  ⟨0xF0FF, 0x401E, .reg .ldcGbr⟩,
  ⟨0xF0FF, 0x400E, .reg .ldcSr⟩,
  ⟨0xF0FF, 0x0002, .reg .stcSr⟩,
  ⟨0xF0FF, 0x4026, .popSys .pr⟩,
  ⟨0xF0FF, 0x4007, .popSys .sr⟩,
  ⟨0xF0FF, 0x4017, .popSys .gbr⟩,
  ⟨0xF0FF, 0x4027, .popSys .vbr⟩,
  ⟨0xF0FF, 0x4006, .popSys .mach⟩,
  ⟨0xF0FF, 0x4016, .popSys .macl⟩,
  ⟨0xF0FF, 0x402E, .reg .ldcVbr⟩,
  ⟨0xF0FF, 0x001A, .reg .stsMacl⟩,
  ⟨0xF0FF, 0x000A, .reg .stsMach⟩,
  ⟨0xF0FF, 0x401A, .reg .ldsMacl⟩,
  ⟨0xF0FF, 0x400A, .reg .ldsMach⟩,
  ⟨0xF00F, 0x0007, .reg .mulL⟩,
  ⟨0xFF00, 0xC700, .reg .mova⟩,
  ⟨0xF0FF, 0x4000, .reg .shll⟩,
  ⟨0xF0FF, 0x4001, .reg .shlr⟩,
  ⟨0xF0FF, 0x4004, .reg .rotl⟩,
  ⟨0xF0FF, 0x4008, .reg (.shllBy 2)⟩,
  ⟨0xF0FF, 0x4018, .reg (.shllBy 8)⟩,
  ⟨0xF0FF, 0x4028, .reg (.shllBy 16)⟩,
  ⟨0xF0FF, 0x4009, .reg (.shlrBy 2)⟩,
  ⟨0xF0FF, 0x4019, .reg (.shlrBy 8)⟩,
  ⟨0xF0FF, 0x4029, .reg (.shlrBy 16)⟩,
  ⟨0xF0FF, 0x4020, .reg .shal⟩,
  ⟨0xF0FF, 0x4021, .reg .shar⟩,
  ⟨0xF0FF, 0x4024, .reg .rotcl⟩,
  ⟨0xF0FF, 0x4025, .reg .rotcr⟩,
  ⟨0xF00F, 0x400C, .reg .shad⟩,
  ⟨0xF00F, 0x400D, .reg .shld⟩,
  ⟨0xF000, 0xA000, .branch .bra⟩,
  ⟨0xF000, 0xB000, .branch .bsr⟩,
  ⟨0xF0FF, 0x400B, .branch .jsr⟩,
  ⟨0xFFFF, 0x000B, .branch .rts⟩,
  ⟨0xF0FF, 0x402B, .branch .jmp⟩,
  ⟨0xFFFF, 0x002B, .rte⟩,
  ⟨0xFF00, 0xC300, .trapa⟩]

/-- What `execute_instruction` takes the instruction for. -/
def opcodeOf (instr : Instr) : Opcode := (lookup executeTable instr).getD .illegal

def dataTable : List (Row DataForm) := [
  ⟨0xF00F, 0x6000, .load .byte⟩,
  ⟨0xF000, 0x5000, .loadDisp⟩,
  ⟨0xF000, 0x1000, .storeDisp⟩,
  ⟨0xF0FF, 0x4022, .pushSys .pr⟩,
  ⟨0xF0FF, 0x4003, .pushSys .sr⟩,
  ⟨0xF0FF, 0x4013, .pushSys .gbr⟩,
  ⟨0xF0FF, 0x4023, .pushSys .vbr⟩,
  ⟨0xF0FF, 0x4002, .pushSys .mach⟩,
  ⟨0xF0FF, 0x4012, .pushSys .macl⟩,
  ⟨0xF0FF, 0x4026, .popSys .pr⟩,
  ⟨0xF0FF, 0x4007, .popSys .sr⟩,
  ⟨0xF0FF, 0x4017, .popSys .gbr⟩,
  ⟨0xF0FF, 0x4027, .popSys .vbr⟩,
  ⟨0xF0FF, 0x4006, .popSys .mach⟩,
  ⟨0xF0FF, 0x4016, .popSys .macl⟩,
  ⟨0xFF00, 0x8500, .loadDispR0 .word⟩,
  ⟨0xFF00, 0x8400, .loadDispR0 .byte⟩,
  ⟨0xF00F, 0x6001, .load .word⟩,
  ⟨0xF00F, 0x000C, .loadIndexed .byte⟩,
  ⟨0xF00F, 0x000D, .loadIndexed .word⟩,
  ⟨0xF00F, 0x000E, .loadIndexed .long⟩,
  ⟨0xF000, 0x9000, .loadPcWord⟩,
  ⟨0xFF00, 0xC400, .loadGbr .byte⟩,
  ⟨0xFF00, 0xC500, .loadGbr .word⟩,
  ⟨0xFF00, 0xC600, .loadGbr .long⟩,
  ⟨0xF000, 0xD000, .loadPcLong⟩,
  ⟨0xF00F, 0x6002, .load .long⟩,
  ⟨0xF00F, 0x6004, .loadPostInc .byte⟩,
  ⟨0xF00F, 0x6005, .loadPostInc .word⟩,
  ⟨0xF00F, 0x6006, .loadPostInc .long⟩,
  ⟨0xF00F, 0x2000, .store .byte⟩,
  ⟨0xF00F, 0x0004, .storeIndexed .byte⟩,
  ⟨0xF00F, 0x0005, .storeIndexed .word⟩,
  ⟨0xF00F, 0x0006, .storeIndexed .long⟩,
  ⟨0xFF00, 0xC000, .storeGbr .byte⟩,
  ⟨0xFF00, 0xC100, .storeGbr .word⟩,
  ⟨0xFF00, 0xC200, .storeGbr .long⟩,
  ⟨0xF00F, 0x8001, .storeDispHigh .word⟩,
  ⟨0xFF00, 0x8100, .storeDispLow .word⟩,
  ⟨0xF00F, 0x8000, .storeDispHigh .byte⟩,
  ⟨0xFF00, 0x8000, .storeDispLow .byte⟩,
  ⟨0xF00F, 0x2004, .storePreDec .byte⟩,
  ⟨0xF00F, 0x2005, .storePreDec .word⟩,
  ⟨0xF00F, 0x2006, .storePreDec .long⟩,
  ⟨0xFF00, 0xCC00, .rmw .and⟩,
  ⟨0xFF00, 0xCE00, .rmw .xor⟩,
  ⟨0xFF00, 0xCF00, .rmw .or⟩,
  ⟨0xF00F, 0x2001, .store .word⟩,
  ⟨0xF00F, 0x2002, .store .long⟩]

/-- The data access `produce_until_bus` takes a cached instruction for. -/
def dataFormOf (instr : Instr) : Option DataForm := lookup dataTable instr

/-! ### Lookups -/

theorem lookup_some {α : Type} {table : List (Row α)} {instr : Instr} {result : α}
    (h : lookup table instr = some result) :
    ∃ row ∈ table, row.matches instr = true ∧ row.result = result := by
  rw [lookup, Option.map_eq_some_iff] at h
  obtain ⟨row, hfind, hresult⟩ := h
  refine ⟨row, List.mem_of_find?_eq_some hfind, ?_, hresult⟩
  exact @List.find?_some _ (fun row : Row α => row.matches instr) _ _ hfind

theorem lookup_eq_none {α : Type} {table : List (Row α)} {instr : Instr} :
    lookup table instr = none ↔ ∀ row ∈ table, row.matches instr = false := by
  rw [lookup, Option.map_eq_none_iff, List.find?_eq_none]
  simp only [Bool.not_eq_true]

/-- Two tests agree on the bits that both look at. -/
theorem Row.agree {α β : Type} {row : Row α} {other : Row β} {instr : Instr}
    (h : row.matches instr = true) (hother : other.matches instr = true) :
    row.value &&& other.mask = other.value &&& row.mask := by
  rw [Row.matches, beq_iff_eq] at h hother
  rw [← h, ← hother, BitVec.and_assoc, BitVec.and_assoc, BitVec.and_comm row.mask]

theorem lookup_of_matches {α : Type} {table : List (Row α)} {instr : Instr} {row : Row α}
    (hmem : row ∈ table) (hrow : row.matches instr = true)
    (hapart : ∀ other ∈ table, other.result = row.result ∨
      row.value &&& other.mask ≠ other.value &&& row.mask) :
    lookup table instr = some row.result := by
  cases hfound : lookup table instr with
  | none =>
    rw [lookup_eq_none] at hfound
    rw [hfound row hmem] at hrow
    exact absurd hrow (by simp)
  | some result =>
    obtain ⟨other, hother, hmatches, rfl⟩ := lookup_some hfound
    rcases hapart other hother with hsame | hdiffer
    · rw [hsame]
    · exact absurd (Row.agree hrow hmatches) hdiffer

end Saturnis.Cpu
