/-
Which instructions the run-ahead loop turns into a data access.

`sh2AccessTable` lists the loads, stores, transfers of system registers and
read-modify-writes of the SH-2 that the core supports, each with its addressing
mode; no two rows match one word, so their order does not matter.  The decode
chain of the core has two rows of its own, for stores with a displacement in
bits 4 to 7: they take `0x8xy0` and `0x8xy1` away from what the words encode.

* `lookup_of_known` — a lookup from some of the bits of the word;
* `dataFormOf_agrees` — off the two rows the chain finds what the word encodes;
* `dispatches_iff` — the words and registers for which the access issued is the
  one of the instruction.
-/
import Mathlib.Tactic.IntervalCases
import Saturnis.Sh2Budget
import Saturnis.Sh2Step

namespace Saturnis.Cpu

open Saturnis.Core Saturnis.Mem Saturnis.Bus

/-! ### Lookups from some bits of the word -/

/-- The lookup, as far as the bits of `value` under `mask` decide it. -/
def lookupKnown {α : Type} (mask value : Instr) : List (Row α) → Option (Option α)
  | [] => some none
  | row :: rest =>
    if row.mask &&& mask = row.mask ∧ value &&& row.mask = row.value then some (some row.result)
    else if row.value &&& mask = value &&& row.mask then none
    else lookupKnown mask value rest

theorem lookup_of_known {α : Type} {table : List (Row α)} {mask value instr : Instr}
    {result : Option α} (hinstr : instr &&& mask = value)
    (hknown : lookupKnown mask value table = some result) : lookup table instr = result := by
  induction table with
  | nil => exact Option.some.inj hknown
  | cons row rest ih =>
      rw [lookupKnown] at hknown
      split at hknown
      case isTrue hmatch =>
        have hrow : row.matches instr = true := by
          rw [Row.matches, beq_iff_eq]
          calc instr &&& row.mask = (instr &&& mask) &&& row.mask := by
                rw [BitVec.and_assoc, BitVec.and_comm mask, hmatch.1]
            _ = row.value := by rw [hinstr, hmatch.2]
        rw [lookup, List.find?_cons_of_pos (p := fun row : Row α => row.matches instr) hrow]
        exact Option.some.inj hknown
      case isFalse =>
        split at hknown
        case isTrue => exact absurd hknown (by simp)
        case isFalse hapart =>
          have hrow : ¬ row.matches instr = true := fun hrow => by
            rw [Row.matches, beq_iff_eq] at hrow
            apply hapart
            rw [← hrow, ← hinstr, BitVec.and_assoc, BitVec.and_assoc, BitVec.and_comm mask]
          rw [lookup, List.find?_cons_of_neg (p := fun row : Row α => row.matches instr) hrow]
          exact ih hknown

/-! ### The accesses of the SH-2 -/

/-- The field of an instruction that names the base register. -/
inductive RegField
  /-- bits 8 to 11 -/
  | high
  /-- bits 4 to 7 -/
  | low
deriving DecidableEq, Repr

def RegField.of : RegField → Instr → Fin 16
  | high, instr => instr.fieldN
  | low, instr => instr.fieldM

inductive AddressMode
  /-- `@R` -/
  | indirect (base : RegField)
  /-- `@R+` -/
  | postInc (base : RegField)
  /-- `@-R` -/
  | preDec (base : RegField)
  /-- `@(disp,R)` -/
  | displaced (base : RegField)
  /-- `@(R0,R)` -/
  | indexed (base : RegField)
  /-- `@(disp,GBR)` -/
  | gbrDisplaced
  /-- `@(disp,PC)` -/
  | pcDisplaced
  /-- `@(R0,GBR)` -/
  | gbrIndexed
deriving DecidableEq, Repr

/-- The first bus access of an instruction. -/
structure AccessForm where
  mode : AddressMode
  width : AccessWidth
  isWrite : Bool
deriving DecidableEq, Repr

/-- The effective address; displacements count units of the access width. -/
def AccessForm.address (form : AccessForm) (instr : Instr) (x : Registers) : Addr :=
  match form.mode with
  | .indirect base => x.r (base.of instr)
  | .postInc base => x.r (base.of instr)
  | .preDec base => x.r (base.of instr) - form.width.scale
  | .displaced base => x.r (base.of instr) + instr.fieldDisp4 * form.width.scale
  | .indexed base => x.r 0 + x.r (base.of instr)
  | .gbrDisplaced => x.gbr + instr.fieldImm8 * form.width.scale
  | .pcDisplaced =>
    (if form.width = .long then (x.pc + 4) &&& ~~~3#32 else x.pc + 4) +
      instr.fieldImm8 * form.width.scale
  | .gbrIndexed => x.gbr + x.r 0

def sh2AccessTable : List (Row AccessForm) := [
  -- MOV @Rm,Rn and MOV @Rm+,Rn
  ⟨0xF00F, 0x6000, ⟨.indirect .low, .byte, false⟩⟩,
  ⟨0xF00F, 0x6001, ⟨.indirect .low, .word, false⟩⟩,
  ⟨0xF00F, 0x6002, ⟨.indirect .low, .long, false⟩⟩,
  ⟨0xF00F, 0x6004, ⟨.postInc .low, .byte, false⟩⟩,
  ⟨0xF00F, 0x6005, ⟨.postInc .low, .word, false⟩⟩,
  ⟨0xF00F, 0x6006, ⟨.postInc .low, .long, false⟩⟩,
  -- MOV Rm,@Rn and MOV Rm,@-Rn
  ⟨0xF00F, 0x2000, ⟨.indirect .high, .byte, true⟩⟩,
  ⟨0xF00F, 0x2001, ⟨.indirect .high, .word, true⟩⟩,
  ⟨0xF00F, 0x2002, ⟨.indirect .high, .long, true⟩⟩,
  ⟨0xF00F, 0x2004, ⟨.preDec .high, .byte, true⟩⟩,
  ⟨0xF00F, 0x2005, ⟨.preDec .high, .word, true⟩⟩,
  ⟨0xF00F, 0x2006, ⟨.preDec .high, .long, true⟩⟩,
  -- MOV.L @(disp,Rm),Rn and MOV.L Rm,@(disp,Rn)
  ⟨0xF000, 0x5000, ⟨.displaced .low, .long, false⟩⟩,
  ⟨0xF000, 0x1000, ⟨.displaced .high, .long, true⟩⟩,
  -- MOV @(disp,Rm),R0 and MOV R0,@(disp,Rn)
  ⟨0xFF00, 0x8400, ⟨.displaced .low, .byte, false⟩⟩,
  ⟨0xFF00, 0x8500, ⟨.displaced .low, .word, false⟩⟩,
  ⟨0xFF00, 0x8000, ⟨.displaced .low, .byte, true⟩⟩,
  ⟨0xFF00, 0x8100, ⟨.displaced .low, .word, true⟩⟩,
  -- MOV @(R0,Rm),Rn and MOV Rm,@(R0,Rn)
  ⟨0xF00F, 0x000C, ⟨.indexed .low, .byte, false⟩⟩,
  ⟨0xF00F, 0x000D, ⟨.indexed .low, .word, false⟩⟩,
  ⟨0xF00F, 0x000E, ⟨.indexed .low, .long, false⟩⟩,
  ⟨0xF00F, 0x0004, ⟨.indexed .high, .byte, true⟩⟩,
  ⟨0xF00F, 0x0005, ⟨.indexed .high, .word, true⟩⟩,
  ⟨0xF00F, 0x0006, ⟨.indexed .high, .long, true⟩⟩,
  -- MOV @(disp,GBR),R0 and MOV R0,@(disp,GBR)
  ⟨0xFF00, 0xC400, ⟨.gbrDisplaced, .byte, false⟩⟩,
  ⟨0xFF00, 0xC500, ⟨.gbrDisplaced, .word, false⟩⟩,
  ⟨0xFF00, 0xC600, ⟨.gbrDisplaced, .long, false⟩⟩,
  ⟨0xFF00, 0xC000, ⟨.gbrDisplaced, .byte, true⟩⟩,
  ⟨0xFF00, 0xC100, ⟨.gbrDisplaced, .word, true⟩⟩,
  ⟨0xFF00, 0xC200, ⟨.gbrDisplaced, .long, true⟩⟩,
  -- MOV @(disp,PC),Rn
  ⟨0xF000, 0x9000, ⟨.pcDisplaced, .word, false⟩⟩,
  ⟨0xF000, 0xD000, ⟨.pcDisplaced, .long, false⟩⟩,
  -- STS.L and STC.L to @-Rn: PR, SR, GBR, VBR, MACH, MACL
  ⟨0xF0FF, 0x4022, ⟨.preDec .high, .long, true⟩⟩,
  ⟨0xF0FF, 0x4003, ⟨.preDec .high, .long, true⟩⟩,
  ⟨0xF0FF, 0x4013, ⟨.preDec .high, .long, true⟩⟩,
  ⟨0xF0FF, 0x4023, ⟨.preDec .high, .long, true⟩⟩,
  ⟨0xF0FF, 0x4002, ⟨.preDec .high, .long, true⟩⟩,
  ⟨0xF0FF, 0x4012, ⟨.preDec .high, .long, true⟩⟩,
  -- LDS.L and LDC.L from @Rm+
  ⟨0xF0FF, 0x4026, ⟨.postInc .high, .long, false⟩⟩,
  ⟨0xF0FF, 0x4007, ⟨.postInc .high, .long, false⟩⟩,
  ⟨0xF0FF, 0x4017, ⟨.postInc .high, .long, false⟩⟩,
  ⟨0xF0FF, 0x4027, ⟨.postInc .high, .long, false⟩⟩,
  ⟨0xF0FF, 0x4006, ⟨.postInc .high, .long, false⟩⟩,
  ⟨0xF0FF, 0x4016, ⟨.postInc .high, .long, false⟩⟩,
  -- the read of AND.B, XOR.B and OR.B on @(R0,GBR)
  ⟨0xFF00, 0xCC00, ⟨.gbrIndexed, .byte, false⟩⟩,
  ⟨0xFF00, 0xCE00, ⟨.gbrIndexed, .byte, false⟩⟩,
  ⟨0xFF00, 0xCF00, ⟨.gbrIndexed, .byte, false⟩⟩]

/-- The access the word encodes. -/
def accessFormOf (instr : Instr) : Option AccessForm := lookup sh2AccessTable instr

theorem accessFormOf_of_matches {instr : Instr} {row : Row AccessForm}
    (hmem : row ∈ sh2AccessTable) (hrow : row.matches instr = true) :
    accessFormOf instr = some row.result := by
  have hapart : ∀ row ∈ sh2AccessTable, ∀ other ∈ sh2AccessTable,
      other.result = row.result ∨ row.value &&& other.mask ≠ other.value &&& row.mask := by
    decide +kernel
  exact lookup_of_matches hmem hrow (hapart row hmem)

/-! ### The chain of the core -/

/-- The access a form of the chain stands for; the two rows of the chain alone have none. -/
def DataForm.accessForm : DataForm → Option AccessForm
  | .load width => some ⟨.indirect .low, width, false⟩
  | .loadDisp => some ⟨.displaced .low, .long, false⟩
  | .storeDisp => some ⟨.displaced .high, .long, true⟩
  | .pushSys _ => some ⟨.preDec .high, .long, true⟩
  | .popSys _ => some ⟨.postInc .high, .long, false⟩
  | .loadDispR0 width => some ⟨.displaced .low, width, false⟩
  | .loadIndexed width => some ⟨.indexed .low, width, false⟩
  | .loadPcWord => some ⟨.pcDisplaced, .word, false⟩
  | .loadPcLong => some ⟨.pcDisplaced, .long, false⟩
  | .loadGbr width => some ⟨.gbrDisplaced, width, false⟩
  | .loadPostInc width => some ⟨.postInc .low, width, false⟩
  | .store width => some ⟨.indirect .high, width, true⟩
  | .storeIndexed width => some ⟨.indexed .high, width, true⟩
  | .storeGbr width => some ⟨.gbrDisplaced, width, true⟩
  | .storeDispHigh _ => none
  | .storeDispLow width => some ⟨.displaced .low, width, true⟩
  | .storePreDec width => some ⟨.preDec .high, width, true⟩
  | .rmw _ => some ⟨.gbrIndexed, .byte, false⟩

/-- Off the two rows of its own the chain finds what the word encodes. -/
theorem dataFormOf_agrees {instr : Instr} (hbyte : instr &&& 0xF00F#16 ≠ 0x8000#16)
    (hword : instr &&& 0xF00F#16 ≠ 0x8001#16) :
    (dataFormOf instr).bind DataForm.accessForm = accessFormOf instr ∧
      (dataFormOf instr = none ↔ accessFormOf instr = none) := by
  have hrows : ∀ row ∈ dataTable,
      (row.mask = 0xF00F#16 ∧ (row.value = 0x8000#16 ∨ row.value = 0x8001#16)) ∨
        ∃ other ∈ sh2AccessTable, other.mask = row.mask ∧ other.value = row.value ∧
          row.result.accessForm = some other.result := by
    decide +kernel
  have hcovered : ∀ row ∈ sh2AccessTable,
      ∃ other ∈ dataTable, other.mask = row.mask ∧ other.value = row.value := by
    decide +kernel
  cases hform : dataFormOf instr with
  | some form =>
      obtain ⟨row, hmem, hmatches, rfl⟩ := lookup_some hform
      rcases hrows row hmem with ⟨hmask, hvalue⟩ | ⟨other, hother, hmask, hvalue, hresult⟩
      · rw [Row.matches, beq_iff_eq, hmask] at hmatches
        rcases hvalue with hvalue | hvalue
        · exact absurd (hmatches.trans hvalue) hbyte
        · exact absurd (hmatches.trans hvalue) hword
      · have haccess : accessFormOf instr = some other.result := by
          refine accessFormOf_of_matches hother ?_
          rw [Row.matches, hmask, hvalue]
          exact hmatches
        rw [Option.bind_some, hresult, haccess]
        simp
  | none =>
      have hnone : accessFormOf instr = none := by
        refine lookup_eq_none.mpr fun row hrow => ?_
        obtain ⟨other, hother, hmask, hvalue⟩ := hcovered row hrow
        have hmiss := lookup_eq_none.mp hform other hother
        rw [Row.matches, hmask, hvalue] at hmiss
        exact hmiss
      rw [hnone]
      simp

/-- The high byte of a word of the group that the chain splits. -/
theorem highByte_eq (instr : Instr) {low : Instr} (hlow : instr &&& 0xF00F#16 = low) :
    instr &&& 0xFF0F#16 = low ||| (BitVec.ofNat 16 instr.fieldN.val <<< 8) := by
  have hfield : BitVec.ofNat 16 instr.fieldN.val = (instr >>> 8) &&& 0x0F#16 := by
    have hlt : ((instr >>> 8) &&& 0x0F#16).toNat < 16 := by
      rw [BitVec.toNat_and]
      exact Nat.lt_of_le_of_lt Nat.and_le_right (by decide)
    show BitVec.ofNat 16 (((instr >>> 8) &&& 0x0F#16).toNat % 16) = _
    rw [Nat.mod_eq_of_lt hlt, BitVec.ofNat_toNat, BitVec.setWidth_eq]
  rw [hfield, ← hlow]
  apply BitVec.eq_of_getLsbD_eq
  intro i hi
  interval_cases i <;> simp

/-- What the chain makes of `0x8xy0`, by `x`. -/
def byteGroup (n : Fin 16) : DataForm :=
  if n = 1 then .storeDispLow .word
  else if n = 4 then .loadDispR0 .byte
  else if n = 5 then .loadDispR0 .word
  else .storeDispHigh .byte

/-- What the chain makes of `0x8xy1`, by `x`. -/
def wordGroup (n : Fin 16) : DataForm :=
  if n = 4 then .loadDispR0 .byte
  else if n = 5 then .loadDispR0 .word
  else .storeDispHigh .word

/-- What a word of the `0x8xxx` group encodes, by the second digit. -/
def groupAccess (n : Fin 16) : Option AccessForm :=
  if n = 0 then some ⟨.displaced .low, .byte, true⟩
  else if n = 1 then some ⟨.displaced .low, .word, true⟩
  else if n = 4 then some ⟨.displaced .low, .byte, false⟩
  else if n = 5 then some ⟨.displaced .low, .word, false⟩
  else none

theorem dataFormOf_byteGroup {instr : Instr} (h : instr &&& 0xF00F#16 = 0x8000#16) :
    dataFormOf instr = some (byteGroup instr.fieldN) ∧
      accessFormOf instr = groupAccess instr.fieldN := by
  have hchain : ∀ n : Fin 16, lookupKnown 0xFF0F#16 (0x8000#16 ||| (BitVec.ofNat 16 n.val <<< 8))
      dataTable = some (some (byteGroup n)) := by decide +kernel
  have hencoded : ∀ n : Fin 16, lookupKnown 0xFF0F#16
      (0x8000#16 ||| (BitVec.ofNat 16 n.val <<< 8)) sh2AccessTable =
        some (groupAccess n) := by decide +kernel
  exact ⟨lookup_of_known (highByte_eq instr h) (hchain _),
    lookup_of_known (highByte_eq instr h) (hencoded _)⟩

theorem dataFormOf_wordGroup {instr : Instr} (h : instr &&& 0xF00F#16 = 0x8001#16) :
    dataFormOf instr = some (wordGroup instr.fieldN) ∧
      accessFormOf instr = groupAccess instr.fieldN := by
  have hchain : ∀ n : Fin 16, lookupKnown 0xFF0F#16 (0x8001#16 ||| (BitVec.ofNat 16 n.val <<< 8))
      dataTable = some (some (wordGroup n)) := by decide +kernel
  have hencoded : ∀ n : Fin 16, lookupKnown 0xFF0F#16
      (0x8001#16 ||| (BitVec.ofNat 16 n.val <<< 8)) sh2AccessTable =
        some (groupAccess n) := by decide +kernel
  exact ⟨lookup_of_known (highByte_eq instr h) (hchain _),
    lookup_of_known (highByte_eq instr h) (hencoded _)⟩

/-! ### The operation issued -/

/-- The pending operation is the access of the form. -/
structure PendingMemOp.Performs (pending : PendingMemOp) (form : AccessForm) (instr : Instr)
    (x : Registers) : Prop where
  physAddr : pending.physAddr = toPhys (form.address instr x)
  size : pending.size = form.width.bytes
  isWrite : pending.kind.isWrite = form.isWrite

theorem AccessWidth.readKind_isWrite (width : AccessWidth) : width.readKind.isWrite = false := by
  cases width <;> rfl

theorem AccessWidth.writeKind_isWrite (width : AccessWidth) : width.writeKind.isWrite = true := by
  cases width <;> rfl

theorem RmwOp.readKind_isWrite (op : RmwOp) : op.readKind.isWrite = false := by
  cases op <;> rfl

theorem dataAccessKind_inj {physAddr : Addr} {a b : Bool}
    (h : dataAccessKind physAddr a = dataAccessKind physAddr b) : a = b := by
  unfold dataAccessKind at h
  split at h
  all_goals cases a <;> cases b <;> simp_all

namespace SH2Core

variable {core : SH2Core} {instr : Instr}

theorem startAccess_performs {form : DataForm} {access : AccessForm}
    (h : form.accessForm = some access) :
    (core.startAccess form instr).2.Performs access instr core.toRegisters := by
  cases form with
  | storeDispHigh width => exact absurd h (by simp [DataForm.accessForm])
  | load width =>
      obtain rfl := Option.some.inj h
      exact ⟨rfl, rfl, width.readKind_isWrite⟩
  | loadDispR0 width =>
      obtain rfl := Option.some.inj h
      exact ⟨rfl, rfl, width.readKind_isWrite⟩
  | loadIndexed width =>
      obtain rfl := Option.some.inj h
      exact ⟨rfl, rfl, width.readKind_isWrite⟩
  | loadGbr width =>
      obtain rfl := Option.some.inj h
      exact ⟨rfl, rfl, width.readKind_isWrite⟩
  | loadPostInc width =>
      obtain rfl := Option.some.inj h
      exact ⟨rfl, rfl, width.readKind_isWrite⟩
  | store width =>
      obtain rfl := Option.some.inj h
      exact ⟨rfl, rfl, width.writeKind_isWrite⟩
  | storeIndexed width =>
      obtain rfl := Option.some.inj h
      exact ⟨rfl, rfl, width.writeKind_isWrite⟩
  | storeGbr width =>
      obtain rfl := Option.some.inj h
      exact ⟨rfl, rfl, width.writeKind_isWrite⟩
  | storeDispLow width =>
      obtain rfl := Option.some.inj h
      exact ⟨rfl, rfl, width.writeKind_isWrite⟩
  | rmw op =>
      obtain rfl := Option.some.inj h
      exact ⟨rfl, rfl, op.readKind_isWrite⟩
  | storePreDec width =>
      obtain rfl := Option.some.inj h
      -- The register is decremented before it is the address.
      refine ⟨?_, rfl, width.writeKind_isWrite⟩
      exact congrArg toPhys (Function.update_self instr.fieldN _ core.r)
  | pushSys source =>
      obtain rfl := Option.some.inj h
      refine ⟨?_, rfl, rfl⟩
      exact congrArg toPhys (Function.update_self instr.fieldN _ core.r)
  | _ =>
      obtain rfl := Option.some.inj h
      exact ⟨rfl, rfl, rfl⟩

/-- The result of producing issues the access the word encodes, if it encodes one, and
no access of the word otherwise. -/
def DispatchesAs (core : SH2Core) (instr : Instr) (result : Sh2ProduceResult) : Prop :=
  match accessFormOf instr with
  | some form => ∃ op, result = ⟨some op, 0⟩ ∧
      op.physAddr = toPhys (form.address instr core.toRegisters) ∧ op.size = form.width.bytes ∧
      op.kind = dataAccessKind op.physAddr form.isWrite
  | none => result.op = none ∨ 0 < result.executed

/-- The registers and the word for which the two rows of the chain do no harm: the word is
not one of theirs, or the two operand layouts name the same address. -/
structure LayoutsAgree (core : SH2Core) (instr : Instr) : Prop where
  byte : instr &&& 0xF00F#16 = 0x8000#16 →
    instr.fieldN = 1 ∨ instr.fieldN = 4 ∨ instr.fieldN = 5 ∨
      (instr.fieldN = 0 ∧ toPhys (core.r instr.fieldM) =
        toPhys (core.r 0 + BitVec.ofNat 32 instr.fieldM.val))
  word : instr &&& 0xF00F#16 = 0x8001#16 →
    instr.fieldN = 4 ∨ instr.fieldN = 5 ∨
      (instr.fieldN = 1 ∧ toPhys (core.r instr.fieldM + 2) =
        toPhys (core.r 1 + BitVec.ofNat 32 instr.fieldM.val * 2))

theorem produce_dataForm {form : DataForm} (hquiet : core.Quiet)
    (hcached : core.cachedInstr = some instr) (hform : dataFormOf instr = some form) (seq : Nat)
    (trace : TraceLog) (budget : Nat) :
    (core.produceUntilBus seq trace (budget + 1)).2.2 =
      ⟨some ((core.accessing form instr).pendingOp seq (core.startAccess form instr).2), 0⟩ := by
  obtain ⟨hfetch, cached, hread, rfl⟩ := cachedInstr_eq_some hcached
  rw [produceUntilBus, hquiet.vector, hquiet.memOp]
  simp only [produceLoop]
  rw [if_neg (by simp [hfetch]), hread]
  simp only [hform]
  rfl

theorem produce_executed (hquiet : core.Quiet) (hcached : core.cachedInstr = some instr)
    (hform : dataFormOf instr = none) (seq : Nat) (trace : TraceLog) (budget : Nat) :
    0 < (core.produceUntilBus seq trace (budget + 1)).2.2.executed := by
  obtain ⟨hfetch, cached, hread, rfl⟩ := cachedInstr_eq_some hcached
  rw [produceUntilBus, hquiet.vector, hquiet.memOp]
  simp only [produceLoop]
  rw [if_neg (by simp [hfetch]), hread]
  simp only [hform]
  rw [produceLoop_executed budget _ seq _ (0 + 1) 0]
  exact Nat.lt_of_lt_of_le Nat.zero_lt_one (Nat.le_add_right _ _)

/-- An access that is issued is the one of the word exactly when it performs it. -/
theorem dispatchesAs_some {form : DataForm} {access : AccessForm} (seq : Nat)
    (haccess : accessFormOf instr = some access) :
    core.DispatchesAs instr
        ⟨some ((core.accessing form instr).pendingOp seq (core.startAccess form instr).2), 0⟩ ↔
      (core.startAccess form instr).2.Performs access instr core.toRegisters := by
  rw [DispatchesAs, haccess]
  constructor
  · rintro ⟨op, hresult, haddr, hsize, hkind⟩
    obtain rfl := Option.some.inj (Sh2ProduceResult.mk.inj hresult).1
    exact ⟨haddr, hsize, dataAccessKind_inj hkind⟩
  · rintro ⟨haddr, hsize, hwrite⟩
    exact ⟨_, rfl, haddr, hsize, congrArg (dataAccessKind _) hwrite⟩

theorem not_dispatchesAs_none {op : BusOp} (haccess : accessFormOf instr = none) :
    ¬ core.DispatchesAs instr ⟨some op, 0⟩ := by
  rw [DispatchesAs, haccess]
  rintro (hnone | hlt)
  · exact absurd hnone (by simp)
  · exact absurd hlt (by simp)

theorem fieldDisp4_eq {low : Instr} (h : instr &&& 0xF00F#16 = low) :
    instr.fieldDisp4 = (low &&& 0x000F#16).setWidth 32 := by
  rw [Instr.fieldDisp4, ← h, BitVec.and_assoc]
  rfl

/-- A store of `R0` in the high layout is the one of the low layout if the addresses agree. -/
theorem storeDispHigh_performs_iff (width encoded : AccessWidth) :
    (core.startAccess (.storeDispHigh width) instr).2.Performs ⟨.displaced .low, encoded, true⟩
        instr core.toRegisters ↔
      width = encoded ∧ toPhys (core.r instr.fieldM + instr.fieldDisp4 * encoded.scale) =
        toPhys (core.r instr.fieldN + BitVec.ofNat 32 instr.fieldM.val * width.scale) := by
  constructor
  · rintro ⟨haddr, hsize, -⟩
    refine ⟨?_, haddr.symm⟩
    have hbytes : width.bytes = encoded.bytes := hsize
    cases width <;> cases encoded <;> first | rfl | exact absurd hbytes (by decide)
  · rintro ⟨rfl, haddr⟩
    exact ⟨haddr.symm, rfl, width.writeKind_isWrite⟩

/-- A form of the chain that stands for what the word encodes issues its access. -/
theorem dispatchesAs_of_accessForm {form : DataForm} (seq : Nat)
    (hsome : (accessFormOf instr).isSome) (hsame : form.accessForm = accessFormOf instr) :
    core.DispatchesAs instr
      ⟨some ((core.accessing form instr).pendingOp seq (core.startAccess form instr).2), 0⟩ := by
  obtain ⟨access, haccess⟩ := Option.isSome_iff_exists.mp hsome
  exact (dispatchesAs_some seq haccess).mpr (startAccess_performs (hsame.trans haccess))

theorem byteGroup_iff (h : instr &&& 0xF00F#16 = 0x8000#16) (seq : Nat) :
    core.DispatchesAs instr ⟨some ((core.accessing (byteGroup instr.fieldN) instr).pendingOp seq
        (core.startAccess (byteGroup instr.fieldN) instr).2), 0⟩ ↔ core.LayoutsAgree instr := by
  have hother : instr &&& 0xF00F#16 ≠ 0x8001#16 := by rw [h]; decide
  have haccess := (dataFormOf_byteGroup h).2
  have hdigits : ∀ n : Fin 16,
      ((n = 1 ∨ n = 4 ∨ n = 5) ∧ (groupAccess n).isSome ∧
          (byteGroup n).accessForm = groupAccess n) ∨
        (n = 0 ∧ byteGroup n = .storeDispHigh .byte) ∨
        ((n ≠ 0 ∧ n ≠ 1 ∧ n ≠ 4 ∧ n ≠ 5) ∧ groupAccess n = none) := by decide
  rcases hdigits instr.fieldN with ⟨hn, hsome, hsame⟩ | ⟨hn, hhigh⟩ | ⟨hn, hnone⟩
  · -- Rows before the two have taken the word.
    rw [← haccess] at hsome hsame
    exact iff_of_true (dispatchesAs_of_accessForm seq hsome hsame)
      ⟨fun _ => by tauto, fun hword => absurd hword hother⟩
  · -- `0x80n0`: the register is `R0` and the displacement `n`.
    rw [hn] at haccess
    rw [hhigh, dispatchesAs_some seq haccess, storeDispHigh_performs_iff, fieldDisp4_eq h, hn]
    have hzero : core.r instr.fieldM + (0x8000#16 &&& 0x000F#16).setWidth 32 *
        AccessWidth.byte.scale = core.r instr.fieldM := BitVec.add_zero _
    have hone : BitVec.ofNat 32 instr.fieldM.val * AccessWidth.byte.scale =
        BitVec.ofNat 32 instr.fieldM.val := BitVec.mul_one _
    rw [hzero, hone]
    constructor
    · exact fun haddr => ⟨fun _ => Or.inr (Or.inr (Or.inr ⟨hn, haddr.2⟩)),
        fun hword => absurd hword hother⟩
    · intro hagree
      rcases hagree.byte h with hfield | hfield | hfield | ⟨-, haddr⟩
      · exact absurd (hn.symm.trans hfield) (by decide)
      · exact absurd (hn.symm.trans hfield) (by decide)
      · exact absurd (hn.symm.trans hfield) (by decide)
      · exact ⟨rfl, haddr⟩
  · -- The word encodes no access.
    rw [hnone] at haccess
    refine iff_of_false (not_dispatchesAs_none haccess) fun hagree => ?_
    have := hagree.byte h
    tauto

theorem wordGroup_iff (h : instr &&& 0xF00F#16 = 0x8001#16) (seq : Nat) :
    core.DispatchesAs instr ⟨some ((core.accessing (wordGroup instr.fieldN) instr).pendingOp seq
        (core.startAccess (wordGroup instr.fieldN) instr).2), 0⟩ ↔ core.LayoutsAgree instr := by
  have hother : instr &&& 0xF00F#16 ≠ 0x8000#16 := by rw [h]; decide
  have haccess := (dataFormOf_wordGroup h).2
  have hdigits : ∀ n : Fin 16,
      ((n = 4 ∨ n = 5) ∧ (groupAccess n).isSome ∧ (wordGroup n).accessForm = groupAccess n) ∨
        (n = 0 ∧ wordGroup n = .storeDispHigh .word) ∨
        (n = 1 ∧ wordGroup n = .storeDispHigh .word) ∨
        ((n ≠ 0 ∧ n ≠ 1 ∧ n ≠ 4 ∧ n ≠ 5) ∧ groupAccess n = none) := by decide
  rcases hdigits instr.fieldN with ⟨hn, hsome, hsame⟩ | ⟨hn, hhigh⟩ | ⟨hn, hhigh⟩ | ⟨hn, hnone⟩
  · rw [← haccess] at hsome hsame
    exact iff_of_true (dispatchesAs_of_accessForm seq hsome hsame)
      ⟨fun hbyte => absurd hbyte hother, fun _ => by tauto⟩
  · -- `0x80n1`: a byte store is issued as a word store.
    rw [hn] at haccess
    rw [hhigh, dispatchesAs_some seq haccess, storeDispHigh_performs_iff]
    refine iff_of_false (fun hwidth => absurd hwidth.1 (by decide)) fun hagree => ?_
    rcases hagree.word h with hfield | hfield | ⟨hfield, -⟩
    all_goals exact absurd (hn.symm.trans hfield) (by decide)
  · -- `0x81n1`: the register is `R1` and the displacement `n`.
    rw [hn] at haccess
    rw [hhigh, dispatchesAs_some seq haccess, storeDispHigh_performs_iff, fieldDisp4_eq h, hn]
    have hone : (0x8001#16 &&& 0x000F#16).setWidth 32 * AccessWidth.word.scale = 2#32 := by decide
    have hscale : AccessWidth.word.scale = 2#32 := rfl
    rw [hone, hscale]
    constructor
    · exact fun haddr => ⟨fun hbyte => absurd hbyte hother,
        fun _ => Or.inr (Or.inr ⟨hn, haddr.2⟩)⟩
    · intro hagree
      rcases hagree.word h with hfield | hfield | ⟨-, haddr⟩
      · exact absurd (hn.symm.trans hfield) (by decide)
      · exact absurd (hn.symm.trans hfield) (by decide)
      · exact ⟨rfl, haddr⟩
  · rw [hnone] at haccess
    refine iff_of_false (not_dispatchesAs_none haccess) fun hagree => ?_
    have := hagree.word h
    tauto

/-- **For a cached instruction with nothing pending, the access issued is the one the word
encodes exactly when the two layouts of the `0x8xxx` group agree on it.** -/
theorem dispatches_iff (hquiet : core.Quiet) (hcached : core.cachedInstr = some instr)
    (seq : Nat) (trace : TraceLog) (budget : Nat) :
    core.DispatchesAs instr (core.produceUntilBus seq trace (budget + 1)).2.2 ↔
      core.LayoutsAgree instr := by
  by_cases hbyte : instr &&& 0xF00F#16 = 0x8000#16
  · obtain ⟨hform, haccess⟩ := dataFormOf_byteGroup hbyte
    rw [produce_dataForm hquiet hcached hform]
    exact byteGroup_iff hbyte seq
  by_cases hword : instr &&& 0xF00F#16 = 0x8001#16
  · obtain ⟨hform, haccess⟩ := dataFormOf_wordGroup hword
    rw [produce_dataForm hquiet hcached hform]
    exact wordGroup_iff hword seq
  have hagree : core.LayoutsAgree instr :=
    ⟨fun h => absurd h hbyte, fun h => absurd h hword⟩
  refine iff_of_true ?_ hagree
  obtain ⟨hsome, hnone⟩ := dataFormOf_agrees hbyte hword
  cases hform : dataFormOf instr with
  | none =>
      rw [DispatchesAs, hnone.mp hform]
      exact Or.inr (produce_executed hquiet hcached hform seq trace budget)
  | some form =>
      rw [produce_dataForm hquiet hcached hform]
      rw [hform, Option.bind_some] at hsome
      refine dispatchesAs_of_accessForm seq (Option.isSome_iff_ne_none.mpr fun h => ?_) hsome
      exact absurd (hform.symm.trans (hnone.mpr h)) (by simp)

/-- A store through `R4` with the displacement 2, then `BT` with the displacement 0x10. -/
def displacedStore : SH2Core :=
  cachedCode [0x80, 0x42, 0x89, 0x10, 0x00, 0x09, 0x00, 0x09,
    0x00, 0x09, 0x00, 0x09, 0x00, 0x09, 0x00, 0x09]

theorem dispatches_displacedStore :
    (displacedStore.cachedInstr = some 0x8042#16 ∧ displacedStore.LayoutsAgree 0x8042#16) ∧
      displacedStore.DispatchesAs 0x8042#16 (displacedStore.produceUntilBus 0 {} 16).2.2 := by
  have hagree : displacedStore.LayoutsAgree 0x8042#16 := ⟨by decide, by decide⟩
  exact ⟨⟨by decide, hagree⟩,
    (dispatches_iff ⟨rfl, rfl⟩ (by decide) 0 {} 15).mpr hagree⟩

/-- `BT` with the displacement 0x10 is issued as a byte store. -/
theorem not_dispatches_bt :
    ¬ ∀ (core : SH2Core) (instr : Instr), core.Quiet → core.cachedInstr = some instr →
      ∀ (seq : Nat) (trace : TraceLog) (budget : Nat),
        core.DispatchesAs instr (core.produceUntilBus seq trace (budget + 1)).2.2 := by
  intro hall
  have hdispatch := hall { displacedStore with pc := 2 } 0x8910#16 ⟨rfl, rfl⟩ (by decide) 0 {} 0
  have haccess : accessFormOf 0x8910#16 = none := by decide
  rw [DispatchesAs, haccess] at hdispatch
  exact absurd hdispatch (by decide)

end SH2Core

end Saturnis.Cpu
