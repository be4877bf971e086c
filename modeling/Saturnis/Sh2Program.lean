/-
Straight-line programs of register instructions.

* `opcodeOf_onTwo`, `fieldN_onTwo`, `fieldM_onTwo` — the word of an instruction
  on two registers is decoded as that instruction on these registers;
* `executeInstruction_reg` — a register instruction leaves the core with its
  effect on the registers, `pc` apart, and with no branch pending;
* `executeAll` — instruction words executed one after the other.
-/
import Saturnis.Sh2Execute

namespace Saturnis.Cpu

open Saturnis.Core Saturnis.Mem Saturnis.Bus

/-! ### Words -/

/-- The word of an instruction on the registers `n` and `m`. -/
def Instr.onTwo (code : Instr) (n m : Fin 16) : Instr :=
  code ||| (BitVec.ofNat 16 n.val <<< 8) ||| (BitVec.ofNat 16 m.val <<< 4)

/-- The word of an instruction on the register `n`. -/
def Instr.onOne (code : Instr) (n : Fin 16) : Instr := code ||| (BitVec.ofNat 16 n.val <<< 8)

theorem Instr.fieldN_of_and {instr : Instr} {n : Fin 16}
    (h : (instr >>> 8) &&& 0x0F#16 = BitVec.ofNat 16 n.val) : instr.fieldN = n := by
  have hback : ∀ n : Fin 16, Fin.ofNat 16 (BitVec.ofNat 16 n.val).toNat = n := by decide
  rw [fieldN, h, hback]

theorem Instr.fieldN_onTwo {code : Instr} (hcode : (code >>> 8) &&& 0x0F#16 = 0#16)
    (n m : Fin 16) : (code.onTwo n m).fieldN = n := by
  have hn : ∀ n : Fin 16, ((BitVec.ofNat 16 n.val <<< 8) >>> 8) &&& 0x0F#16 =
      BitVec.ofNat 16 n.val := by decide
  have hm : ∀ m : Fin 16, ((BitVec.ofNat 16 m.val <<< 4) >>> 8) &&& 0x0F#16 = 0#16 := by decide
  apply fieldN_of_and
  rw [onTwo, BitVec.ushiftRight_or_distrib, BitVec.ushiftRight_or_distrib,
    BitVec.and_or_distrib_right, BitVec.and_or_distrib_right, hcode, hn, hm, BitVec.zero_or,
    BitVec.or_zero]

theorem Instr.fieldN_onOne {code : Instr} (hcode : (code >>> 8) &&& 0x0F#16 = 0#16) (n : Fin 16) :
    (code.onOne n).fieldN = n := by
  have hn : ∀ n : Fin 16, ((BitVec.ofNat 16 n.val <<< 8) >>> 8) &&& 0x0F#16 =
      BitVec.ofNat 16 n.val := by decide
  apply fieldN_of_and
  rw [onOne, BitVec.ushiftRight_or_distrib, BitVec.and_or_distrib_right, hcode, hn,
    BitVec.zero_or]

theorem Instr.fieldM_onTwo {code : Instr} (hcode : (code >>> 4) &&& 0x0F#16 = 0#16)
    (n m : Fin 16) : (code.onTwo n m).fieldM = m := by
  have hn : ∀ n : Fin 16, ((BitVec.ofNat 16 n.val <<< 8) >>> 4) &&& 0x0F#16 = 0#16 := by decide
  have hm : ∀ m : Fin 16, ((BitVec.ofNat 16 m.val <<< 4) >>> 4) &&& 0x0F#16 =
      BitVec.ofNat 16 m.val := by decide
  have hback : ∀ n : Fin 16, Fin.ofNat 16 (BitVec.ofNat 16 n.val).toNat = n := by decide
  rw [fieldM, onTwo, BitVec.ushiftRight_or_distrib, BitVec.ushiftRight_or_distrib,
    BitVec.and_or_distrib_right, BitVec.and_or_distrib_right, hcode, hn, hm, BitVec.zero_or,
    BitVec.zero_or, hback]

/-- The decoder does not look at the registers of an instruction on two. -/
theorem opcodeOf_onTwo {code : Instr} {op : Opcode} (hmem : ⟨0xF00F, code, op⟩ ∈ executeTable)
    (hcode : code &&& 0xF00F#16 = code)
    (hapart : ∀ other ∈ executeTable, other.result = op ∨
      code &&& other.mask ≠ other.value &&& 0xF00F#16) (n m : Fin 16) :
    opcodeOf (code.onTwo n m) = op := by
  have hn : ∀ n : Fin 16, (BitVec.ofNat 16 n.val <<< 8) &&& 0xF00F#16 = 0#16 := by decide
  have hm : ∀ m : Fin 16, (BitVec.ofNat 16 m.val <<< 4) &&& 0xF00F#16 = 0#16 := by decide
  refine opcodeOf_of_matches hmem (beq_iff_eq.mpr ?_) hapart
  show code.onTwo n m &&& 0xF00F#16 = code
  rw [Instr.onTwo, BitVec.and_or_distrib_right, BitVec.and_or_distrib_right, hcode, hn, hm,
    BitVec.or_zero, BitVec.or_zero]

theorem opcodeOf_onOne {code : Instr} {op : Opcode} (hmem : ⟨0xF0FF, code, op⟩ ∈ executeTable)
    (hcode : code &&& 0xF0FF#16 = code)
    (hapart : ∀ other ∈ executeTable, other.result = op ∨
      code &&& other.mask ≠ other.value &&& 0xF0FF#16) (n : Fin 16) :
    opcodeOf (code.onOne n) = op := by
  have hn : ∀ n : Fin 16, (BitVec.ofNat 16 n.val <<< 8) &&& 0xF0FF#16 = 0#16 := by decide
  refine opcodeOf_of_matches hmem (beq_iff_eq.mpr ?_) hapart
  show code.onOne n &&& 0xF0FF#16 = code
  rw [Instr.onOne, BitVec.and_or_distrib_right, hcode, hn, BitVec.or_zero]

/-! ### Programs -/

/-- The registers of `x` with the `pc` of another instruction. -/
def Registers.withPc (x : Registers) (pc : Addr) : Registers := { x with pc }

namespace SH2Core

variable {core : SH2Core} {instr : Instr} {trace : TraceLog} {op : RegOp}

/-- The next instruction is not the delay slot of an RTE that restores `sr`. -/
def SrKept (core : SH2Core) : Prop :=
  core.pendingBranchTarget = none ∨ core.pendingRteRestore = false

/-- A register instruction has its effect on the registers. -/
theorem executeInstruction_reg (hop : opcodeOf instr = .reg op) (hkept : core.SrKept)
    (trace : TraceLog) :
    (∃ pc, (core.executeInstruction instr trace).1.toRegisters =
      (op.effect instr core.toRegisters).withPc pc) ∧
      (core.executeInstruction instr trace).1.SrKept := by
  rw [executeInstruction_eq, hop]
  cases hslot : core.pendingBranchTarget with
  | none => exact ⟨⟨_, rfl⟩, Or.inl rfl⟩
  | some target =>
    have hrestore : core.pendingRteRestore = false := hkept.resolve_left (by simp [hslot])
    have htake : ∀ b : SH2Core, b.pendingRteRestore = false →
        b.takeBranch target = { b with pc := target } := by
      intro b hb
      simp only [takeBranch, hb, Bool.false_eq_true, if_false]
    simp only [settle]
    rw [htake _ (by exact hrestore)]
    exact ⟨⟨target, rfl⟩, Or.inl rfl⟩

/-- Instruction words executed one after the other. -/
def executeAll (core : SH2Core) (trace : TraceLog) : List Instr → SH2Core × TraceLog
  | [] => (core, trace)
  | instr :: instrs =>
    let (core, trace) := core.executeInstruction instr trace
    core.executeAll trace instrs

end SH2Core

end Saturnis.Cpu
