/-
Pushes and pops of system registers, their fetches hit.

A push moves its address register down by four and stores there.  A pop loads
the system register and moves the address register up again unless it is the
destination of the load; a pop has no destination, and the field then says
`R0`.

* `run_pushSys`, `run_popSys` — what each of them does;
* `Between.restored_iff` — **a pop undoes a push exactly when the address
  register is not `R0`**.
-/
import Saturnis.Sh2Access
import Saturnis.Sh2Program

namespace Saturnis.Cpu

open Saturnis.Core Saturnis.Mem Saturnis.Bus

/-! ### Words -/

/-- `STC.L X,@-Rn`, `STS.L X,@-Rn` -/
def pushWord (source : SysReg) (n : Fin 16) : Instr :=
  match source with
  | .sr => Instr.onOne 0x4003#16 n
  | .gbr => Instr.onOne 0x4013#16 n
  | .vbr => Instr.onOne 0x4023#16 n
  | .mach => Instr.onOne 0x4002#16 n
  | .macl => Instr.onOne 0x4012#16 n
  | .pr => Instr.onOne 0x4022#16 n

/-- `LDC.L @Rn+,X`, `LDS.L @Rn+,X` -/
def popWord (target : SysReg) (n : Fin 16) : Instr :=
  match target with
  | .sr => Instr.onOne 0x4007#16 n
  | .gbr => Instr.onOne 0x4017#16 n
  | .vbr => Instr.onOne 0x4027#16 n
  | .mach => Instr.onOne 0x4006#16 n
  | .macl => Instr.onOne 0x4016#16 n
  | .pr => Instr.onOne 0x4026#16 n

theorem dataFormOf_pushWord (source : SysReg) (n : Fin 16) :
    dataFormOf (pushWord source n) = some (.pushSys source) := by
  have hform : ∀ n : Fin 16, ∀ source ∈ [SysReg.sr, .gbr, .vbr, .mach, .macl, .pr],
      dataFormOf (pushWord source n) = some (.pushSys source) := by decide +kernel
  exact hform n source (by cases source <;> decide)

theorem dataFormOf_popWord (target : SysReg) (n : Fin 16) :
    dataFormOf (popWord target n) = some (.popSys target) := by
  have hform : ∀ n : Fin 16, ∀ target ∈ [SysReg.sr, .gbr, .vbr, .mach, .macl, .pr],
      dataFormOf (popWord target n) = some (.popSys target) := by decide +kernel
  exact hform n target (by cases target <;> decide)

theorem fieldN_pushWord (source : SysReg) (n : Fin 16) : (pushWord source n).fieldN = n := by
  cases source <;> exact Instr.fieldN_onOne (by decide) n

theorem fieldN_popWord (target : SysReg) (n : Fin 16) : (popWord target n).fieldN = n := by
  cases target <;> exact Instr.fieldN_onOne (by decide) n

theorem Registers.getSys_setSys (x : Registers) (target : SysReg) (value : Word) :
    (x.setSys target value).getSys target = value := by
  cases target <;> rfl

theorem Registers.setSys_r (x : Registers) (target : SysReg) (value : Word) :
    (x.setSys target value).r = x.r := by
  cases target <;> rfl

theorem Registers.getSys_writeReg (x : Registers) (n : Fin 16) (value : Word) (source : SysReg) :
    (x.writeReg n value).getSys source = x.getSys source := by
  cases source <;> rfl

theorem Registers.getSys_withPc (x : Registers) (pc : Addr) (source : SysReg) :
    (x.withPc pc).getSys source = x.getSys source := by
  cases source <;> rfl

namespace SH2Core

variable {core core' : SH2Core} {arb arb' : BusArbiter} {seq seq' : Nat} {source : SysReg}
  {n : Fin 16}

/-- Nothing is pending and the cache answers the fetch of that instruction. -/
structure Hits (core : SH2Core) (arb : BusArbiter) (instr : Instr) : Prop where
  rest : core.Boundary
  running : arb.trace.shouldHalt = false
  order : core.InOrder arb
  cached : core.cachedInstr = some instr

/-! ### The two instructions -/

theorem run_pushSys (h : core.Hits arb (pushWord source n))
    (hram : isMmio (toPhys (core.r n - 4)) = false) :
    (core.runInstruction arb seq).1.r = Function.update core.r n (core.r n - 4) ∧
      (core.runInstruction arb seq).2.memory =
        arb.memory.write (toPhys (core.r n - 4)) 4 (core.getSys source) := by
  obtain ⟨hregisters, hmemory⟩ := @run_access core arb seq _ _ h.rest.toQuiet h.rest.branch h.order
    h.cached (dataFormOf_pushWord source n) rfl
  have hstart : core.startAccess (.pushSys source) (pushWord source n) =
      (core.setReg n (core.r n - 4),
        { kind := .writeLong, physAddr := toPhys (core.r n - 4), value := core.getSys source }) := by
    have hsys : (core.setReg n (core.r n - 4)).getSys source = core.getSys source := by
      cases source <;> rfl
    rw [startAccess]
    simp only [fieldN_pushWord, hsys]
    rw [show (core.setReg n (core.r n - 4)).r n = core.r n - 4 from Function.update_self _ _ _]
  rw [hstart] at hregisters hmemory
  simp only at hregisters hmemory
  rw [afterAccess_store rfl rfl] at hregisters
  rw [answer_write h.running rfl rfl, if_neg (Bool.eq_false_iff.mp hram)] at hmemory
  exact ⟨congrArg Registers.r hregisters, hmemory⟩

theorem run_popSys (h : core.Hits arb (popWord source n))
    (hram : isMmio (toPhys (core.r n)) = false) :
    (core.runInstruction arb seq).1.getSys source = arb.memory.read (toPhys (core.r n)) 4 ∧
      (core.runInstruction arb seq).1.r =
        if n ≠ 0 then Function.update core.r n (core.r n + 4) else core.r := by
  obtain ⟨hregisters, -⟩ := @run_access core arb seq _ _ h.rest.toQuiet h.rest.branch h.order
    h.cached (dataFormOf_popWord source n) rfl
  have hstart : core.startAccess (.popSys source) (popWord source n) =
      (core, { kind := .readLong, physAddr := toPhys (core.r n), postIncReg := some n
               postIncSize := 4, aux := source.loadAux }) := by
    rw [startAccess]
    simp only [fieldN_popWord]
  rw [hstart] at hregisters
  simp only at hregisters
  rw [answer_ramRead h.running hram rfl rfl, afterAccess_popSys] at hregisters
  change _ = (Registers.withPc _ _) at hregisters
  by_cases hzero : n ≠ 0
  · rw [if_pos hzero] at hregisters ⊢
    rw [hregisters, Registers.getSys_withPc, Registers.getSys_writeReg, Registers.getSys_setSys]
    refine ⟨rfl, ?_⟩
    show Function.update (core.setSys source _).r n _ = _
    rw [Registers.setSys_r]
  · rw [if_neg hzero] at hregisters ⊢
    rw [hregisters, Registers.getSys_withPc, Registers.getSys_setSys]
    exact ⟨rfl, Registers.setSys_r _ _ _⟩

/-! ### One after the other -/

/-- A push, and a pop whose core has the general registers of the push and may
have any system registers. -/
structure Between (source : SysReg) (n : Fin 16) (core : SH2Core) (arb : BusArbiter) (seq : Nat)
    (core' : SH2Core) (arb' : BusArbiter) : Prop where
  push : core.Hits arb (pushWord source n)
  word : RamWord arb.memory (toPhys (core.r n - 4))
  kept : core'.r = (core.runInstruction arb seq).1.r
  memory : arb'.memory = (core.runInstruction arb seq).2.memory
  pop : core'.Hits arb' (popWord source n)

/-- The system register and the address register are what they were before the
push, and so is every other general register. -/
structure Restored (source : SysReg) (n : Fin 16) (before after : SH2Core) : Prop where
  system : after.getSys source = before.getSys source
  address : after.r n = before.r n
  others : ∀ k ≠ n, after.r k = before.r k

theorem Between.popped (h : Between source n core arb seq core' arb') (seq' : Nat) :
    (core'.runInstruction arb' seq').1.getSys source = core.getSys source ∧
      (core'.runInstruction arb' seq').1.r =
        if n ≠ 0 then core.r else Function.update core.r n (core.r n - 4) := by
  obtain ⟨hmoved, hstored⟩ := @run_pushSys core arb seq source n h.push h.word.ram
  have haddress : core'.r n = core.r n - 4 := by rw [h.kept, hmoved, Function.update_self]
  obtain ⟨hloaded, hr⟩ := @run_popSys core' arb' seq' source n h.pop
    (by rw [haddress]; exact h.word.ram)
  rw [haddress, h.memory, hstored, CommittedMemory.read_write_self h.word.inside] at hloaded
  refine ⟨hloaded, ?_⟩
  rw [hr, haddress, BitVec.sub_add_cancel, h.kept, hmoved, Function.update_idem,
    Function.update_eq_self]

/-- **A pop restores what the push has changed exactly when** the address
register is not `R0`. -/
theorem Between.restored_iff (h : Between source n core arb seq core' arb') (seq' : Nat) :
    Restored source n core (core'.runInstruction arb' seq').1 ↔ n ≠ 0 := by
  obtain ⟨hsystem, hr⟩ := h.popped seq'
  constructor
  · intro hrestored hzero
    have haddress := hrestored.address
    rw [hr, if_neg (not_not.mpr hzero), Function.update_self] at haddress
    have hmoved : ∀ a : Word, a - 4 ≠ a := fun a heq => by grind
    exact hmoved _ haddress
  · intro hne
    rw [if_pos hne] at hr
    exact ⟨hsystem, congrFun hr n, fun k _ => congrFun hr k⟩

/-- A push of `pr` and a pop of it, in a cached line. -/
def stackLine (n : Fin 16) : TinyCache :=
  (TinyCache.make 16 64).fillLine 0
    ([(pushWord .pr n >>> 8).setWidth 8, (pushWord .pr n).setWidth 8,
      (popWord .pr n >>> 8).setWidth 8, (popWord .pr n).setWidth 8] ++ List.replicate 12 0)

def stackCore (n : Fin 16) : SH2Core :=
  { pr := 5, r := Function.update (fun _ => 0) n 0x20, icache := stackLine n }

def stackBus : BusArbiter := { memory := ⟨List.replicate 64 0⟩ }

/-- The push is done and `pr` has another value. -/
def stackPushed (n : Fin 16) : SH2Core :=
  { ((stackCore n).runInstruction stackBus 0).1 with pr := 9 }

theorem between_stack {n : Fin 16} (h : n = 0 ∨ n = 15) :
    Between .pr n (stackCore n) stackBus 0 (stackPushed n) ((stackCore n).runInstruction stackBus 0).2 := by
  rcases h with rfl | rfl
  all_goals exact ⟨⟨⟨⟨rfl, rfl⟩, rfl, rfl⟩, rfl, ⟨by decide, by decide⟩, by decide +kernel⟩,
    ⟨by decide, by decide⟩, rfl, rfl, ⟨⟨⟨by decide +kernel, by decide +kernel⟩, by decide +kernel,
      by decide +kernel⟩, by decide +kernel, ⟨by decide +kernel, by decide +kernel⟩,
      by decide +kernel⟩⟩

/-- `STS.L PR,@-R15`, `LDS.L @R15+,PR` -/
theorem restored_r15 : Restored .pr 15 (stackCore 15)
    ((stackPushed 15).runInstruction ((stackCore 15).runInstruction stackBus 0).2 1).1 :=
  ((between_stack (Or.inr rfl)).restored_iff 1).mpr (by decide)

/-- `STS.L PR,@-R0`, `LDS.L @R0+,PR` -/
theorem not_restored_r0 :
    ¬ ∀ (source : SysReg) (n : Fin 16) (core core' : SH2Core) (arb arb' : BusArbiter)
      (seq seq' : Nat), Between source n core arb seq core' arb' →
        Restored source n core (core'.runInstruction arb' seq').1 := by
  intro hall
  have haddress := (hall .pr 0 _ _ _ _ 0 1 (between_stack (Or.inl rfl))).address
  rw [((between_stack (Or.inl rfl)).popped 1).2, if_neg (by decide), Function.update_self] at haddress
  exact absurd haddress (by decide)

end SH2Core

end Saturnis.Cpu
