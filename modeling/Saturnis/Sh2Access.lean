/-
Data accesses whose fetch hits.

`produce_until_bus` issues the access of a cached instruction, and
`apply_ifetch_and_step` ends it when the response is there.  An access leaves
the registers and the memory alone exactly when it is harmless: a load of what
the register holds already, or a store of what memory has there already.

* `Harmless` — the accesses that change nothing, form by form;
* `run_access` — an access of one phase;
* `HitAccess.rmw` — a read-modify-write, both phases;
* `HitAccess.undisturbed_iff` — a hit changes nothing exactly when it is harmless.
-/
import Saturnis.Sh2DelaySlot
import Saturnis.Sh2Dispatch

namespace Saturnis

open Saturnis.Core Saturnis.Mem Saturnis.Bus

namespace Mem

/-- Memories that cannot be told apart. -/
structure SameMemory (a b : CommittedMemory) : Prop where
  size : a.size = b.size
  bytes : ∀ addr, a.byteAt addr = b.byteAt addr

theorem SameMemory.refl (a : CommittedMemory) : SameMemory a a := ⟨rfl, fun _ => rfl⟩

end Mem

namespace Cpu

/-- What a load puts in a register. -/
def AccessWidth.extend (width : AccessWidth) (value : Word) : Word :=
  match width with
  | byte => (value.setWidth 8).signExtend 32
  | word => (value.setWidth 16).signExtend 32
  | long => value

namespace SH2Core

variable {core : SH2Core} {arb : BusArbiter} {seq : Nat} {instr : Instr} {form : DataForm}
  {width : AccessWidth} {addr : Addr}

/-- What a load at that address is answered. -/
def loaded (core : SH2Core) (arb : BusArbiter) (width : AccessWidth) (addr : Addr) : Word :=
  (arb.answer (core.pendingOp 0
    { kind := width.readKind, physAddr := toPhys addr, size := width.bytes })).value

/-- The register holds what a load at that address would put there. -/
def Holds (core : SH2Core) (arb : BusArbiter) (n : Fin 16) (width : AccessWidth) (addr : Addr) :
    Prop :=
  core.r n = width.extend (core.loaded arb width addr)

/-- A store at that address is one to a device, or memory has the value there. -/
def Keeps (arb : BusArbiter) (width : AccessWidth) (addr : Addr) (value : Word) : Prop :=
  isMmio (toPhys addr) = false →
    SameMemory (arb.memory.write (toPhys addr) width.bytes value) arb.memory

/-- The data access changes neither a register nor the memory. -/
def Harmless (core : SH2Core) (arb : BusArbiter) (instr : Instr) : DataForm → Prop
  | .load width => core.Holds arb instr.fieldN width (core.r instr.fieldM)
  | .loadDisp => core.Holds arb instr.fieldN .long (core.r instr.fieldM + instr.fieldDisp4 * 4)
  | .loadDispR0 width =>
    core.Holds arb 0 width (core.r instr.fieldM + instr.fieldDisp4 * width.scale)
  | .loadIndexed width => core.Holds arb instr.fieldN width (core.r 0 + core.r instr.fieldM)
  | .loadPcWord => core.Holds arb instr.fieldN .word (core.pc + 4 + instr.fieldImm8 * 2)
  | .loadPcLong =>
    core.Holds arb instr.fieldN .long (((core.pc + 4) &&& ~~~3#32) + instr.fieldImm8 * 4)
  | .loadGbr width => core.Holds arb 0 width (core.gbr + instr.fieldImm8 * width.scale)
  | .loadPostInc width =>
    -- any other register is incremented
    instr.fieldM = instr.fieldN ∧ core.Holds arb instr.fieldN width (core.r instr.fieldM)
  | .storeDisp =>
    Keeps arb .long (core.r instr.fieldN + instr.fieldDisp4 * 4) (core.r instr.fieldM)
  | .store width => Keeps arb width (core.r instr.fieldN) (width.truncate (core.r instr.fieldM))
  | .storeIndexed width =>
    Keeps arb width (core.r 0 + core.r instr.fieldN) (width.truncate (core.r instr.fieldM))
  | .storeGbr width =>
    Keeps arb width (core.gbr + instr.fieldImm8 * width.scale) (width.truncate (core.r 0))
  | .storeDispHigh width =>
    Keeps arb width (core.r instr.fieldN + BitVec.ofNat 32 instr.fieldM.val * width.scale)
      (width.truncate (core.r 0))
  | .storeDispLow width =>
    Keeps arb width (core.r instr.fieldM + instr.fieldDisp4 * width.scale)
      (width.truncate (core.r 0))
  | .rmw op =>
    Keeps arb .byte (core.gbr + core.r 0)
      ((op.apply ((core.loaded arb .byte (core.gbr + core.r 0)).setWidth 8)
        (instr.fieldImm8.setWidth 8)).setWidth 32)
  | .popSys target =>
    -- `R0` passes for the destination, which is not incremented
    instr.fieldN = 0 ∧ core.getSys target = core.loaded arb .long (core.r instr.fieldN)
  -- these move the register of the address
  | .pushSys _ | .storePreDec _ => False

/-- The instruction has changed neither a register, `pc` aside, nor the memory. -/
structure Undisturbed (core : SH2Core) (arb : BusArbiter) (s : SH2Core × BusArbiter) : Prop where
  registers : s.1.toRegisters = { core.toRegisters with pc := core.pc + 2 }
  memory : SameMemory s.2.memory arb.memory

/-! ### Answers -/

theorem validBusSize_bytes (width : AccessWidth) : validBusSize width.bytes = true := by
  cases width <;> rfl

/-- A read leaves the memory alone. -/
theorem answer_read {pending : PendingMemOp} (hread : pending.kind.isWrite = false) :
    (arb.answer (core.pendingOp seq pending)).memory = arb.memory := by
  have hkind := pendingOp_read core seq hread
  exact (answer_store arb hkind.1 hkind.2).1

/-- A write goes to memory unless it is one to a device. -/
theorem answer_write {pending : PendingMemOp} (hrun : arb.trace.shouldHalt = false)
    (hwrite : pending.kind.isWrite = true) (hsize : validBusSize pending.size = true) :
    (arb.answer (core.pendingOp seq pending)).memory =
      if isMmio pending.physAddr then arb.memory
      else arb.memory.write pending.physAddr pending.size pending.value := by
  by_cases hmmio : isMmio pending.physAddr = true
  · rw [if_pos hmmio, BusArbiter.answer]
    split
    · rfl
    · have hkind : (core.pendingOp seq pending).kind = .mmioWrite := by
        show dataAccessKind pending.physAddr pending.kind.isWrite = .mmioWrite
        rw [dataAccessKind, if_pos hmmio, hwrite]
        rfl
      rw [BusArbiter.perform, if_neg (by simp [hkind]), if_pos (Or.inr hkind), if_pos (Or.inr hkind)]
  · have hram : isMmio pending.physAddr = false := by simpa using hmmio
    rw [if_neg hmmio, answer_ramWrite hrun hram hsize hwrite]

/-- A write that is answered keeps the memory exactly when the store keeps it. -/
theorem keeps_iff {value : Word} {pending : PendingMemOp} (hrun : arb.trace.shouldHalt = false)
    (hwrite : pending.kind.isWrite = true) (haddr : pending.physAddr = toPhys addr)
    (hsize : pending.size = width.bytes) (hvalue : pending.value = value) :
    SameMemory (arb.answer (core.pendingOp seq pending)).memory arb.memory ↔
      Keeps arb width addr value := by
  rw [answer_write hrun hwrite (by rw [hsize]; exact validBusSize_bytes width), Keeps, haddr,
    hsize, hvalue]
  by_cases hmmio : isMmio (toPhys addr) = true
  · rw [if_pos hmmio]
    exact iff_of_true (SameMemory.refl _) fun hram => absurd (hmmio.symm.trans hram) (by simp)
  · rw [if_neg hmmio]
    exact ⟨fun hsame _ => hsame, fun hkeeps => hkeeps (by simpa using hmmio)⟩

/-! ### The end of an access -/

/-- What a response leaves in the registers, `pc` aside. -/
def afterAccess (core : SH2Core) (pending : PendingMemOp) (value : Word) : Registers :=
  ((core.writeBack pending value).postIncrement pending).toRegisters

theorem afterAccess_congr {a b : SH2Core} (h : a.toRegisters = b.toRegisters)
    (pending : PendingMemOp) (value : Word) :
    a.afterAccess pending value = b.afterAccess pending value := by
  obtain ⟨f, hf⟩ := writeBack_eq pending value
  obtain ⟨g, hg⟩ := postIncrement_eq pending
  rw [afterAccess, afterAccess, hf, hf, hg, hg]
  show g (f a.toRegisters) = g (f b.toRegisters)
  rw [h]

theorem finishAccess_registers (hbranch : core.pendingBranchTarget = none)
    (pending : PendingMemOp) (value : Word) :
    (core.finishAccess pending value).toRegisters =
      { core.afterAccess pending value with pc := core.pc + 2 } := by
  obtain ⟨hpc, hbranch'⟩ := (core.writeBack pending value).postIncrement_pc pending
  obtain ⟨hpc', hbranch''⟩ := core.writeBack_pc pending value
  have hnone : ((core.writeBack pending value).postIncrement pending).pendingBranchTarget = none :=
    (hbranch'.trans hbranch'').trans hbranch
  simp only [finishAccess]
  rw [hnone]
  show { core.afterAccess pending value with
      pc := ((core.writeBack pending value).postIncrement pending).pc + 2 } = _
  rw [hpc, hpc']

theorem writeBack_load {pending : PendingMemOp} (hkind : pending.kind = width.readKind)
    (haux : pending.aux = 0) (value : Word) :
    core.writeBack pending value = core.setReg pending.dstReg (width.extend value) := by
  rw [writeBack, hkind]
  cases width with
  | byte => rfl
  | word => rfl
  | long =>
      simp only [AccessWidth.readKind]
      rw [haux]
      rfl

theorem afterAccess_load {pending : PendingMemOp} (hkind : pending.kind = width.readKind)
    (haux : pending.aux = 0) (hpost : pending.postIncReg = none) (value : Word) :
    core.afterAccess pending value = core.writeReg pending.dstReg (width.extend value) := by
  rw [afterAccess, postIncrement, hpost, writeBack_load hkind haux]
  rfl

theorem afterAccess_increment {pending : PendingMemOp} {m : Fin 16}
    (hkind : pending.kind = width.readKind) (haux : pending.aux = 0)
    (hpost : pending.postIncReg = some m) (hm : m ≠ pending.dstReg) (value : Word) :
    core.afterAccess pending value =
      (core.writeReg pending.dstReg (width.extend value)).writeReg m
        ((core.writeReg pending.dstReg (width.extend value)).r m + pending.postIncSize) := by
  rw [afterAccess, postIncrement, hpost, writeBack_load hkind haux]
  simp only
  rw [if_pos hm]
  rfl

theorem afterAccess_increment_self {pending : PendingMemOp} {m : Fin 16}
    (hkind : pending.kind = width.readKind) (haux : pending.aux = 0)
    (hpost : pending.postIncReg = some m) (hm : m = pending.dstReg) (value : Word) :
    core.afterAccess pending value = core.writeReg pending.dstReg (width.extend value) := by
  rw [afterAccess, postIncrement, hpost, writeBack_load hkind haux]
  simp only
  rw [if_neg (not_not.mpr hm)]
  rfl

/-- A pop of a system register increments any register but `R0`. -/
theorem afterAccess_popSys (target : SysReg) (phys : Addr) (n : Fin 16) (value : Word) :
    core.afterAccess { physAddr := phys, postIncReg := some n, postIncSize := 4,
                       aux := target.loadAux } value =
      if n ≠ 0 then (core.setSys target value).writeReg n (core.r n + 4)
      else core.setSys target value := by
  have haux : sysRegOfAux target.loadAux = some target := by cases target <;> decide
  rw [afterAccess, writeBack]
  simp only
  rw [haux]
  simp only [postIncrement]
  split
  · cases target <;> rfl
  · rfl

theorem afterAccess_store {pending : PendingMemOp} (hkind : pending.kind.isWrite = true)
    (hpost : pending.postIncReg = none) (value : Word) :
    core.afterAccess pending value = core.toRegisters := by
  rw [afterAccess, postIncrement, hpost, writeBack]
  cases h : pending.kind with
  | readLong | readWord | readByte =>
      rw [h] at hkind
      exact absurd hkind (by decide)
  | _ => rfl

/-! ### The hit -/

/-- A data access of one phase, its fetch hit. -/
theorem run_access (hquiet : core.Quiet) (hbranch : core.pendingBranchTarget = none)
    (horder : core.InOrder arb) (hcached : core.cachedInstr = some instr)
    (hform : dataFormOf instr = some form) (hleft : (core.startAccess form instr).2.kind.left = 1) :
    (core.runInstruction arb seq).1.toRegisters =
        { (core.startAccess form instr).1.afterAccess (core.startAccess form instr).2
            (arb.answer (core.pendingOp 0 (core.startAccess form instr).2)).value with
          pc := core.pc + 2 } ∧
      (core.runInstruction arb seq).2.memory =
        (arb.answer (core.pendingOp 0 (core.startAccess form instr).2)).memory := by
  have hnone : (core.accessing form instr).pendingBranchTarget = none :=
    (core.startAccess_branchTarget form instr).trans hbranch
  have horder' := accessing_inOrder horder form instr
  have hpc : (core.startAccess form instr).1.pc = core.pc := by cases form <;> rfl
  have hop : (core.accessing form instr).pendingOp seq (core.startAccess form instr).2 =
      core.pendingOp seq (core.startAccess form instr).2 := by cases form <;> rfl
  have haccess := core.startAccess_isAccess form instr
  have hstep := @step_access core arb seq form instr hquiet hcached hform
  -- an access with one part left is over in the step that asks for it
  obtain ⟨-, -, hdone⟩ := exchange_alone hnone rfl haccess hleft arb
    ((core.accessing form instr).pendingOp seq (core.startAccess form instr).2)
  rw [← hstep] at hdone
  obtain ⟨t, executed, hexchange⟩ :=
    @exchange_pending (core.accessing form instr) arb seq (core.startAccess form instr).2 rfl horder'
  have hmemory := @exchange_memory (core.accessing form instr) arb _
    (horder'.asks (asks_pendingOp _ seq (core.startAccess form instr).2))
  rw [runInstruction_one hdone, hstep]
  refine ⟨?_, ?_⟩
  · rw [hexchange, advancePending_last haccess hleft, hop]
    have hnone' : ({ core.accessing form instr with pendingMemOp := none } :
        SH2Core).pendingBranchTarget = none := hnone
    have hsame : ({ core.accessing form instr with pendingMemOp := none } : SH2Core).toRegisters =
        (core.startAccess form instr).1.toRegisters := rfl
    have hregs : ({ core.accessing form instr with pendingMemOp := none } : SH2Core).afterAccess
        (core.startAccess form instr).2
        (arb.answer (core.pendingOp seq (core.startAccess form instr).2)).value =
      (core.startAccess form instr).1.afterAccess (core.startAccess form instr).2
        (arb.answer (core.pendingOp 0 (core.startAccess form instr).2)).value :=
      afterAccess_congr hsame _ _
    refine (finishAccess_registers hnone' _ _).trans ?_
    rw [hregs]
    exact congrArg (fun pc : Addr => { (core.startAccess form instr).1.afterAccess
      (core.startAccess form instr).2 _ with pc := pc + 2 }) hpc
  · rw [hmemory, hop]
    rfl

theorem writeReg_self (x : Registers) (n : Fin 16) : x.writeReg n (x.r n) = x := by
  rw [Registers.writeReg, Function.update_eq_self]

theorem writeReg_eq_iff {x : Registers} {n : Fin 16} {value : Word} {pc : Addr} :
    { x.writeReg n value with pc := pc } = { x with pc := pc } ↔ x.r n = value := by
  constructor
  · intro h
    have hr : Function.update x.r n value = x.r := congrArg Registers.r h
    rw [← hr, Function.update_self]
  · rintro rfl
    rw [writeReg_self]

/-- The next instruction is a data access, its fetch hit. -/
structure HitAccess (core : SH2Core) (arb : BusArbiter) (seq : Nat) (instr : Instr)
    (form : DataForm) : Prop where
  quiet : core.Quiet
  branch : core.pendingBranchTarget = none
  running : arb.trace.shouldHalt = false
  order : core.InOrder arb
  clock : core.t ≤ (core.step arb seq).1.t
  cached : core.cachedInstr = some instr
  form : dataFormOf instr = some form

/-- An access of one phase that only loads a register. -/
theorem HitAccess.loads (h : core.HitAccess arb seq instr form) {n : Fin 16} {pending : PendingMemOp}
    (hstart : core.startAccess form instr = (core, pending)) (hkind : pending.kind = width.readKind)
    (hvalue : (arb.answer (core.pendingOp 0 pending)).value = core.loaded arb width addr)
    (hafter : ∀ value, core.afterAccess pending value = core.writeReg n (width.extend value)) :
    core.Undisturbed arb (core.runInstruction arb seq) ↔ core.Holds arb n width addr := by
  have hleft : pending.kind.left = 1 := by
    rw [hkind]
    cases width <;> rfl
  obtain ⟨hregisters, hmemory⟩ := @run_access core arb seq instr form h.quiet h.branch h.order
    h.cached h.form (by rw [hstart]; exact hleft)
  rw [hstart] at hregisters hmemory
  simp only at hregisters hmemory
  rw [hafter, hvalue] at hregisters
  rw [answer_read (by rw [hkind]; exact width.readKind_isWrite)] at hmemory
  constructor
  · intro hsame
    exact writeReg_eq_iff.mp (hregisters.symm.trans hsame.registers)
  · intro hholds
    refine ⟨hregisters.trans (writeReg_eq_iff.mpr hholds), ?_⟩
    rw [hmemory]
    exact SameMemory.refl _

theorem HitAccess.load (h : core.HitAccess arb seq instr form) {n : Fin 16}
    (hstart : core.startAccess form instr = (core, { kind := width.readKind
                                                     physAddr := toPhys addr
                                                     size := width.bytes
                                                     dstReg := n })) :
    core.Undisturbed arb (core.runInstruction arb seq) ↔ core.Holds arb n width addr :=
  h.loads hstart rfl rfl fun _ => by rw [afterAccess_load rfl rfl rfl]

theorem HitAccess.store (h : core.HitAccess arb seq instr form) {value : Word}
    (hstart : core.startAccess form instr = (core, { kind := width.writeKind
                                                     physAddr := toPhys addr
                                                     size := width.bytes
                                                     value := value })) :
    (core.runInstruction arb seq).1.toRegisters = { core.toRegisters with pc := core.pc + 2 } ∧
      (SameMemory (core.runInstruction arb seq).2.memory arb.memory ↔
        Keeps arb width addr value) := by
  have hleft : width.writeKind.left = 1 := by cases width <;> rfl
  obtain ⟨hregisters, hmemory⟩ := @run_access core arb seq instr form h.quiet h.branch h.order
    h.cached h.form (by rw [hstart]; exact hleft)
  rw [hstart] at hregisters hmemory
  simp only at hregisters hmemory
  rw [afterAccess_store width.writeKind_isWrite rfl] at hregisters
  rw [hmemory]
  exact ⟨hregisters, keeps_iff h.running width.writeKind_isWrite rfl rfl rfl⟩

/-- An access that moves a register disturbs it. -/
theorem HitAccess.moves (h : core.HitAccess arb seq instr form) (k : Fin 16)
    (hleft : (core.startAccess form instr).2.kind.left = 1)
    (hmoves : ∀ value, ((core.startAccess form instr).1.afterAccess
      (core.startAccess form instr).2 value).r k ≠ core.r k) :
    ¬ core.Undisturbed arb (core.runInstruction arb seq) := by
  intro hsame
  obtain ⟨hregisters, -⟩ := @run_access core arb seq instr form h.quiet h.branch h.order h.cached
    h.form hleft
  have hr := congrArg (fun x : Registers => x.r k) (hregisters.symm.trans hsame.registers)
  exact hmoves _ hr

/-- A load that increments another register moves it. -/
theorem HitAccess.loadPostInc (h : core.HitAccess arb seq instr (.loadPostInc width)) :
    core.Undisturbed arb (core.runInstruction arb seq) ↔
      core.Harmless arb instr (.loadPostInc width) := by
  by_cases hsame : instr.fieldM = instr.fieldN
  · have hload := @HitAccess.loads core arb seq instr _ width (core.r instr.fieldM) h instr.fieldN _
      rfl rfl rfl fun value => afterAccess_increment_self rfl rfl rfl hsame value
    rw [Harmless, hload]
    exact ⟨fun hholds => ⟨hsame, hholds⟩, fun hharmless => hharmless.2⟩
  · refine iff_of_false (h.moves instr.fieldM (by cases width <;> rfl) fun value => ?_)
      fun hharmless => hsame hharmless.1
    rw [afterAccess_increment rfl rfl rfl hsame]
    show Function.update (Function.update core.r instr.fieldN (width.extend value)) instr.fieldM
      (Function.update core.r instr.fieldN (width.extend value) instr.fieldM + width.scale)
      instr.fieldM ≠ core.r instr.fieldM
    rw [Function.update_self, Function.update_of_ne hsame]
    cases width <;> simp [AccessWidth.scale, AccessWidth.bytes]

theorem setSys_eq_iff {x : Registers} {target : SysReg} {value : Word} {pc : Addr} :
    { x.setSys target value with pc := pc } = { x with pc := pc } ↔ x.getSys target = value := by
  cases target with
  | sr => exact ⟨fun h => (congrArg Registers.sr h).symm, fun h => by rw [← h]; rfl⟩
  | gbr => exact ⟨fun h => (congrArg Registers.gbr h).symm, fun h => by rw [← h]; rfl⟩
  | vbr => exact ⟨fun h => (congrArg Registers.vbr h).symm, fun h => by rw [← h]; rfl⟩
  | mach => exact ⟨fun h => (congrArg Registers.mach h).symm, fun h => by rw [← h]; rfl⟩
  | macl => exact ⟨fun h => (congrArg Registers.macl h).symm, fun h => by rw [← h]; rfl⟩
  | pr => exact ⟨fun h => (congrArg Registers.pr h).symm, fun h => by rw [← h]; rfl⟩

theorem HitAccess.popSys {target : SysReg} (h : core.HitAccess arb seq instr (.popSys target)) :
    core.Undisturbed arb (core.runInstruction arb seq) ↔
      core.Harmless arb instr (.popSys target) := by
  have hafter := @afterAccess_popSys core target (toPhys (core.r instr.fieldN)) instr.fieldN
  by_cases hzero : instr.fieldN = 0
  · obtain ⟨hregisters, hmemory⟩ := @run_access core arb seq instr _ h.quiet h.branch h.order
      h.cached h.form rfl
    rw [answer_read rfl] at hmemory
    have hset := fun value => (hafter value).trans (if_neg (not_not.mpr hzero))
    have hsame := hregisters.trans (congrArg (fun x : Registers => { x with pc := core.pc + 2 })
      (hset (core.loaded arb .long (core.r instr.fieldN))))
    rw [Harmless]
    constructor
    · exact fun hundisturbed =>
        ⟨hzero, setSys_eq_iff.mp (hsame.symm.trans hundisturbed.registers)⟩
    · rintro ⟨-, hholds⟩
      refine ⟨hsame.trans (setSys_eq_iff.mpr hholds), ?_⟩
      rw [hmemory]
      exact SameMemory.refl _
  · refine iff_of_false (h.moves instr.fieldN rfl fun value => ?_) fun hharmless =>
      hzero hharmless.1
    have hmoved := congrArg (fun x : Registers => x.r instr.fieldN)
      ((hafter value).trans (if_pos hzero))
    refine fun heq => ?_
    have hsum := (Function.update_self instr.fieldN _ _).symm.trans (hmoved.symm.trans heq)
    exact absurd hsum (by simp)

theorem validate_byte (op : BusOp) (hsize : op.size = 1) : validateBusOp op = .none := by
  rw [validateBusOp, hsize]
  split
  · rfl
  · simp [validBusSize, isAligned]

/-- After the read of a read-modify-write the arbiter is as it was, and the write is next. -/
theorem HitAccess.rmw_read {op : RmwOp} (h : core.HitAccess arb seq instr (.rmw op)) :
    (core.step arb seq).1.pendingMemOp = some
        { kind := .rmwWriteByte
          physAddr := toPhys (core.gbr + core.r 0)
          size := 1
          value := (op.apply ((core.loaded arb .byte (core.gbr + core.r 0)).setWidth 8)
            (instr.fieldImm8.setWidth 8)).setWidth 32 } ∧
      (core.step arb seq).1.toRegisters = core.toRegisters ∧
      (core.step arb seq).1.pendingBranchTarget = none ∧
      (core.step arb seq).2.memory = arb.memory ∧
      (core.step arb seq).2.trace.shouldHalt = false := by
  have horder := accessing_inOrder h.order (.rmw op) instr
  have hasks := horder.asks (asks_pendingOp _ seq (core.startAccess (.rmw op) instr).2)
  have hread : (core.startAccess (.rmw op) instr).2.kind.isWrite = false := op.readKind_isWrite
  have hvalue : (arb.answer ((core.accessing (.rmw op) instr).pendingOp seq
      (core.startAccess (.rmw op) instr).2)).value =
        core.loaded arb .byte (core.gbr + core.r 0) := by cases op <;> rfl
  obtain ⟨t, executed, hexchange⟩ := @exchange_pending (core.accessing (.rmw op) instr) arb seq
    (core.startAccess (.rmw op) instr).2 rfl horder
  have hmemory := @exchange_memory (core.accessing (.rmw op) instr) arb _ hasks
  have hhalt := BusArbiter.commit_shouldHalt hasks
  rw [step_access h.quiet h.cached h.form]
  rw [hvalue] at hexchange
  -- the read's answer only builds the write that follows it
  have hnext : ({ core.accessing (.rmw op) instr with pendingMemOp := none } : SH2Core).advancePending
      (core.startAccess (.rmw op) instr).2 (core.loaded arb .byte (core.gbr + core.r 0)) =
        ({ core.accessing (.rmw op) instr with pendingMemOp := none } : SH2Core).rmwWrite
          (core.startAccess (.rmw op) instr).2 op (core.loaded arb .byte (core.gbr + core.r 0)) := by
    cases op <;> rfl
  rw [hexchange, hnext, hmemory, answer_read hread]
  refine ⟨rfl, rfl, h.branch, rfl, ?_⟩
  rw [exchange_eq, applyIfetchAndStep_of_pending rfl]
  refine Eq.trans ?_ (hhalt.trans ?_)
  · rfl
  · rw [validate_byte _ rfl, h.running]
    rfl

/-- The write of a read-modify-write is a store of the byte. -/
theorem HitAccess.rmw {op : RmwOp} (h : core.HitAccess arb seq instr (.rmw op)) :
    (core.runInstruction arb seq).1.toRegisters = { core.toRegisters with pc := core.pc + 2 } ∧
      (SameMemory (core.runInstruction arb seq).2.memory arb.memory ↔
        core.Harmless arb instr (.rmw op)) := by
  obtain ⟨hnext, hregs, hnone, hstill, hrun⟩ := h.rmw_read
  have horder := inOrder_step h.order h.clock
  have hvector := @step_keeps_vector core arb seq h.quiet.vector
  have hsecond := @step_pending _ (core.step arb seq).2 (seq + 1) _ hvector hnext
  obtain ⟨t, executed, hexchange⟩ :=
    @exchange_pending _ (core.step arb seq).2 (seq + 1) _ hnext horder
  rw [runInstruction_two hnext rfl, hsecond, hexchange,
    exchange_memory (horder.asks (asks_pendingOp _ _ _)), ← hstill]
  constructor
  · rw [advancePending_last rfl rfl]
    have hnone' : ({ (core.step arb seq).1 with pendingMemOp := none } :
        SH2Core).pendingBranchTarget = none := hnone
    refine (finishAccess_registers hnone' _ _).trans ?_
    rw [afterAccess_store rfl rfl]
    exact congrArg (fun x : Registers => { x with pc := x.pc + 2 }) hregs
  · refine Iff.trans (b := Keeps (core.step arb seq).2 .byte (core.gbr + core.r 0) _)
      (keeps_iff hrun rfl rfl rfl rfl) ?_
    rw [Harmless, Keeps, Keeps, hstill]

/-- **The hit** leaves everything alone exactly when its access is harmless. -/
theorem HitAccess.undisturbed_iff (h : core.HitAccess arb seq instr form) :
    core.Undisturbed arb (core.runInstruction arb seq) ↔ core.Harmless arb instr form := by
  have hstore : ∀ {p : Prop}, (core.runInstruction arb seq).1.toRegisters =
        { core.toRegisters with pc := core.pc + 2 } ∧
      (SameMemory (core.runInstruction arb seq).2.memory arb.memory ↔ p) →
      (core.Undisturbed arb (core.runInstruction arb seq) ↔ p) := by
    rintro p ⟨hregisters, hmemory⟩
    exact ⟨fun hsame => hmemory.mp hsame.memory, fun hp => ⟨hregisters, hmemory.mpr hp⟩⟩
  have hdecrement : ∀ {x y : Word}, y ≠ 0 → x - y ≠ x := fun hy heq => hy (by grind)
  cases form with
  | load width => exact h.load rfl
  | loadDisp => exact h.load rfl
  | loadDispR0 width => exact h.load rfl
  | loadIndexed width => exact h.load rfl
  | loadPcWord => exact h.load rfl
  | loadPcLong => exact h.load rfl
  | loadGbr width => exact h.load rfl
  | storeDisp => exact hstore (h.store rfl)
  | store width => exact hstore (h.store rfl)
  | storeIndexed width => exact hstore (h.store rfl)
  | storeGbr width => exact hstore (h.store rfl)
  | storeDispHigh width => exact hstore (h.store rfl)
  | storeDispLow width => exact hstore (h.store rfl)
  | rmw op => exact hstore h.rmw
  | popSys target => exact h.popSys
  -- a push moves its address register whatever memory holds
  | pushSys source =>
      refine iff_of_false (h.moves instr.fieldN rfl fun value => ?_) id
      rw [afterAccess_store rfl rfl]
      show Function.update core.r instr.fieldN (core.r instr.fieldN - 4) instr.fieldN ≠ _
      rw [Function.update_self]
      exact hdecrement (by decide)
  | storePreDec width =>
      refine iff_of_false (h.moves instr.fieldN (by cases width <;> rfl) fun value => ?_) id
      rw [afterAccess_store width.writeKind_isWrite rfl]
      show Function.update core.r instr.fieldN (core.r instr.fieldN - width.scale) instr.fieldN ≠ _
      rw [Function.update_self]
      exact hdecrement (by cases width <;> decide)
  | loadPostInc width => exact h.loadPostInc

theorem HitAccess.pc (h : core.HitAccess arb seq instr form) :
    (core.runInstruction arb seq).1.pc = core.pc + 2 := by
  have hone : (core.startAccess form instr).2.kind.left = 1 →
      (core.runInstruction arb seq).1.pc = core.pc + 2 := fun hleft =>
    congrArg Registers.pc (run_access h.quiet h.branch h.order h.cached h.form hleft).1
  cases form with
  | rmw op => exact congrArg Registers.pc h.rmw.1
  | load width | loadDispR0 width | loadIndexed width | loadGbr width | loadPostInc width
  | store width | storeIndexed width | storeGbr width | storeDispHigh width | storeDispLow width
  | storePreDec width =>
      exact hone (by cases width <;> rfl)
  | _ => exact hone rfl

end SH2Core

end Cpu

end Saturnis
