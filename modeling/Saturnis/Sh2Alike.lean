/-
Cores that differ in their clocks only.

Two cores are alike when they have the same registers and the same pending
state; their clocks and counters, the values an RTE has popped before, and some
lines of their instruction caches may differ.  Alike cores on arbiters that
agree outside some bytes take alike steps, as long as a step neither reads one
of these bytes nor fetches from one of these lines.

* `AlikeCore.execute`, `AlikeCore.advance` — an instruction, a response;
* `Alike.step` — a step of both;
* `Alike.steps` — runs of both.
-/
import Saturnis.Sh2Step

namespace Saturnis

open Saturnis.Core Saturnis.Mem Saturnis.Bus

namespace Mem.TinyCache

variable {I : Nat → Prop} {c d : TinyCache}

/-- Caches of one geometry with the same lines outside the indices `I`. -/
structure SameLines (I : Nat → Prop) (c d : TinyCache) : Prop where
  lineSize : c.lineSize = d.lineSize
  length : c.lines.length = d.lines.length
  lines : ∀ i, ¬ I i → c.lines.getD i {} = d.lines.getD i {}

/-- The index of the line of an address. -/
def indexOf (c : TinyCache) (phys : Addr) : Nat := c.index (c.lineBase phys)

theorem SameLines.indexOf (h : SameLines I c d) (phys : Addr) :
    c.indexOf phys = d.indexOf phys := by
  rw [TinyCache.indexOf, TinyCache.indexOf, index, index, lineBase, lineBase, h.lineSize, h.length]

theorem SameLines.read (h : SameLines I c d) {phys : Addr} (hI : ¬ I (d.indexOf phys))
    (size : Nat) : c.read phys size = d.read phys size := by
  have hbase : c.lineBase phys = d.lineBase phys := by rw [lineBase, lineBase, h.lineSize]
  have hline : c.line (c.lineBase phys) = d.line (d.lineBase phys) := by
    have hsame := h.lines _ (h.indexOf phys ▸ hI)
    rw [line, line]
    show c.lines.getD (c.indexOf phys) {} = d.lines.getD (d.indexOf phys) {}
    rw [hsame, h.indexOf]
  have hoffset : c.offset phys = d.offset phys := by rw [offset, offset, h.lineSize]
  simp only [TinyCache.read]
  rw [hline, hbase, hoffset, h.lineSize]

theorem SameLines.fillLine (h : SameLines I c d) (base : Word) (data : List Byte) :
    SameLines I (c.fillLine base data) (d.fillLine base data) := by
  rw [TinyCache.fillLine, TinyCache.fillLine, h.lineSize]
  split
  · exact h
  · have hindex : c.index base = d.index base := by rw [index, index, h.length]
    refine ⟨rfl, ?_, fun i hi => ?_⟩
    · rw [List.length_set, List.length_set, h.length]
    · rw [List.getD_eq_getElem?_getD, List.getD_eq_getElem?_getD, List.getElem?_set,
        List.getElem?_set, hindex, h.length]
      split
      · rfl
      · rw [← List.getD_eq_getElem?_getD, ← List.getD_eq_getElem?_getD]
        exact h.lines i hi

/-- A fill changes the line of its index only. -/
theorem sameLines_fillLine (c : TinyCache) (base : Word) (data : List Byte)
    (hI : I (c.index base)) : SameLines I (c.fillLine base data) c := by
  rw [TinyCache.fillLine]
  split
  · exact ⟨rfl, rfl, fun _ _ => rfl⟩
  · refine ⟨rfl, List.length_set, fun i hi => ?_⟩
    have hne : c.index base ≠ i := fun heq => hi (heq ▸ hI)
    rw [List.getD_eq_getElem?_getD, List.getElem?_set, if_neg hne, ← List.getD_eq_getElem?_getD]

end Mem.TinyCache

namespace Cpu.SH2Core

variable {I : Nat → Prop} {D : Addr → Prop} {a b core : SH2Core} {ta tb : TraceLog} {instr : Instr}

/-- The core without its clock, its counter, its cache and the values popped by
an RTE. -/
def forget (core : SH2Core) : SH2Core :=
  { core with
    t := 0
    executed := 0
    pendingNewPc := 0
    pendingNewSr := 0
    icache := ⟨0, []⟩ }

structure AlikeCore (I : Nat → Prop) (a b : SH2Core) : Prop where
  forget : a.forget = b.forget
  newPc : ∀ pending, a.pendingMemOp = some pending → pending.kind = .rtePopSr →
    a.pendingNewPc = b.pendingNewPc
  newSr : a.pendingRteRestore = true → a.pendingNewSr = b.pendingNewSr
  icache : TinyCache.SameLines I a.icache b.icache

/-- Logs that halt alike. -/
structure SameHalt (ta tb : TraceLog) : Prop where
  haltOnFault : ta.haltOnFault = tb.haltOnFault
  shouldHalt : ta.shouldHalt = tb.shouldHalt

theorem SameHalt.addFault (h : SameHalt ta tb) (e e' : FaultEvent) :
    SameHalt (ta.addFault e) (tb.addFault e') := by
  refine ⟨h.haltOnFault, ?_⟩
  rw [TraceLog.shouldHalt_addFault, TraceLog.shouldHalt_addFault, h.haltOnFault, h.shouldHalt]

theorem SameHalt.addState (h : SameHalt ta tb) (s s' : CpuSnapshot) :
    SameHalt (ta.addState s) (tb.addState s') := ⟨h.haltOnFault, h.shouldHalt⟩

namespace AlikeCore

theorem refl (core : SH2Core) : AlikeCore I core core :=
  ⟨rfl, fun _ _ _ => rfl, fun _ => rfl, rfl, rfl, fun _ _ => rfl⟩

theorem registers (h : AlikeCore I a b) : a.toRegisters = b.toRegisters :=
  (congrArg SH2Core.toRegisters h.forget :)

theorem cpuId (h : AlikeCore I a b) : a.cpuId = b.cpuId :=
  (congrArg SH2Core.cpuId h.forget :)

theorem memOp (h : AlikeCore I a b) : a.pendingMemOp = b.pendingMemOp :=
  (congrArg SH2Core.pendingMemOp h.forget :)

theorem branchTarget (h : AlikeCore I a b) : a.pendingBranchTarget = b.pendingBranchTarget :=
  (congrArg SH2Core.pendingBranchTarget h.forget :)

theorem vector (h : AlikeCore I a b) : a.pendingExceptionVector = b.pendingExceptionVector :=
  (congrArg SH2Core.pendingExceptionVector h.forget :)

theorem context (h : AlikeCore I a b) :
    a.hasExceptionReturnContext = b.hasExceptionReturnContext :=
  (congrArg SH2Core.hasExceptionReturnContext h.forget :)

theorem rteRestore (h : AlikeCore I a b) : a.pendingRteRestore = b.pendingRteRestore :=
  (congrArg SH2Core.pendingRteRestore h.forget :)

theorem trans {c : SH2Core} (h : AlikeCore I a b) (h' : AlikeCore I b c) : AlikeCore I a c := by
  refine ⟨h.forget.trans h'.forget, fun pending hp hk => ?_, fun hrestore => ?_, ?_⟩
  · exact (h.newPc pending hp hk).trans (h'.newPc pending (h.memOp.symm.trans hp) hk)
  · exact (h.newSr hrestore).trans (h'.newSr (h.rteRestore.symm.trans hrestore))
  · exact ⟨h.icache.lineSize.trans h'.icache.lineSize, h.icache.length.trans h'.icache.length,
      fun i hi => (h.icache.lines i hi).trans (h'.icache.lines i hi)⟩

end AlikeCore

/-! ### Instructions -/

theorem dispatch_forget (core : SH2Core) (op : Opcode) (instr : Instr) (trace : TraceLog) :
    (core.dispatch op instr trace).1.forget = (core.forget.dispatch op instr {}).1.forget ∧
      (core.dispatch op instr trace).2.1 = (core.forget.dispatch op instr {}).2.1 := by
  cases op with
  | rte =>
    have hcontext : core.forget.hasExceptionReturnContext = core.hasExceptionReturnContext := rfl
    rw [dispatch, dispatch, hcontext]
    split
    · exact ⟨rfl, rfl⟩
    · exact ⟨rfl, rfl⟩
  | _ => exact ⟨rfl, rfl⟩

theorem dispatch_halt (h : SameHalt ta tb) (hcontext : a.hasExceptionReturnContext =
    b.hasExceptionReturnContext) (op : Opcode) (instr : Instr) :
    SameHalt (a.dispatch op instr ta).2.2 (b.dispatch op instr tb).2.2 := by
  cases op with
  | rte =>
    rw [dispatch, dispatch, hcontext]
    split
    · exact h.addFault _ _
    · exact h.addFault _ _
  | illegal => exact h.addFault _ _
  | _ => exact h

/-- An instruction leaves a popped `sr` pending only if it was before. -/
theorem dispatch_rtePopSr (core : SH2Core) (op : Opcode) (instr : Instr) (trace : TraceLog)
    {pending : PendingMemOp}
    (h : (core.dispatch op instr trace).1.pendingMemOp = some pending)
    (hkind : pending.kind = .rtePopSr) : core.pendingMemOp = some pending := by
  cases op with
  | reg op => exact h
  | branch op => exact h
  | illegal => exact h
  | pushSys source =>
    rw [← Option.some_inj.mp h] at hkind
    exact absurd hkind (by simp)
  | popSys target =>
    rw [← Option.some_inj.mp h] at hkind
    exact absurd hkind (by simp)
  | trapa =>
    rw [← Option.some_inj.mp h] at hkind
    exact absurd hkind (by simp)
  | rte =>
    rw [dispatch] at h
    split at h
    · exact h
    · rw [← Option.some_inj.mp h] at hkind
      exact absurd hkind (by simp)

theorem dispatch_rteRestore (core : SH2Core) (op : Opcode) (instr : Instr) (trace : TraceLog) :
    (core.dispatch op instr trace).1.pendingRteRestore = core.pendingRteRestore := by
  cases op with
  | rte =>
    rw [dispatch]
    split <;> rfl
  | _ => rfl

theorem AlikeCore.dispatch (h : AlikeCore I a b) (op : Opcode) (instr : Instr) :
    AlikeCore I (a.dispatch op instr ta).1 (b.dispatch op instr tb).1 ∧
      (a.dispatch op instr ta).2.1 = (b.dispatch op instr tb).2.1 := by
  obtain ⟨hcore, htarget⟩ := dispatch_forget a op instr ta
  obtain ⟨hcore', htarget'⟩ := dispatch_forget b op instr tb
  have hframe := dispatch_frame a op instr ta
  have hframe' := dispatch_frame b op instr tb
  refine ⟨⟨?_, fun pending hpending hkind => ?_, fun hrestore => ?_, ?_⟩, ?_⟩
  · rw [hcore, hcore', h.forget]
  · rw [hframe.newPc, hframe'.newPc]
    exact h.newPc pending (dispatch_rtePopSr a op instr ta hpending hkind) hkind
  · rw [hframe.newSr, hframe'.newSr]
    exact h.newSr ((dispatch_rteRestore a op instr ta).symm.trans hrestore)
  · rw [hframe.icache, hframe'.icache]
    exact h.icache
  · rw [htarget, htarget', h.forget]

theorem AlikeCore.takeBranch (h : AlikeCore I a b) (target : Addr) :
    AlikeCore I (a.takeBranch target) (b.takeBranch target) := by
  simp only [SH2Core.takeBranch, h.rteRestore]
  by_cases hrestore : b.pendingRteRestore = true
  · rw [if_pos hrestore, if_pos hrestore]
    have hsr := h.newSr (h.rteRestore.trans hrestore)
    refine ⟨?_, h.newPc, fun hfalse => absurd hfalse (by simp), h.icache⟩
    show { a.forget with pc := target, sr := a.pendingNewSr, pendingRteRestore := false } =
      { b.forget with pc := target, sr := b.pendingNewSr, pendingRteRestore := false }
    rw [h.forget, hsr]
  · rw [if_neg hrestore, if_neg hrestore]
    refine ⟨?_, h.newPc, h.newSr, h.icache⟩
    show { a.forget with pc := target } = { b.forget with pc := target }
    rw [h.forget]

theorem AlikeCore.settle (h : AlikeCore I a b) {slot next slot' next' : Option Addr}
    (hslot : slot = slot') (hnext : next = next') :
    AlikeCore I (a.settle slot next) (b.settle slot' next') := by
  subst hslot hnext
  cases slot with
  | some target => exact h.takeBranch target
  | none =>
    cases next with
    | some target =>
      refine ⟨?_, h.newPc, h.newSr, h.icache⟩
      show { a.forget with pendingBranchTarget := some target } =
        { b.forget with pendingBranchTarget := some target }
      rw [h.forget]
    | none => exact h

/-- What a core and the log are after a step, up to the clock. -/
structure AlikeOut (I : Nat → Prop) (a b : SH2Core × TraceLog) : Prop where
  core : AlikeCore I a.1 b.1
  halt : SameHalt a.2 b.2

theorem AlikeCore.retire (h : AlikeCore I a b) (halt : SameHalt ta tb) :
    AlikeOut I (a.retire ta) (b.retire tb) :=
  ⟨⟨h.forget, h.newPc, h.newSr, h.icache⟩, halt.addState _ _⟩

theorem AlikeCore.noBranch (h : AlikeCore I a b) :
    AlikeCore I { a with pendingBranchTarget := none } { b with pendingBranchTarget := none } := by
  refine ⟨?_, h.newPc, h.newSr, h.icache⟩
  show { a.forget with pendingBranchTarget := none } = { b.forget with pendingBranchTarget := none }
  rw [h.forget]

theorem AlikeCore.executeCore (h : AlikeCore I a b) (ta tb : TraceLog) (instr : Instr) :
    AlikeCore I (a.executeInstruction instr ta).1 (b.executeInstruction instr tb).1 := by
  rw [executeInstruction_eq, executeInstruction_eq]
  obtain ⟨hcore, htarget⟩ := @AlikeCore.dispatch I _ _ ta tb h.noBranch (opcodeOf instr) instr
  have hsettled := hcore.settle h.branchTarget htarget
  exact ⟨hsettled.forget, hsettled.newPc, hsettled.newSr, hsettled.icache⟩

theorem AlikeCore.execute (h : AlikeCore I a b) (halt : SameHalt ta tb) (instr : Instr) :
    AlikeOut I (a.executeInstruction instr ta) (b.executeInstruction instr tb) := by
  refine ⟨h.executeCore ta tb instr, ?_⟩
  rw [executeInstruction_eq, executeInstruction_eq]
  exact (dispatch_halt halt h.noBranch.context (opcodeOf instr) instr).addState _ _

/-! ### Data accesses -/

theorem startAccess_forget (core : SH2Core) (form : DataForm) (instr : Instr) :
    (core.startAccess form instr).1.forget = (core.forget.startAccess form instr).1.forget ∧
      (core.startAccess form instr).2 = (core.forget.startAccess form instr).2 := by
  cases form with
  | _ => exact ⟨rfl, rfl⟩

theorem startAccess_rteRestore (core : SH2Core) (form : DataForm) (instr : Instr) :
    (core.startAccess form instr).1.pendingRteRestore = core.pendingRteRestore := by
  cases form with
  | _ => rfl

theorem isAccess_ne_rtePopSr {kind : PendingKind} (h : kind.isAccess = true) :
    kind ≠ .rtePopSr := by
  rintro rfl
  exact absurd h (by decide)

theorem AlikeCore.access (h : AlikeCore I a b) (form : DataForm) (instr : Instr) :
    AlikeCore I (a.accessing form instr) (b.accessing form instr) ∧
      (a.startAccess form instr).2 = (b.startAccess form instr).2 := by
  obtain ⟨hcore, hpending⟩ := startAccess_forget a form instr
  obtain ⟨hcore', hpending'⟩ := startAccess_forget b form instr
  have hsame : (a.startAccess form instr).2 = (b.startAccess form instr).2 := by
    rw [hpending, hpending', h.forget]
  have hframe := startAccess_frame a form instr
  have hframe' := startAccess_frame b form instr
  refine ⟨⟨?_, fun pending hp hkind => ?_, fun hrestore => ?_, ?_⟩, hsame⟩
  · show { (a.startAccess form instr).1.forget with
        pendingMemOp := some (a.startAccess form instr).2 } =
      { (b.startAccess form instr).1.forget with pendingMemOp := some (b.startAccess form instr).2 }
    rw [hcore, hcore', hsame, h.forget]
  · have haccess := startAccess_isAccess a form instr
    rw [Option.some_inj.mp hp] at haccess
    exact absurd hkind (isAccess_ne_rtePopSr haccess)
  · show (a.startAccess form instr).1.pendingNewSr = (b.startAccess form instr).1.pendingNewSr
    rw [hframe.newSr, hframe'.newSr]
    exact h.newSr ((startAccess_rteRestore a form instr).symm.trans hrestore)
  · show TinyCache.SameLines I (a.startAccess form instr).1.icache
      (b.startAccess form instr).1.icache
    rw [hframe.icache, hframe'.icache]
    exact h.icache

/-! ### Responses -/

theorem AlikeCore.withRegisters (h : AlikeCore I a b) (f : Registers → Registers) :
    AlikeCore I (a.withRegisters (f a.toRegisters)) (b.withRegisters (f b.toRegisters)) := by
  refine ⟨?_, h.newPc, h.newSr, h.icache⟩
  show a.forget.withRegisters (f a.forget.toRegisters) =
    b.forget.withRegisters (f b.forget.toRegisters)
  rw [h.forget]

theorem AlikeCore.finish (h : AlikeCore I a b) (pending : PendingMemOp) (value : Word) :
    AlikeCore I (a.finishAccess pending value) (b.finishAccess pending value) := by
  obtain ⟨f, hf⟩ := finishAccess_eq pending value
  rw [hf, hf, h.branchTarget]
  split
  · exact ((h.withRegisters f).takeBranch _).noBranch
  · exact h.withRegisters fun x => { f x with pc := (f x).pc + 2 }

/-- The next phase of both. -/
theorem AlikeCore.phase (h : AlikeCore I a b) {next next' : PendingMemOp} (hnext : next = next')
    (hkind : next.kind ≠ .rtePopSr) :
    AlikeCore I { a with pendingMemOp := some next } { b with pendingMemOp := some next' } := by
  subst hnext
  refine ⟨?_, fun pending hp hk => ?_, h.newSr, h.icache⟩
  · show { a.forget with pendingMemOp := some next } = { b.forget with pendingMemOp := some next }
    rw [h.forget]
  · rw [← Option.some_inj.mp hp] at hk
    exact absurd hk hkind

/-- The vector has been read: both are in the handler. -/
theorem AlikeCore.enter (h : AlikeCore I a b) (pc : Addr) {imm imm' : Option Word}
    (himm : imm = imm') :
    AlikeCore I
      { a with pc := pc, hasExceptionReturnContext := true, pendingTrapaImm := imm }
      { b with pc := pc, hasExceptionReturnContext := true, pendingTrapaImm := imm' } := by
  subst himm
  refine ⟨?_, h.newPc, h.newSr, h.icache⟩
  show { a.forget with pc := pc, hasExceptionReturnContext := true, pendingTrapaImm := imm } =
    { b.forget with pc := pc, hasExceptionReturnContext := true, pendingTrapaImm := imm }
  rw [h.forget]

theorem AlikeCore.noMemOp (h : AlikeCore I a b) :
    AlikeCore I { a with pendingMemOp := none } { b with pendingMemOp := none } := by
  refine ⟨?_, fun _ hp => absurd hp (by simp), h.newSr, h.icache⟩
  show { a.forget with pendingMemOp := none } = { b.forget with pendingMemOp := none }
  rw [h.forget]

theorem AlikeCore.rmw (h : AlikeCore I a b) (pending : PendingMemOp) (op : RmwOp) (value : Word) :
    AlikeCore I (a.rmwWrite pending op value) (b.rmwWrite pending op value) :=
  h.phase rfl (by simp)

/-- A response to what is pending. -/
theorem AlikeCore.advance (h : AlikeCore I a b) {pending : PendingMemOp}
    (hpending : a.pendingMemOp = some pending) (value : Word) :
    AlikeCore I ({ a with pendingMemOp := none }.advancePending pending value)
      ({ b with pendingMemOp := none }.advancePending pending value) := by
  have hnone := h.noMemOp
  have hdown := hnone.withRegisters fun x => x.writeReg 15 (x.r 15 - 4)
  have hup := hnone.withRegisters fun x => x.writeReg 15 (x.r 15 + 4)
  have hregs := h.registers
  have hpc : a.pc = b.pc := congrArg Registers.pc hregs
  have hvbr : a.vbr = b.vbr := congrArg Registers.vbr hregs
  have hsp : a.r 15 = b.r 15 := congrArg (fun x : Registers => x.r 15) hregs
  have himm : a.pendingTrapaImm = b.pendingTrapaImm :=
    (congrArg SH2Core.pendingTrapaImm h.forget :)
  rw [advancePending, advancePending]
  cases hkind : pending.kind with
  | exceptionPushSr =>
    refine hdown.phase ?_ (by simp)
    show PendingMemOp.mk _ (toPhys (Function.update a.r 15 (a.r 15 - 4) 15)) _ a.pc _ _ _ _ =
      PendingMemOp.mk _ (toPhys (Function.update b.r 15 (b.r 15 - 4) 15)) _ b.pc _ _ _ _
    rw [Function.update_self, Function.update_self, hsp, hpc]
  | exceptionPushPc =>
    refine hnone.phase ?_ (by simp)
    rw [hvbr]
  | exceptionVectorRead => exact hnone.enter value himm
  | trapaPushSr =>
    refine hdown.phase ?_ (by simp)
    show PendingMemOp.mk _ (toPhys (Function.update a.r 15 (a.r 15 - 4) 15)) _ (a.pc + 2) _ _ _ _ =
      PendingMemOp.mk _ (toPhys (Function.update b.r 15 (b.r 15 - 4) 15)) _ (b.pc + 2) _ _ _ _
    rw [Function.update_self, Function.update_self, hsp, hpc]
  | trapaPushPc =>
    refine hnone.phase ?_ (by simp)
    rw [hvbr, himm]
  | trapaVectorRead => exact hnone.enter value rfl
  | rtePopPc =>
    -- what was popped before is overwritten in both
    refine ⟨?_, fun _ _ _ => rfl, h.newSr, h.icache⟩
    show { a.forget.withRegisters (a.forget.writeReg 15 (a.forget.r 15 + 4)) with
        pendingMemOp := some (PendingMemOp.mk .rtePopSr
          (toPhys (Function.update a.forget.r 15 (a.forget.r 15 + 4) 15)) 4 0 0 none 0 0) } =
      { b.forget.withRegisters (b.forget.writeReg 15 (b.forget.r 15 + 4)) with
        pendingMemOp := some (PendingMemOp.mk .rtePopSr
          (toPhys (Function.update b.forget.r 15 (b.forget.r 15 + 4) 15)) 4 0 0 none 0 0) }
    rw [h.forget]
  | rtePopSr =>
    have hnew := h.newPc pending hpending hkind
    refine ⟨?_, fun _ hp => absurd hp (by simp [setReg]), fun _ => rfl, h.icache⟩
    show { a.forget.withRegisters (a.forget.writeReg 15 (a.forget.r 15 + 4)) with
        pendingMemOp := none, pendingRteRestore := true,
        pendingBranchTarget := some a.pendingNewPc, hasExceptionReturnContext := false } =
      { b.forget.withRegisters (b.forget.writeReg 15 (b.forget.r 15 + 4)) with
        pendingMemOp := none, pendingRteRestore := true,
        pendingBranchTarget := some b.pendingNewPc, hasExceptionReturnContext := false }
    rw [h.forget, hnew]
  | rmwAndByteRead => exact hnone.rmw pending .and value
  | rmwXorByteRead => exact hnone.rmw pending .xor value
  | rmwOrByteRead => exact hnone.rmw pending .or value
  | _ => exact hnone.finish pending value

theorem AlikeCore.fill (h : AlikeCore I a b) (halt : SameHalt ta tb) {x y : BusResponse}
    (hbase : x.lineBase = y.lineBase) (hdata : x.lineData = y.lineData) :
    AlikeOut I (a.fillIcache x ta) (b.fillIcache y tb) := by
  have hpc : a.pc = b.pc := congrArg Registers.pc h.registers
  have hline : a.icache.lineBase (toPhys a.pc) = b.icache.lineBase (toPhys b.pc) := by
    rw [TinyCache.lineBase, TinyCache.lineBase, h.icache.lineSize, hpc]
  simp only [fillIcache]
  rw [hbase, hdata, hline, h.icache.lineSize]
  split
  · exact ⟨h, halt⟩
  · split
    · exact ⟨h, halt.addFault _ _⟩
    · exact ⟨⟨h.forget, h.newPc, h.newSr, h.icache.fillLine _ _⟩, halt⟩

theorem AlikeCore.apply (h : AlikeCore I a b) (halt : SameHalt ta tb) {x y : BusResponse}
    (hvalue : x.value = y.value) (hbase : x.lineBase = y.lineBase)
    (hdata : x.lineData = y.lineData) :
    AlikeOut I (a.applyIfetchAndStep x ta) (b.applyIfetchAndStep y tb) := by
  have hwait : AlikeCore I { a with t := tickAdd a.t x.stall } { b with t := tickAdd b.t y.stall } :=
    ⟨h.forget, h.newPc, h.newSr, h.icache⟩
  cases hpending : a.pendingMemOp with
  | some pending =>
    rw [applyIfetchAndStep_of_pending hpending,
      applyIfetchAndStep_of_pending (h.memOp.symm.trans hpending), hvalue]
    exact (hwait.advance hpending y.value).retire halt
  | none =>
    rw [applyIfetchAndStep_of_none hpending,
      applyIfetchAndStep_of_none (h.memOp.symm.trans hpending), hvalue]
    obtain ⟨hcore, htrace⟩ := hwait.fill halt hbase hdata
    exact hcore.execute htrace _

/-! ### Steps -/

/-- Alike cores on arbiters that agree outside `D`. -/
structure Alike (D : Addr → Prop) (I : Nat → Prop) (s s' : SH2Core × BusArbiter) : Prop where
  core : AlikeCore I s.1 s'.1
  bus : BusArbiter.SameBus D s.2 s'.2

theorem Alike.halt {s s' : SH2Core × BusArbiter} (h : Alike D I s s') :
    SameHalt s.2.trace s'.2.trace := ⟨h.bus.haltOnFault, h.bus.shouldHalt⟩

variable {x y : BusArbiter} {seq seq' : Nat}

theorem Alike.exchange (h : Alike D I (a, x) (b, y)) {op op' : BusOp}
    (hop : op.untimed = op'.untimed) (hreads : ∀ addr, D addr → ¬ op'.reads addr)
    (hx : x.Ordered (producerSlot op) op.reqTime) (hy : y.Ordered (producerSlot op') op'.reqTime) :
    Alike D I (a.exchange x op) (b.exchange y op') := by
  obtain ⟨hbus, hreply⟩ := h.bus.commit hop hreads hx hy
  have hout := h.core.apply ⟨hbus.haltOnFault, hbus.shouldHalt⟩ hreply.value hreply.lineBase
    hreply.lineData
  exact ⟨hout.core, hbus.store, hout.halt.haltOnFault, hout.halt.shouldHalt⟩

/-- A step neither reads the bytes `D` nor fetches from the cache lines `I`. -/
structure Apart (D : Addr → Prop) (I : Nat → Prop) (core : SH2Core) (seq : Nat) : Prop where
  fetches : core.Quiet → core.uncachedFetch = false → ¬ I (core.icache.indexOf (toPhys core.pc))
  reads : ∀ trace op, (core.produceUntilBus seq trace 1).2.2.op = some op →
    ∀ addr, D addr → ¬ op.reads addr

theorem AlikeCore.uncachedFetch (h : AlikeCore I a b) : a.uncachedFetch = b.uncachedFetch := by
  rw [SH2Core.uncachedFetch, SH2Core.uncachedFetch, h.registers]

theorem AlikeCore.cachedInstr (h : AlikeCore I a b)
    (hI : b.uncachedFetch = false → ¬ I (b.icache.indexOf (toPhys b.pc))) :
    a.cachedInstr = b.cachedInstr := by
  have hpc : a.pc = b.pc := congrArg Registers.pc h.registers
  rw [SH2Core.cachedInstr, SH2Core.cachedInstr, h.uncachedFetch, hpc]
  split
  · rfl
  · rename_i hfetch
    rw [h.icache.read (hI (by simpa using hfetch))]

theorem AlikeCore.pendingOp (h : AlikeCore I a b) (pending : PendingMemOp) :
    (a.pendingOp seq pending).untimed = (b.pendingOp seq' pending).untimed := by
  rw [SH2Core.pendingOp, SH2Core.pendingOp, h.cpuId]
  rfl

theorem AlikeCore.fetchOp (h : AlikeCore I a b) :
    (a.fetchOp seq).untimed = (b.fetchOp seq').untimed := by
  have hpc : a.pc = b.pc := congrArg Registers.pc h.registers
  rw [SH2Core.fetchOp, SH2Core.fetchOp, h.uncachedFetch]
  split
  · rw [produceIfetch, produceIfetch, h.cpuId, hpc]
    rfl
  · rw [missOp, missOp, produceIfetch, produceIfetch, h.cpuId, hpc, h.icache.lineSize]
    rfl

theorem AlikeCore.enterException (h : AlikeCore I a b) (vector : Word) :
    AlikeCore I (a.enterException vector).1 (b.enterException vector).1 ∧
      (a.enterException vector).2 = (b.enterException vector).2 := by
  have hsame : (a.enterException vector).2 = (b.enterException vector).2 := by
    have hregs := h.registers
    show PendingMemOp.mk _ (toPhys (Function.update a.r 15 (a.r 15 - 4) 15)) _ a.sr _ _ _ _ =
      PendingMemOp.mk _ (toPhys (Function.update b.r 15 (b.r 15 - 4) 15)) _ b.sr _ _ _ _
    rw [hregs]
  have hdown := (h.withRegisters fun x => x.writeReg 15 (x.r 15 - 4)).phase hsame (by
    show PendingKind.exceptionPushSr ≠ .rtePopSr
    decide)
  refine ⟨⟨?_, hdown.newPc, hdown.newSr, hdown.icache⟩, hsame⟩
  have hforget := hdown.forget
  exact congrArg (fun core : SH2Core => { core with pendingExceptionVector := none }) hforget

/-- **Alike cores take alike steps.** -/
theorem Alike.step (h : Alike D I (a, x) (b, y)) (hapart : Apart D I b seq')
    (hx : a.InOrder x) (hy : b.InOrder y) :
    Alike D I (a.step x seq) (b.step y seq') := by
  have hcore : AlikeCore I a b := h.core
  cases hvector : b.pendingExceptionVector with
  | some vector =>
    rw [step_vector (hcore.vector.trans hvector), step_vector hvector]
    obtain ⟨henter, hsame⟩ := hcore.enterException vector
    -- the vector is entered with the same fault record on both sides
    have hfault := h.halt.addFault (a.fault vector "EXCEPTION_ENTRY")
      (b.fault vector "EXCEPTION_ENTRY")
    have hreads := hapart.reads y.trace _ (by rw [produce_vector hvector])
    have hin : Alike D I
        ((a.enterException vector).1, { x with trace := x.trace.addFault _ })
        ((b.enterException vector).1, { y with trace := y.trace.addFault _ }) :=
      ⟨henter, h.bus.store, hfault.haltOnFault, hfault.shouldHalt⟩
    refine hin.exchange ?_ hreads hx hy
    rw [hsame]
    exact henter.pendingOp _
  | none =>
    have hvector' := hcore.vector.trans hvector
    cases hpending : b.pendingMemOp with
    | some pending =>
      have hpending' := hcore.memOp.trans hpending
      rw [step_pending hvector' hpending', step_pending hvector hpending]
      have hreads := hapart.reads y.trace _ (by rw [produce_pending hvector hpending])
      exact h.exchange (hcore.pendingOp pending) hreads hx hy
    | none =>
      have hquiet : b.Quiet := ⟨hvector, hpending⟩
      have hquiet' : a.Quiet := ⟨hvector', hcore.memOp.trans hpending⟩
      have hinstr := hcore.cachedInstr (hapart.fetches hquiet)
      cases hcached : b.cachedInstr with
      | none =>
        rw [step_fetch hquiet' (hinstr.trans hcached), step_fetch hquiet hcached]
        have hreads := hapart.reads y.trace _ (by rw [produce_fetch hquiet hcached])
        exact h.exchange hcore.fetchOp hreads (hx.asks (asks_fetchOp a _))
          (hy.asks (asks_fetchOp b _))
      | some instr =>
        cases hdata : dataFormOf instr with
        | some form =>
          rw [step_access hquiet' (hinstr.trans hcached) hdata, step_access hquiet hcached hdata]
          obtain ⟨haccess, hsame⟩ := hcore.access form instr
          have hreads := hapart.reads y.trace _ (by rw [produce_access hquiet hcached hdata])
          have hin : Alike D I (a.accessing form instr, x) (b.accessing form instr, y) :=
            ⟨haccess, h.bus⟩
          have hask := accessing_inOrder hx form instr
          have hask' := accessing_inOrder hy form instr
          refine hin.exchange ?_ hreads (hask.asks (asks_pendingOp _ _ _))
            (hask'.asks (asks_pendingOp _ _ _))
          rw [hsame]
          exact haccess.pendingOp _
        | none =>
          rw [step_cached hquiet' (hinstr.trans hcached) hdata, step_cached hquiet hcached hdata]
          -- no bus access: memory and devices are those from before
          have hout := hcore.execute h.halt instr
          exact ⟨hout.core, h.bus.store, hout.halt.haltOnFault, hout.halt.shouldHalt⟩

/-- The next `n` steps neither read the bytes `D` nor fetch from the lines `I`. -/
def StaysApart (D : Addr → Prop) (I : Nat → Prop) : Nat → SH2Core → BusArbiter → Nat → Prop
  | 0, _, _, _ => True
  | n + 1, core, arb, seq =>
    Apart D I core seq ∧
      StaysApart D I n (core.step arb seq).1 (core.step arb seq).2 (seq + 1)

/-- **Alike cores stay alike.** -/
theorem Alike.steps (n : Nat) (h : Alike D I (a, x) (b, y)) (hapart : StaysApart D I n b y seq')
    (hx : a.InOrder x) (hy : b.InOrder y) (hclock : ClockRuns n a x seq)
    (hclock' : ClockRuns n b y seq') :
    Alike D I (steps n a x seq) (steps n b y seq') := by
  induction n generalizing a b x y seq seq' with
  | zero => exact h
  | succ n ih =>
    exact ih (h.step hapart.1 hx hy) hapart.2 (inOrder_step hx hclock.1)
      (inOrder_step hy hclock'.1) hclock.2 hclock'.2

end Cpu.SH2Core

end Saturnis
