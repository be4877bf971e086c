/-
One instruction of the SH-2 core.

* `opcodeOf_trapa`, `opcodeOf_rte` — which words are TRAPA and RTE;
* `opcodeOf_transfer` — the pushes and pops of system registers that
  `execute_instruction` knows are data accesses as well, so the run-ahead loop
  never executes one;
* `executeInstruction_frame` — what no instruction changes;
* `executeInstruction_lines` — every instruction adds to the trace;
* `executeInstruction_starts`, `executeInstruction_quiet` — what it leaves
  pending;
* `produceLoop_invariant` — what the run-ahead loop keeps.
-/
import Saturnis.Sh2Core

namespace Saturnis.Cpu

open Saturnis.Core Saturnis.Mem Saturnis.Bus

/-! ### Words -/

theorem opcodeOf_of_matches {instr : Instr} {row : Row Opcode} (hmem : row ∈ executeTable)
    (hrow : row.matches instr = true)
    (hapart : ∀ other ∈ executeTable, other.result = row.result ∨
      row.value &&& other.mask ≠ other.value &&& row.mask) :
    opcodeOf instr = row.result := by
  rw [opcodeOf, lookup_of_matches hmem hrow hapart, Option.getD_some]

/-- An opcode other than `illegal` comes from a row of the table. -/
theorem opcodeOf_row {instr : Instr} {op : Opcode} (h : opcodeOf instr = op) (hop : op ≠ .illegal) :
    ∃ row ∈ executeTable, row.matches instr = true ∧ row.result = op := by
  rw [opcodeOf] at h
  cases hfound : lookup executeTable instr with
  | none =>
    rw [hfound] at h
    exact absurd h.symm hop
  | some result =>
    rw [hfound] at h
    obtain ⟨row, hmem, hmatches, hresult⟩ := lookup_some hfound
    exact ⟨row, hmem, hmatches, hresult.trans h⟩

/-- A word that both decoders know has a row in each table, and the two agree
on the bits that both look at. -/
theorem opcodeOf_dataForm_rows {instr : Instr} {op : Opcode} {form : DataForm}
    (hop : opcodeOf instr = op) (hne : op ≠ .illegal) (hform : dataFormOf instr = some form) :
    ∃ row ∈ executeTable, ∃ other ∈ dataTable, row.result = op ∧ other.result = form ∧
      row.value &&& other.mask = other.value &&& row.mask := by
  obtain ⟨row, hmem, hmatches, hresult⟩ := opcodeOf_row hop hne
  obtain ⟨other, hother, hmatch, hother'⟩ := lookup_some hform
  exact ⟨row, hmem, other, hother, hresult, hother', Row.agree hmatches hmatch⟩

theorem opcodeOf_trapa {instr : Instr} : opcodeOf instr = .trapa ↔ instr &&& 0xFF00#16 = 0xC300#16 := by
  constructor
  · intro h
    obtain ⟨row, hmem, hmatches, hresult⟩ := opcodeOf_row h (by decide)
    have hrow : ∀ row ∈ executeTable, row.result = .trapa →
        row.mask = 0xFF00#16 ∧ row.value = 0xC300#16 := by decide
    obtain ⟨hmask, hvalue⟩ := hrow row hmem hresult
    rw [Row.matches, hmask, hvalue] at hmatches
    exact eq_of_beq hmatches
  · intro h
    have hmem : (⟨0xFF00, 0xC300, .trapa⟩ : Row Opcode) ∈ executeTable := by decide
    exact opcodeOf_of_matches hmem (beq_iff_eq.mpr h) (by decide)

theorem opcodeOf_rte {instr : Instr} : opcodeOf instr = .rte ↔ instr = 0x002B#16 := by
  constructor
  · intro h
    obtain ⟨row, hmem, hmatches, hresult⟩ := opcodeOf_row h (by decide)
    have hrow : ∀ row ∈ executeTable, row.result = .rte →
        row.mask = 0xFFFF#16 ∧ row.value = 0x002B#16 := by decide
    obtain ⟨hmask, hvalue⟩ := hrow row hmem hresult
    rw [Row.matches, hmask, hvalue] at hmatches
    exact (BitVec.and_allOnes (x := instr)).symm.trans (eq_of_beq hmatches)
  · rintro rfl
    decide

/-- The pushes and pops of system registers. -/
def Opcode.isTransfer : Opcode → Bool
  | .pushSys _ | .popSys _ => true
  | _ => false

theorem opcodeOf_transfer {instr : Instr} (h : (opcodeOf instr).isTransfer = true) :
    ∃ form, dataFormOf instr = some form := by
  have hop : opcodeOf instr ≠ .illegal := fun heq => by
    rw [heq] at h
    exact absurd h (by decide)
  obtain ⟨row, hmem, hmatches, hresult⟩ := opcodeOf_row rfl hop
  have hboth : ∀ row ∈ executeTable, row.result.isTransfer = true →
      ∃ other ∈ dataTable, other.mask = row.mask ∧ other.value = row.value := by decide
  obtain ⟨other, hother, hmask, hvalue⟩ := hboth row hmem (by rw [hresult]; exact h)
  cases hfound : dataFormOf instr with
  | some form => exact ⟨form, rfl⟩
  | none =>
    have hmiss := lookup_eq_none.mp hfound other hother
    rw [Row.matches, hmask, hvalue] at hmiss
    rw [Row.matches, hmiss] at hmatches
    exact absurd hmatches (by simp)

/-- The access of an instruction, not a phase of an exception, TRAPA or RTE. -/
def PendingKind.isAccess : PendingKind → Bool
  | readLong | writeLong | readWord | writeWord | readByte | writeByte => true
  | rmwAndByteRead | rmwXorByteRead | rmwOrByteRead | rmwWriteByte => true
  | _ => false

theorem AccessWidth.readKind_isAccess (width : AccessWidth) : width.readKind.isAccess = true := by
  cases width <;> rfl

theorem AccessWidth.writeKind_isAccess (width : AccessWidth) : width.writeKind.isAccess = true := by
  cases width <;> rfl

theorem RmwOp.readKind_isAccess (op : RmwOp) : op.readKind.isAccess = true := by
  cases op <;> rfl

namespace SH2Core

variable {core : SH2Core} {instr : Instr} {trace : TraceLog} {op : Opcode}

/-! ### What stays -/

/-- The fields that no instruction changes. -/
structure SameDevice (a b : SH2Core) : Prop where
  cpuId : a.cpuId = b.cpuId
  icache : a.icache = b.icache
  vector : a.pendingExceptionVector = b.pendingExceptionVector
  context : a.hasExceptionReturnContext = b.hasExceptionReturnContext
  newPc : a.pendingNewPc = b.pendingNewPc
  newSr : a.pendingNewSr = b.pendingNewSr

theorem SameDevice.trans {a b c : SH2Core} (h : SameDevice a b) (h' : SameDevice b c) :
    SameDevice a c :=
  ⟨h.cpuId.trans h'.cpuId, h.icache.trans h'.icache, h.vector.trans h'.vector,
    h.context.trans h'.context, h.newPc.trans h'.newPc, h.newSr.trans h'.newSr⟩

theorem dispatch_frame (core : SH2Core) (op : Opcode) (instr : Instr) (trace : TraceLog) :
    SameDevice (core.dispatch op instr trace).1 core := by
  cases op with
  | rte =>
    rw [dispatch]
    split
    · exact ⟨rfl, rfl, rfl, rfl, rfl, rfl⟩
    · exact ⟨rfl, rfl, rfl, rfl, rfl, rfl⟩
  | _ => exact ⟨rfl, rfl, rfl, rfl, rfl, rfl⟩

theorem takeBranch_frame (core : SH2Core) (target : Addr) :
    SameDevice (core.takeBranch target) core := by
  simp only [takeBranch]
  split
  · exact ⟨rfl, rfl, rfl, rfl, rfl, rfl⟩
  · exact ⟨rfl, rfl, rfl, rfl, rfl, rfl⟩

@[simp] theorem takeBranch_pendingMemOp (core : SH2Core) (target : Addr) :
    (core.takeBranch target).pendingMemOp = core.pendingMemOp := by
  simp only [takeBranch]
  split <;> rfl

/-- The instruction up to its retirement. -/
def settle (core : SH2Core) (delaySlotTarget nextBranchTarget : Option Addr) : SH2Core :=
  match delaySlotTarget with
  | some target => core.takeBranch target
  | none =>
    match nextBranchTarget with
    | some target => { core with pendingBranchTarget := some target }
    | none => core

theorem executeInstruction_eq (core : SH2Core) (instr : Instr) (trace : TraceLog) :
    core.executeInstruction instr trace =
      (({ core with pendingBranchTarget := none }.dispatch (opcodeOf instr) instr trace).1.settle
        core.pendingBranchTarget
        ({ core with pendingBranchTarget := none }.dispatch (opcodeOf instr) instr trace).2.1).retire
        ({ core with pendingBranchTarget := none }.dispatch (opcodeOf instr) instr trace).2.2 := rfl

theorem settle_frame (core : SH2Core) (slot next : Option Addr) :
    SameDevice (core.settle slot next) core := by
  cases slot with
  | some target => exact takeBranch_frame core target
  | none =>
    cases next with
    | some target => exact ⟨rfl, rfl, rfl, rfl, rfl, rfl⟩
    | none => exact ⟨rfl, rfl, rfl, rfl, rfl, rfl⟩

theorem settle_pendingMemOp (core : SH2Core) (slot next : Option Addr) :
    (core.settle slot next).pendingMemOp = core.pendingMemOp := by
  cases slot with
  | some target => exact takeBranch_pendingMemOp core target
  | none => cases next <;> rfl

theorem retire_frame (core : SH2Core) (trace : TraceLog) :
    SameDevice (core.retire trace).1 core := ⟨rfl, rfl, rfl, rfl, rfl, rfl⟩

theorem executeInstruction_frame (core : SH2Core) (instr : Instr) (trace : TraceLog) :
    SameDevice (core.executeInstruction instr trace).1 core := by
  rw [executeInstruction_eq]
  refine (retire_frame _ _).trans ((settle_frame _ _ _).trans ((dispatch_frame _ _ _ _).trans ?_))
  exact ⟨rfl, rfl, rfl, rfl, rfl, rfl⟩

/-! ### The trace -/

theorem dispatch_lines (core : SH2Core) (op : Opcode) (instr : Instr) (trace : TraceLog) :
    trace.lines.length ≤ (core.dispatch op instr trace).2.2.lines.length := by
  cases op with
  | rte =>
    rw [dispatch]
    split
    · rw [TraceLog.addFault, List.length_append]
      exact Nat.le_add_right _ _
    · show _ ≤ (trace.lines ++ _).length
      rw [List.length_append]
      exact Nat.le_add_right _ _
  | illegal =>
    show _ ≤ (trace.lines ++ _).length
    rw [List.length_append]
    exact Nat.le_add_right _ _
  | _ => exact Nat.le_refl _

theorem executeInstruction_lines (core : SH2Core) (instr : Instr) (trace : TraceLog) :
    trace.lines.length < (core.executeInstruction instr trace).2.lines.length := by
  rw [executeInstruction_eq]
  refine Nat.lt_of_le_of_lt (dispatch_lines { core with pendingBranchTarget := none }
    (opcodeOf instr) instr trace) ?_
  show _ < (List.append _ _).length
  rw [List.append_eq, List.length_append]
  exact Nat.lt_succ_self _

/-! ### Data accesses -/

/-- A data access leaves the access of an instruction pending. -/
theorem startAccess_isAccess (core : SH2Core) (form : DataForm) (instr : Instr) :
    (core.startAccess form instr).2.kind.isAccess = true := by
  cases form with
  | load width => exact width.readKind_isAccess
  | loadDispR0 width => exact width.readKind_isAccess
  | loadIndexed width => exact width.readKind_isAccess
  | loadGbr width => exact width.readKind_isAccess
  | loadPostInc width => exact width.readKind_isAccess
  | store width => exact width.writeKind_isAccess
  | storeIndexed width => exact width.writeKind_isAccess
  | storeGbr width => exact width.writeKind_isAccess
  | storeDispHigh width => exact width.writeKind_isAccess
  | storeDispLow width => exact width.writeKind_isAccess
  | storePreDec width => exact width.writeKind_isAccess
  | rmw op => exact op.readKind_isAccess
  | _ => rfl

/-! ### What is left pending -/

/-- The instruction is done in phases on a fetch that the cache answers. -/
def startsSequence (core : SH2Core) (instr : Instr) : Bool :=
  opcodeOf instr = .trapa || (opcodeOf instr = .rte && core.hasExceptionReturnContext)

/-- The first phase of a TRAPA or of an RTE is pending. -/
def SequencePending (core : SH2Core) : Prop :=
  ∃ pending, core.pendingMemOp = some pending ∧
    (pending.kind = .trapaPushSr ∨ pending.kind = .rtePopPc)

theorem executeInstruction_pendingMemOp (core : SH2Core) (instr : Instr) (trace : TraceLog) :
    (core.executeInstruction instr trace).1.pendingMemOp =
      ({ core with pendingBranchTarget := none }.dispatch (opcodeOf instr) instr
        trace).1.pendingMemOp := by
  rw [executeInstruction_eq]
  exact settle_pendingMemOp _ _ _

theorem executeInstruction_starts (h : core.startsSequence instr = true) (trace : TraceLog) :
    SequencePending (core.executeInstruction instr trace).1 := by
  rw [SequencePending, executeInstruction_pendingMemOp]
  simp only [startsSequence, Bool.or_eq_true, Bool.and_eq_true, decide_eq_true_eq] at h
  rcases h with htrapa | ⟨hrte, hcontext⟩
  · rw [htrapa]
    exact ⟨_, rfl, Or.inl rfl⟩
  · rw [hrte, dispatch, if_neg (by simp [hcontext])]
    exact ⟨_, rfl, Or.inr rfl⟩

/-- An instruction that is no data access and starts no sequence leaves alone
what is pending. -/
theorem executeInstruction_quiet (hdata : dataFormOf instr = none)
    (h : core.startsSequence instr = false) (trace : TraceLog) :
    (core.executeInstruction instr trace).1.pendingMemOp = core.pendingMemOp := by
  rw [executeInstruction_pendingMemOp]
  have hpush : (opcodeOf instr).isTransfer = false := by
    by_contra htransfer
    obtain ⟨form, hform⟩ := opcodeOf_transfer (by simpa using htransfer)
    rw [hform] at hdata
    exact absurd hdata (by simp)
  simp only [startsSequence, Bool.or_eq_false_iff, decide_eq_false_iff_not, Bool.and_eq_false_iff]
    at h
  cases hop : opcodeOf instr with
  | reg op => rfl
  | branch op => rfl
  | illegal => rfl
  | trapa => exact absurd hop h.1
  | pushSys source =>
    rw [hop] at hpush
    exact absurd hpush (by simp [Opcode.isTransfer])
  | popSys target =>
    rw [hop] at hpush
    exact absurd hpush (by simp [Opcode.isTransfer])
  | rte =>
    have hcontext : core.hasExceptionReturnContext = false := h.2.resolve_left (not_not.mpr hop)
    rw [dispatch, if_pos (by simp [hcontext])]

/-! ### The run-ahead loop -/

/-- A read is no write on the bus either. -/
theorem pendingOp_read {pending : PendingMemOp} (core : SH2Core) (seq : Nat)
    (hread : pending.kind.isWrite = false) :
    (core.pendingOp seq pending).kind ≠ .write ∧ (core.pendingOp seq pending).kind ≠ .mmioWrite := by
  show dataAccessKind pending.physAddr pending.kind.isWrite ≠ _ ∧
    dataAccessKind pending.physAddr pending.kind.isWrite ≠ _
  rw [dataAccessKind, hread]
  by_cases hmmio : isMmio pending.physAddr = true
  · rw [if_pos hmmio]
    exact ⟨by decide, by decide⟩
  · rw [if_neg hmmio]
    exact ⟨by decide, by decide⟩

/-- What instructions and the start of a data access keep, the loop keeps. -/
theorem produceLoop_invariant {P : SH2Core → TraceLog → Prop}
    (hstart : ∀ core trace form instr, P core trace →
      P { (core.startAccess form instr).1 with
        pendingMemOp := some (core.startAccess form instr).2 } trace)
    (hexecute : ∀ core trace instr, P core trace →
      P (core.executeInstruction instr trace).1 (core.executeInstruction instr trace).2)
    {trace : TraceLog} (h : P core trace) (budget seq executed : Nat) :
    P (produceLoop budget core seq trace executed).1
      (produceLoop budget core seq trace executed).2.1 := by
  induction budget generalizing core trace executed with
  | zero => exact h
  | succ budget ih =>
    rw [produceLoop]
    split
    · exact h
    · split
      · rename_i cached _
        simp only
        split
        · exact hstart _ _ _ _ h
        · exact ih (hexecute core trace (cached.setWidth 16) h) _
      · exact h

end SH2Core

end Saturnis.Cpu
