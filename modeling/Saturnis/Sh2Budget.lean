/-
Run-ahead budgets.

A call whose budget runs out can be continued by another call: the loop then
goes on where it stopped.  But the second call looks at `pendingMemOp` first,
which the loop does not; so the two agree with one call of the whole budget
exactly if no instruction of the first call has left an operation pending,
that is, none was a TRAPA or an RTE with a return context.

* `produceLoop_add` — the loop continued;
* `produceLoop_noSequence`, `produceLoop_sequence` — what the loop leaves pending;
* `produceLoop_ne_pendingOp` — the loop never returns what was pending;
* `composes_iff` — when budgets compose.
-/
import Saturnis.Sh2Execute

namespace Saturnis.Cpu.SH2Core

open Saturnis.Core Saturnis.Mem Saturnis.Bus

variable {core core' : SH2Core} {trace trace' : TraceLog} {seq executed executed' : Nat}

/-- In none of the rounds of the budget is the cached instruction a TRAPA or an
RTE with a return context. -/
def NoSequence : Nat → SH2Core → TraceLog → Prop
  | 0, _, _ => True
  | budget + 1, core, trace =>
    match core.cachedInstr with
    | none => True
    | some instr =>
      core.startsSequence instr = false ∧
        NoSequence budget (core.executeInstruction instr trace).1
          (core.executeInstruction instr trace).2

/-- One call with both budgets is a call with the first, then one with the second. -/
def Composes (core : SH2Core) (seq : Nat) (trace : TraceLog) (b1 b2 : Nat) : Prop :=
  let (core1, trace1, first) := core.produceUntilBus seq trace b1
  let (core2, trace2, second) := core1.produceUntilBus seq trace1 b2
  core.produceUntilBus seq trace (b1 + b2) =
    (core2, trace2, ⟨second.op, first.executed + second.executed⟩)

/-! ### The loop -/

/-- A round of the loop that goes on executes a cached instruction. -/
theorem produceLoop_succ_none {budget : Nat}
    (h : produceLoop (budget + 1) core seq trace executed = (core', trace', ⟨none, executed'⟩)) :
    ∃ instr, core.cachedInstr = some instr ∧ dataFormOf instr = none ∧
      ∀ rest, produceLoop (rest + 1) core seq trace executed =
        produceLoop rest (core.executeInstruction instr trace).1 seq
          (core.executeInstruction instr trace).2 (executed + 1) := by
  rw [produceLoop] at h
  split at h
  · exact absurd (congrArg (·.2.2.op) h) (by simp)
  · rename_i hcached
    split at h
    · rename_i cached hread
      simp only at h
      split at h
      · exact absurd (congrArg (·.2.2.op) h) (by simp)
      · rename_i hdata
        refine ⟨cached.setWidth 16, ?_, hdata, fun rest => ?_⟩
        · rw [cachedInstr, if_neg hcached, hread]
          rfl
        · rw [produceLoop, if_neg hcached, hread]
          simp only [hdata]
    · exact absurd (congrArg (·.2.2.op) h) (by simp)

/-- A loop whose budget runs out goes on where it stopped. -/
theorem produceLoop_add (b1 b2 : Nat)
    (h : produceLoop b1 core seq trace executed = (core', trace', ⟨none, executed'⟩)) :
    produceLoop (b1 + b2) core seq trace executed = produceLoop b2 core' seq trace' executed' := by
  induction b1 generalizing core trace executed with
  | zero =>
    rw [produceLoop] at h
    obtain ⟨rfl, rfl, hresult⟩ := Prod.mk.inj h |>.imp id Prod.mk.inj
    obtain ⟨-, rfl⟩ := Sh2ProduceResult.mk.inj hresult
    rw [Nat.zero_add]
  | succ b1 ih =>
    obtain ⟨instr, -, -, hround⟩ := produceLoop_succ_none h
    rw [hround] at h
    rw [Nat.succ_add, hround]
    exact ih h

/-- The count of executed instructions is only carried along. -/
theorem produceLoop_executed (budget : Nat) (core : SH2Core) (seq : Nat) (trace : TraceLog)
    (executed extra : Nat) :
    produceLoop budget core seq trace (executed + extra) =
      ((produceLoop budget core seq trace extra).1, (produceLoop budget core seq trace extra).2.1,
        ⟨(produceLoop budget core seq trace extra).2.2.op,
          executed + (produceLoop budget core seq trace extra).2.2.executed⟩) := by
  induction budget generalizing core trace extra with
  | zero => rfl
  | succ budget ih =>
    rw [produceLoop, produceLoop]
    split
    · rfl
    · split
      · simp only
        split
        · rfl
        · rw [Nat.add_assoc]
          exact ih _ _ _
      · rfl

theorem produceLoop_lines (budget : Nat) (core : SH2Core) (seq : Nat) (trace : TraceLog)
    (executed : Nat) :
    trace.lines.length ≤ (produceLoop budget core seq trace executed).2.1.lines.length := by
  refine @produceLoop_invariant core (fun _ t => trace.lines.length ≤ t.lines.length)
    (fun _ _ _ _ h => h) (fun core t instr h => ?_) trace (Nat.le_refl _) budget seq executed
  exact Nat.le_trans h (Nat.le_of_lt (executeInstruction_lines core instr t))

theorem produceLoop_vector (budget : Nat)
    (h : produceLoop budget core seq trace executed = (core', trace', ⟨none, executed'⟩)) :
    core'.pendingExceptionVector = core.pendingExceptionVector := by
  induction budget generalizing core trace executed with
  | zero =>
    rw [produceLoop] at h
    rw [(Prod.mk.inj h).1]
  | succ budget ih =>
    obtain ⟨instr, -, -, hround⟩ := produceLoop_succ_none h
    rw [hround] at h
    exact (ih h).trans (executeInstruction_frame core instr trace).vector

/-! ### What the loop leaves pending -/

theorem produceLoop_noSequence (budget : Nat) (hno : NoSequence budget core trace)
    (h : produceLoop budget core seq trace executed = (core', trace', ⟨none, executed'⟩)) :
    core'.pendingMemOp = core.pendingMemOp := by
  induction budget generalizing core trace executed with
  | zero =>
    rw [produceLoop] at h
    rw [(Prod.mk.inj h).1]
  | succ budget ih =>
    obtain ⟨instr, hcached, hdata, hround⟩ := produceLoop_succ_none h
    rw [hround] at h
    rw [NoSequence, hcached] at hno
    exact (ih hno.2 h).trans (executeInstruction_quiet hdata hno.1 trace)

/-- Once a sequence has started its first phase stays pending. -/
theorem executeInstruction_sequencePending {instr : Instr} (hdata : dataFormOf instr = none)
    (h : core.SequencePending) (trace : TraceLog) :
    (core.executeInstruction instr trace).1.SequencePending := by
  cases hstarts : core.startsSequence instr with
  | true => exact executeInstruction_starts hstarts trace
  | false =>
    rw [SequencePending, executeInstruction_quiet hdata hstarts]
    exact h

theorem produceLoop_sequencePending (budget : Nat) (hpending : core.SequencePending)
    (h : produceLoop budget core seq trace executed = (core', trace', ⟨none, executed'⟩)) :
    core'.SequencePending := by
  induction budget generalizing core trace executed with
  | zero =>
    rw [produceLoop] at h
    rw [← (Prod.mk.inj h).1]
    exact hpending
  | succ budget ih =>
    obtain ⟨instr, -, hdata, hround⟩ := produceLoop_succ_none h
    rw [hround] at h
    exact ih (executeInstruction_sequencePending hdata hpending trace) h

theorem produceLoop_sequence (budget : Nat) (hseq : ¬ NoSequence budget core trace)
    (h : produceLoop budget core seq trace executed = (core', trace', ⟨none, executed'⟩)) :
    core'.SequencePending := by
  induction budget generalizing core trace executed with
  | zero => exact absurd trivial hseq
  | succ budget ih =>
    obtain ⟨instr, hcached, hdata, hround⟩ := produceLoop_succ_none h
    rw [hround] at h
    rw [NoSequence, hcached] at hseq
    cases hstarts : core.startsSequence instr with
    | true => exact produceLoop_sequencePending budget (executeInstruction_starts hstarts trace) h
    | false => exact ih (fun hno => hseq ⟨hstarts, hno⟩) h

/-! ### Continued in the loop, or by another call -/

theorem dataAccessKind_ne_iFetch (phys : Addr) (isWrite : Bool) :
    dataAccessKind phys isWrite ≠ .iFetch := by
  rw [dataAccessKind]
  split_ifs <;> decide

/-- The loop never comes out with the operation that was pending before it. -/
theorem produceLoop_ne_pendingOp (budget : Nat) {pending : PendingMemOp}
    (hpending : core.pendingMemOp = some pending)
    (hkind : pending.kind = .trapaPushSr ∨ pending.kind = .rtePopPc) :
    produceLoop budget core seq trace executed ≠
      (core, trace, ⟨some (core.pendingOp seq pending), executed'⟩) := by
  intro h
  cases budget with
  | zero => exact absurd (congrArg (·.2.2.op) h) (by simp [produceLoop])
  | succ budget =>
    have hfetch := dataAccessKind_ne_iFetch pending.physAddr pending.kind.isWrite
    rw [produceLoop] at h
    split at h
    · -- a fetch that passes the cache by
      exact hfetch (congrArg (fun out => (out.2.2.op.getD {}).kind) h).symm
    · split at h
      · simp only at h
        split at h
        · -- a data access takes the place of what was pending
          rename_i cached _ _ form _
          have hsome := congrArg (·.1.pendingMemOp) h
          rw [hpending] at hsome
          have haccess := startAccess_isAccess core form (cached.setWidth 16)
          rw [Option.some_inj.mp hsome] at haccess
          rcases hkind with htrapa | hrte
          · rw [htrapa] at haccess
            exact absurd haccess (by decide)
          · rw [hrte] at haccess
            exact absurd haccess (by decide)
        · -- another instruction is executed
          rename_i cached _ _ _
          have hlines := produceLoop_lines budget
            (core.executeInstruction (cached.setWidth 16) trace).1 seq
            (core.executeInstruction (cached.setWidth 16) trace).2 (executed + 1)
          rw [h] at hlines
          have := executeInstruction_lines core (cached.setWidth 16) trace
          simp only at hlines
          omega
      · -- a fetch that misses
        exact hfetch (congrArg (fun out => (out.2.2.op.getD {}).kind) h).symm

/-- A call that returns no operation has nothing pending and runs the loop. -/
theorem produceUntilBus_none {budget : Nat}
    (h : (core.produceUntilBus seq trace budget).2.2.op = none) :
    core.pendingExceptionVector = none ∧ core.pendingMemOp = none ∧
      ∀ rest, core.produceUntilBus seq trace rest = produceLoop rest core seq trace 0 := by
  rw [produceUntilBus] at h
  cases hvector : core.pendingExceptionVector with
  | some vector =>
    rw [hvector] at h
    exact absurd h (by simp)
  | none =>
    rw [hvector] at h
    cases hpending : core.pendingMemOp with
    | some pending =>
      rw [hpending] at h
      exact absurd h (by simp)
    | none =>
      refine ⟨rfl, rfl, fun rest => ?_⟩
      rw [produceUntilBus, hvector, hpending]

/-- **Run-ahead budgets compose exactly if the first call starts no sequence.**
For a call that returns no operation, continuing it by a second call is one call
with both budgets if and only if none of its rounds executes a TRAPA or an RTE
with a return context. -/
theorem composes_iff (core : SH2Core) (seq : Nat) (trace : TraceLog) (b1 b2 : Nat)
    (hnone : (core.produceUntilBus seq trace b1).2.2.op = none) :
    core.Composes seq trace b1 b2 ↔ NoSequence b1 core trace := by
  obtain ⟨hvector, hpending, hloop⟩ := produceUntilBus_none hnone
  obtain ⟨core1, trace1, ⟨op, executed1⟩, hfirst⟩ :
      ∃ core1 trace1 result, produceLoop b1 core seq trace 0 = (core1, trace1, result) :=
    ⟨_, _, _, rfl⟩
  rw [hloop, hfirst] at hnone
  obtain rfl : op = none := hnone
  have hvector1 : core1.pendingExceptionVector = none :=
    (produceLoop_vector b1 hfirst).trans hvector
  rw [Composes, hloop, hloop, hfirst, produceLoop_add b1 b2 hfirst]
  simp only
  constructor
  · intro h
    by_contra hseq
    obtain ⟨pending, hsome, hkind⟩ := produceLoop_sequence b1 hseq hfirst
    rw [produceUntilBus, hvector1, hsome] at h
    exact produceLoop_ne_pendingOp b2 hsome hkind h
  · intro hno
    have hpending1 : core1.pendingMemOp = none :=
      (produceLoop_noSequence b1 hno hfirst).trans hpending
    rw [produceUntilBus, hvector1, hpending1]
    exact produceLoop_executed b2 core1 seq trace1 executed1 0

/-- A core at the start of its memory, with one line of code in the cache. -/
def cachedCode (code : List Byte) : SH2Core :=
  { r := fun _ => 0x1000, icache := (TinyCache.make 16 64).fillLine 0 code }

/-- `NOP; NOP; ...` -/
def nops : SH2Core :=
  cachedCode [0x00, 0x09, 0x00, 0x09, 0x00, 0x09, 0x00, 0x09,
    0x00, 0x09, 0x00, 0x09, 0x00, 0x09, 0x00, 0x09]

/-- `TRAPA #32; NOP; ...` -/
def trapa : SH2Core :=
  cachedCode [0xC3, 0x20, 0x00, 0x09, 0x00, 0x09, 0x00, 0x09,
    0x00, 0x09, 0x00, 0x09, 0x00, 0x09, 0x00, 0x09]

theorem nops_composes : (nops.produceUntilBus 0 {} 2).2.2.op = none ∧ nops.Composes 0 {} 2 3 :=
  ⟨by decide, (composes_iff nops 0 {} 2 3 (by decide)).mpr ⟨by decide, by decide, trivial⟩⟩

/-- The second call issues the push of `sr`, the one call executes TRAPA again. -/
theorem trapa_not_composes :
    (trapa.produceUntilBus 0 {} 1).2.2.op = none ∧ ¬ trapa.Composes 0 {} 1 1 := by
  refine ⟨by decide, fun h => ?_⟩
  have hop := congrArg (·.2.2.op) h
  exact absurd hop (by decide)

end Saturnis.Cpu.SH2Core
