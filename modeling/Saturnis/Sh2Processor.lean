/-
A processor without a cache and without a bus.

A `Processor` is what the manual of a CPU speaks about: registers, and a branch
that waits for its delay slot.  It executes the word its program has at `pc`.
A core that meets no data access, no TRAPA and no exception does the same, from
its cache and over the bus, and its STATE records show it.

* `executeInstruction_processor` — one instruction of a core;
* `Follows` — a core that is where the processor is after as many instructions;
  kept by `Follows.execute`;
* `produceLoop_follows` — a call of `produce_until_bus`, on a cache that holds
  the program;
* `Follows.respond` — a response that brings the next word of the program.
-/
import Saturnis.Sh2Clock

namespace Saturnis.Core

open Saturnis.Mem

/-! ### STATE records -/

/-- The registers in a STATE record. -/
def CpuSnapshot.shown (s : CpuSnapshot) : Addr × Word × (Fin 16 → Word) := (s.pc, s.sr, s.r)

def TraceEvent.state? : TraceEvent → Option CpuSnapshot
  | .state snapshot => some snapshot
  | _ => none

namespace TraceLog

/-- The STATE records of a CPU, oldest first. -/
def statesOf (log : TraceLog) (cpu : Int) : List CpuSnapshot :=
  (log.lines.filterMap (·.state?)).filter fun snapshot => snapshot.cpu = cpu

@[simp] theorem statesOf_addCommit (log : TraceLog) (event : CommitEvent) (cpu : Int) :
    (log.addCommit event).statesOf cpu = log.statesOf cpu := by
  simp [statesOf, addCommit, TraceEvent.state?]

@[simp] theorem statesOf_addFault (log : TraceLog) (event : FaultEvent) (cpu : Int) :
    (log.addFault event).statesOf cpu = log.statesOf cpu := by
  simp [statesOf, addFault, TraceEvent.state?]

theorem statesOf_addState (log : TraceLog) (snapshot : CpuSnapshot) (cpu : Int) :
    (log.addState snapshot).statesOf cpu =
      log.statesOf cpu ++ if snapshot.cpu = cpu then [snapshot] else [] := by
  rw [statesOf, addState, List.filterMap_append, List.filter_append]
  split_ifs with h
  · simp [TraceEvent.state?, h, statesOf]
  · simp [TraceEvent.state?, h, statesOf]

end TraceLog

end Saturnis.Core

namespace Saturnis.Cpu

open Saturnis.Core Saturnis.Mem Saturnis.Bus

/-! ### The processor -/

structure Processor where
  registers : Registers
  branch : Option Addr := none

namespace Processor

/-- The registers after an instruction, and the branch that it leaves to the
instruction behind it. -/
def dispatch (p : Processor) (instr : Instr) : Registers × Option Addr :=
  match opcodeOf instr with
  | .reg op => (op.exec instr p.registers, none)
  | .branch op => op.exec instr p.registers
  | _ => ({ p.registers with pc := p.registers.pc + 2 }, none)

/-- One instruction; a branch in a delay slot is ignored. -/
def execute (p : Processor) (instr : Instr) : Processor :=
  match p.branch with
  | some target => ⟨{ (p.dispatch instr).1 with pc := target }, none⟩
  | none => ⟨(p.dispatch instr).1, (p.dispatch instr).2⟩

/-- The processor after `k` instructions of a program. -/
def run (program : Addr → Instr) (start : Processor) : Nat → Processor
  | 0 => start
  | k + 1 => (run program start k).execute (program (run program start k).registers.pc)

/-- The next instruction is in memory, and it neither accesses data nor traps. -/
def Plain (program : Addr → Instr) (p : Processor) : Prop :=
  (toPhys p.registers.pc).toNat % 2 = 0 ∧ isMmio (toPhys p.registers.pc) = false ∧
    dataFormOf (program p.registers.pc) = none ∧ opcodeOf (program p.registers.pc) ≠ .trapa

instance (program : Addr → Instr) (p : Processor) : Decidable (Plain program p) :=
  inferInstanceAs (Decidable (_ ∧ _ ∧ _ ∧ _))

end Processor

/-- What a STATE record shows of a processor. -/
def Processor.shown (p : Processor) : Addr × Word × (Fin 16 → Word) :=
  (p.registers.pc, p.registers.sr, p.registers.r)

namespace SH2Core

variable {core : SH2Core} {trace : TraceLog} {instr : Instr}

/-- The processor in a core. -/
def processor (core : SH2Core) : Processor := ⟨core.toRegisters, core.pendingBranchTarget⟩

/-- Nothing is pending in the core but a branch. -/
structure Bare (core : SH2Core) : Prop extends Quiet core where
  context : core.hasExceptionReturnContext = false
  restore : core.pendingRteRestore = false

/-- What an instruction does that is no data access and no TRAPA. -/
theorem dispatch_bare (h : core.Bare) (hdata : dataFormOf instr = none)
    (htrapa : opcodeOf instr ≠ .trapa) (trace : TraceLog) :
    (core.dispatch (opcodeOf instr) instr trace).1.Bare ∧
      (core.dispatch (opcodeOf instr) instr trace).1.pendingBranchTarget =
        core.pendingBranchTarget ∧
      (core.dispatch (opcodeOf instr) instr trace).1.toRegisters =
        (core.processor.dispatch instr).1 ∧
      (core.dispatch (opcodeOf instr) instr trace).2.1 = (core.processor.dispatch instr).2 := by
  have htransfer : (opcodeOf instr).isTransfer = false := by
    by_contra htransfer
    obtain ⟨form, hform⟩ := opcodeOf_transfer (by simpa using htransfer)
    rw [hform] at hdata
    exact absurd hdata (by simp)
  rw [Processor.dispatch]
  cases hop : opcodeOf instr with
  | reg op => exact ⟨⟨⟨h.vector, h.memOp⟩, h.context, h.restore⟩, rfl, rfl, rfl⟩
  | branch op => exact ⟨⟨⟨h.vector, h.memOp⟩, h.context, h.restore⟩, rfl, rfl, rfl⟩
  | illegal => exact ⟨⟨⟨h.vector, h.memOp⟩, h.context, h.restore⟩, rfl, rfl, rfl⟩
  | rte =>
    -- nothing has been entered that it could return from
    rw [dispatch, if_pos (by simp [h.context])]
    exact ⟨⟨⟨h.vector, h.memOp⟩, h.context, h.restore⟩, rfl, rfl, rfl⟩
  | trapa => exact absurd hop htrapa
  | pushSys source =>
    rw [hop] at htransfer
    exact absurd htransfer (by simp [Opcode.isTransfer])
  | popSys target =>
    rw [hop] at htransfer
    exact absurd htransfer (by simp [Opcode.isTransfer])

theorem settle_bare (h : core.Bare) (hnone : core.pendingBranchTarget = none)
    (slot next : Option Addr) :
    (core.settle slot next).Bare ∧ (core.settle slot next).processor =
      match slot with
      | some target => ⟨{ core.toRegisters with pc := target }, none⟩
      | none => ⟨core.toRegisters, next⟩ := by
  cases slot with
  | some target =>
    have htake : core.takeBranch target = { core with pc := target } := by
      rw [takeBranch, if_neg (by simp [h.restore])]
    rw [settle, htake]
    refine ⟨⟨⟨h.vector, h.memOp⟩, h.context, h.restore⟩, ?_⟩
    exact congrArg (Processor.mk _) hnone
  | none =>
    cases next with
    | some target => exact ⟨⟨⟨h.vector, h.memOp⟩, h.context, h.restore⟩, rfl⟩
    | none => exact ⟨h, congrArg (Processor.mk _) hnone⟩

/-- **An instruction of a core is an instruction of the processor in it.** -/
theorem executeInstruction_processor (h : core.Bare) (hdata : dataFormOf instr = none)
    (htrapa : opcodeOf instr ≠ .trapa) (trace : TraceLog) :
    (core.executeInstruction instr trace).1.Bare ∧
      (core.executeInstruction instr trace).1.processor = core.processor.execute instr := by
  have hbare : Bare { core with pendingBranchTarget := none } :=
    ⟨⟨h.vector, h.memOp⟩, h.context, h.restore⟩
  obtain ⟨hdispatch, hnone, hregisters, hnext⟩ := dispatch_bare hbare hdata htrapa trace
  obtain ⟨hsettle, hprocessor⟩ := settle_bare hdispatch hnone core.pendingBranchTarget
    ({ core with pendingBranchTarget := none }.dispatch (opcodeOf instr) instr trace).2.1
  rw [executeInstruction_eq]
  refine ⟨⟨⟨hsettle.vector, hsettle.memOp⟩, hsettle.context, hsettle.restore⟩,
    hprocessor.trans ?_⟩
  rw [hregisters, hnext]
  rfl

/-! ### STATE records of a core -/

theorem dispatch_statesOf (core : SH2Core) (op : Opcode) (instr : Instr) (trace : TraceLog)
    (cpu : Int) : (core.dispatch op instr trace).2.2.statesOf cpu = trace.statesOf cpu := by
  cases op with
  | rte =>
    rw [dispatch]
    split <;> exact TraceLog.statesOf_addFault _ _ _
  | illegal => exact TraceLog.statesOf_addFault _ _ _
  | _ => rfl

theorem retire_statesOf (core : SH2Core) (trace : TraceLog) (cpu : Int) :
    (core.retire trace).2.statesOf cpu =
      trace.statesOf cpu ++ if core.cpuId = cpu then [(core.retire trace).1.snapshot] else [] :=
  TraceLog.statesOf_addState _ _ _

/-- Every instruction is retired with a record of the registers it leaves. -/
theorem executeInstruction_statesOf (core : SH2Core) (instr : Instr) (trace : TraceLog)
    (cpu : Int) :
    (core.executeInstruction instr trace).2.statesOf cpu =
      trace.statesOf cpu ++
        if core.cpuId = cpu then [(core.executeInstruction instr trace).1.snapshot] else [] := by
  have hcpu := (executeInstruction_frame core instr trace).cpuId
  rw [executeInstruction_eq, retire_statesOf, dispatch_statesOf]
  rw [executeInstruction_eq] at hcpu
  change (settle _ _ _).cpuId = core.cpuId at hcpu
  rw [hcpu]

theorem fillIcache_statesOf (core : SH2Core) (response : BusResponse) (trace : TraceLog)
    (cpu : Int) : (core.fillIcache response trace).2.statesOf cpu = trace.statesOf cpu := by
  rw [fillIcache]
  split
  · rfl
  · simp only
    split
    · exact TraceLog.statesOf_addFault _ _ _
    · rfl

theorem produceUntilBus_cpuId (core : SH2Core) (seq : Nat) (trace : TraceLog) (budget : Nat) :
    (core.produceUntilBus seq trace budget).1.cpuId = core.cpuId := by
  rw [produceUntilBus]
  split
  · rfl
  · split
    · rfl
    · exact produceLoop_invariant (P := fun after _ => after.cpuId = core.cpuId)
        (fun after _ form instr h => (startAccess_frame after form instr).cpuId.trans h)
        (fun after log instr h => (executeInstruction_frame after instr log).cpuId.trans h)
        rfl budget seq 0

/-- A core records nothing for another. -/
theorem produceUntilBus_statesOf {cpu : Int} (hne : core.cpuId ≠ cpu) (seq : Nat)
    (trace : TraceLog) (budget : Nat) :
    (core.produceUntilBus seq trace budget).2.1.statesOf cpu = trace.statesOf cpu := by
  rw [produceUntilBus]
  split
  · exact TraceLog.statesOf_addFault _ _ _
  · split
    · rfl
    · refine (@produceLoop_invariant core
        (fun after log => after.cpuId ≠ cpu ∧ log.statesOf cpu = trace.statesOf cpu)
        (fun after log form instr h => ?_) (fun after log instr h => ?_)
        trace ⟨hne, rfl⟩ budget seq 0).2
      · exact ⟨fun heq => h.1 ((startAccess_frame after form instr).cpuId.symm.trans heq), h.2⟩
      · have hcpu := (executeInstruction_frame after instr log).cpuId
        rw [executeInstruction_statesOf, if_neg h.1, List.append_nil]
        exact ⟨fun heq => h.1 (hcpu.symm.trans heq), h.2⟩

theorem applyIfetchAndStep_statesOf {cpu : Int} (hne : core.cpuId ≠ cpu) (response : BusResponse)
    (trace : TraceLog) :
    (core.applyIfetchAndStep response trace).2.statesOf cpu = trace.statesOf cpu := by
  cases hpending : core.pendingMemOp with
  | some pending =>
    rw [applyIfetchAndStep_of_pending hpending, retire_statesOf]
    have hcpu := (advancePending_frame
      { core with t := tickAdd core.t response.stall, pendingMemOp := none } pending
      response.value).1
    rw [if_neg fun heq => hne (hcpu.symm.trans heq), List.append_nil]
  | none =>
    rw [applyIfetchAndStep_of_none hpending, executeInstruction_statesOf, fillIcache_statesOf,
      if_neg, List.append_nil]
    obtain ⟨icache, hfill⟩ :=
      fillIcache_eq { core with t := tickAdd core.t response.stall } response trace
    rw [hfill]
    exact hne

/-- The counter of a core is the number of its STATE records. -/
def Counts (core : SH2Core) (trace : TraceLog) : Prop :=
  core.executed = (trace.statesOf core.cpuId).length % tickModulus

theorem Counts.congr {after : SH2Core} {trace' : TraceLog} (h : core.Counts trace)
    (hexecuted : after.executed = core.executed) (hcpu : after.cpuId = core.cpuId)
    (hstates : trace'.statesOf core.cpuId = trace.statesOf core.cpuId) : after.Counts trace' := by
  rw [Counts, hexecuted, hcpu, hstates]
  exact h

theorem Counts.retire (h : core.Counts trace) :
    (core.retire trace).1.Counts (core.retire trace).2 := by
  rw [Counts] at h
  change tickAdd core.executed 1 = ((core.retire trace).2.statesOf core.cpuId).length % tickModulus
  rw [retire_statesOf, if_pos rfl, List.length_append, List.length_singleton, tickAdd, h,
    Nat.mod_add_mod]

theorem Counts.execute (h : core.Counts trace) (instr : Instr) :
    (core.executeInstruction instr trace).1.Counts (core.executeInstruction instr trace).2 := by
  obtain ⟨-, hexecuted⟩ :=
    dispatch_clock { core with pendingBranchTarget := none } (opcodeOf instr) instr trace
  rw [executeInstruction_eq]
  refine Counts.retire (h.congr ((settle_clock _ _ _).2.trans hexecuted) ?_
    (dispatch_statesOf _ _ _ _ _))
  exact (settle_frame _ _ _).cpuId.trans (dispatch_frame _ _ _ _).cpuId

theorem Counts.produce (h : core.Counts trace) (seq budget : Nat) :
    (core.produceUntilBus seq trace budget).1.Counts
      (core.produceUntilBus seq trace budget).2.1 := by
  rw [produceUntilBus]
  split
  · exact h.congr rfl rfl (TraceLog.statesOf_addFault _ _ _)
  · split
    · exact h
    · exact produceLoop_invariant (P := fun after log => after.Counts log)
        (fun after log form instr h => h.congr (startAccess_clock after form instr).2
          (startAccess_frame after form instr).cpuId rfl)
        (fun after log instr h => h.execute instr) h budget seq 0

theorem Counts.apply (h : core.Counts trace) (response : BusResponse) :
    (core.applyIfetchAndStep response trace).1.Counts
      (core.applyIfetchAndStep response trace).2 := by
  cases hpending : core.pendingMemOp with
  | some pending =>
    rw [applyIfetchAndStep_of_pending hpending]
    obtain ⟨-, hexecuted⟩ := advancePending_clock
      { core with t := tickAdd core.t response.stall, pendingMemOp := none } pending response.value
    exact Counts.retire (h.congr hexecuted (advancePending_frame _ _ _).1 rfl)
  | none =>
    rw [applyIfetchAndStep_of_none hpending]
    obtain ⟨icache, hfill⟩ :=
      fillIcache_eq { core with t := tickAdd core.t response.stall } response trace
    refine Counts.execute (h.congr ?_ ?_ ?_) _
    · rw [hfill]
    · rw [hfill]
    · exact fillIcache_statesOf _ response trace _

/-! ### Following the processor -/

/-- The core is where the processor is after as many instructions, and the STATE
records of the core show the way of the processor. -/
structure Follows (program : Addr → Instr) (start : Processor) (core : SH2Core)
    (trace : TraceLog) : Prop where
  bare : core.Bare
  processor : core.processor = Processor.run program start core.executed
  states : (trace.statesOf core.cpuId).map CpuSnapshot.shown =
    (List.range core.executed).map fun k => (Processor.run program start (k + 1)).shown

variable {program : Addr → Instr} {start : Processor}

/-- Records of other cores do not matter. -/
theorem Follows.congr {trace' : TraceLog} (h : Follows program start core trace)
    (hstates : trace'.statesOf core.cpuId = trace.statesOf core.cpuId) :
    Follows program start core trace' :=
  ⟨h.bare, h.processor, by rw [hstates, h.states]⟩

theorem Follows.pc (h : Follows program start core trace) :
    (Processor.run program start core.executed).registers.pc = core.pc := by
  rw [← h.processor]
  rfl

/-- The next word of the program is executed. -/
theorem Follows.execute (h : Follows program start core trace)
    (hplain : (Processor.run program start core.executed).Plain program)
    (hword : instr = program core.pc) (hfit : core.executed + 1 < tickModulus) :
    (core.executeInstruction instr trace).1.executed = core.executed + 1 ∧
      Follows program start (core.executeInstruction instr trace).1
        (core.executeInstruction instr trace).2 := by
  obtain ⟨-, -, hdata, htrapa⟩ := hplain
  rw [h.pc, ← hword] at hdata htrapa
  obtain ⟨hbare, hprocessor⟩ := executeInstruction_processor h.bare hdata htrapa trace
  have hexecuted : (core.executeInstruction instr trace).1.executed = core.executed + 1 :=
    (executeInstruction_passed core instr trace).executed.trans (tickAdd_of_lt hfit)
  have hcpu := (executeInstruction_frame core instr trace).cpuId
  have hrun : (core.executeInstruction instr trace).1.processor =
      Processor.run program start (core.executed + 1) := by
    rw [hprocessor, Processor.run, ← h.processor, hword]
    rfl
  refine ⟨hexecuted, hbare, hrun.trans (by rw [hexecuted]), ?_⟩
  rw [hcpu, executeInstruction_statesOf, if_pos rfl, hexecuted, List.range_succ, List.map_append,
    List.map_append, h.states, List.map_singleton, List.map_singleton, ← hrun]
  rfl

/-- What the core fetches is the next word of the program. -/
structure Fetches (core : SH2Core) (op : BusOp) : Prop where
  kind : op.kind = .iFetch
  phys : op.physAddr = toPhys core.pc
  size : op.size = 2

/-- A cache that holds nothing but the program. -/
def Reads (program : Addr → Instr) (icache : TinyCache) : Prop :=
  ∀ pc word, icache.read (toPhys pc) 2 = some word → word.setWidth 16 = program pc

/-- A call of `produce_until_bus` follows the program, up to the fetch of a word
that is not in the cache. -/
theorem produceLoop_follows (budget : Nat) (core : SH2Core) (seq : Nat) (trace : TraceLog)
    (executed : Nat) (h : Follows program start core trace) (hcache : Reads program core.icache)
    (hclock : core.t < tickModulus) (hfit : core.executed + budget < tickModulus)
    (hplain : ∀ k ≤ (produceLoop budget core seq trace executed).1.executed,
      (Processor.run program start k).Plain program) :
    Follows program start (produceLoop budget core seq trace executed).1
        (produceLoop budget core seq trace executed).2.1 ∧
      ∀ op ∈ (produceLoop budget core seq trace executed).2.2.op,
        (produceLoop budget core seq trace executed).1.Fetches op := by
  induction budget generalizing core trace executed with
  | zero =>
    rw [produceLoop]
    exact ⟨h, fun op hop => absurd hop (by simp)⟩
  | succ budget ih =>
    have hcall := produceLoop_call (budget + 1) core seq trace executed hclock (by omega)
    obtain ⟨k, hk, hpassed, -⟩ := hcall.passed
    have hgrows : core.executed ≤ (produceLoop (budget + 1) core seq trace executed).1.executed := by
      rw [hpassed.executed, tickAdd_of_lt (by omega)]
      omega
    have hhere := hplain core.executed hgrows
    rw [produceLoop] at hplain ⊢
    split at hplain
    · -- a fetch that passes the cache by
      rename_i huncached
      rw [if_pos huncached]
      refine ⟨h, fun op hop => ?_⟩
      obtain rfl := Option.some_inj.mp hop
      exact ⟨rfl, rfl, rfl⟩
    · rename_i hcached
      rw [if_neg hcached]
      split at hplain
      · rename_i cached hread
        have hword := hcache core.pc cached hread
        have hdata : dataFormOf (cached.setWidth 16) = none := by
          rw [hword, ← h.pc]
          exact hhere.2.2.1
        simp only [hdata] at hplain ⊢
        obtain ⟨hexecuted, hnext⟩ := h.execute hhere hword (by omega)
        refine ih _ _ _ hnext ?_ ?_ ?_ hplain
        · rw [(executeInstruction_frame core _ trace).icache]
          exact hcache
        · obtain ⟨ticks, -, -, ht⟩ := (executeInstruction_passed core (cached.setWidth 16) trace).clock
          rw [ht]
          exact tickAdd_lt _ _
        · omega
      · -- a fetch that misses
        refine ⟨h, fun op hop => ?_⟩
        obtain rfl := Option.some_inj.mp hop
        exact ⟨rfl, rfl, rfl⟩

/-- A response that brings the next word of the program. -/
theorem Follows.respond (h : Follows program start core trace)
    (hplain : (Processor.run program start core.executed).Plain program) (response : BusResponse)
    (hword : response.value.setWidth 16 = program core.pc)
    (hfit : core.executed + 1 < tickModulus) :
    Follows program start (core.applyIfetchAndStep response trace).1
      (core.applyIfetchAndStep response trace).2 := by
  rw [applyIfetchAndStep_of_none h.bare.memOp]
  obtain ⟨icache, hfill⟩ :=
    fillIcache_eq { core with t := tickAdd core.t response.stall } response trace
  have hstates := fillIcache_statesOf { core with t := tickAdd core.t response.stall } response trace
    core.cpuId
  have hsame : Follows program start
      ({ core with t := tickAdd core.t response.stall }.fillIcache response trace).1
      ({ core with t := tickAdd core.t response.stall }.fillIcache response trace).2 := by
    rw [hfill]
    refine ⟨⟨⟨h.bare.vector, h.bare.memOp⟩, h.bare.context, h.bare.restore⟩, h.processor, ?_⟩
    change (TraceLog.statesOf _ core.cpuId).map _ = _
    rw [hstates]
    exact h.states
  rw [hfill] at hsame ⊢
  exact (hsame.execute hplain hword hfit).2

end SH2Core

end Saturnis.Cpu
