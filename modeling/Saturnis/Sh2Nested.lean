/-
Nested exceptions.

A handler is entered by a request or by TRAPA, runs instructions of its own,
perhaps takes an exception in between, and ends with RTE and its delay slot
(`Nested`).  The core has one flag for the return context of all handlers: the
innermost RTE clears it, and the RTE of the handler around it does not return.

* `Entry.entered` — the state at the start of a handler;
* `Return.landed` — a return with its context restores `pc`, `sr` and `r15`;
* `Return.stays` — a return without it leaves `r15` alone;
* `unwinds_iff` — the levels of a nest unwind exactly if there is one of them.
-/
import Saturnis.Sh2Exception
import Saturnis.Sh2Instruction

namespace Saturnis.Cpu

open Saturnis.Core Saturnis.Mem Saturnis.Bus SH2Core

/-- A core on its arbiter, with the number of its next operation. -/
structure Machine where
  core : SH2Core
  arb : BusArbiter
  seq : Nat

namespace Machine

variable {m m₁ m₂ : Machine} {returnPc : Addr} {frame : SH2Core} {n n' k l : Nat}

def advance (n : Nat) (m : Machine) : Machine :=
  ⟨(steps n m.core m.arb m.seq).1, (steps n m.core m.arb m.seq).2, m.seq + n⟩

def request (m : Machine) (vector : Word) : Machine :=
  { m with core := m.core.requestExceptionVector vector }

/-- The clock does not run back in the next `n` steps. -/
def Clocked (n : Nat) (m : Machine) : Prop := ClockRuns n m.core m.arb m.seq

instance (n : Nat) (m : Machine) : Decidable (m.Clocked n) :=
  inferInstanceAs (Decidable (ClockRuns n m.core m.arb m.seq))

/-- The log does not halt and the next operation is in request order. -/
structure Ready (m : Machine) : Prop where
  clear : Clear m.arb.trace
  order : m.core.InOrder m.arb

theorem Ready.advance (h : m.Ready) (hclock : m.Clocked n) : (m.advance n).Ready := by
  obtain ⟨hclear, horder⟩ := h.clear.steps n h.order hclock
  exact ⟨hclear, horder⟩

/-! ### Handlers -/

/-- A handler is entered, between two instructions. -/
inductive Entry : Machine → Addr → Machine → Prop
  | request {m : Machine} (vector : Word) (rest : m.core.Boundary)
      (stack : m.core.StackRam m.arb.memory) (clock : (m.request vector).Clocked 3) :
      Entry m m.core.pc ((m.request vector).advance 3)
  | trapa {m : Machine} (rest : m.core.Boundary) (stack : m.core.StackRam m.arb.memory)
      (instr : opcodeOf (m.core.fetched m.arb) = .trapa) (clock : m.Clocked 4) :
      Entry m (m.core.pc + 2) (m.advance 4)

/-- Instructions of a handler that leave its stack alone. -/
structure Body (frame : SH2Core) (n : Nat) (m : Machine) : Prop where
  plain : ∀ i < n, (m.advance i).core.Plain (m.advance i).arb
  rest : (m.advance n).core.Boundary
  sp : (m.advance n).core.r 15 = m.core.r 15
  pcWord : (m.advance n).arb.memory.read (toPhys (frame.r 15 - 8)) 4 =
    m.arb.memory.read (toPhys (frame.r 15 - 8)) 4
  srWord : (m.advance n).arb.memory.read (toPhys (frame.r 15 - 4)) 4 =
    m.arb.memory.read (toPhys (frame.r 15 - 4)) 4
  clock : m.Clocked n

/-- The RTE of a handler, of `k` steps, and its delay slot, of `l` steps. -/
structure Return (k l : Nat) (m : Machine) : Prop where
  rte : m.core.fetched m.arb = rteWord
  takes : Takes k m.core m.arb m.seq
  clock : m.Clocked k
  plain : ∀ i < l, ((m.advance k).advance i).core.Plain ((m.advance k).advance i).arb
  direct : (m.advance k).core.cachedInstr = none →
    (opcodeOf ((m.advance k).core.fetched (m.advance k).arb)).isTransfer = false
  slot : Takes l (m.advance k).core (m.advance k).arb (m.advance k).seq
  sp : ((m.advance k).advance l).core.r 15 = (m.advance k).core.r 15
  slotClock : (m.advance k).Clocked l

/-- An exception: where it was taken, what it returns to, and the machine after
the delay slot of its RTE. -/
structure Level where
  interrupted : Machine
  returnPc : Addr
  resumed : Machine

/-- The RTE has returned to what was interrupted. -/
structure Level.Unwinds (level : Level) : Prop where
  landed : level.resumed.core.Landed level.returnPc level.interrupted.core.sr
  sp : level.resumed.core.r 15 = level.interrupted.core.r 15

/-- A nest of exceptions, the outermost first. -/
inductive Nested : List Level → Machine → Machine → Prop
  | innermost {m m₁ : Machine} {returnPc : Addr} {n k l : Nat} (entry : Entry m returnPc m₁)
      (body : Body m.core n m₁) (ret : Return k l (m₁.advance n)) :
      Nested [⟨m, returnPc, ((m₁.advance n).advance k).advance l⟩] m
        (((m₁.advance n).advance k).advance l)
  | outer {levels : List Level} {m m₁ m₂ : Machine} {returnPc : Addr} {n n' k l : Nat}
      (entry : Entry m returnPc m₁) (before : Body m.core n m₁)
      (inner : Nested levels (m₁.advance n) m₂) (after : Body m.core n' m₂)
      (ret : Return k l (m₂.advance n')) :
      Nested (⟨m, returnPc, ((m₂.advance n').advance k).advance l⟩ :: levels) m
        (((m₂.advance n').advance k).advance l)

/-! ### Entries -/

/-- The state at the start of a handler. -/
structure Entered (m : Machine) (returnPc : Addr) (m₁ : Machine) : Prop where
  ready : m₁.Ready
  rest : m₁.core.Boundary
  context : m₁.core.hasExceptionReturnContext = true
  sp : m₁.core.r 15 = m.core.r 15 - 8
  memory : m₁.arb.memory = m.core.pushed m.arb.memory returnPc

/-- Where the lines of the cache do not matter. -/
abbrev AnyLine : Nat → Prop := fun _ => True

theorem Ready.at (h : m.Ready) : At AnyLine (m.core, m.arb) m.core m.arb.memory m.arb.devices :=
  ⟨AlikeCore.refl _, rfl, rfl, h.clear, h.order⟩

theorem Entered.of_at {s : SH2Core × BusArbiter} {handler : Addr} {imm : Option Word}
    (h : At AnyLine s { m.core.handlerEntry handler with pendingTrapaImm := imm }
      (m.core.pushed m.arb.memory returnPc) m.arb.devices)
    (rest : m.core.Boundary) (seq : Nat) : Entered m returnPc ⟨s.1, s.2, seq⟩ := by
  have hsp : Function.update m.core.r 15 (m.core.r 15 - 8) 15 = m.core.r 15 - 8 :=
    Function.update_self ..
  have hr := congrArg (fun x : Registers => x.r 15) h.core.registers
  exact ⟨⟨h.clear, h.order⟩,
    ⟨⟨h.core.vector, h.core.memOp⟩, h.core.branchTarget.trans rest.branch,
      h.core.rteRestore.trans rest.restore⟩,
    h.core.context, hr.trans hsp, h.memory⟩

theorem Entry.entered (h : Entry m returnPc m₁) (hready : m.Ready) : Entered m returnPc m₁ := by
  cases h with
  | request vector rest stack clock =>
    obtain ⟨handler, hat⟩ := entry_at hready.at stack vector clock
    have hentered := @Entered.of_at m m.core.pc _ handler m.core.pendingTrapaImm hat rest (m.seq + 3)
    exact hentered
  | trapa rest stack instr clock =>
    obtain ⟨handler, hat⟩ := trapa_at hready.at rest.toQuiet rest.branch instr stack
      (fun _ _ => trivial) clock
    have hentered := Entered.of_at hat rest (m.seq + 4)
    exact hentered

/-! ### Bodies and returns -/

theorem advance_succ (n : Nat) (m : Machine) :
    (m.advance (n + 1)).core =
      ((m.advance n).core.step (m.advance n).arb (m.advance n).seq).1 :=
  congrArg Prod.fst (steps_succ n m.core m.arb m.seq)

/-- Plain steps keep the return context. -/
theorem plain_advance (h : ∀ i < n, (m.advance i).core.Plain (m.advance i).arb) :
    (m.advance n).core.hasExceptionReturnContext = m.core.hasExceptionReturnContext := by
  induction n with
  | zero => rfl
  | succ n ih =>
    rw [advance_succ, plain_context (h n (Nat.lt_succ_self n))]
    exact ih fun i hi => h i (Nat.lt_succ_of_lt hi)

theorem Return.clock_first (h : Return k l m) :
    m.core.t ≤ (m.core.step m.arb m.seq).1.t := by
  obtain ⟨k, rfl⟩ := Nat.exists_eq_succ_of_ne_zero (Nat.ne_of_gt h.takes.pos)
  exact h.clock.1

theorem Return.ready (h : Return k l m) (hready : m.Ready) :
    ((m.advance k).advance l).Ready := (hready.advance h.clock).advance h.slotClock

/-- The length of an RTE. -/
theorem Return.length (h : Return k l m) (hready : m.Ready) (rest : m.core.Boundary) :
    k = if m.core.hasExceptionReturnContext then 3 else 1 := by
  have hlength := takes_unique h.takes (takes_instructionSteps rest.vector)
  rw [hlength, instructionSteps]
  by_cases hcontext : m.core.hasExceptionReturnContext = true
  · have hfirst := rte_first hready.at rest.toQuiet rest.branch hcontext h.rte (fun _ _ => trivial)
      h.clock_first
    rw [phasesLeft_of_pending hfirst.core.memOp, if_pos hcontext]
    rfl
  · have hfirst := rte_fault_at hready.at rest.toQuiet rest.branch (by simpa using hcontext) h.rte
      (fun _ _ => trivial) h.clock_first
    rw [phasesLeft_eq_zero.mpr (hfirst.core.memOp.trans rest.memOp), if_neg hcontext]

/-- What a return that finds its context leads to. -/
structure Returned (m m' : Machine) : Prop where
  landed : m'.core.Landed (m.arb.memory.read (toPhys (m.core.r 15)) 4)
    (m.arb.memory.read (toPhys (m.core.r 15 + 4)) 4)
  sp : m'.core.r 15 = m.core.r 15 + 8
  context : m'.core.hasExceptionReturnContext = false

/-- A machine with the return popped is in the delay slot. -/
theorem inSlot_of_at {s : SH2Core × BusArbiter} {core : SH2Core} {returnPc returnSr : Word}
    {memory : CommittedMemory} {devices : Dev.DeviceHub}
    (h : At AnyLine s (core.returning returnPc returnSr) memory devices)
    (hvector : core.pendingExceptionVector = none) : s.1.InSlot returnPc returnSr :=
  ⟨h.core.branchTarget, h.core.rteRestore, h.core.newSr h.core.rteRestore,
    h.core.vector.trans hvector⟩

theorem Return.landed (h : Return 3 l m) (hready : m.Ready) (rest : m.core.Boundary)
    (hcontext : m.core.hasExceptionReturnContext = true)
    (hpc : isMmio (toPhys (m.core.r 15)) = false)
    (hsr : isMmio (toPhys (m.core.r 15 + 4)) = false) :
    Returned m ((m.advance 3).advance l) := by
  have hat := rte_at hready.at rest.toQuiet rest.branch hcontext h.rte hpc hsr
    (fun _ _ => trivial) h.clock
  change At AnyLine ((m.advance 3).core, (m.advance 3).arb) _ _ _ at hat
  have hslot := inSlot_of_at hat rest.vector
  have hlanded := hslot.landed (h.plain 0 h.slot.pos) hat.order hat.core.memOp h.direct h.slot
  refine ⟨hlanded, h.sp.trans ?_, (plain_advance h.plain).trans hat.core.context⟩
  have hsp : Function.update m.core.r 15 (m.core.r 15 + 8) 15 = m.core.r 15 + 8 :=
    Function.update_self ..
  have hr := congrArg (fun x : Registers => x.r 15) hat.core.registers
  exact hr.trans hsp

/-- A return that does not find its context leaves the stack alone. -/
theorem Return.stays (h : Return 1 l m) (hready : m.Ready) (rest : m.core.Boundary)
    (hcontext : m.core.hasExceptionReturnContext = false) :
    ((m.advance 1).advance l).core.r 15 = m.core.r 15 := by
  have hat := rte_fault_at hready.at rest.toQuiet rest.branch hcontext h.rte (fun _ _ => trivial)
    h.clock_first
  have hr := congrArg (fun x : Registers => x.r 15) hat.core.registers
  exact h.sp.trans hr

/-! ### Nests -/

theorem Entry.stack (h : Entry m returnPc m₁) : m.core.StackRam m.arb.memory := by
  cases h with
  | request vector rest stack clock => exact stack
  | trapa rest stack instr clock => exact stack

/-- The end of the handler of a level: its RTE and the delay slot of it. -/
theorem innermost_unwinds (hready : m.Ready) (entry : Entry m returnPc m₁)
    (body : Body m.core n m₁) (ret : Return k l (m₁.advance n)) :
    Level.Unwinds ⟨m, returnPc, ((m₁.advance n).advance k).advance l⟩ ∧
      (((m₁.advance n).advance k).advance l).core.hasExceptionReturnContext = false := by
  have hentered := entry.entered hready
  have hready' := hentered.ready.advance body.clock
  have hcontext := (plain_advance body.plain).trans hentered.context
  have hsp : (m₁.advance n).core.r 15 = m.core.r 15 - 8 := body.sp.trans hentered.sp
  have hsp' : (m₁.advance n).core.r 15 + 4 = m.core.r 15 - 4 := by
    rw [hsp, sub_eight_add_four]
  obtain rfl : k = 3 := (ret.length hready' body.rest).trans (if_pos hcontext)
  have hreturned := ret.landed hready' body.rest hcontext
    (by rw [hsp]; exact entry.stack.pc.ram) (by rw [hsp']; exact entry.stack.sr.ram)
  have hlanded := hreturned.landed
  -- the words of the stack are those that the entry has pushed
  rw [hsp', hsp, body.pcWord, body.srWord, hentered.memory, popped_pc entry.stack,
    popped_sr entry.stack] at hlanded
  refine ⟨⟨hlanded, hreturned.sp.trans ?_⟩, hreturned.context⟩
  rw [hsp, sub_eight_add_eight]

/-- The handler around another one that has unwound does not return. -/
theorem outer_stays (hready : m.Ready) (entry : Entry m returnPc m₁)
    (before : Body m.core n m₁) (hinner : m₂.core.r 15 = (m₁.advance n).core.r 15)
    (hcontext : m₂.core.hasExceptionReturnContext = false) (hready₂ : m₂.Ready)
    (after : Body m.core n' m₂) (ret : Return k l (m₂.advance n')) :
    ¬ Level.Unwinds ⟨m, returnPc, ((m₂.advance n').advance k).advance l⟩ := by
  have hready' := hready₂.advance after.clock
  have hcontext' := (plain_advance after.plain).trans hcontext
  obtain rfl : k = 1 :=
    (ret.length hready' after.rest).trans (if_neg (by rw [hcontext']; exact Bool.false_ne_true))
  have hstays := ret.stays hready' after.rest hcontext'
  have hsp : ((m₂.advance n').core.r 15) = m.core.r 15 - 8 := by
    rw [after.sp, hinner, before.sp, (entry.entered hready).sp]
  rw [hsp] at hstays
  intro hunwinds
  have heq : m.core.r 15 - 8 = m.core.r 15 := hstays.symm.trans hunwinds.sp
  bv_omega

/-- What a nest leads to: one level unwinds, of several one does not. -/
theorem Nested.outcome {levels : List Level} (h : Nested levels m m₂) (hready : m.Ready) :
    m₂.Ready ∧
      (levels.length = 1 ∧ (∀ level ∈ levels, level.Unwinds) ∧ m₂.core.r 15 = m.core.r 15 ∧
          m₂.core.hasExceptionReturnContext = false ∨
        levels.length ≠ 1 ∧ ∃ level ∈ levels, ¬ level.Unwinds) := by
  induction h with
  | innermost entry body ret =>
    obtain ⟨hunwinds, hcontext⟩ := innermost_unwinds hready entry body ret
    refine ⟨ret.ready ((entry.entered hready).ready.advance body.clock), Or.inl ⟨rfl, ?_, ?_, hcontext⟩⟩
    · intro level hlevel
      rw [List.mem_singleton.mp hlevel]
      exact hunwinds
    · exact hunwinds.sp
  | outer entry before inner after ret ih =>
    have hready₁ := (entry.entered hready).ready.advance before.clock
    obtain ⟨hready₂, hinner⟩ := ih hready₁
    refine ⟨ret.ready (hready₂.advance after.clock), Or.inr ?_⟩
    rcases hinner with ⟨hone, -, hsp, hcontext⟩ | ⟨-, level, hlevel, hfails⟩
    · -- the innermost RTE has cleared the context
      refine ⟨by rw [List.length_cons]; omega, _, List.mem_cons_self, ?_⟩
      exact outer_stays hready entry before hsp hcontext hready₂ after ret
    · have hlength := List.length_pos_of_mem hlevel
      refine ⟨by rw [List.length_cons]; omega, level, List.mem_cons_of_mem _ hlevel, hfails⟩

/-- **Nested exceptions unwind exactly if there is one.** -/
theorem unwinds_iff {levels : List Level} {m m' : Machine} (h : Nested levels m m')
    (hready : m.Ready) : (∀ level ∈ levels, level.Unwinds) ↔ levels.length = 1 := by
  obtain ⟨-, ⟨hone, hall, -⟩ | ⟨hmore, level, hlevel, hfails⟩⟩ := h.outcome hready
  · exact ⟨fun _ => hone, fun _ => hall⟩
  · constructor
    · intro hall
      exact absurd (hall level hlevel) hfails
    · intro hlength
      exact absurd hlength hmore

/-- A body without instructions. -/
theorem Body.none (rest : m.core.Boundary) : Body frame 0 m :=
  ⟨fun i hi => absurd hi (Nat.not_lt_zero i), rest, rfl, rfl, rfl, trivial⟩

/-- Handlers that consist of their RTE. -/
theorem Nested.single (entry : Entry m returnPc m₁) (rest : m₁.core.Boundary)
    (ret : Return k l m₁) :
    Nested [⟨m, returnPc, (m₁.advance k).advance l⟩] m ((m₁.advance k).advance l) :=
  .innermost entry (Body.none rest) ret

theorem Nested.around {levels : List Level} (entry : Entry m returnPc m₁)
    (rest : m₁.core.Boundary) (inner : Nested levels m₁ m₂) (rest₂ : m₂.core.Boundary)
    (ret : Return k l m₂) :
    Nested (⟨m, returnPc, (m₂.advance k).advance l⟩ :: levels) m ((m₂.advance k).advance l) :=
  .outer entry (Body.none rest) inner (Body.none rest₂) ret

theorem plain_of_quiet (h : m.core.Quiet)
    (hfetch : opcodeOf (m.core.fetched m.arb) ≠ .trapa ∧ opcodeOf (m.core.fetched m.arb) ≠ .rte) :
    m.core.Plain m.arb :=
  ⟨h.vector, fun _ hpending => absurd (h.memOp.symm.trans hpending) (by simp), fun _ => hfetch⟩

/-- The program of two `NOP`s, its handler `RTE; NOP`, and the handler taken
again inside itself. -/
def bare : Machine := ⟨bareCore, { memory := handlerMemory nopProgram }, 0⟩

/-- The machine with its number as a numeral. -/
def numbered (s : SH2Core × BusArbiter) (seq : Nat) : Machine := ⟨s.1, s.2, seq⟩

def inHandler : Machine :=
  numbered (steps 3 (bare.core.requestExceptionVector 0) bare.arb 0) 3

def inInner : Machine :=
  numbered (steps 3 (inHandler.core.requestExceptionVector 0) inHandler.arb 3) 6

/-- The handler is left, by its RTE and its delay slot. -/
def inInnerSlot : Machine := numbered (steps 3 inInner.core inInner.arb 6) 9

def outOfInner : Machine := numbered (steps 1 inInnerSlot.core inInnerSlot.arb 9) 10

def onceSlot : Machine := numbered (steps 3 inHandler.core inHandler.arb 3) 6

def outOfOnce : Machine := numbered (steps 1 onceSlot.core onceSlot.arb 6) 7

def twiceSlot : Machine := numbered (steps 1 outOfInner.core outOfInner.arb 10) 11

def outOfTwice : Machine := numbered (steps 1 twiceSlot.core twiceSlot.arb 11) 12

theorem bare_ready : bare.Ready := ⟨⟨rfl, rfl⟩, ⟨by decide, by decide⟩⟩

theorem bare_rest : bare.core.Boundary := ⟨⟨by decide, by decide⟩, by decide, by decide⟩

theorem inHandler_rest : inHandler.core.Boundary :=
  ⟨⟨by decide +kernel, by decide +kernel⟩, by decide +kernel, by decide +kernel⟩

theorem inInner_rest : inInner.core.Boundary :=
  ⟨⟨by decide +kernel, by decide +kernel⟩, by decide +kernel, by decide +kernel⟩

theorem outOfInner_rest : outOfInner.core.Boundary :=
  ⟨⟨by decide +kernel, by decide +kernel⟩, by decide +kernel, by decide +kernel⟩

theorem bare_entry : Entry bare bare.core.pc inHandler :=
  .request 0 bare_rest ⟨⟨by decide, by decide⟩, ⟨by decide, by decide⟩⟩ (by decide +kernel)

theorem inHandler_entry : Entry inHandler inHandler.core.pc inInner :=
  .request 0 inHandler_rest
    ⟨⟨by decide +kernel, by decide +kernel⟩, ⟨by decide +kernel, by decide +kernel⟩⟩
    (by decide +kernel)

theorem inHandler_return : Return 3 1 inHandler :=
  ⟨by decide +kernel, ⟨by decide, by decide +kernel, by decide +kernel⟩, by decide +kernel,
    fun i hi => by
      obtain rfl : i = 0 := by omega
      exact plain_of_quiet ⟨by decide +kernel, by decide +kernel⟩ (by decide +kernel),
    by decide +kernel, ⟨by decide, by decide +kernel, by decide +kernel⟩, by decide +kernel,
    by decide +kernel⟩

theorem inInner_return : Return 3 1 inInner :=
  ⟨by decide +kernel, ⟨by decide, by decide +kernel, by decide +kernel⟩, by decide +kernel,
    fun i hi => by
      obtain rfl : i = 0 := by omega
      exact plain_of_quiet ⟨by decide +kernel, by decide +kernel⟩ (by decide +kernel),
    by decide +kernel, ⟨by decide, by decide +kernel, by decide +kernel⟩, by decide +kernel,
    by decide +kernel⟩

theorem outOfInner_return : Return 1 1 outOfInner :=
  ⟨by decide +kernel, ⟨by decide, by decide +kernel, by decide +kernel⟩, by decide +kernel,
    fun i hi => by
      obtain rfl : i = 0 := by omega
      exact plain_of_quiet ⟨by decide +kernel, by decide +kernel⟩ (by decide +kernel),
    by decide +kernel, ⟨by decide, by decide +kernel, by decide +kernel⟩, by decide +kernel,
    by decide +kernel⟩

theorem nested_once : Nested [⟨bare, bare.core.pc, outOfOnce⟩] bare outOfOnce :=
  .single bare_entry inHandler_rest inHandler_return

theorem nested_inner :
    Nested [⟨inHandler, inHandler.core.pc, outOfInner⟩] inHandler outOfInner :=
  .single inHandler_entry inInner_rest inInner_return

theorem nested_twice :
    Nested [⟨bare, bare.core.pc, outOfTwice⟩, ⟨inHandler, inHandler.core.pc, outOfInner⟩] bare
      outOfTwice :=
  .around bare_entry inHandler_rest nested_inner outOfInner_rest outOfInner_return

theorem nested_once_unwinds : Level.Unwinds ⟨bare, bare.core.pc, outOfOnce⟩ :=
  (unwinds_iff nested_once bare_ready).mpr rfl _ List.mem_cons_self

/-- Two nested exceptions: the outer RTE does not return. -/
theorem nested_twice_not_unwinds :
    Nested [⟨bare, bare.core.pc, outOfTwice⟩, ⟨inHandler, inHandler.core.pc, outOfInner⟩] bare
        outOfTwice ∧
      ¬ Level.Unwinds ⟨bare, bare.core.pc, outOfTwice⟩ := by
  have hpc : outOfTwice.core.pc ≠ bare.core.pc := by decide +kernel
  exact ⟨nested_twice, fun hunwinds => hpc hunwinds.landed.pc⟩

end Machine

end Saturnis.Cpu
