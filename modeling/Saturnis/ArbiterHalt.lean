/-
Halting on faults.

With halt-on-fault enabled a fault sets the latch of the trace.  The entry
points and both loops of `commit_batch` test the latch before they touch an
operation, so an operation that faults is the last one that is handled.

* `serve_unchanged` — a call on a halted arbiter;
* `serve_ends` — one call, up to its first fault;
* `failStop` — **after a fault no call records or changes anything**.
-/
import Saturnis.ArbiterQueue

namespace Saturnis.Bus

open Saturnis.Core Saturnis.Mem Saturnis.Dev

/-- A call of any entry point. -/
inductive BusCall
  | entry (call : ArbiterCall)
  | commitPending (pendingOps : List BusOp)

/-- A call, or a record that a CPU adds to the trace itself. -/
inductive BusEvent
  | call (call : BusCall)
  | addState (snapshot : CpuSnapshot)
  | addFault (event : FaultEvent)

namespace Handled

/-! ### What one operation does to the latch -/

variable {h : Handled}

theorem Sound.trace_of_granted (hs : h.Sound) (hgranted : h.granted = true) :
    h.after.trace = h.before.trace.addCommit h.record := by
  obtain ⟨hafter, hresponse⟩ := hs.of_granted hgranted
  rw [hafter, record, hresponse]
  rfl

/-- A refused operation leaves a fault and its own COMMIT record, and nothing else. -/
theorem Sound.trace_of_refused (hs : h.Sound) (hrefused : h.granted = false) :
    ∃ fault, h.after.trace = (h.before.trace.addFault fault).addCommit h.record ∧
      h.after.hardware = h.before.hardware := by
  obtain ⟨reason, detail, hafter, hresponse⟩ := hs.of_rejected hrefused
  refine ⟨⟨h.before.startTime h.op, h.op.cpuId, 0, detail, reason⟩, ?_, ?_⟩
  · rw [hafter, record, hresponse]
    rfl
  · rw [hafter]
    exact BusArbiter.hardware_faultResponse ..

end Handled

namespace BusArbiter

def serve (arb : BusArbiter) : BusCall → BusArbiter
  | .entry call => arb.runCall call
  | .commitPending pendingOps => (arb.commitPending pendingOps).1

def serveLog (arb : BusArbiter) : BusCall → List Handled
  | .entry call => arb.callLog call
  | .commitPending pendingOps => arb.batchLog pendingOps

def react (arb : BusArbiter) : BusEvent → BusArbiter
  | .call call => arb.serve call
  | .addState snapshot => { arb with trace := arb.trace.addState snapshot }
  | .addFault event => { arb with trace := arb.trace.addFault event }

def reactAll (arb : BusArbiter) (events : List BusEvent) : BusArbiter := events.foldl react arb

/-! ### Only a running arbiter handles operations -/

theorem commitLog_running (arb : BusArbiter) (op : BusOp) :
    ∀ h ∈ arb.commitLog op, h.before.trace.shouldHalt = false := by
  rw [commitLog]
  split
  · simp
  · rename_i hhalt
    have hrun : arb.trace.shouldHalt = false := by simpa using hhalt
    split
    · rename_i hvalid
      intro h hh
      rw [List.mem_singleton.mp hh]
      change (arb.validateEnqueueContract op).1.trace.shouldHalt = false
      rw [core_trace (core_validateEnqueueContract hvalid), hrun]
    · intro h hh
      rw [List.mem_singleton.mp hh]
      exact hrun

theorem enqueueLog_running (arb : BusArbiter) (ops : List BusOp) :
    ∀ h ∈ arb.enqueueLog ops, h.before.trace.shouldHalt = false := by
  intro h hh
  obtain ⟨arb', op, hrun, -, rfl⟩ := mem_enqueueLog hh
  exact hrun

theorem roundsLog_running (rounds : Nat) (arb : BusArbiter) (pending : List CommitResult) :
    ∀ h ∈ roundsLog rounds arb pending, h.before.trace.shouldHalt = false := by
  intro h hh
  obtain ⟨arb', op, tie, hrun, rfl⟩ := mem_roundsLog hh
  exact hrun

theorem batchLog_running (arb : BusArbiter) (ops : List BusOp) :
    ∀ h ∈ arb.batchLog ops, h.before.trace.shouldHalt = false := by
  intro h hh
  rcases List.mem_append.mp hh with hh | hh
  · exact enqueueLog_running _ _ h hh
  · exact roundsLog_running _ _ _ h hh

theorem serveLog_running (arb : BusArbiter) (call : BusCall) :
    ∀ h ∈ arb.serveLog call, h.before.trace.shouldHalt = false := by
  match call with
  | .entry (.commit op) => exact commitLog_running arb op
  | .entry (.commitDma op) => exact commitLog_running arb _
  | .entry (.commitBatch ops) => exact batchLog_running arb ops
  | .entry (.updateProgress cpuId t) => simp [serveLog, callLog]
  | .commitPending ops => exact batchLog_running arb ops

theorem serveLog_sound (arb : BusArbiter) (call : BusCall) : ∀ h ∈ arb.serveLog call, h.Sound := by
  cases call with
  | entry call => exact callLog_sound arb call
  | commitPending ops => exact callLog_sound arb (.commitBatch ops)

theorem serve_chained (arb : BusArbiter) (call : BusCall) :
    Chained arb (arb.serveLog call) (arb.serve call) := by
  cases call with
  | entry call => exact runCall_chained arb call
  | commitPending ops =>
    rw [serve, (Holder.commitPending_fst arb ops).1]
    exact batch_chained arb ops

/-! ### One call -/

/-- What a call leaves as it is. -/
structure Unchanged (a b : BusArbiter) : Prop where
  trace : b.trace = a.trace
  memory : b.memory = a.memory
  devices : b.devices = a.devices
  busFreeTime : b.busFreeTime = a.busFreeTime

theorem unchanged_of_core {a b : BusArbiter} (h : a.core = b.core) : Unchanged a b := by
  have hhardware := hardware_of_core h
  exact ⟨(core_trace h).symm, (hardware_memory hhardware).symm, (hardware_devices hhardware).symm,
    (hardware_busFreeTime hhardware).symm⟩

/-- A halted arbiter handles nothing. -/
theorem serve_unchanged {arb : BusArbiter} (hhalt : arb.trace.shouldHalt = true) (call : BusCall) :
    Unchanged arb (arb.serve call) := by
  have hchain := serve_chained arb call
  cases hlog : arb.serveLog call with
  | nil =>
    rw [hlog] at hchain
    exact unchanged_of_core hchain
  | cons h log =>
    -- the first operation would meet the halted arbiter
    rw [hlog] at hchain
    have hrun := serveLog_running arb call h (by rw [hlog]; exact List.mem_cons_self)
    rw [← core_trace hchain.1, hhalt] at hrun
    exact absurd hrun (by simp)

/-- A call that grants every operation it handles, or faults on the last one. -/
inductive Ends (a : BusArbiter) (log : List Handled) (b : BusArbiter) : Prop
  | clear (hgranted : ∀ h ∈ log, h.granted = true)
      (hlines : b.trace.lines = a.trace.lines ++ log.map fun h => .commit h.record)
      (hlatch : b.trace.shouldHalt = a.trace.shouldHalt) : Ends a log b
  | faulted (init : List Handled) (last : Handled) (fault : FaultEvent)
      (hlog : log = init ++ [last]) (hgranted : ∀ h ∈ init, h.granted = true)
      (hrefused : last.granted = false) (hchain : Chained a init last.before)
      (hlines : b.trace.lines =
        (a.trace.lines ++ init.map fun h => .commit h.record) ++
          [.fault fault, .commit last.record])
      (hhardware : b.hardware = last.before.hardware)
      (hlatch : b.trace.shouldHalt = true) : Ends a log b

theorem Chained.ends {a b : BusArbiter} {log : List Handled} (h : Chained a log b)
    (hsound : ∀ e ∈ log, e.Sound) (hrun : ∀ e ∈ log, e.before.trace.shouldHalt = false)
    (hmode : a.trace.haltOnFault = true) : Ends a log b ∧ b.trace.haltOnFault = true := by
  induction log generalizing a with
  | nil =>
    have htrace := core_trace h
    refine ⟨.clear (by simp) ?_ (by rw [htrace]), by rw [← htrace, hmode]⟩
    rw [htrace, List.map_nil, List.append_nil]
  | cons e log ih =>
    obtain ⟨hcore, htail⟩ := h
    have htrace := core_trace hcore
    have he := hsound e List.mem_cons_self
    cases hgranted : e.granted with
    | true =>
      have hafter := he.trace_of_granted hgranted
      have hmode' : e.after.trace.haltOnFault = true := by
        rw [hafter, TraceLog.haltOnFault_addCommit, ← htrace, hmode]
      have hlines : e.after.trace.lines = a.trace.lines ++ [.commit e.record] := by
        rw [hafter, htrace]
        rfl
      obtain ⟨hends, hkeep⟩ := ih htail (fun x hx => hsound x (List.mem_cons_of_mem e hx))
        (fun x hx => hrun x (List.mem_cons_of_mem e hx)) hmode'
      refine ⟨?_, hkeep⟩
      cases hends with
      | clear hall hrest hlatch =>
        refine .clear (List.forall_mem_cons.mpr ⟨hgranted, hall⟩) ?_ ?_
        · rw [hrest, hlines, List.append_assoc]
          rfl
        · rw [hlatch, hafter, TraceLog.shouldHalt_addCommit, htrace]
      | faulted init last fault hlog hall hrefused hchain hrest hhardware hlatch =>
        refine .faulted (e :: init) last fault (by rw [hlog]; rfl)
          (List.forall_mem_cons.mpr ⟨hgranted, hall⟩) hrefused ⟨hcore, hchain⟩ ?_ hhardware hlatch
        rw [hrest, hlines, List.append_assoc a.trace.lines]
        rfl
    | false =>
      obtain ⟨fault, hafter, hhardware⟩ := he.trace_of_refused hgranted
      have hlatch : e.after.trace.shouldHalt = true := by
        rw [hafter, TraceLog.shouldHalt_addCommit, TraceLog.shouldHalt_addFault, ← htrace, hmode]
        rfl
      -- the latch is set, so nothing was handled after it
      have hnil : log = [] := by
        cases log with
        | nil => rfl
        | cons x log =>
          have hx := hrun x (List.mem_cons_of_mem e List.mem_cons_self)
          rw [← core_trace htail.1, hlatch] at hx
          exact absurd hx (by simp)
      rw [hnil] at htail
      have hb : e.after.trace = b.trace := core_trace htail
      refine ⟨.faulted [] e fault (by rw [hnil]; rfl) (by simp) hgranted hcore ?_ ?_ ?_, ?_⟩
      · rw [← hb, hafter, List.map_nil, List.append_nil, htrace]
        exact List.append_assoc ..
      · rw [← hardware_of_core htail, hhardware]
      · rw [← hb, hlatch]
      · rw [← hb, hafter, TraceLog.haltOnFault_addCommit, TraceLog.haltOnFault_addFault, ← htrace,
          hmode]

theorem serve_ends {arb : BusArbiter} (hmode : arb.trace.haltOnFault = true) (call : BusCall) :
    Ends arb (arb.serveLog call) (arb.serve call) ∧
      (arb.serve call).trace.haltOnFault = true :=
  (serve_chained arb call).ends (serveLog_sound arb call) (serveLog_running arb call) hmode

/-! ### Runs -/

/-- The mode is on, and the latch is set once a fault is recorded. -/
structure Watched (a b : BusArbiter) : Prop where
  mode : b.trace.haltOnFault = true
  latch : b.trace.shouldHalt = false →
    a.trace.shouldHalt = false ∧ b.trace.faults = a.trace.faults

theorem Watched.react {a b : BusArbiter} (h : Watched a b) (event : BusEvent) :
    Watched a (b.react event) := by
  cases event with
  | call call =>
    obtain ⟨hends, hmode⟩ := serve_ends h.mode call
    refine ⟨hmode, fun hrun => ?_⟩
    change (b.serve call).trace.shouldHalt = false at hrun
    cases hends with
    | clear hgranted hlines hlatch =>
      obtain ⟨ha, hfaults⟩ := h.latch (hlatch.symm.trans hrun)
      refine ⟨ha, ?_⟩
      rw [← hfaults]
      change (b.serve call).trace.lines.filterMap _ = b.trace.lines.filterMap _
      rw [hlines, List.filterMap_append, List.filterMap_map]
      have hnone : ((fun event => TraceEvent.fault? event) ∘ fun h : Handled =>
          TraceEvent.commit h.record) = fun _ => none := rfl
      rw [hnone, List.filterMap_none, List.append_nil]
    | faulted init last fault hlog hgranted hrefused hchain hlines hhardware hlatch =>
      rw [hlatch] at hrun
      exact absurd hrun (by simp)
  | addState snapshot =>
    refine ⟨h.mode, fun hrun => ?_⟩
    obtain ⟨ha, hfaults⟩ := h.latch hrun
    exact ⟨ha, (TraceLog.faults_addState _ _).trans hfaults⟩
  | addFault event =>
    refine ⟨h.mode, fun hrun => ?_⟩
    change (b.trace.haltOnFault || b.trace.shouldHalt) = false at hrun
    rw [h.mode] at hrun
    exact absurd hrun (by simp)

theorem Watched.reactAll {a b : BusArbiter} (h : Watched a b) (events : List BusEvent) :
    Watched a (b.reactAll events) := by
  induction events generalizing b with
  | nil => exact h
  | cons event events ih => exact ih (h.react event)

/-- The latch is never released while the mode is on. -/
theorem Watched.halted {a b : BusArbiter} (h : Watched a b) (hhalt : a.trace.shouldHalt = true) :
    b.trace.shouldHalt = true := by
  by_contra hrun
  have := (h.latch (by simpa using hrun)).1
  rw [hhalt] at this
  exact absurd this (by simp)

theorem watched_reactAll {arb : BusArbiter} (hmode : arb.trace.haltOnFault = true)
    (events : List BusEvent) : Watched arb (arb.reactAll events) :=
  Watched.reactAll ⟨hmode, fun hrun => ⟨hrun, rfl⟩⟩ events

/-- **With halt-on-fault enabled, an operation that faults is the last one its
call handles, and once a fault is recorded no later call records anything or
changes memory, devices or the time the bus is free.** -/
theorem failStop {arb : BusArbiter} (hmode : arb.trace.haltOnFault = true)
    (events : List BusEvent) :
    (∀ call, Ends (arb.reactAll events) ((arb.reactAll events).serveLog call)
      ((arb.reactAll events).serve call)) ∧
    (arb.trace.shouldHalt = true ∨ (arb.reactAll events).trace.faults ≠ arb.trace.faults →
      ∀ later call, Unchanged ((arb.reactAll events).reactAll later)
        (((arb.reactAll events).reactAll later).serve call)) := by
  have hwatched := watched_reactAll hmode events
  refine ⟨fun call => (serve_ends hwatched.mode call).1, fun hfault later call => ?_⟩
  have hhalt : (arb.reactAll events).trace.shouldHalt = true := by
    rcases hfault with hfault | hfault
    · exact hwatched.halted hfault
    · by_contra hrun
      exact hfault (hwatched.latch (by simpa using hrun)).2
  exact serve_unchanged ((watched_reactAll hwatched.mode later).halted hhalt) call

/-- An operation of three bytes faults. -/
theorem failStop_invalidSize :
    let arb : BusArbiter := { memory := .make 16, trace := { haltOnFault := true } }
    let events : List BusEvent := [.call (.entry (.commitBatch [{ size := 3 }]))]
    (∀ call, Ends (arb.reactAll events) ((arb.reactAll events).serveLog call)
      ((arb.reactAll events).serve call)) ∧
    ∀ later call, Unchanged ((arb.reactAll events).reactAll later)
      (((arb.reactAll events).reactAll later).serve call) := by
  intro arb events
  have hstop := failStop (show arb.trace.haltOnFault = true from rfl) events
  exact ⟨hstop.1, hstop.2 (Or.inr (by decide))⟩

end BusArbiter

end Saturnis.Bus
