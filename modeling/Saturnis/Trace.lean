/-
The trace log and its halt-on-fault latch.

A line of the log is kept as the event it renders.  `addFault` is the only
place that sets the latch, and only while `haltOnFault` is on; switching the
mode off releases it.
-/
import Saturnis.BusOp

namespace Saturnis.Core

open Saturnis.Mem Saturnis.Bus

structure CpuSnapshot where
  t : Nat := 0
  cpu : Int := 0
  pc : Addr := 0
  sr : Word := 0
  r : Fin 16 → Word := fun _ => 0

structure CommitEvent where
  tStart : Nat := 0
  tEnd : Nat := 0
  op : BusOp := {}
  stall : Nat := 0
  value : Word := 0
  cacheHit : Bool := false
deriving DecidableEq, Repr

structure FaultEvent where
  t : Nat := 0
  cpu : Int := 0
  pc : Addr := 0
  detail : Word := 0
  reason : String := ""
deriving DecidableEq, Repr

inductive TraceEvent
  | commit (event : CommitEvent)
  | state (snapshot : CpuSnapshot)
  | fault (event : FaultEvent)

structure TraceLog where
  haltOnFault : Bool := false
  shouldHalt : Bool := false
  lines : List TraceEvent := []

def TraceEvent.commit? : TraceEvent → Option CommitEvent
  | .commit event => some event
  | _ => none

def TraceEvent.fault? : TraceEvent → Option FaultEvent
  | .fault event => some event
  | _ => none

namespace TraceLog

def setHaltOnFault (log : TraceLog) (enabled : Bool) : TraceLog :=
  { log with
    haltOnFault := enabled
    shouldHalt := if enabled then log.shouldHalt else false }

def addCommit (log : TraceLog) (event : CommitEvent) : TraceLog :=
  { log with lines := log.lines ++ [.commit event] }

def addState (log : TraceLog) (snapshot : CpuSnapshot) : TraceLog :=
  { log with lines := log.lines ++ [.state snapshot] }

def addFault (log : TraceLog) (event : FaultEvent) : TraceLog :=
  { log with
    lines := log.lines ++ [.fault event]
    shouldHalt := log.haltOnFault || log.shouldHalt }

/-- The COMMIT records, oldest first. -/
def commits (log : TraceLog) : List CommitEvent := log.lines.filterMap (·.commit?)

/-- The FAULT records, oldest first. -/
def faults (log : TraceLog) : List FaultEvent := log.lines.filterMap (·.fault?)

@[simp] theorem commits_addCommit (log : TraceLog) (event : CommitEvent) :
    (log.addCommit event).commits = log.commits ++ [event] := by
  simp [commits, addCommit, TraceEvent.commit?]

@[simp] theorem commits_addFault (log : TraceLog) (event : FaultEvent) :
    (log.addFault event).commits = log.commits := by
  simp [commits, addFault, TraceEvent.commit?]

@[simp] theorem commits_addState (log : TraceLog) (snapshot : CpuSnapshot) :
    (log.addState snapshot).commits = log.commits := by
  simp [commits, addState, TraceEvent.commit?]

@[simp] theorem faults_addCommit (log : TraceLog) (event : CommitEvent) :
    (log.addCommit event).faults = log.faults := by
  simp [faults, addCommit, TraceEvent.fault?]

@[simp] theorem faults_addFault (log : TraceLog) (event : FaultEvent) :
    (log.addFault event).faults = log.faults ++ [event] := by
  simp [faults, addFault, TraceEvent.fault?]

@[simp] theorem faults_addState (log : TraceLog) (snapshot : CpuSnapshot) :
    (log.addState snapshot).faults = log.faults := by
  simp [faults, addState, TraceEvent.fault?]

@[simp] theorem shouldHalt_addCommit (log : TraceLog) (event : CommitEvent) :
    (log.addCommit event).shouldHalt = log.shouldHalt := rfl

@[simp] theorem shouldHalt_addFault (log : TraceLog) (event : FaultEvent) :
    (log.addFault event).shouldHalt = (log.haltOnFault || log.shouldHalt) := rfl

@[simp] theorem haltOnFault_addCommit (log : TraceLog) (event : CommitEvent) :
    (log.addCommit event).haltOnFault = log.haltOnFault := rfl

@[simp] theorem haltOnFault_addFault (log : TraceLog) (event : FaultEvent) :
    (log.addFault event).haltOnFault = log.haltOnFault := rfl

end TraceLog

end Saturnis.Core
