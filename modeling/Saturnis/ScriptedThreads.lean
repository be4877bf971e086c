/-
The multi-threaded driver.

Two producer threads run the scripted CPUs, the arbiter thread runs the loop of
`run_scripted_pair_multithread`.  They share mailboxes, the `done` flags and
the epoch of the signal hub.  A `step` takes one thread up to and with its next
access to something shared, so a schedule, which is a list of threads, is an
order of these accesses, and every order is a schedule.  A thread that waits
for a new epoch does nothing while there is none.

The two loads of `done` where the loop ends are one step: a flag that is set
stays set, so the second load alone decides.
-/
import Saturnis.ScriptedPair

namespace Saturnis.Core

open Saturnis.Core Saturnis.Mem Saturnis.Dev Saturnis.Bus Saturnis.Cpu

structure ScriptResponse where
  scriptIndex : Nat := 0
  producerToken : Nat := 0
  response : BusResponse := {}
deriving DecidableEq, Repr

/-- What a producer thread does next. -/
inductive ProducerPhase
  /-- start a round of its loop -/
  | top
  /-- push the watermark of the request at `reqTime` -/
  | announce (reqTime : Nat)
  /-- notify the hub of the request -/
  | announced
  /-- look for a response -/
  | poll
  /-- push the local time after a response -/
  | report
  /-- notify the hub of the response -/
  | reported
  /-- wait for a new epoch -/
  | wait
  /-- set the `done` flag -/
  | closing
  /-- notify the hub of the end -/
  | closed
  | returned
deriving DecidableEq, Repr

/-- The variables of a producer thread and what the arbiter thread shares with it. -/
structure Producer where
  cpu : ScriptedCPU
  req : List PendingBusOp := []
  resp : List ScriptResponse := []
  progress : List Nat := []
  done : Bool := false
  waiting : Option PendingBusOp := none
  seenEpoch : Nat := 0
  phase : ProducerPhase := .top

namespace Producer

/-- `apply_response` gets no trace here, so a fault of the CPU is lost. -/
def pollResponse (p : Producer) : Producer :=
  match p.resp with
  | [] => { p with phase := .wait }
  | r :: resp =>
    { p with
      cpu := (p.cpu.applyResponse r.scriptIndex r.response r.producerToken).1
      resp
      phase := .report }

/-- The producer after its step, and the epoch. -/
def step (epoch : Nat) (p : Producer) : Producer × Nat :=
  match p.phase with
  | .top =>
    match p.waiting with
    | some _ => (p.pollResponse, epoch)
    | none =>
      match fetchCpu p.cpu none with
      | (cpu, some w) =>
        ({ p with
            cpu
            waiting := some w
            req := p.req ++ [w]
            phase := .announce w.op.reqTime }, epoch)
      | (cpu, none) =>
        ({ p with cpu, progress := p.progress ++ [cpu.localTime], phase := .closing }, epoch)
  | .announce reqTime =>
    ({ p with progress := p.progress ++ [tickAdd reqTime 1], phase := .announced }, epoch)
  | .announced => ({ p with phase := .poll }, epoch + 1)
  | .poll => (p.pollResponse, epoch)
  | .report =>
    ({ p with
        progress := p.progress ++ [p.cpu.localTime]
        waiting := none
        phase := .reported }, epoch)
  | .reported => ({ p with phase := .top }, epoch + 1)
  | .wait =>
    if epoch ≠ p.seenEpoch then ({ p with seenEpoch := epoch, phase := .top }, epoch)
    else (p, epoch)
  | .closing => ({ p with done := true, phase := .closed }, epoch)
  | .closed => ({ p with phase := .returned }, epoch + 1)
  | .returned => (p, epoch)

end Producer

/-- What the arbiter thread does next. -/
inductive ArbiterPhase
  /-- look for a request of the CPU -/
  | poll (c : Fin 2)
  /-- take the next watermark of the CPU -/
  | drain (c : Fin 2)
  /-- see whether the peer of a pending CPU is done -/
  | survey
  | commit
  /-- push the next response -/
  | reply
  | check
  /-- wait for a new epoch -/
  | wait
  | exited
deriving DecidableEq, Repr

/-- The threads.  `outbox` holds the committed requests whose responses are not
pushed yet; `served` lists everything committed, and nothing reads it. -/
structure ScriptedThreads where
  producer : Fin 2 → Producer
  arb : BusArbiter
  pending : Fin 2 → Option PendingBusOp := fun _ => none
  progressed : Bool := false
  waitingForPeer : Bool := false
  noPending : Bool := false
  outbox : List (Request × BusResponse) := []
  seenEpoch : Nat := 0
  epoch : Nat := 0
  phase : ArbiterPhase := .poll 0
  served : List (Request × BusResponse) := []

inductive Thread
  | producer (c : Fin 2)
  | arbiter
deriving DecidableEq, Repr

namespace ScriptedThreads

def start (script : Fin 2 → List ScriptOp) (arb : BusArbiter) : ScriptedThreads :=
  { producer := fun c => { cpu := .make c.val (script c) }
    arb := (arb.updateProgress 0 0).updateProgress 1 0 }

def setProducer (m : ScriptedThreads) (c : Fin 2) (p : Producer) : ScriptedThreads :=
  { m with producer := Function.update m.producer c p }

def pollRequest (m : ScriptedThreads) (c : Fin 2) : ScriptedThreads :=
  match m.pending c, (m.producer c).req with
  | none, w :: req =>
    { m.setProducer c { m.producer c with req } with
      pending := Function.update m.pending c (some w)
      progressed := true }
  | _, _ => m

def drainProgress (m : ScriptedThreads) (c : Fin 2) : ScriptedThreads :=
  match (m.producer c).progress with
  | t :: progress =>
    { m.setProducer c { m.producer c with progress } with
      arb := m.arb.updateProgress c.val t
      progressed := true }
  | [] => { m with phase := if c = 0 then .drain 1 else .survey }

def survey (m : ScriptedThreads) : ScriptedThreads :=
  { m with
    waitingForPeer :=
      ((m.pending 0).isSome && (m.pending 1).isNone && !(m.producer 1).done) ||
        ((m.pending 1).isSome && (m.pending 0).isNone && !(m.producer 0).done)
    noPending := (m.pending 0).isNone && (m.pending 1).isNone
    phase := .commit }

def commit (m : ScriptedThreads) : ScriptedThreads :=
  if (requestsOf m.pending).isEmpty then { m with phase := .check }
  else
    let (arb, committed) := m.arb.commitBatch ((requestsOf m.pending).map (·.2.op))
    { m with
      arb
      outbox := answers (requestsOf m.pending) committed
      served := m.served ++ answers (requestsOf m.pending) committed
      phase := if committed.isEmpty then .check else .reply }

def reply (m : ScriptedThreads) : ScriptedThreads :=
  match m.outbox with
  | [] => { m with epoch := m.epoch + 1, phase := .check }
  | ((c, p), response) :: outbox =>
    { m.setProducer c
        { m.producer c with
          resp := (m.producer c).resp ++ [⟨p.scriptIndex, p.op.producerToken, response⟩] } with
      pending := Function.update m.pending c none
      progressed := true
      outbox }

def check (m : ScriptedThreads) : ScriptedThreads :=
  if (m.producer 0).done && (m.producer 1).done && (m.pending 0).isNone && (m.pending 1).isNone then
    { m with phase := .exited }
  else if !m.progressed && (m.waitingForPeer || m.noPending) then { m with phase := .wait }
  else { m with progressed := false, phase := .poll 0 }

def step (m : ScriptedThreads) : Thread → ScriptedThreads
  | .producer c =>
    { m.setProducer c ((m.producer c).step m.epoch).1 with
      epoch := ((m.producer c).step m.epoch).2 }
  | .arbiter =>
    match m.phase with
    | .poll c => { m.pollRequest c with phase := if c = 0 then .poll 1 else .drain 0 }
    | .drain c => m.drainProgress c
    | .survey => m.survey
    | .commit => m.commit
    | .reply => m.reply
    | .check => m.check
    | .wait =>
      if m.epoch ≠ m.seenEpoch then
        { m with seenEpoch := m.epoch, progressed := false, phase := .poll 0 }
      else m
    | .exited => m

def run (m : ScriptedThreads) (schedule : List Thread) : ScriptedThreads := schedule.foldl step m

/-- The arbiter thread has left its loop and joined the producers. -/
def Finished (m : ScriptedThreads) : Prop :=
  m.phase = .exited ∧ ∀ c, (m.producer c).phase = .returned

instance (m : ScriptedThreads) : Decidable m.Finished := inferInstanceAs (Decidable (_ ∧ _))

/-! ### Ties the arbiter thread does not see -/

/-- The committed but unanswered requests of a CPU. -/
def outboxOf (m : ScriptedThreads) (c : Fin 2) : List ScriptResponse :=
  (m.outbox.filter fun x => x.1.1 = c).map fun x =>
    ⟨x.1.2.scriptIndex, x.1.2.op.producerToken, x.2⟩

/-- The operation a CPU waits for, or the next one it will issue. -/
def nextRequest (m : ScriptedThreads) (c : Fin 2) : Option PendingBusOp :=
  let p := m.producer c
  match p.waiting with
  | none => p.cpu.produce.2
  | some w =>
    match m.outboxOf c ++ p.resp with
    | r :: _ => (p.cpu.applyResponse r.scriptIndex r.response r.producerToken).1.produce.2
    | [] => if p.phase = .report then p.cpu.produce.2 else some w

/-- An operation that may be committed while the peer has none pending is not
requested at the same tick as the next operation of the peer. -/
def TieSeen (m : ScriptedThreads) : Prop :=
  m.phase = .commit → ∀ c, ∀ w ∈ m.pending c, m.pending c.rev = none →
    m.arb.isCommittable w.op = true → ∀ q ∈ m.nextRequest c.rev, q.op.reqTime ≠ w.op.reqTime

instance (m : ScriptedThreads) : Decidable m.TieSeen := inferInstanceAs (Decidable (_ → _))

/-- No commit of the schedule misses a tie. -/
def TiesSeen : ScriptedThreads → List Thread → Prop
  | _, [] => True
  | m, t :: schedule => (t = .arbiter → m.TieSeen) ∧ TiesSeen (m.step t) schedule

instance instDecidableTiesSeen :
    (m : ScriptedThreads) → (schedule : List Thread) → Decidable (m.TiesSeen schedule)
  | _, [] => inferInstanceAs (Decidable True)
  | m, t :: schedule =>
    have := instDecidableTiesSeen (m.step t) schedule
    inferInstanceAs (Decidable ((t = .arbiter → m.TieSeen) ∧ TiesSeen (m.step t) schedule))

end ScriptedThreads

end Saturnis.Core
