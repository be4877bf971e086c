/-
The multi-threaded driver against the single-threaded one.

At any time the threads stand at some round of the single-threaded run
(`Tracks`): what has been committed is the same, and each producer with its
mailboxes is at one of the stages (`Stage`) from which it comes to the pending
operation of that round.  Only a commit of the arbiter thread moves on, by one
round, and it commits what that round commits unless it misses a tie.

* `Lane.step` — a producer thread stays in its round;
* `Tracks.commit` — a commit without a missed tie is the round of the driver;
* `multithread_agrees` — both drivers commit the same, with the same records.
-/
import Saturnis.ScriptedEarliest
import Saturnis.ScriptedThreads
import Saturnis.Streams

namespace Saturnis.Core

open Saturnis.Core Saturnis.Mem Saturnis.Dev Saturnis.Bus Saturnis.Cpu

/-- The producer waits for the response to a request. -/
def ProducerPhase.asks : ProducerPhase → Bool
  | .top | .announce _ | .announced | .poll | .wait => true
  | _ => false

/-- Where the operation of a producer is: with the producer, in its request
mailbox, pending at the arbiter, in the outbox, or in the response mailbox. -/
def Producer.route (p : Producer) (visible : Option PendingBusOp) (outbox : List ScriptResponse) :
    Option PendingBusOp × List PendingBusOp × Option PendingBusOp × List ScriptResponse ×
      List ScriptResponse :=
  (p.waiting, p.req, visible, outbox, p.resp)

/-- The CPU once it has applied the response. -/
def Producer.applied (p : Producer) (r : ScriptResponse) : ScriptedCPU :=
  (p.cpu.applyResponse r.scriptIndex r.response r.producerToken).1

/-- The CPU and the pending operation a producer and its mailboxes stand for. -/
inductive Stage (p : Producer) (visible : Option PendingBusOp) (outbox : List ScriptResponse) :
    ScriptedCPU → Option PendingBusOp → Prop
  | idle (hphase : p.phase = .top ∨ p.phase = .reported)
      (hroute : p.route visible outbox = (none, [], none, [], [])) :
      Stage p visible outbox p.cpu none
  | requested (w : PendingBusOp) (hphase : p.phase.asks = true)
      (hroute : p.route visible outbox = (some w, [w], none, [], [])) :
      Stage p visible outbox p.cpu (some w)
  | visible (w : PendingBusOp) (hphase : p.phase.asks = true)
      (hroute : p.route visible outbox = (some w, [], some w, [], [])) :
      Stage p visible outbox p.cpu (some w)
  | committed (w : PendingBusOp) (r : ScriptResponse) (hphase : p.phase.asks = true)
      (hroute : p.route visible outbox = (some w, [], some w, [r], [])) :
      Stage p visible outbox (p.applied r) none
  | answered (w : PendingBusOp) (r : ScriptResponse) (hphase : p.phase.asks = true)
      (hroute : p.route visible outbox = (some w, [], none, [], [r])) :
      Stage p visible outbox (p.applied r) none
  | applied (w : PendingBusOp) (hphase : p.phase = .report)
      (hroute : p.route visible outbox = (some w, [], none, [], [])) :
      Stage p visible outbox p.cpu none
  | ended (hphase : p.phase = .closing ∨ p.phase = .closed ∨ p.phase = .returned)
      (hroute : p.route visible outbox = (none, [], none, [], [])) (hdone : p.cpu.done = true) :
      Stage p visible outbox p.cpu none

/-- A producer stands for the fetched CPU of a round, and has published no
watermark past the tick after its local time. -/
structure Lane (target : ScriptedCPU × Option PendingBusOp) (p : Producer)
    (visible : Option PendingBusOp) (outbox : List ScriptResponse) : Prop where
  stage : ∃ cpu pending, Stage p visible outbox cpu pending ∧ fetchCpu cpu pending = target ∧
    (pending = none → cpu.ProduceFits)
  mail : ∀ t ∈ p.progress, t ≤ target.1.localTime + 1
  announce : ∀ t, p.phase = .announce t → t ≤ target.1.localTime

variable {target : ScriptedCPU × Option PendingBusOp} {p p' : Producer} {w : PendingBusOp}
  {visible : Option PendingBusOp} {outbox : List ScriptResponse}

namespace Stage

variable {cpu : ScriptedCPU} {pending : Option PendingBusOp} {r : ScriptResponse}

/-- A request in its mailbox. -/
theorem of_req {req : List PendingBusOp} (h : Stage p visible outbox cpu pending)
    (hreq : p.req = w :: req) :
    p.phase.asks = true ∧ p.route visible outbox = (some w, [w], none, [], []) ∧ cpu = p.cpu ∧
      pending = some w := by
  cases h with
  | requested w' hphase hroute =>
    have heq := hroute
    simp only [Producer.route, Prod.mk.injEq] at heq
    rw [hreq] at heq
    obtain ⟨rfl, rfl⟩ := List.cons.inj heq.2.1
    exact ⟨hphase, hroute, rfl, rfl⟩
  | _ =>
    -- at every other stage the request mailbox is empty
    simp only [Producer.route, Prod.mk.injEq] at *
    simp_all

/-- A request the arbiter has pending, and has not committed. -/
theorem of_visible (h : Stage p (some w) [] cpu pending) :
    p.phase.asks = true ∧ p.route (some w) [] = (some w, [], some w, [], []) ∧ cpu = p.cpu ∧
      pending = some w := by
  cases h with
  | visible w' hphase hroute =>
    have heq := hroute
    simp only [Producer.route, Prod.mk.injEq] at heq
    obtain rfl := Option.some_inj.mp heq.2.2.1
    exact ⟨hphase, hroute, rfl, rfl⟩
  | _ =>
    -- at every other stage nothing is pending, or something committed
    simp only [Producer.route, Prod.mk.injEq] at *
    simp_all

/-- A request the arbiter has committed, and has not answered. -/
theorem of_outbox {rest : List ScriptResponse} (h : Stage p visible (r :: rest) cpu pending) :
    p.phase.asks = true ∧
      (∃ w, p.route visible (r :: rest) = (some w, [], some w, [r], [])) ∧ cpu = p.applied r ∧
        pending = none := by
  cases h with
  | committed w r' hphase hroute =>
    have heq := hroute
    simp only [Producer.route, Prod.mk.injEq] at heq
    obtain ⟨rfl, rfl⟩ := List.cons.inj heq.2.2.2.1
    exact ⟨hphase, ⟨w, hroute⟩, rfl, rfl⟩
  | _ =>
    -- at every other stage the outbox is empty
    simp only [Producer.route, Prod.mk.injEq] at *
    simp_all

/-- A producer that has returned is at the end of its script. -/
theorem of_returned (h : Stage p visible outbox cpu pending) (hphase : p.phase = .returned) :
    cpu.done = true ∧ pending = none := by
  cases h with
  | ended _ _ hdone => exact ⟨hdone, rfl⟩
  | idle hph _ => rcases hph with hph | hph <;> rw [hphase] at hph <;> exact absurd hph (by simp)
  | applied _ hph _ => rw [hphase] at hph; exact absurd hph (by simp)
  | _ =>
    -- the other ones wait for a response
    rename_i hph _
    rw [hphase] at hph
    exact absurd hph Bool.false_ne_true

end Stage

/-! ### A step of a producer -/

/-- A step of a waiting producer that finds no response. -/
structure Quiet (p p' : Producer) : Prop where
  cpu : p'.cpu = p.cpu
  req : p'.req = p.req
  resp : p'.resp = p.resp
  waiting : p'.waiting = p.waiting
  phase : p'.phase.asks = true
  mail : ∀ t ∈ p'.progress, t ∈ p.progress ∨ ∃ r, p.phase = .announce r ∧ t = tickAdd r 1
  announce : ∀ t, p'.phase ≠ .announce t

theorem pollResponse_cases (p : Producer) :
    (p.resp = [] ∧ p.pollResponse = { p with phase := .wait }) ∨
      ∃ r resp, p.resp = r :: resp ∧
        p.pollResponse = { p with cpu := p.applied r, resp, phase := .report } := by
  rw [Producer.pollResponse]
  cases h : p.resp with
  | nil => exact Or.inl ⟨rfl, rfl⟩
  | cons r resp => exact Or.inr ⟨r, resp, rfl, rfl⟩

theorem step_of_asks (epoch : Nat) (hphase : p.phase.asks = true) (hw : p.waiting = some w) :
    Quiet p (p.step epoch).1 ∨
      ∃ r resp, p.resp = r :: resp ∧
        (p.step epoch).1 = { p with cpu := p.applied r, resp, phase := .report } := by
  -- the two phases that poll either find nothing or take the answer at the front
  have hpoll : (p.step epoch).1 = p.pollResponse → Quiet p (p.step epoch).1 ∨
      ∃ r resp, p.resp = r :: resp ∧
        (p.step epoch).1 = { p with cpu := p.applied r, resp, phase := .report } := by
    intro hstep
    rw [hstep]
    rcases pollResponse_cases p with ⟨-, heq⟩ | hresp
    · rw [heq]
      exact Or.inl ⟨rfl, rfl, rfl, rfl, rfl, fun t ht => Or.inl ht, by simp⟩
    · exact Or.inr hresp
  cases h : p.phase with
  | top => exact hpoll (by simp only [Producer.step, h, hw])
  | poll => exact hpoll (by simp only [Producer.step, h])
  | announce t =>
    refine Or.inl ?_
    simp only [Producer.step, h]
    refine ⟨rfl, rfl, rfl, rfl, rfl, fun u hu => ?_, by simp⟩
    rcases List.mem_append.mp hu with hu | hu
    · exact Or.inl hu
    · exact Or.inr ⟨t, h, List.mem_singleton.mp hu⟩
  | announced =>
    refine Or.inl ?_
    simp only [Producer.step, h]
    exact ⟨rfl, rfl, rfl, rfl, rfl, fun t ht => Or.inl ht, by simp⟩
  | wait =>
    refine Or.inl ?_
    simp only [Producer.step, h]
    split
    · exact ⟨rfl, rfl, rfl, rfl, rfl, fun t ht => Or.inl ht, by simp⟩
    · exact ⟨rfl, rfl, rfl, rfl, by rw [h]; rfl, fun t ht => Or.inl ht, by simp [h]⟩
  | report => rw [h] at hphase; exact absurd hphase Bool.false_ne_true
  | reported => rw [h] at hphase; exact absurd hphase Bool.false_ne_true
  | closing => rw [h] at hphase; exact absurd hphase Bool.false_ne_true
  | closed => rw [h] at hphase; exact absurd hphase Bool.false_ne_true
  | returned => rw [h] at hphase; exact absurd hphase Bool.false_ne_true

theorem Quiet.route (h : Quiet p p') : p'.route visible outbox = p.route visible outbox := by
  rw [Producer.route, Producer.route, h.waiting, h.req, h.resp]

theorem Quiet.applied (h : Quiet p p') : p'.applied = p.applied := by
  funext r
  rw [Producer.applied, Producer.applied, h.cpu]

theorem Quiet.lane (h : Quiet p p') (hl : Lane target p visible outbox)
    (hphase : p.phase.asks = true) (hw : p.waiting = some w) : Lane target p' visible outbox := by
  obtain ⟨⟨cpu, pending, hstage, htarget, hfit⟩, hmail, hann⟩ := hl
  refine ⟨⟨cpu, pending, ?_, htarget, hfit⟩, fun t ht => ?_, fun t ht => absurd ht (h.announce t)⟩
  · cases hstage with
    | idle _ hroute => exact absurd (hw.symm.trans (congrArg Prod.fst hroute)) (by simp)
    | requested w _ hroute =>
      rw [← h.cpu]
      exact .requested w h.phase (h.route.trans hroute)
    | visible w _ hroute =>
      rw [← h.cpu]
      exact .visible w h.phase (h.route.trans hroute)
    | committed w r _ hroute =>
      rw [← h.applied]
      exact .committed w r h.phase (h.route.trans hroute)
    | answered w r _ hroute =>
      rw [← h.applied]
      exact .answered w r h.phase (h.route.trans hroute)
    | applied w hph _ =>
      rw [hph] at hphase
      exact absurd hphase Bool.false_ne_true
    | ended hph _ _ =>
      rcases hph with hph | hph | hph <;> rw [hph] at hphase <;>
        exact absurd hphase Bool.false_ne_true
  · rcases h.mail t ht with ht | ⟨r, hr, rfl⟩
    · exact hmail t ht
    · exact Nat.le_trans (Nat.mod_le _ _) (Nat.succ_le_succ (hann r hr))

/-- Changing what neither the stage nor the mail depends on. -/
theorem Lane.congr (h : Lane target p visible outbox) (hcpu : p'.cpu = p.cpu)
    (hroute : p'.route visible outbox = p.route visible outbox) (hphase : p'.phase = p.phase)
    (hmail : ∀ t ∈ p'.progress, t ∈ p.progress) : Lane target p' visible outbox := by
  obtain ⟨⟨cpu, pending, hstage, htarget⟩, hm, hann⟩ := h
  have happlied : p'.applied = p.applied := by
    funext r
    rw [Producer.applied, Producer.applied, hcpu]
  refine ⟨⟨cpu, pending, ?_, htarget⟩, fun t ht => hm t (hmail t ht), fun t ht =>
    hann t (hphase.symm.trans ht)⟩
  cases hstage with
  | idle hph hr => rw [← hcpu]; exact .idle (by rw [hphase]; exact hph) (hroute.trans hr)
  | requested w hph hr => rw [← hcpu]; exact .requested w (by rw [hphase]; exact hph) (hroute.trans hr)
  | visible w hph hr => rw [← hcpu]; exact .visible w (by rw [hphase]; exact hph) (hroute.trans hr)
  | committed w r hph hr =>
    rw [← happlied]; exact .committed w r (by rw [hphase]; exact hph) (hroute.trans hr)
  | answered w r hph hr =>
    rw [← happlied]; exact .answered w r (by rw [hphase]; exact hph) (hroute.trans hr)
  | applied w hph hr => rw [← hcpu]; exact .applied w (hphase.trans hph) (hroute.trans hr)
  | ended hph hr hdone =>
    rw [← hcpu] at hdone ⊢
    exact .ended (by rw [hphase]; exact hph) (hroute.trans hr) hdone

theorem doneFits {cpu : ScriptedCPU} (hdone : cpu.done = true)
    (hclock : cpu.localTime < tickModulus) : cpu.ProduceFits := by
  rw [ScriptedCPU.ProduceFits, ScriptedCPU.produce_of_done hdone,
    ScriptedCPU.clockAt_of_le (Nat.le_refl _)]
  exact hclock

/-- **A step of a producer keeps what it stands for.** -/
theorem Lane.step (h : Lane target p visible outbox) (epoch : Nat) :
    Lane target (p.step epoch).1 visible outbox := by
  have hl := h
  -- without a response the producer goes on waiting
  have hquiet : ∀ {w : PendingBusOp}, p.phase.asks = true → p.waiting = some w → p.resp = [] →
      Lane target (p.step epoch).1 visible outbox := by
    intro w hphase hwaiting hresp
    rcases step_of_asks epoch hphase hwaiting with hquiet | ⟨r, resp, hcons, -⟩
    · exact hquiet.lane hl hphase hwaiting
    · rw [hresp] at hcons
      exact absurd hcons (by simp)
  obtain ⟨⟨cpu, pending, hstage, htarget, hfit⟩, hmail, hann⟩ := h
  cases hstage with
  | idle hphase hroute =>
    simp only [Producer.route, Prod.mk.injEq] at hroute
    obtain ⟨hwaiting, hreq, hvis, hout, hresp⟩ := hroute
    have hfit := hfit rfl
    rw [fetchCpu_none] at htarget
    rcases hphase with hphase | hphase
    · simp only [Producer.step, hphase, hwaiting, fetchCpu_none]
      cases hproduce : p.cpu.produce with
      | mk cpu pending =>
        rw [hproduce] at htarget
        cases pending with
        | some w =>
          -- the CPU issues its next request
          have hreqTime : w.op.reqTime = cpu.localTime := by
            have hout : p.cpu.produce.1.Outstanding w :=
              ScriptedCPU.produce_outstanding (by rw [hproduce])
            rw [hproduce] at hout
            exact hout.reqTime
          refine ⟨⟨cpu, some w, .requested w rfl ?_, htarget, by simp⟩, hmail, fun t ht => ?_⟩
          · simp only [Producer.route, Prod.mk.injEq]
            exact ⟨trivial, by rw [hreq]; rfl, hvis, hout, hresp⟩
          · rw [← ProducerPhase.announce.inj ht, ← htarget, hreqTime]
        | none =>
          -- the script is at its end
          have hdone : cpu.done = true := by
            have hend : p.cpu.produce.1.done = true :=
              ScriptedCPU.produce_done (by rw [hproduce])
            rwa [hproduce] at hend
          have hclock := hfit.localTime.2
          rw [hproduce] at hclock
          refine ⟨⟨cpu, none, .ended (Or.inl rfl) ?_ hdone, ?_, fun _ => doneFits hdone hclock⟩,
            fun t ht => ?_, by simp⟩
          · simp only [Producer.route, Prod.mk.injEq]
            exact ⟨trivial, hreq, hvis, hout, hresp⟩
          · rw [fetchCpu_none, ScriptedCPU.produce_of_done hdone, htarget]
          · rcases List.mem_append.mp ht with ht | ht
            · exact hmail t ht
            · rw [List.mem_singleton.mp ht, ← htarget]
              exact Nat.le_succ _
    · simp only [Producer.step, hphase]
      refine ⟨⟨p.cpu, none, .idle (Or.inl rfl) ?_, ?_, fun _ => hfit⟩, hmail, by simp⟩
      · simp only [Producer.route, Prod.mk.injEq]
        exact ⟨hwaiting, hreq, hvis, hout, hresp⟩
      · rw [fetchCpu_none, htarget]
  | requested w hphase hroute =>
    simp only [Producer.route, Prod.mk.injEq] at hroute
    exact hquiet hphase hroute.1 hroute.2.2.2.2
  | visible w hphase hroute =>
    simp only [Producer.route, Prod.mk.injEq] at hroute
    exact hquiet hphase hroute.1 hroute.2.2.2.2
  | committed w r hphase hroute =>
    simp only [Producer.route, Prod.mk.injEq] at hroute
    exact hquiet hphase hroute.1 hroute.2.2.2.2
  | answered w r hphase hroute =>
    simp only [Producer.route, Prod.mk.injEq] at hroute
    obtain ⟨hwaiting, hreq, hvis, hout, hr⟩ := hroute
    rcases step_of_asks epoch hphase hwaiting with hquiet | ⟨r', resp, hresp, heq⟩
    · exact hquiet.lane hl hphase hwaiting
    · -- the response arrives
      rw [hr] at hresp
      obtain ⟨rfl, rfl⟩ := List.cons.inj hresp
      rw [heq]
      refine ⟨⟨p.applied r, none, .applied w rfl ?_, htarget, hfit⟩, hmail, by simp⟩
      simp only [Producer.route, Prod.mk.injEq]
      exact ⟨hwaiting, hreq, hvis, hout, trivial⟩
  | applied w hphase hroute =>
    simp only [Producer.route, Prod.mk.injEq] at hroute
    obtain ⟨-, hreq, hvis, hout, hresp⟩ := hroute
    simp only [Producer.step, hphase]
    refine ⟨⟨p.cpu, none, .idle (Or.inr rfl) ?_, htarget, hfit⟩, fun t ht => ?_, by simp⟩
    · simp only [Producer.route, Prod.mk.injEq]
      exact ⟨trivial, hreq, hvis, hout, hresp⟩
    · rcases List.mem_append.mp ht with ht | ht
      · exact hmail t ht
      · rw [fetchCpu_none] at htarget
        rw [List.mem_singleton.mp ht, ← htarget]
        exact Nat.le_succ_of_le (hfit rfl).localTime.1
  | ended hphase hroute hdone =>
    have hnext : ∀ (p' : Producer), p'.cpu = p.cpu →
        p'.route visible outbox = p.route visible outbox → p'.progress = p.progress →
        p'.phase = .closed ∨ p'.phase = .returned → Lane target p' visible outbox := by
      intro p' hcpu hroute' hprogress hphase'
      rw [← hcpu] at hdone htarget hfit
      refine ⟨⟨p'.cpu, none, .ended (Or.inr hphase') (hroute'.trans hroute) hdone, htarget, hfit⟩,
        by rw [hprogress]; exact hmail, fun t ht => ?_⟩
      rcases hphase' with hph | hph <;> rw [hph] at ht <;> exact absurd ht (by simp)
    rcases hphase with hphase | hphase | hphase
    · simp only [Producer.step, hphase]
      exact hnext _ rfl rfl rfl (Or.inl rfl)
    · simp only [Producer.step, hphase]
      exact hnext _ rfl rfl rfl (Or.inr rfl)
    · simp only [Producer.step, hphase]
      exact hl

/-! ### The round the threads stand at -/

/-- The threads have committed what the driver has at the head of the round `s`,
and the producers come to its pending operations. -/
structure Tracks (s : ScriptedPair) (m : ScriptedThreads) : Prop where
  core : m.arb.core = s.arb.core
  served : m.served = s.served
  tracking : m.arb.progressTrackingEnabled = true
  lane : ∀ c, Lane (s.fetch.cpu c, s.fetch.pending c) (m.producer c) (m.pending c) (m.outboxOf c)
  slot : ∀ c, m.arb.progressUpTo c = tickMax ∨
    m.arb.progressUpTo c ≤ (s.fetch.cpu c).localTime + 1
  outbox : m.phase ≠ .reply → m.outbox = []

namespace Tracks

variable {s : ScriptedPair} {m : ScriptedThreads} {c : Fin 2}

theorem start (script : Fin 2 → List ScriptOp) (arb : BusArbiter)
    (harb : ∀ c, arb.progressUpTo c = tickMax) (hfit : (ScriptedPair.start script arb).TicksFit) :
    Tracks (ScriptedPair.start script arb) (ScriptedThreads.start script arb) where
  core := (BusArbiter.core_updateProgress _ _ _).trans (BusArbiter.core_updateProgress _ _ _)
  served := rfl
  tracking := rfl
  lane := fun c =>
    ⟨⟨_, none, .idle (Or.inl rfl) rfl, rfl, fun _ => hfit.produce c rfl⟩, by
      simp [ScriptedThreads.start], by simp [ScriptedThreads.start]⟩
  slot := fun c => by
    refine Or.inr (Nat.le_trans (Nat.le_of_eq ?_) (Nat.zero_le _))
    have hone : (arb.updateProgress 0 0).progressUpTo 1 = arb.progressUpTo 1 :=
      BusArbiter.updateProgress_of_ne arb (show (1 : Fin 2) ≠ 0 by decide) _
    match c with
    | 0 =>
      refine (BusArbiter.updateProgress_of_ne _ (show (0 : Fin 2) ≠ 1 by decide) _).trans
        ((BusArbiter.updateProgress_self arb 0 0).trans ?_)
      rw [if_pos (Or.inl (harb 0))]
    | 1 =>
      refine (BusArbiter.updateProgress_self (arb.updateProgress 0 0) 1 0).trans ?_
      rw [hone, if_pos (Or.inl (harb 1))]
  outbox := fun _ => rfl

theorem producer (h : Tracks s m) (c : Fin 2) : Tracks s (m.step (.producer c)) := by
  refine ⟨h.core, h.served, h.tracking, fun d => ?_, h.slot, h.outbox⟩
  change Lane _ (Function.update m.producer c ((m.producer c).step m.epoch).1 d) (m.pending d)
    (m.outboxOf d)
  by_cases hd : d = c
  · rw [hd, Function.update_self]
    exact (h.lane c).step m.epoch
  · rw [Function.update_of_ne hd]
    exact h.lane d

/-- A request in the mailbox becomes pending. -/
theorem pollRequest (h : Tracks s m) (c : Fin 2) (hphase : m.phase = .poll c)
    (next : ArbiterPhase) : Tracks s { m.pollRequest c with phase := next } := by
  have hempty : m.outbox = [] := h.outbox (by rw [hphase]; simp)
  rw [ScriptedThreads.pollRequest]
  split
  · rename_i w req hpending hreq
    refine ⟨h.core, h.served, h.tracking, fun d => ?_, h.slot, fun _ => hempty⟩
    change Lane _ (Function.update m.producer c { m.producer c with req } d)
      (Function.update m.pending c (some w) d) (m.outboxOf d)
    by_cases hd : d = c
    · obtain ⟨⟨cpu, pending, hstage, htarget, hfit⟩, hmail, hann⟩ := h.lane c
      rw [hd, Function.update_self, Function.update_self]
      refine ⟨⟨cpu, pending, ?_, htarget, hfit⟩, hmail, hann⟩
      obtain ⟨hph, hroute, rfl, rfl⟩ := hstage.of_req hreq
      simp only [Producer.route, Prod.mk.injEq] at hroute
      obtain ⟨hwaiting, hreq', -, hout, hresp⟩ := hroute
      obtain ⟨-, rfl⟩ := List.cons.inj (hreq.symm.trans hreq')
      refine .visible (p := { m.producer c with req := [] }) w hph ?_
      simp only [Producer.route, Prod.mk.injEq]
      exact ⟨hwaiting, trivial, trivial, hout, hresp⟩
    · rw [Function.update_of_ne hd, Function.update_of_ne hd]
      exact h.lane d
  · exact ⟨h.core, h.served, h.tracking, h.lane, h.slot, fun _ => hempty⟩

theorem drain (h : Tracks s m) (c : Fin 2) (hphase : m.phase = .drain c) :
    Tracks s (m.drainProgress c) := by
  have hempty : m.outbox = [] := h.outbox (by rw [hphase]; simp)
  rw [ScriptedThreads.drainProgress]
  split
  · rename_i t progress hprogress
    have hle := (h.lane c).mail t (by rw [hprogress]; exact List.mem_cons_self)
    refine ⟨(BusArbiter.core_updateProgress _ _ _).trans h.core, h.served,
      BusArbiter.updateProgress_tracks _ c t, fun d => ?_, fun d => ?_, fun _ => hempty⟩
    · change Lane _ (Function.update m.producer c { m.producer c with progress } d) (m.pending d)
        (m.outboxOf d)
      by_cases hd : d = c
      · rw [hd, Function.update_self]
        refine (h.lane c).congr rfl rfl rfl fun u hu => ?_
        rw [hprogress]
        exact List.mem_cons_of_mem t hu
      · rw [Function.update_of_ne hd]
        exact h.lane d
    · by_cases hd : d = c
      · rw [hd]
        refine (BusArbiter.updateProgress_self m.arb c t).symm ▸ ?_
        split
        · exact Or.inr hle
        · exact h.slot c
      · refine (BusArbiter.updateProgress_of_ne m.arb hd t).symm ▸ ?_
        exact h.slot d
  · exact ⟨h.core, h.served, h.tracking, h.lane, h.slot, fun _ => hempty⟩

/-- A committed request is answered. -/
theorem reply (h : Tracks s m) (hphase : m.phase = .reply) : Tracks s m.reply := by
  rw [ScriptedThreads.reply]
  split
  · rename_i hnil
    exact ⟨h.core, h.served, h.tracking, h.lane, h.slot, fun _ => hnil⟩
  · rename_i c p response rest hcons
    have hself : m.outboxOf c = ⟨p.scriptIndex, p.op.producerToken, response⟩ ::
        (rest.filter fun x => x.1.1 = c).map fun x =>
          ⟨x.1.2.scriptIndex, x.1.2.op.producerToken, x.2⟩ := by
      rw [ScriptedThreads.outboxOf, hcons, List.filter_cons_of_pos (by simp), List.map_cons]
    refine ⟨h.core, h.served, h.tracking, fun d => ?_, h.slot, fun hne => absurd hphase hne⟩
    change Lane _ (Function.update m.producer c _ d) (Function.update m.pending c none d)
      ((rest.filter fun x => x.1.1 = d).map fun x =>
        ⟨x.1.2.scriptIndex, x.1.2.op.producerToken, x.2⟩)
    by_cases hd : d = c
    · obtain ⟨⟨cpu, pending, hstage, htarget, hfit⟩, hmail, hann⟩ := h.lane c
      rw [hd, Function.update_self, Function.update_self]
      rw [hself] at hstage
      obtain ⟨hph, ⟨w, hroute⟩, rfl, rfl⟩ := hstage.of_outbox
      simp only [Producer.route, Prod.mk.injEq] at hroute
      obtain ⟨hwaiting, hreq, -, hout, hresp⟩ := hroute
      rw [(List.cons.inj hout).2]
      refine ⟨⟨_, none, .answered w _ hph ?_, htarget, hfit⟩, hmail, hann⟩
      simp only [Producer.route, Prod.mk.injEq]
      exact ⟨hwaiting, hreq, trivial, trivial, by rw [hresp]; rfl⟩
    · have hother := h.lane d
      rw [ScriptedThreads.outboxOf, hcons,
        List.filter_cons_of_neg (by simpa using Ne.symm hd)] at hother
      rw [Function.update_of_ne hd, Function.update_of_ne hd]
      exact hother

/-- The next request of a CPU is its pending operation in the round. -/
theorem nextRequest_eq (h : Tracks s m) (c : Fin 2) : m.nextRequest c = s.fetch.pending c := by
  obtain ⟨⟨cpu, pending, hstage, htarget, -⟩, -, -⟩ := h.lane c
  have hpending : (fetchCpu cpu pending).2 = s.fetch.pending c := congrArg Prod.snd htarget
  rw [← hpending]
  have hasks : ∀ {ph : ProducerPhase}, ph.asks = true → ph ≠ .report := by
    rintro _ hph rfl
    exact absurd hph Bool.false_ne_true
  cases hstage with
  | idle _ hroute | ended _ hroute _ =>
    simp only [Producer.route, Prod.mk.injEq] at hroute
    simp only [ScriptedThreads.nextRequest, hroute.1, fetchCpu_none]
  | requested w hphase hroute | visible w hphase hroute =>
    simp only [Producer.route, Prod.mk.injEq] at hroute
    simp only [ScriptedThreads.nextRequest, hroute.1, hroute.2.2.2.1, hroute.2.2.2.2,
      List.append_nil, hasks hphase, if_false, fetchCpu_some]
  | committed w r _ hroute | answered w r _ hroute =>
    simp only [Producer.route, Prod.mk.injEq] at hroute
    simp only [ScriptedThreads.nextRequest, hroute.1, hroute.2.2.2.1, hroute.2.2.2.2,
      List.append_nil, List.nil_append, Producer.applied, fetchCpu_none]
  | applied w hphase hroute =>
    simp only [Producer.route, Prod.mk.injEq] at hroute
    simp only [ScriptedThreads.nextRequest, hroute.1, hroute.2.2.2.1, hroute.2.2.2.2,
      List.append_nil, hphase, if_true, fetchCpu_none]

/-- What the arbiter thread has pending is pending in the round. -/
theorem pending_visible (h : Tracks s m) (hempty : m.outbox = []) {w : PendingBusOp}
    (hw : m.pending c = some w) :
    s.fetch.pending c = some w ∧ (m.producer c).cpu = s.fetch.cpu c ∧
      (m.producer c).phase.asks = true ∧
        (m.producer c).route (some w) [] = (some w, [], some w, [], []) := by
  obtain ⟨⟨cpu, pending, hstage, htarget, -⟩, -, -⟩ := h.lane c
  have hout : m.outboxOf c = [] := by rw [ScriptedThreads.outboxOf, hempty]; rfl
  rw [hw, hout] at hstage
  obtain ⟨hphase, hroute, rfl, rfl⟩ := hstage.of_visible
  rw [fetchCpu_some] at htarget
  exact ⟨(congrArg Prod.snd htarget).symm, congrArg Prod.fst htarget, hphase, hroute⟩

theorem requesters_eq (h : Tracks s m) (hempty : m.outbox = []) :
    requesters m.pending =
      (requesters s.fetch.publish.pending).filter fun c => (m.pending c).isSome := by
  rw [requesters, requesters, List.filter_filter]
  refine List.filter_congr fun c _ => ?_
  cases hw : m.pending c with
  | none => rfl
  | some w =>
    have hpending : s.fetch.publish.pending c = some w := (h.pending_visible hempty hw).1
    rw [hpending]
    rfl

theorem requestsOf_eq (h : Tracks s m) (hempty : m.outbox = []) :
    requestsOf m.pending =
      (requesters m.pending).map fun c => (c, (s.fetch.publish.pending c).getD {}) := by
  rw [Core.requestsOf_eq]
  refine List.map_congr_left fun c hc => ?_
  have hw := ScriptedPair.pending_eq (s := { s with pending := m.pending }) hc
  have hpending : s.fetch.publish.pending c = some ((m.pending c).getD {}) :=
    (h.pending_visible hempty hw).1
  rw [hpending, Option.getD_some]

/-- The batch of the arbiter thread without horizons: the earliest requests of
the round, if it commits anything. -/
theorem candidates (h : Tracks s m) (hphase : m.phase = .commit) (htie : m.TieSeen)
    (ht : s.fetch.publish.Timely)
    (hsome : m.arb.candidates ((requesters m.pending).map fun c =>
      ((s.fetch.publish.pending c).getD {}).op) ≠ []) :
    m.arb.candidates ((requesters m.pending).map fun c =>
        ((s.fetch.publish.pending c).getD {}).op) =
      earliest s.fetch.publish.pendingOps := by
  have hempty : m.outbox = [] := h.outbox (by rw [hphase]; simp)
  rw [h.requesters_eq hempty] at hsome ⊢
  refine BusArbiter.candidates_eq_earliest (fun c _ d hd hcomm _ => ?_)
    (fun c _ d hd hcomm hc hnone => ?_) hsome
  · rw [(ht.sound.outstanding d _ (ScriptedPair.pending_eq hd)).reqTime]
    exact BusArbiter.reqTime_le_of_isCommittable h.tracking h.slot hcomm d
  · obtain ⟨w, hw⟩ := Option.isSome_iff_exists.mp hc
    have hpending : s.fetch.publish.pending c = some w := (h.pending_visible hempty hw).1
    have hrev : d = c.rev := by
      match c, d with
      | 0, 0 => rw [hc] at hnone; exact absurd hnone (by simp)
      | 0, 1 => rfl
      | 1, 0 => rfl
      | 1, 1 => rw [hc] at hnone; exact absurd hnone (by simp)
    rw [hpending, Option.getD_some] at hcomm ⊢
    subst hrev
    refine htie hphase c w hw (by simpa using hnone) hcomm _ ?_
    rw [h.nextRequest_eq]
    exact ScriptedPair.pending_eq hd

/-- What the arbiter thread commits, as requests of the round. -/
def results (s : ScriptedPair) (m : ScriptedThreads) : List (BusOp × BusResponse) :=
  (BusArbiter.rounds (requesters m.pending).length m.arb ((requesters m.pending).map fun c =>
    ((s.fetch.publish.pending c).getD {}).op)).2

theorem attributed (h : Tracks s m) (hempty : m.outbox = []) (hs : s.fetch.publish.Sound) :
    Attributed (requesters m.pending) fun c => (s.fetch.publish.pending c).getD {} := by
  refine hs.attributed.sublist ?_
  rw [h.requesters_eq hempty]
  exact List.filter_sublist

/-- A commit of the arbiter thread, field by field. -/
theorem commit_spec (h : Tracks s m) (hempty : m.outbox = []) (hs : s.fetch.publish.Sound) :
    m.commit.arb.resetEnqueued =
        (BusArbiter.rounds (requesters m.pending).length m.arb ((requesters m.pending).map fun c =>
          ((s.fetch.publish.pending c).getD {}).op)).1.resetEnqueued ∧
      m.commit.outbox = (results s m).map (fun r =>
        ((cpuOf r.1, (s.fetch.publish.pending (cpuOf r.1)).getD {}), r.2)) ∧
      m.commit.served = m.served ++ (results s m).map (fun r =>
        ((cpuOf r.1, (s.fetch.publish.pending (cpuOf r.1)).getD {}), r.2)) ∧
      m.commit.producer = m.producer ∧ m.commit.pending = m.pending ∧
      (m.commit.phase ≠ .reply → m.commit.outbox = []) := by
  have hatt := h.attributed hempty hs
  have hrequests := h.requestsOf_eq hempty
  have hanswers := hatt.answers_eq m.arb
  have harb := (BusArbiter.commitBatch_eq_rounds_of_ordered m.arb hatt.ordered
    hatt.ops_nodup).1
  rw [List.length_map] at harb
  have hops : (requestsOf m.pending).map (·.2.op) = (requesters m.pending).map fun c =>
      ((s.fetch.publish.pending c).getD {}).op := by
    rw [hrequests, List.map_map]
    rfl
  rw [ScriptedThreads.commit]
  by_cases hnil : (requestsOf m.pending).isEmpty = true
  · have hcs : requesters m.pending = [] := by
      rw [hrequests, List.isEmpty_iff, List.map_eq_nil_iff] at hnil
      exact hnil
    rw [if_pos hnil, results, hcs]
    exact ⟨rfl, hempty, (List.append_nil _).symm, rfl, rfl, fun _ => hempty⟩
  · rw [if_neg hnil, hops, hrequests]
    refine ⟨harb, hanswers, congrArg (m.served ++ ·) hanswers, rfl, rfl, fun hphase => ?_⟩
    -- only a batch that answered nobody leaves the phase elsewhere than at `reply`
    have hcommitted : (m.arb.commitBatch ((requesters m.pending).map fun c =>
        ((s.fetch.publish.pending c).getD {}).op)).2 = [] := by
      by_contra hne
      refine hphase (if_neg ?_)
      rw [List.isEmpty_iff]
      exact hne
    change answers _ _ = []
    rw [hcommitted]
    rfl

/-- A commit that lets nothing through stays in the round. -/
theorem commit_of_none (h : Tracks s m) (hempty : m.outbox = []) (hs : s.fetch.publish.Sound)
    (hnone : m.arb.candidates ((requesters m.pending).map fun c =>
      ((s.fetch.publish.pending c).getD {}).op) = []) : Tracks s m.commit := by
  have hround := BusArbiter.opRound_eq_none.mpr (Or.inr hnone)
  obtain ⟨harb, houtbox, hserved, hproducer, hpending, hreply⟩ := h.commit_spec hempty hs
  rw [BusArbiter.rounds_of_none hround] at harb
  rw [results, BusArbiter.rounds_of_none hround, List.map_nil] at houtbox hserved
  have hup : m.commit.arb.progressUpTo = m.arb.progressUpTo :=
    (congrArg BusArbiter.progressUpTo harb :
      m.commit.arb.resetEnqueued.progressUpTo = m.arb.resetEnqueued.progressUpTo)
  have htrack : m.commit.arb.progressTrackingEnabled = m.arb.progressTrackingEnabled :=
    (congrArg BusArbiter.progressTrackingEnabled harb :
      m.commit.arb.resetEnqueued.progressTrackingEnabled =
        m.arb.resetEnqueued.progressTrackingEnabled)
  refine ⟨(BusArbiter.resetEnqueued_core harb).trans h.core, ?_, htrack.trans h.tracking,
    fun c => ?_, by rw [hup]; exact h.slot, hreply⟩
  · rw [hserved, List.append_nil, h.served]
  · rw [hproducer, hpending, ScriptedThreads.outboxOf, houtbox]
    have hlane := h.lane c
    rw [ScriptedThreads.outboxOf, hempty] at hlane
    exact hlane

/-- The committed requests of one CPU. -/
theorem outboxOf_results {l : List (BusOp × BusResponse)} (ask : Fin 2 → PendingBusOp)
    (houtbox : m.outbox = l.map fun r => ((cpuOf r.1, ask (cpuOf r.1)), r.2)) (c : Fin 2) :
    m.outboxOf c = (Streams.stream (fun r => cpuOf r.1) c l).map fun r =>
      ⟨(ask c).scriptIndex, (ask c).op.producerToken, r.2⟩ := by
  rw [ScriptedThreads.outboxOf, houtbox, List.filter_map, List.map_map, Streams.stream]
  refine List.map_congr_left fun r hr => ?_
  have hc : cpuOf r.1 = c := by simpa using (List.mem_filter.mp hr).2
  simp only [Function.comp, hc]

/-- **A commit that sees its ties is the next round of the driver.** -/
theorem commit_of_some (h : Tracks s m) (hphase : m.phase = .commit) (htie : m.TieSeen)
    (ht : s.Timely) (hfit : s.TicksFit) (hnext : (Loop.step ScriptedPair.iterate s).TicksFit)
    (hround : s.fetch.publish.arb.opRound s.fetch.publish.pendingOps ≠ none)
    (hsome : m.arb.candidates ((requesters m.pending).map fun c =>
      ((s.fetch.publish.pending c).getD {}).op) ≠ []) :
    Tracks (Loop.step ScriptedPair.iterate s) m.commit := by
  have hempty : m.outbox = [] := h.outbox (by rw [hphase]; simp)
  have hready := (ht.fetch hfit.produce).publish
  have hatt := h.attributed hempty hready.sound
  obtain ⟨harb, houtbox, hserved, hproducer, hpending, hreply⟩ := h.commit_spec hempty hready.sound
  obtain ⟨harb', hserved', hmem, hother⟩ := hready.sound.commit_spec
  -- both commit the earliest requests
  have hcore : m.arb.core = s.fetch.publish.arb.core :=
    h.core.trans (ScriptedPair.publish_core s.fetch).symm
  have hcand := (h.candidates hphase htie hready hsome).trans
    (ScriptedPair.round_earliest ht hfit hround).symm
  obtain ⟨hrounds, hresults⟩ := BusArbiter.rounds_eq_of_candidates hcore hatt.ops_nodup
    hready.sound.attributed.ops_nodup hcand
  rw [List.length_map, List.length_map] at hrounds hresults
  have hres : results s m = s.fetch.publish.results := hresults
  rw [hres] at houtbox hserved
  -- the round of the driver is a commit
  have hsomeone : ∃ c, (s.fetch.pending c).isSome = true := by
    obtain ⟨op, hop⟩ := List.exists_mem_of_ne_nil _ hsome
    obtain ⟨c, hc, -⟩ := List.mem_map.mp (BusArbiter.mem_candidates.mp hop).1
    obtain ⟨w, hw⟩ := Option.isSome_iff_exists.mp (mem_requesters.mp hc)
    exact ⟨c, by rw [(h.pending_visible hempty hw).1]; rfl⟩
  have hstep : Loop.step ScriptedPair.iterate s =
      s.fetch.publish.commit (requestsOf s.fetch.publish.pending) := by
    rcases s.iterate_cases with ⟨-, heq⟩ | ⟨hnone, -⟩
    · rw [Loop.step, heq]
    · obtain ⟨c, hc⟩ := hsomeone
      rw [hnone c] at hc
      exact absurd hc Bool.false_ne_true
  obtain ⟨htimely, hclock⟩ := ht.step hfit hnext
  have hlater : ∀ c, (s.fetch.cpu c).localTime ≤
      ((Loop.step ScriptedPair.iterate s).fetch.cpu c).localTime := fun c =>
    Nat.le_trans (hclock c) (ScriptedPair.fetch_localTime hnext.produce (htimely.clock c)).1
  have hprogress := BusArbiter.rounds_progress (requesters m.pending).length m.arb
    ((requesters m.pending).map fun c => ((s.fetch.publish.pending c).getD {}).op)
  refine ⟨?_, ?_, ?_, fun c => ?_, fun c => ?_, hreply⟩
  · rw [hstep, BusArbiter.resetEnqueued_core harb, BusArbiter.resetEnqueued_core harb']
    exact hrounds
  · rw [hstep, hserved, hserved', h.served]
    rfl
  · exact (congrArg BusArbiter.progressTrackingEnabled harb).trans (hprogress.1.trans h.tracking)
  · obtain ⟨hstage, hmail, hann⟩ := h.lane c
    have hmail' : ∀ t ∈ (m.commit.producer c).progress,
        t ≤ ((Loop.step ScriptedPair.iterate s).fetch.cpu c).localTime + 1 := fun t ht' =>
      Nat.le_trans (hmail t (by rw [hproducer] at ht'; exact ht')) (Nat.succ_le_succ (hlater c))
    have hann' : ∀ t, (m.commit.producer c).phase = .announce t →
        t ≤ ((Loop.step ScriptedPair.iterate s).fetch.cpu c).localTime := fun t ht' =>
      Nat.le_trans (hann t (by rw [hproducer] at ht'; exact ht')) (hlater c)
    refine ⟨?_, hmail', hann'⟩
    rw [hproducer, hpending,
      outboxOf_results (fun c => (s.fetch.publish.pending c).getD {}) houtbox]
    by_cases hr : ∃ r ∈ s.fetch.publish.results, cpuOf r.1 = c
    · -- the request of `c` is committed
      obtain ⟨r, hr, rfl⟩ := hr
      obtain ⟨hcpu, hnone⟩ := hmem r hr
      rw [← hstep] at hcpu hnone
      have hvis : cpuOf r.1 ∈ requesters m.pending := by
        rw [← hres] at hr
        obtain ⟨c, hc, hop⟩ := List.mem_map.mp (BusArbiter.rounds_result _ _ _ r hr).1
        rw [← hop, hatt.cpuOf_ask hc]
        exact hc
      obtain ⟨w, hw⟩ := Option.isSome_iff_exists.mp (mem_requesters.mp hvis)
      obtain ⟨hwait, hcpu', hasks, hroute⟩ := h.pending_visible hempty hw
      have hask : s.fetch.publish.pending (cpuOf r.1) = some w := hwait
      have hstream : Streams.stream (fun x => cpuOf x.1) (cpuOf r.1) s.fetch.publish.results = [r] :=
        Streams.stream_of_nodup (f := fun x : BusOp × BusResponse => cpuOf x.1)
          hready.sound.results_nodup hr
      rw [hstream, hask, Option.getD_some, hw, List.map_singleton]
      have happlied : (m.producer (cpuOf r.1)).applied
          ⟨w.scriptIndex, w.op.producerToken, r.2⟩ =
            (Loop.step ScriptedPair.iterate s).cpu (cpuOf r.1) := by
        rw [hcpu, ScriptedPair.answeredCpu, hask, Option.getD_some, Producer.applied, hcpu']
        rfl
      refine ⟨_, none, .committed w ⟨w.scriptIndex, w.op.producerToken, r.2⟩ hasks ?_, ?_,
        fun _ => ?_⟩
      · simp only [Producer.route, Prod.mk.injEq] at hroute ⊢
        exact ⟨hroute.1, hroute.2.1, trivial, trivial, hroute.2.2.2.2⟩
      · rw [happlied, ← hnone]
        rfl
      · rw [happlied]
        exact hnext.produce _ hnone
    · -- `c` stays as it is
      have hne : ∀ r ∈ s.fetch.publish.results, cpuOf r.1 ≠ c := fun r hmem heq => hr ⟨r, hmem, heq⟩
      obtain ⟨hcpu, hpend⟩ := hother c hne
      rw [← hstep] at hcpu hpend
      have htarget : (((Loop.step ScriptedPair.iterate s).fetch.cpu c,
          (Loop.step ScriptedPair.iterate s).fetch.pending c) :
            ScriptedCPU × Option PendingBusOp) = (s.fetch.cpu c, s.fetch.pending c) := by
        change fetchCpu ((Loop.step ScriptedPair.iterate s).cpu c)
          ((Loop.step ScriptedPair.iterate s).pending c) = _
        rw [hcpu, hpend]
        exact fetchCpu_fetchCpu (s.cpu c) (s.pending c)
      rw [Streams.stream_eq_nil hne, htarget]
      rw [ScriptedThreads.outboxOf, hempty] at hstage
      exact hstage
  · rw [show m.commit.arb.progressUpTo = m.arb.progressUpTo from
      (congrArg BusArbiter.progressUpTo harb).trans hprogress.2]
    exact (h.slot c).imp_right fun hle => Nat.le_trans hle (Nat.succ_le_succ (hlater c))

/-- A step of the arbiter thread stays in the round or is the next one. -/
theorem arbiter (h : Tracks s m) (htie : m.TieSeen) (ht : s.Timely) (hfit : s.TicksFit)
    (hnext : (Loop.step ScriptedPair.iterate s).TicksFit)
    (hround : (∃ c, (s.fetch.pending c).isSome = true) →
      s.fetch.publish.arb.opRound s.fetch.publish.pendingOps ≠ none) :
    Tracks s (m.step .arbiter) ∨
      Tracks (Loop.step ScriptedPair.iterate s) (m.step .arbiter) := by
  have hempty : m.phase ≠ .reply → m.outbox = [] := h.outbox
  rw [ScriptedThreads.step]
  cases hphase : m.phase with
  | poll c => exact Or.inl (h.pollRequest c hphase _)
  | drain c => exact Or.inl (h.drain c hphase)
  | reply => exact Or.inl (h.reply hphase)
  | exited => exact Or.inl h
  | survey =>
    exact Or.inl ⟨h.core, h.served, h.tracking, h.lane, h.slot, fun _ =>
      hempty (by rw [hphase]; simp)⟩
  | check =>
    refine Or.inl ?_
    rw [ScriptedThreads.check]
    split_ifs <;>
      exact ⟨h.core, h.served, h.tracking, h.lane, h.slot, fun _ => hempty (by rw [hphase]; simp)⟩
  | wait =>
    simp only
    split_ifs
    · exact Or.inl ⟨h.core, h.served, h.tracking, h.lane, h.slot, fun _ =>
        hempty (by rw [hphase]; simp)⟩
    · exact Or.inl h
  | commit =>
    -- the one step of the arbiter thread that the pair sees, and only if it answers someone
    have hnil : m.outbox = [] := hempty (by rw [hphase]; simp)
    have hready := (ht.fetch hfit.produce).publish
    by_cases hsome : m.arb.candidates ((requesters m.pending).map fun c =>
        ((s.fetch.publish.pending c).getD {}).op) = []
    · exact Or.inl (h.commit_of_none hnil hready.sound hsome)
    · refine Or.inr (h.commit_of_some hphase htie ht hfit hnext (hround ?_) hsome)
      obtain ⟨op, hop⟩ := List.exists_mem_of_ne_nil _ hsome
      obtain ⟨c, hc, -⟩ := List.mem_map.mp (BusArbiter.mem_candidates.mp hop).1
      obtain ⟨w, hw⟩ := Option.isSome_iff_exists.mp (mem_requesters.mp hc)
      exact ⟨c, by rw [(h.pending_visible hnil hw).1]; rfl⟩

end Tracks

/-! ### Whole runs -/

section Run

variable {s final : ScriptedPair} {fuel n : Nat} {m : ScriptedThreads}

theorem timely_iterate (ht : s.Timely)
    (hfits : ∀ n, ((Loop.step ScriptedPair.iterate)^[n] s).TicksFit) (n : Nat) :
    ((Loop.step ScriptedPair.iterate)^[n] s).Timely := by
  induction n with
  | zero => exact ht
  | succ n ih =>
    have hnext := hfits (n + 1)
    rw [Function.iterate_succ_apply'] at hnext ⊢
    exact (ih.step (hfits n) hnext).1

/-- Whatever the schedule, the threads stand at some round of the driver. -/
theorem Tracks.run (hrun : runScriptedPair fuel s = some final) (ht : s.Timely)
    (hfits : ∀ n, ((Loop.step ScriptedPair.iterate)^[n] s).TicksFit) (schedule : List Thread)
    (h : Tracks ((Loop.step ScriptedPair.iterate)^[n] s) m) (hties : m.TiesSeen schedule) :
    ∃ k, Tracks ((Loop.step ScriptedPair.iterate)^[k] s) (m.run schedule) := by
  induction schedule generalizing n m with
  | nil => exact ⟨n, h⟩
  | cons thread schedule ih =>
    obtain ⟨htie, hrest⟩ := hties
    cases thread with
    | producer c => exact ih (h.producer c) hrest
    | arbiter =>
      have hnext := hfits (n + 1)
      rw [Function.iterate_succ_apply'] at hnext
      rcases h.arbiter (htie rfl) (timely_iterate ht hfits n) (hfits n) hnext
        (ScriptedPair.opRound_ne_none ht.sound hrun n) with hstay | hmove
      · exact ih hstay hrest
      · rw [← Function.iterate_succ_apply' (Loop.step ScriptedPair.iterate)] at hmove
        exact ih hmove hrest

/-- After the break nothing is served any more. -/
theorem served_of_break (hbreak : (ScriptedPair.iterate s).2 = true) (k : Nat) :
    ((Loop.step ScriptedPair.iterate)^[k] s).served = s.served ∧
      ((Loop.step ScriptedPair.iterate)^[k] s).arb.core = s.arb.core := by
  induction k with
  | zero => exact ⟨rfl, rfl⟩
  | succ k ih =>
    rw [Function.iterate_succ_apply']
    rcases ((Loop.step ScriptedPair.iterate)^[k] s).iterate_cases with ⟨⟨c, hc⟩, -⟩ | ⟨-, -, heq⟩
    · rw [ScriptedPair.pending_of_break hbreak k c] at hc
      exact absurd hc Bool.false_ne_true
    · rw [Loop.step, heq]
      exact ⟨ih.1, (ScriptedPair.publish_core _).trans ih.2⟩

/-- Producers that have returned leave nothing pending. -/
theorem Tracks.break_of_finished (h : Tracks s m) (hfinished : m.Finished) :
    (ScriptedPair.iterate s).2 = true := by
  rcases s.iterate_cases with ⟨⟨c, hc⟩, -⟩ | ⟨-, -, heq⟩
  · obtain ⟨⟨cpu, pending, hstage, htarget, -⟩, -, -⟩ := h.lane c
    obtain ⟨hdone, rfl⟩ := hstage.of_returned (hfinished.2 c)
    rw [fetchCpu_none, ScriptedCPU.produce_of_done hdone] at htarget
    rw [← (Prod.mk.inj htarget).2] at hc
    exact absurd hc Bool.false_ne_true
  · rw [heq]

end Run

/-- **A schedule that misses no tie commits what the single-threaded driver commits.** -/
theorem multithread_agrees (script : Fin 2 → List ScriptOp) (memory : CommittedMemory)
    (devices : DeviceHub) (trace : TraceLog) (policy : ArbitrationPolicy) (latency : LatencyModel)
    (fuel : Nat) (final : ScriptedPair) (schedule : List Thread)
    (hrun : runScriptedPair fuel
      (.start script { memory, devices, trace, policy, latency }) = some final)
    (hfits : ∀ n, ((Loop.step ScriptedPair.iterate)^[n]
      (.start script { memory, devices, trace, policy, latency })).TicksFit)
    (hfinished : ((ScriptedThreads.start script
      { memory, devices, trace, policy, latency }).run schedule).Finished)
    (hties : (ScriptedThreads.start script
      { memory, devices, trace, policy, latency }).TiesSeen schedule) :
    ((ScriptedThreads.start script
        { memory, devices, trace, policy, latency }).run schedule).served = final.served ∧
      ((ScriptedThreads.start script
        { memory, devices, trace, policy, latency }).run schedule).arb.trace.commits =
          final.arb.trace.commits := by
  have hstart := Tracks.start script { memory, devices, trace, policy, latency }
    (fun _ => rfl) (hfits 0)
  have htimely := ScriptedPair.timely_start script
    { memory, devices, trace, policy, latency } fun _ => rfl
  obtain ⟨k, htracks⟩ := Tracks.run (n := 0) hrun htimely hfits schedule hstart hties
  have hbreak := htracks.break_of_finished hfinished
  obtain ⟨n, -, hbreak', hbefore, rfl⟩ := Loop.run_eq_some_iff.mp hrun
  have hle : n ≤ k := by
    by_contra hlt
    exact absurd ((hbefore k (by omega)).symm.trans hbreak) Bool.false_ne_true
  obtain ⟨hserved, hcore⟩ := served_of_break hbreak' (k - n)
  obtain ⟨hserved', hcore'⟩ := served_of_break hbreak' 1
  rw [← Function.iterate_add_apply] at hserved hcore hserved' hcore'
  rw [Nat.sub_add_cancel hle] at hserved hcore
  rw [Nat.add_comm] at hserved' hcore'
  refine ⟨htracks.served.trans (hserved.trans hserved'.symm), ?_⟩
  rw [BusArbiter.core_trace (htracks.core.trans (hcore.trans hcore'.symm))]

/-- The threads in turn, `n` times. -/
def inTurn (n : Nat) : List Thread :=
  (List.replicate n [.producer 0, .producer 1, .arbiter]).flatten

/-- Both CPUs write at tick 0, and the arbiter thread looks when both have asked. -/
theorem multithread_agrees_inTurn :
    let script : Fin 2 → List ScriptOp := ![[{ kind := .write }], [{ kind := .write, vaddr := 8 }]]
    let arb : BusArbiter := { memory := .make 16, trace := { haltOnFault := false } }
    let schedule : List Thread :=
      List.replicate 3 (.producer 0) ++ List.replicate 3 (.producer 1) ++ inTurn 25
    ((ScriptedThreads.start script arb).run schedule).served.map
      (fun x => (x.1.1, x.2.startTime, x.2.commitTime)) = [(0, 0, 4), (1, 4, 7)] := by
  intro script arb schedule
  have hrun : runScriptedPair 2 (.start script arb) =
      some (Loop.step ScriptedPair.iterate (Loop.step ScriptedPair.iterate (.start script arb))) :=
    (Loop.run_of_continue 1 (by decide)).trans (Loop.run_of_break 0 (by decide))
  have hdriven := ScriptedPair.driven_start script (.make 16) {} defaultPolicy false (by decide)
  have hfirst : (ScriptedPair.start script arb).TicksFit := ⟨by decide, by decide, by decide⟩
  have hsecond : (Loop.step ScriptedPair.iterate (.start script arb)).TicksFit :=
    ⟨by decide, by decide, by decide⟩
  have hfits : ∀ n, ((Loop.step ScriptedPair.iterate)^[n] (.start script arb)).TicksFit := by
    intro n
    cases n with
    | zero => exact hfirst
    | succ n => exact (hsecond.after_break (hdriven.step hfirst hsecond) (by decide) n).1
  have hagrees := multithread_agrees script (.make 16) {} { haltOnFault := false } defaultPolicy {} 2
    _ schedule hrun hfits (by decide) (by decide)
  rw [hagrees.1]
  decide

/-- Both CPUs write at tick 0.  The request of CPU 1 comes when the arbiter
thread has looked for it, its watermark before the arbiter thread takes the
watermarks: CPU 0 is served without the tie that the single-threaded driver sees. -/
theorem not_multithread_agrees_tie :
    let script : Fin 2 → List ScriptOp := ![[{ kind := .write }], [{ kind := .write, vaddr := 8 }]]
    let arb : BusArbiter := { memory := .make 16 }
    let schedule : List Thread :=
      [.producer 0, .producer 0, .arbiter, .arbiter, .producer 1, .producer 1] ++
        List.replicate 6 .arbiter ++ inTurn 25
    ((ScriptedThreads.start script arb).run schedule).Finished ∧
      ((ScriptedThreads.start script arb).run schedule).served.map
          (fun x => (x.1.1, x.2.startTime, x.2.commitTime)) = [(0, 0, 3), (1, 3, 6)] ∧
      (runScriptedPair 2 (.start script arb)).map (fun final =>
          final.served.map fun x => (x.1.1, x.2.startTime, x.2.commitTime)) =
        some [(0, 0, 4), (1, 4, 7)] := by
  decide

end Saturnis.Core
