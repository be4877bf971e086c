/-
The multi-threaded driver under fair schedules.

If every thread gets its turn again and again, the run ends, unless the arbiter
thread gets to a request that the last watermark of a finished CPU does not let
through (`Hung`).  That is the state in which the single-threaded driver spins
too; the threads add no other way not to end.

* `ScriptedThreads.rank` — what the threads still have to do;
* `Running.rank_producer`, `Fit.rank_arbiter` — no step adds to it, and a step
  that takes something out of a mailbox, or puts something in, lowers it;
* `quiet_leadsTo` — with quiet producers the next round of the arbiter thread
  lowers it, ends the run, or hangs;
* `multithread_finishes_iff` — **a fair run ends if and only if it never hangs**.
-/
import Saturnis.LeadsTo
import Saturnis.ScriptedWakeups

namespace Saturnis.Core

open Saturnis.Core Saturnis.Mem Saturnis.Dev Saturnis.Bus Saturnis.Cpu

/-! ### What is left to do -/

namespace Producer

variable {p : Producer} {epoch : Nat}

/-- What the producer does before it waits or starts a new request.  A
notification counts for the four steps it may wake the producers to. -/
def phaseRank (p : Producer) : Nat :=
  match p.phase with
  | .top => if p.waiting.isSome then 1 else 8
  | .announce _ => 8
  | .announced => 6
  | .poll => 1
  | .report => 15
  | .reported => 13
  | .wait => 0
  | .closing => 6
  | .closed => 5
  | .returned => 0

/-- What a producer, and the arbiter thread with its messages, still has to do:
no operation of the script takes more than 33 steps. -/
def rank (epoch : Nat) (p : Producer) : Nat :=
  33 * (p.cpu.script.length - p.cpu.pc) + p.phaseRank +
    (if p.seenEpoch = epoch then 0 else 2) + 24 * p.req.length + p.progress.length +
      15 * p.resp.length

theorem rank_epoch (p : Producer) (epoch epoch' : Nat) : p.rank epoch' ≤ p.rank epoch + 2 := by
  rw [rank, rank]
  split_ifs <;> omega

theorem applied_remaining (p : Producer) (r : ScriptResponse) :
    (p.applied r).script.length - (p.applied r).pc = p.cpu.script.length - p.cpu.pc := by
  have hans := p.cpu.applyResponse_answered r.scriptIndex r.response r.producerToken
  rw [applied, hans.script, hans.pc]

theorem rank_pollResponse (hphase : p.phaseRank = 1) : p.pollResponse.rank epoch < p.rank epoch := by
  rcases pollResponse_cases p with ⟨-, heq⟩ | ⟨r, resp, hresp, heq⟩
  · rw [heq, rank, rank, hphase]
    simp only [phaseRank]
    omega
  · rw [heq, rank, rank, hphase, hresp, applied_remaining]
    simp only [phaseRank, List.length_cons]
    omega

/-- **A producer that moves has less to do**, even counting whom it wakes. -/
theorem rank_step (epoch : Nat) (hwait : p.phase = .wait → p.waiting.isSome = true)
    (hreported : p.phase = .reported → p.waiting.isSome = false) :
    (p.phase = .wait ∧ epoch = p.seenEpoch ∨ p.phase = .returned) ∨
      ((p.step epoch).2 = epoch ∧ (p.step epoch).1.rank epoch < p.rank epoch) ∨
        (p.step epoch).1.rank (p.step epoch).2 + 2 < p.rank epoch := by
  cases h : p.phase with
  | top =>
    cases hw : p.waiting with
    | some w =>
      refine Or.inr (Or.inl ?_)
      simp only [step, h, hw]
      exact ⟨trivial, rank_pollResponse (by simp [phaseRank, h, hw])⟩
    | none =>
      refine Or.inr (Or.inl ?_)
      have hremaining := p.cpu.produce_remaining
      simp only [step, h, hw, fetchCpu_none]
      cases hproduce : p.cpu.produce with
      | mk cpu pending =>
        rw [hproduce] at hremaining
        cases pending with
        | some w =>
          refine ⟨rfl, ?_⟩
          simp only [rank, phaseRank, h, hw, Option.isSome_none, Bool.false_eq_true, if_false,
            Option.toList_some, List.length_append, List.length_singleton] at hremaining ⊢
          omega
        | none =>
          refine ⟨rfl, ?_⟩
          simp only [rank, phaseRank, h, hw, Option.isSome_none, Bool.false_eq_true, if_false,
            Option.toList_none, List.length_nil, List.length_append,
            List.length_singleton] at hremaining ⊢
          omega
  | announce t =>
    refine Or.inr (Or.inl ?_)
    simp only [step, rank, phaseRank, h, List.length_append, List.length_singleton, true_and]
    omega
  | announced =>
    refine Or.inr (Or.inr ?_)
    simp only [step, rank, phaseRank, h]
    split_ifs <;> omega
  | poll =>
    refine Or.inr (Or.inl ?_)
    simp only [step, h]
    exact ⟨trivial, rank_pollResponse (by simp [phaseRank, h])⟩
  | report =>
    refine Or.inr (Or.inl ?_)
    simp only [step, rank, phaseRank, h, List.length_append, List.length_singleton, true_and]
    omega
  | reported =>
    refine Or.inr (Or.inr ?_)
    simp only [step, rank, phaseRank, h, hreported h, Bool.false_eq_true, if_false]
    split_ifs <;> omega
  | wait =>
    by_cases he : epoch = p.seenEpoch
    · exact Or.inl (Or.inl ⟨rfl, he⟩)
    · refine Or.inr (Or.inl ?_)
      rw [step, h]
      simp only [ne_eq, he, not_false_eq_true, if_true, true_and]
      simp only [rank, phaseRank, h, hwait h, if_true, if_neg (Ne.symm he)]
      omega
  | closing =>
    refine Or.inr (Or.inl ?_)
    simp only [step, rank, phaseRank, h, true_and]
    omega
  | closed =>
    refine Or.inr (Or.inr ?_)
    simp only [step, rank, phaseRank, h]
    split_ifs <;> omega
  | returned => exact Or.inl (Or.inr rfl)

end Producer

/-- The moves of the arbiter thread to the start of its loop. -/
def ArbiterPhase.toTop : ArbiterPhase → Nat
  | .poll c => if c = 0 then 0 else 7
  | .drain c => if c = 0 then 6 else 5
  | .survey => 4
  | .commit => 3
  | .check => 2
  | .wait => 1
  | .reply | .exited => 0

/-- The moves of the arbiter thread to the end of the loop, from its start or from the wait. -/
def ArbiterPhase.toEnd : ArbiterPhase → Nat
  | .wait => 8
  | .poll c => if c = 0 then 7 else 6
  | .drain c => if c = 0 then 5 else 4
  | .survey => 3
  | .commit => 2
  | .check => 1
  | .reply | .exited => 0

/-! ### Watermarks of requests -/

/-- The watermark of the request a producer waits for is still to be sent, in
the mailbox, or taken. -/
def Producer.Heard (p : Producer) (upTo : Nat) : Prop :=
  ∀ w, p.waiting = some w → w.op.reqTime + 1 < tickMax ∧
    (p.phase = .announce w.op.reqTime ∨ w.op.reqTime + 1 ∈ p.progress ∨ w.op.reqTime + 1 ≤ upTo)

/-- A producer goes on to a phase with the same request. -/
theorem Producer.Heard.congr {p p' : Producer} {upTo : Nat} (h : p.Heard upTo)
    (hwaiting : p'.waiting = p.waiting) (hprogress : p'.progress = p.progress)
    (hphase : ∀ t, p.phase = .announce t → p'.phase = .announce t) : p'.Heard upTo := by
  intro w hw
  obtain ⟨hearly, hor⟩ := h w (hwaiting.symm.trans hw)
  rw [hprogress]
  exact ⟨hearly, hor.imp_left (hphase _)⟩

theorem Producer.Heard.step {p : Producer} {upTo : Nat} (h : p.Heard upTo) (epoch : Nat)
    (hissue : ∀ w, p.phase = .top → p.waiting = none → p.cpu.produce.2 = some w →
      w.op.reqTime + 1 < tickMax) : (p.step epoch).1.Heard upTo := by
  have hpoll : (∀ t, p.phase ≠ .announce t) → p.pollResponse.Heard upTo := by
    intro hphase
    rcases pollResponse_cases p with ⟨-, heq⟩ | ⟨r, resp, -, heq⟩ <;> rw [heq] <;>
      exact h.congr rfl rfl fun t ht => absurd ht (hphase t)
  cases hp : p.phase with
  | top =>
    rw [Producer.step, hp]
    cases hw : p.waiting with
    | some w => exact hpoll fun t => by simp [hp]
    | none =>
      simp only [fetchCpu_none]
      have hissue := hissue
      cases hproduce : p.cpu.produce with
      | mk cpu pending =>
        cases pending with
        | some w =>
          intro w' hw'
          obtain rfl := Option.some_inj.mp hw'
          exact ⟨hissue w hp hw (by rw [hproduce]), Or.inl rfl⟩
        | none =>
          intro w' hw'
          exact absurd (hw' : none = some w') (by simp)
  | announce t =>
    rw [Producer.step, hp]
    intro w hw
    obtain ⟨hearly, hor⟩ := h w hw
    refine ⟨hearly, Or.inr ?_⟩
    rcases hor with hannounce | hmem | hle
    · rw [hp] at hannounce
      have ht : t = w.op.reqTime := ProducerPhase.announce.inj hannounce
      have hfit : w.op.reqTime + 1 < tickModulus := Nat.lt_of_lt_of_le hearly (Nat.sub_le _ _)
      refine Or.inl (List.mem_append_right _ ?_)
      rw [ht, tickAdd_of_lt hfit]
      exact List.mem_singleton_self _
    · exact Or.inl (List.mem_append_left _ hmem)
    · exact Or.inr hle
  | report =>
    rw [Producer.step, hp]
    intro w hw
    exact absurd hw (by simp)
  | announced =>
    rw [Producer.step, hp]
    exact h.congr rfl rfl fun t ht => absurd (hp.symm.trans ht) (by simp)
  | poll =>
    rw [Producer.step, hp]
    exact hpoll fun t => by simp [hp]
  | reported =>
    rw [Producer.step, hp]
    exact h.congr rfl rfl fun t ht => absurd (hp.symm.trans ht) (by simp)
  | wait =>
    rw [Producer.step, hp]
    simp only
    split_ifs
    · exact h.congr rfl rfl fun t ht => absurd (hp.symm.trans ht) (by simp)
    · exact h
  | closing =>
    rw [Producer.step, hp]
    exact h.congr rfl rfl fun t ht => absurd (hp.symm.trans ht) (by simp)
  | closed =>
    rw [Producer.step, hp]
    exact h.congr rfl rfl fun t ht => absurd (hp.symm.trans ht) (by simp)
  | returned =>
    rw [Producer.step, hp]
    exact h

namespace ScriptedThreads

variable {s : ScriptedPair} {m : ScriptedThreads} {c : Fin 2} {total : Nat}

/-- What holds at any time of a run, the watermarks included. -/
structure Fit (total : Nat) (m : ScriptedThreads) : Prop extends Running total m where
  slot : ∀ c, m.arb.progressUpTo c ≠ tickMax
  heard : ∀ c, (m.producer c).Heard (m.arb.progressUpTo c)

/-- What the arbiter thread still has to do for a request: to commit and to
answer it, or only to answer it. -/
def requestRank (m : ScriptedThreads) (c : Fin 2) : Nat :=
  match m.pending c with
  | none => 0
  | some _ => if (m.outboxOf c).isEmpty then 23 else 16

def laneRank (m : ScriptedThreads) (c : Fin 2) : Nat :=
  (m.producer c).rank m.epoch + m.requestRank c

/-- What all threads still have to do.  The notification after the responses
counts like the others. -/
def rank (m : ScriptedThreads) : Nat :=
  m.laneRank 0 + m.laneRank 1 + if m.phase = .reply then 6 else 0

theorem rank_eq (m : ScriptedThreads) (c : Fin 2) :
    m.rank = m.laneRank c + m.laneRank c.rev + if m.phase = .reply then 6 else 0 := by
  match c with
  | 0 => rfl
  | 1 => exact congrArg (· + if m.phase = .reply then 6 else 0) (Nat.add_comm _ _)

theorem requestRank_le (m : ScriptedThreads) (c : Fin 2) : m.requestRank c ≤ 23 := by
  rw [requestRank]
  split
  · exact Nat.zero_le _
  · split_ifs <;> omega

theorem requestRank_of_none (h : m.pending c = none) : m.requestRank c = 0 := by
  rw [requestRank, h]

/-! ### No step adds to what is left -/

/-- A step that takes and sends nothing. -/
structure Still (m m' : ScriptedThreads) : Prop where
  producer : m'.producer = m.producer
  pending : m'.pending = m.pending
  epoch : m'.epoch = m.epoch
  progressUpTo : m'.arb.progressUpTo = m.arb.progressUpTo
  outbox : m'.outbox = m.outbox
  before : m.phase ≠ .reply
  after : m'.phase ≠ .reply

theorem laneRank_congr {m' : ScriptedThreads} (hproducer : m'.producer c = m.producer c)
    (hpending : m'.pending c = m.pending c) (hepoch : m'.epoch = m.epoch)
    (houtbox : m'.outboxOf c = m.outboxOf c) : m'.laneRank c = m.laneRank c := by
  rw [laneRank, laneRank, requestRank, requestRank, hproducer, hpending, hepoch, houtbox]

theorem Still.rank {m' : ScriptedThreads} (h : Still m m') : m'.rank = m.rank := by
  have hlane : ∀ c, m'.laneRank c = m.laneRank c := fun c =>
    laneRank_congr (congrFun h.producer c) (congrFun h.pending c) h.epoch
      (by rw [outboxOf, outboxOf, h.outbox])
  rw [ScriptedThreads.rank, ScriptedThreads.rank, hlane, hlane, if_neg h.before, if_neg h.after]

theorem Still.quiet {m' : ScriptedThreads} (h : Still m m') : m'.Quiet c ↔ m.Quiet c := by
  rw [Quiet, Quiet, h.producer, h.epoch]

/-- One producer, or what is pending for it, changes. -/
theorem rank_lt_of_lane {m' : ScriptedThreads} (c : Fin 2)
    (hlane : m'.laneRank c < m.laneRank c) (hother : m'.laneRank c.rev = m.laneRank c.rev)
    (hphase : m'.phase = .reply → m.phase = .reply) : m'.rank < m.rank := by
  rw [m'.rank_eq c, m.rank_eq c, hother]
  by_cases hreply : m'.phase = .reply
  · rw [if_pos hreply, if_pos (hphase hreply)]
    omega
  · rw [if_neg hreply]
    omega

theorem rev_ne (c : Fin 2) : c.rev ≠ c := by
  revert c
  decide

theorem Running.phases (h : m.Running total) (c : Fin 2) :
    ((m.producer c).phase = .wait → (m.producer c).waiting.isSome = true) ∧
      ((m.producer c).phase = .reported → (m.producer c).waiting.isSome = false) := by
  obtain ⟨s, htracks, -⟩ := h.moves
  obtain ⟨⟨cpu, pending, hstage, -, -⟩, -, -⟩ := htracks.lane c
  refine ⟨fun hphase => ?_, fun hphase => ?_⟩
  · cases hstage with
    | idle hph _ => rcases hph with hph | hph <;> exact absurd (hph.symm.trans hphase) (by simp)
    | ended hph _ _ =>
      rcases hph with hph | hph | hph <;> exact absurd (hph.symm.trans hphase) (by simp)
    | _ =>
      rename_i hroute
      exact (congrArg (fun r => r.1.isSome) hroute).trans rfl
  · cases hstage with
    | idle _ hroute => exact (congrArg (fun r => r.1.isSome) hroute).trans rfl
    | ended hph _ _ =>
      rcases hph with hph | hph | hph <;> exact absurd (hph.symm.trans hphase) (by simp)
    | _ =>
      -- the producer waits for a response, or has just applied one
      rename_i hph _
      rw [hphase] at hph
      exact absurd hph (by simp [ProducerPhase.asks])

theorem Running.rank_producer (h : m.Running total) (c : Fin 2) :
    m.Quiet c ∨ (m.step (.producer c)).rank < m.rank := by
  obtain ⟨hwait, hreported⟩ := h.phases c
  have hrev : (m.step (.producer c)).producer c.rev = m.producer c.rev :=
    producer_of_ne (rev_ne c)
  have hrequest : ∀ d, (m.step (.producer c)).requestRank d = m.requestRank d := fun d => rfl
  have hepoch : (m.step (.producer c)).epoch = ((m.producer c).step m.epoch).2 := rfl
  rcases Producer.rank_step m.epoch hwait hreported with hquiet | ⟨hsame, hlt⟩ | hlt
  · exact Or.inl hquiet
  · refine Or.inr (rank_lt_of_lane c ?_ ?_ id)
    · rw [laneRank, laneRank, hrequest, hepoch, hsame, producer_self]
      omega
    · rw [laneRank, laneRank, hrequest, hepoch, hsame, hrev]
  · refine Or.inr ?_
    -- the notification may wake the peer
    have hpeer := (m.producer c.rev).rank_epoch m.epoch ((m.producer c).step m.epoch).2
    rw [(m.step (.producer c)).rank_eq c, m.rank_eq c, laneRank, laneRank, laneRank, laneRank,
      hrequest, hrequest, hepoch, hrev, producer_self]
    change _ + _ + (if m.phase = .reply then 6 else 0) < _
    omega

theorem rank_poll (hphase : m.phase = .poll c) :
    (m.step .arbiter).rank < m.rank ∨
      m.step .arbiter = { m with phase := if c = 0 then .poll 1 else .drain 0 } ∧
        ((m.pending c).isSome = true ∨ (m.producer c).req = []) := by
  rw [step_poll hphase]
  rcases m.pollRequest_cases c with ⟨heq, hgot⟩ | ⟨w, req, q, hnone, hreq, heq, hq⟩
  · rw [heq]
    exact Or.inr ⟨rfl, hgot⟩
  · rw [heq]
    refine Or.inl (rank_lt_of_lane c ?_ (laneRank_congr ?_ ?_ rfl rfl) fun hreply => ?_)
    · -- the request counts for less once it is pending
      have hlane : q.rank m.epoch + 24 = (m.producer c).rank m.epoch := by
        rw [hq, Producer.rank, Producer.rank, hreq, List.length_cons]
        simp only [Producer.phaseRank]
        omega
      rw [laneRank, laneRank, requestRank_of_none hnone]
      refine Nat.lt_of_le_of_lt (Nat.add_le_add_left (requestRank_le _ c) _) ?_
      change (Function.update m.producer c q c).rank m.epoch + 23 < _
      rw [Function.update_self]
      omega
    · exact Function.update_of_ne (rev_ne c) _ _
    · exact Function.update_of_ne (rev_ne c) _ _
    · exact absurd hreply ((by decide : ∀ c : Fin 2,
        (if c = 0 then ArbiterPhase.poll 1 else .drain 0) ≠ .reply) c)

theorem rank_drain (hphase : m.phase = .drain c) :
    (m.step .arbiter).rank < m.rank ∨
      m.step .arbiter = { m with phase := if c = 0 then .drain 1 else .survey } ∧
        (m.producer c).progress = [] := by
  rw [step_drain hphase]
  cases hprogress : (m.producer c).progress with
  | nil => exact Or.inr ⟨drain_nil hprogress, rfl⟩
  | cons t progress =>
    obtain ⟨q, heq, hq⟩ := drain_cons hprogress
    rw [heq]
    refine Or.inl (rank_lt_of_lane c ?_ (laneRank_congr ?_ rfl rfl rfl) id)
    · have hlane : q.rank m.epoch + 1 = (m.producer c).rank m.epoch := by
        rw [hq, Producer.rank, Producer.rank, hprogress, List.length_cons]
        simp only [Producer.phaseRank]
        omega
      rw [laneRank, laneRank]
      change (Function.update m.producer c q c).rank m.epoch + m.requestRank c < _
      rw [Function.update_self]
      omega
    · exact Function.update_of_ne (rev_ne c) _ _

/-- A response to be pushed belongs to a pending request. -/
theorem Running.pending_of_outbox (h : m.Running total) (hne : m.outboxOf c ≠ []) :
    (m.pending c).isSome = true := by
  obtain ⟨s, htracks, -⟩ := h.moves
  obtain ⟨⟨cpu, pending, hstage, -, -⟩, -, -⟩ := htracks.lane c
  cases hout : m.outboxOf c with
  | nil => exact absurd hout hne
  | cons r rest =>
    rw [hout] at hstage
    obtain ⟨-, ⟨w, hroute⟩, -, -⟩ := hstage.of_outbox
    exact (congrArg (fun r => r.2.2.1.isSome) hroute).trans rfl

theorem requestRank_of_outbox (hsome : (m.pending c).isSome = true) (hne : m.outboxOf c ≠ []) :
    m.requestRank c = 16 := by
  obtain ⟨w, hw⟩ := Option.isSome_iff_exists.mp hsome
  rw [requestRank, hw]
  exact if_neg (by rw [List.isEmpty_iff]; exact hne)

theorem Running.rank_reply (h : m.Running total) (hphase : m.phase = .reply) :
    (m.step .arbiter).rank < m.rank := by
  rw [step_reply hphase]
  cases hout : m.outbox with
  | nil =>
    -- the notification may wake both producers
    have h0 := (m.producer 0).rank_epoch m.epoch (m.epoch + 1)
    have h1 := (m.producer 1).rank_epoch m.epoch (m.epoch + 1)
    rw [reply_nil hout, rank, rank, if_pos hphase, if_neg (by simp), laneRank, laneRank, laneRank,
      laneRank]
    change (m.producer 0).rank (m.epoch + 1) + m.requestRank 0 +
      ((m.producer 1).rank (m.epoch + 1) + m.requestRank 1) + 0 < _
    omega
  | cons x outbox =>
    obtain ⟨⟨c, p⟩, response⟩ := x
    obtain ⟨q, heq, hq⟩ := reply_cons hout
    have hne : m.outboxOf c ≠ [] := by
      rw [outboxOf, hout, List.filter_cons_of_pos (by simp)]
      exact List.cons_ne_nil _ _
    have hbefore := requestRank_of_outbox (h.pending_of_outbox hne) hne
    have hlane : q.rank m.epoch = (m.producer c).rank m.epoch + 15 := by
      rw [hq, Producer.rank, Producer.rank, List.length_append, List.length_singleton]
      simp only [Producer.phaseRank]
      omega
    rw [heq]
    refine rank_lt_of_lane c ?_ (laneRank_congr ?_ ?_ rfl ?_) id
    · rw [laneRank, laneRank, hbefore, requestRank_of_none (Function.update_self ..)]
      change (Function.update m.producer c q c).rank m.epoch + 0 < _
      rw [Function.update_self]
      omega
    · exact Function.update_of_ne (rev_ne c) _ _
    · exact Function.update_of_ne (rev_ne c) _ _
    · rw [outboxOf, outboxOf, hout, List.filter_cons_of_neg (by simpa using (rev_ne c).symm)]

/-- After a commit there are responses to push, or the loop goes on. -/
theorem commit_outbox (m : ScriptedThreads) (hreply : m.commit.phase = .reply) :
    m.commit.outbox ≠ [] := by
  rw [ScriptedThreads.commit] at hreply ⊢
  split_ifs at hreply ⊢
  simp only at hreply ⊢
  split_ifs at hreply with hnil
  intro hout
  rw [answers, List.map_eq_nil_iff] at hout
  rw [hout] at hnil
  exact hnil rfl

/-- A commit that answers nobody finds nothing below the horizon. -/
theorem commit_check (ht : Tracks s m) (hs : s.Steady) (hphase : m.phase = .commit)
    (hcheck : m.commit.phase = .check) {w : PendingBusOp} (hw : m.pending c = some w) :
    m.arb.isCommittable w.op = false := by
  have hempty : m.outbox = [] := ht.outbox (by rw [hphase]; simp)
  have hready : s.fetch.publish.Sound :=
    ⟨hs.sound.fetch.cpuId, hs.sound.fetch.lineSize, hs.sound.fetch.outstanding⟩
  obtain ⟨-, houtbox, -, -, -, hreply⟩ := ht.commit_spec hempty hready
  have hnil := hreply (by rw [hcheck]; simp)
  have hmem : c ∈ requesters m.pending := mem_requesters.mpr (by rw [hw]; rfl)
  have hpending : s.fetch.publish.pending c = some w := (ht.pending_visible hempty hw).1
  by_contra hcomm
  rw [Bool.not_eq_false] at hcomm
  -- the request would be a candidate of the first round
  have hround : m.arb.opRound ((requesters m.pending).map fun c =>
      ((s.fetch.publish.pending c).getD {}).op) ≠ none := by
    intro hnone
    rcases BusArbiter.opRound_eq_none.mp hnone with hhalt | hcand
    · rw [BusArbiter.core_trace ht.core, hs.running] at hhalt
      exact absurd hhalt Bool.false_ne_true
    · refine absurd (BusArbiter.mem_candidates.mpr ⟨List.mem_map.mpr ⟨c, hmem, rfl⟩, ?_⟩)
        (by rw [hcand]; exact List.not_mem_nil)
      rw [hpending]
      exact hcomm
  obtain ⟨⟨v, tie⟩, hsome⟩ := Option.ne_none_iff_exists'.mp hround
  obtain ⟨n, hn⟩ := Nat.exists_eq_succ_of_ne_zero
    (List.length_pos_of_mem hmem : 0 < (requesters m.pending).length).ne'
  rw [houtbox, Tracks.results, hn, BusArbiter.rounds_of_some hsome, List.map_cons] at hnil
  exact absurd hnil (List.cons_ne_nil _ _)

/-- A commit that answers somebody found a request below the horizon. -/
theorem commit_reply (ht : Tracks s m) (hs : s.Steady) (hphase : m.phase = .commit)
    (hreply : m.commit.phase = .reply) :
    ∃ c, ∃ w ∈ m.pending c, m.arb.isCommittable w.op = true := by
  have hempty : m.outbox = [] := ht.outbox (by rw [hphase]; simp)
  have hready : s.fetch.publish.Sound :=
    ⟨hs.sound.fetch.cpuId, hs.sound.fetch.lineSize, hs.sound.fetch.outstanding⟩
  obtain ⟨-, houtbox, -⟩ := ht.commit_spec hempty hready
  have hcand : m.arb.candidates ((requesters m.pending).map fun c =>
      ((s.fetch.publish.pending c).getD {}).op) ≠ [] := by
    intro hnil
    refine m.commit_outbox hreply ?_
    rw [houtbox, Tracks.results,
      BusArbiter.rounds_of_none (BusArbiter.opRound_eq_none.mpr (Or.inr hnil))]
    rfl
  obtain ⟨op, hop⟩ := List.exists_mem_of_ne_nil _ hcand
  obtain ⟨hmem, hcomm⟩ := BusArbiter.mem_candidates.mp hop
  obtain ⟨c, hc, rfl⟩ := List.mem_map.mp hmem
  obtain ⟨w, hw⟩ := Option.isSome_iff_exists.mp (mem_requesters.mp hc)
  have hpending : s.fetch.publish.pending c = some w := (ht.pending_visible hempty hw).1
  rw [hpending] at hcomm
  exact ⟨c, w, hw, hcomm⟩

theorem commit_progressUpTo (ht : Tracks s m) (hs : s.Steady) (hphase : m.phase = .commit) :
    m.commit.arb.progressUpTo = m.arb.progressUpTo := by
  have hempty : m.outbox = [] := ht.outbox (by rw [hphase]; simp)
  have hready : s.fetch.publish.Sound :=
    ⟨hs.sound.fetch.cpuId, hs.sound.fetch.lineSize, hs.sound.fetch.outstanding⟩
  obtain ⟨harb, -⟩ := ht.commit_spec hempty hready
  exact (congrArg BusArbiter.progressUpTo harb).trans (BusArbiter.rounds_progress _ _ _).2

theorem Running.rank_commit (h : m.Running total) (htotal : total < tickModulus)
    (hphase : m.phase = .commit) :
    (m.step .arbiter).rank < m.rank ∨
      Still m (m.step .arbiter) ∧ (m.step .arbiter).phase = .check ∧
        ∀ c w, m.pending c = some w → m.arb.isCommittable w.op = false := by
  obtain ⟨s, htracks, hb⟩ := h.moves
  have hempty : m.outbox = [] := htracks.outbox (by rw [hphase]; simp)
  have hnext := h.step htotal .arbiter
  rw [step_commit hphase] at hnext ⊢
  obtain ⟨hproducer, hpending, hepoch, -, -, -, hcheck | hreply⟩ := m.commit_keeps
  · -- nobody is answered
    obtain ⟨s', htracks', -⟩ := hnext.moves
    have hout : m.commit.outbox = m.outbox :=
      (htracks'.outbox (by rw [hcheck]; simp)).trans hempty.symm
    exact Or.inr ⟨⟨hproducer, hpending, hepoch, commit_progressUpTo htracks hb.toSteady hphase, hout,
      by rw [hphase]; simp, by rw [hcheck]; simp⟩, hcheck,
      fun c w hw => commit_check htracks hb.toSteady hphase hcheck hw⟩
  · refine Or.inl ?_
    have hone : ∃ c, m.commit.outboxOf c ≠ [] := by
      cases hout : m.commit.outbox with
      | nil => exact absurd hout (m.commit_outbox hreply)
      | cons x rest =>
        refine ⟨x.1.1, ?_⟩
        rw [outboxOf, hout, List.filter_cons_of_pos (by simp)]
        exact List.cons_ne_nil _ _
    obtain ⟨c, hc⟩ := hone
    have hsome := hnext.pending_of_outbox hc
    have hlater := requestRank_of_outbox hsome hc
    have hbefore : ∀ d, (m.pending d).isSome = true → m.requestRank d = 23 := by
      intro d hd
      obtain ⟨w, hw⟩ := Option.isSome_iff_exists.mp hd
      rw [requestRank, hw, outboxOf, hempty]
      rfl
    -- the peer is answered too, or keeps its request
    have hpeer : m.commit.requestRank c.rev ≤ m.requestRank c.rev := by
      cases hrev : m.pending c.rev with
      | none => rw [requestRank_of_none (by rw [hpending]; exact hrev)]; exact Nat.zero_le _
      | some w =>
        rw [hbefore c.rev (by rw [hrev]; rfl)]
        exact requestRank_le _ _
    rw [hpending] at hsome
    have hself := hbefore c hsome
    rw [m.commit.rank_eq c, m.rank_eq c, if_pos hreply, if_neg (by rw [hphase]; simp), laneRank,
      laneRank, laneRank, laneRank, hproducer, hepoch, hlater, hself]
    omega

/-! ### Watermarks along a run -/

/-- A request that a producer is about to issue is early enough. -/
theorem issue_early (ht : Tracks s m) (hb : s.WithinBudget total) (htotal : total < tickModulus)
    (hphase : (m.producer c).phase = .top) (hwaiting : (m.producer c).waiting = none)
    {w : PendingBusOp} (hw : (m.producer c).cpu.produce.2 = some w) :
    w.op.reqTime + 1 < tickMax := by
  obtain ⟨⟨cpu, pending, hstage, htarget, -⟩, -, -⟩ := ht.lane c
  have hpending : s.fetch.pending c = some w := by
    cases hstage with
    | idle _ _ =>
      rw [fetchCpu_none] at htarget
      exact (congrArg Prod.snd htarget).symm.trans hw
    | applied _ hph _ => exact absurd (hph.symm.trans hphase) (by simp)
    | ended hph _ _ =>
      rcases hph with hph | hph | hph <;> exact absurd (hph.symm.trans hphase) (by simp)
    | _ =>
      -- at the other stages the producer waits
      rename_i hroute
      exact absurd (hwaiting.symm.trans (congrArg Prod.fst hroute)) (by simp)
  have hearly := (hb.fetch htotal).reqTime hpending
  rw [tickMax]
  omega

theorem Fit.producer (h : m.Fit total) (htotal : total + 1 < tickMax) (d c : Fin 2) :
    ((m.step (.producer d)).producer c).Heard (m.arb.progressUpTo c) := by
  have hmax : total < tickModulus := by rw [tickMax] at htotal; omega
  obtain ⟨s, htracks, hb⟩ := h.moves
  by_cases hcd : c = d
  · subst hcd
    rw [producer_self]
    exact (h.heard c).step m.epoch fun w hphase hwaiting hw =>
      issue_early htracks hb hmax hphase hwaiting hw
  · rw [producer_of_ne hcd]
    exact h.heard c

/-- A watermark taken out of the mailbox is heard. -/
theorem Fit.drain (h : m.Fit total) (htotal : total + 1 < tickMax) (d : Fin 2) {t : Nat}
    {progress : List Nat} (hprogress : (m.producer d).progress = t :: progress) :
    (∀ c, (m.drainProgress d).arb.progressUpTo c ≠ tickMax) ∧
      ∀ c, ((m.drainProgress d).producer c).Heard ((m.drainProgress d).arb.progressUpTo c) := by
  have hmax : total < tickModulus := by rw [tickMax] at htotal; omega
  obtain ⟨s, htracks, hb⟩ := h.moves
  have hle := (htracks.lane d).mail t (by rw [hprogress]; exact List.mem_cons_self)
  have hclock := (hb.fetch hmax).clocks d
  have hself := BusArbiter.updateProgress_self m.arb d t
  rw [if_congr (or_iff_right (h.slot d)) rfl rfl] at hself
  obtain ⟨q, heq, hq⟩ := drain_cons hprogress
  rw [heq]
  refine ⟨fun c => ?_, fun c => ?_⟩
  · by_cases hcd : c = d
    · rw [hcd]
      change (m.arb.updateProgress d.val t).progressUpTo d ≠ tickMax
      rw [hself]
      split_ifs
      · simp only at hle
        omega
      · exact h.slot d
    · change (m.arb.updateProgress d.val t).progressUpTo c ≠ tickMax
      rw [BusArbiter.updateProgress_of_ne m.arb hcd t]
      exact h.slot c
  · by_cases hcd : c = d
    · rw [hcd]
      change (Function.update m.producer d q d).Heard ((m.arb.updateProgress d.val t).progressUpTo d)
      rw [Function.update_self, hself, hq]
      intro w hw
      obtain ⟨hearly, hor⟩ := h.heard d w hw
      refine ⟨hearly, hor.imp_right fun hor => ?_⟩
      rw [hprogress] at hor
      rcases hor with hmem | hup
      · rcases List.mem_cons.mp hmem with ht | hmem
        · exact Or.inr (by split_ifs <;> omega)
        · exact Or.inl hmem
      · exact Or.inr (by split_ifs <;> omega)
    · change (Function.update m.producer d q c).Heard ((m.arb.updateProgress d.val t).progressUpTo c)
      rw [Function.update_of_ne hcd, BusArbiter.updateProgress_of_ne m.arb hcd t]
      exact h.heard c

theorem Fit.step (h : m.Fit total) (htotal : total + 1 < tickMax) (thread : Thread) :
    (m.step thread).Fit total := by
  have hmax : total < tickModulus := by rw [tickMax] at htotal; omega
  have hnext := h.toRunning.step hmax thread
  obtain ⟨s, htracks, hb⟩ := h.moves
  cases thread with
  | producer d => exact ⟨hnext, h.slot, h.producer htotal d⟩
  | arbiter =>
    -- most moves of the arbiter thread touch neither watermarks nor waiting producers
    have hsame : ∀ {m' : ScriptedThreads}, m.step .arbiter = m' →
        m'.arb.progressUpTo = m.arb.progressUpTo →
        (∀ c, (m'.producer c).waiting = (m.producer c).waiting) →
        (∀ c, (m'.producer c).progress = (m.producer c).progress) →
        (∀ c, (m'.producer c).phase = (m.producer c).phase) → (m.step .arbiter).Fit total := by
      intro m' heq hup hwaiting hprogress hphase
      subst heq
      refine ⟨hnext, by rw [hup]; exact h.slot, fun c => ?_⟩
      rw [hup]
      exact (h.heard c).congr (hwaiting c) (hprogress c) fun t ht => (hphase c).trans ht
    cases hphase : m.phase with
    | poll d =>
      rcases m.pollRequest_cases d with ⟨heq, -⟩ | ⟨w, req, q, -, -, heq, hq⟩
      · refine hsame (step_poll hphase) ?_ ?_ ?_ ?_ <;> rw [heq] <;> exact fun _ => rfl
      · refine hsame (step_poll hphase) ?_ ?_ ?_ ?_ <;> rw [heq]
        · rfl
        · exact update_field (·.waiting) (by rw [hq])
        · exact update_field (·.progress) (by rw [hq])
        · exact update_field (·.phase) (by rw [hq])
    | drain d =>
      cases hprogress : (m.producer d).progress with
      | nil =>
        refine hsame ((step_drain hphase).trans (drain_nil hprogress)) rfl ?_ ?_ ?_ <;>
          exact fun _ => rfl
      | cons t progress =>
        obtain ⟨hslot, hheard⟩ := h.drain htotal d hprogress
        rw [step_drain hphase] at hnext ⊢
        exact ⟨hnext, hslot, hheard⟩
    | survey => exact hsame (step_survey hphase) rfl (fun _ => rfl) (fun _ => rfl) fun _ => rfl
    | commit =>
      obtain ⟨hproducer, -⟩ := m.commit_keeps
      refine hsame (step_commit hphase) (commit_progressUpTo htracks hb.toSteady hphase) ?_ ?_ ?_ <;>
        · intro c
          rw [hproducer]
    | reply =>
      cases hout : m.outbox with
      | nil =>
        refine hsame ((step_reply hphase).trans (reply_nil hout)) rfl ?_ ?_ ?_ <;>
          exact fun _ => rfl
      | cons x outbox =>
        obtain ⟨⟨d, p⟩, response⟩ := x
        obtain ⟨q, heq, hq⟩ := reply_cons hout
        refine hsame ((step_reply hphase).trans heq) rfl ?_ ?_ ?_
        · exact update_field (·.waiting) (by rw [hq])
        · exact update_field (·.progress) (by rw [hq])
        · exact update_field (·.phase) (by rw [hq])
    | check =>
      refine hsame (step_check hphase) ?_ ?_ ?_ ?_ <;> rw [ScriptedThreads.check] <;>
        split_ifs <;> first | rfl | exact fun _ => rfl
    | wait =>
      refine hsame (step_wait hphase) ?_ ?_ ?_ ?_ <;> split_ifs <;> first | rfl | exact fun _ => rfl
    | exited => exact (step_exited hphase).symm ▸ h

theorem fit_start (script : Fin 2 → List ScriptOp) (memory : CommittedMemory)
    (devices : DeviceHub) (policy : ArbitrationPolicy) (haltOnFault : Bool)
    (hvalid : ∀ c, ∀ ins ∈ script c, ins.valid = true)
    (hbudget : ScriptedPair.tickBudget script + 1 < tickMax) :
    (start script { memory, devices, policy, trace := { haltOnFault } }).Fit
      (ScriptedPair.tickBudget script) := by
  have hmax : ScriptedPair.tickBudget script < tickModulus := by rw [tickMax] at hbudget; omega
  have hzero : 0 ≠ tickMax := by decide
  exact ⟨running_start script memory devices policy haltOnFault hvalid hmax,
    Fin.forall_fin_two.mpr ⟨hzero, hzero⟩, fun c w hw => absurd hw (by simp [start])⟩

/-! ### A request that is never committed -/

/-- A request is pending, the peer has returned, and its last watermark does not
let the request through. -/
def Hung (m : ScriptedThreads) : Prop :=
  m.outbox = [] ∧ ∃ c, ∃ w ∈ m.pending c, (m.producer c.rev).phase = .returned ∧
    (m.producer c.rev).progress = [] ∧ m.arb.progressUpTo c.rev ≤ w.op.reqTime

instance (m : ScriptedThreads) : Decidable m.Hung := inferInstanceAs (Decidable (_ ∧ _))

/-- Nothing is left in the mailboxes of a producer that has returned. -/
theorem Running.returned (h : m.Running total) (hphase : (m.producer c).phase = .returned) :
    (m.producer c).req = [] ∧ m.pending c = none := by
  obtain ⟨s, htracks, -⟩ := h.moves
  obtain ⟨⟨cpu, pending, hstage, -, -⟩, -, -⟩ := htracks.lane c
  cases hstage with
  | ended _ hroute _ =>
    simp only [Producer.route, Prod.mk.injEq] at hroute
    exact ⟨hroute.2.1, hroute.2.2.1⟩
  | idle hph _ => rcases hph with hph | hph <;> exact absurd (hph.symm.trans hphase) (by simp)
  | applied _ hph _ => exact absurd (hph.symm.trans hphase) (by simp)
  | _ =>
    -- at the other stages the producer waits
    rename_i hph _
    rw [hphase] at hph
    exact absurd hph Bool.false_ne_true

/-- The arbiter thread knows both watermarks. -/
theorem Fit.isCommittable_iff (h : m.Fit total) (op : BusOp) :
    m.arb.isCommittable op = true ↔ ∀ c, op.reqTime < m.arb.progressUpTo c := by
  obtain ⟨s, htracks, -⟩ := h.moves
  have hsafe : m.arb.hasSafeHorizon = true := by
    rw [BusArbiter.hasSafeHorizon, Bool.or_eq_true, Bool.and_eq_true, decide_eq_true_eq,
      decide_eq_true_eq]
    exact Or.inr ⟨h.slot 0, h.slot 1⟩
  rw [BusArbiter.isCommittable, htracks.tracking, hsafe, BusArbiter.commitHorizon, Bool.not_true,
    Bool.false_or, Bool.true_and, decide_eq_true_eq, Nat.lt_min, Fin.forall_fin_two]

/-- **A hung run stays hung.** -/
theorem Hung.step (hung : m.Hung) (h : m.Fit total) (htotal : total + 1 < tickMax)
    (thread : Thread) : (m.step thread).Hung := by
  have hmax : total < tickModulus := by rw [tickMax] at htotal; omega
  obtain ⟨hempty, c, w, hw, hphase, hprogress, hle⟩ := hung
  have hnone := (h.toRunning.returned hphase).2
  cases thread with
  | producer d =>
    refine ⟨hempty, c, w, hw, ?_⟩
    have hsame : (m.step (.producer d)).producer c.rev = m.producer c.rev := by
      by_cases hd : c.rev = d
      · rw [hd] at hphase ⊢
        rw [producer_self, Producer.step, hphase]
      · exact producer_of_ne hd
    rw [hsame]
    exact ⟨hphase, hprogress, hle⟩
  | arbiter =>
    have hstay : ∀ {m' : ScriptedThreads}, m.step .arbiter = m' → m'.outbox = [] →
        m'.pending = m.pending → m'.producer c.rev = m.producer c.rev →
        m'.arb.progressUpTo c.rev = m.arb.progressUpTo c.rev → (m.step .arbiter).Hung := by
      intro m' heq hout hpending hproducer hup
      rw [heq]
      refine ⟨hout, c, w, ?_, ?_⟩
      · rw [hpending]
        exact hw
      · rw [hproducer, hup]
        exact ⟨hphase, hprogress, hle⟩
    cases hp : m.phase with
    | poll d =>
      rcases m.pollRequest_cases d with ⟨heq, -⟩ | ⟨w', req, q, hd, hreq, -⟩
      · exact hstay (step_poll hp) (by rw [heq]; exact hempty) (by rw [heq]) (by rw [heq])
          (by rw [heq])
      · -- the peer sends nothing, and of the other CPU a request is pending
        by_cases hdc : d = c
        · rw [hdc] at hd
          exact absurd (hd.symm.trans hw) (by simp)
        · have hrev : d = c.rev := (by decide : ∀ d c : Fin 2, d ≠ c → d = c.rev) d c hdc
          rw [hrev, (h.toRunning.returned hphase).1] at hreq
          exact absurd hreq (by simp)
    | drain d =>
      cases hd : (m.producer d).progress with
      | nil => exact hstay ((step_drain hp).trans (drain_nil hd)) hempty rfl rfl rfl
      | cons t progress =>
        obtain ⟨q, heq, -⟩ := drain_cons hd
        have hne : c.rev ≠ d := by
          rintro rfl
          exact absurd (hprogress.symm.trans hd) (by simp)
        exact hstay ((step_drain hp).trans heq) hempty rfl (Function.update_of_ne hne _ _)
          (BusArbiter.updateProgress_of_ne m.arb hne t)
    | survey => exact hstay (step_survey hp) hempty rfl rfl rfl
    | commit =>
      obtain ⟨s, htracks, hb⟩ := h.moves
      obtain ⟨hproducer, hpending, -, -, -, -, hnext⟩ := m.commit_keeps
      have hout : m.commit.outbox = [] := by
        rcases hnext with hcheck | hreply
        · have hrun := h.toRunning.step hmax .arbiter
          rw [step_commit hp] at hrun
          obtain ⟨s', htracks', -⟩ := hrun.moves
          exact htracks'.outbox (by rw [hcheck]; simp)
        · -- the only request is not below the horizon
          obtain ⟨d, w', hw', hcomm⟩ := commit_reply htracks hb.toSteady hp hreply
          have hlt := (h.isCommittable_iff w'.op).mp hcomm c.rev
          by_cases hdc : d = c
          · rw [hdc] at hw'
            rw [Option.some_inj.mp (Eq.symm hw' |>.trans hw)] at hlt
            omega
          · have hrev : d = c.rev := (by decide : ∀ d c : Fin 2, d ≠ c → d = c.rev) d c hdc
            rw [hrev, hnone] at hw'
            exact absurd hw' (by simp)
      exact hstay (step_commit hp) hout hpending (by rw [hproducer])
        (by rw [commit_progressUpTo htracks hb.toSteady hp])
    | reply => exact hstay ((step_reply hp).trans (reply_nil hempty)) hempty rfl rfl rfl
    | check =>
      refine hstay (step_check hp) ?_ ?_ ?_ ?_ <;> rw [ScriptedThreads.check] <;> split_ifs <;>
        first | rfl | exact hempty
    | wait =>
      refine hstay (step_wait hp) ?_ ?_ ?_ ?_ <;> split_ifs <;> first | rfl | exact hempty
    | exited => exact hstay (step_exited hp) hempty rfl rfl rfl

/-! ### Quiet producers -/

/-- What the arbiter thread has looked at in this round is empty. -/
structure Swept (m : ScriptedThreads) : Prop where
  req : ∀ c, m.phase.polled c = true → (m.pending c).isSome = true ∨ (m.producer c).req = []
  progress : ∀ c, m.phase.drained c = true → (m.producer c).progress = []
  ended : m.phase = .check → ∀ c, (m.producer c).phase = .returned

/-- A quiet producer with nothing on its way has returned. -/
theorem Running.returned_of_quiet (h : m.Running total) (hquiet : m.Quiet c)
    (hphase : m.phase ≠ .reply) (hpending : m.pending c = none) (hreq : (m.producer c).req = []) :
    (m.producer c).phase = .returned := by
  obtain ⟨s, htracks, -⟩ := h.moves
  rcases hquiet with ⟨hwait, hseen⟩ | hreturned
  · rcases route_of_wait htracks hwait with hne | hsome | hresp
    · exact absurd hreq hne
    · rw [hpending] at hsome
      exact absurd hsome Bool.false_ne_true
    · rcases h.alert.resp c hwait with hnil | hlt | hreply
      · exact absurd hnil hresp
      · omega
      · exact absurd hreply hphase
  · exact hreturned

/-- The watermark of a pending request is taken once the mailbox is empty. -/
theorem Fit.mark_of_pending (h : m.Fit total) (hempty : m.outbox = []) {w : PendingBusOp}
    (hw : m.pending c = some w) (hquiet : m.Quiet c) (hprogress : (m.producer c).progress = []) :
    w.op.reqTime < m.arb.progressUpTo c := by
  obtain ⟨s, htracks, -⟩ := h.moves
  obtain ⟨-, -, -, hroute⟩ := htracks.pending_visible hempty hw
  obtain ⟨-, hor⟩ := h.heard c w (congrArg Prod.fst hroute)
  rcases hor with hannounce | hmem | hle
  · have hnot := hquiet.not_notifies
    rw [hannounce] at hnot
    exact absurd hnot.symm Bool.false_ne_true
  · rw [hprogress] at hmem
    exact absurd hmem List.not_mem_nil
  · exact hle

/-- **After a look at everything** a commit that answers nobody means that both
producers have returned, or that the run hangs. -/
theorem Fit.commit_swept (h : m.Fit total) (hquiet : ∀ c, m.Quiet c) (hswept : m.Swept)
    (hphase : m.phase = .commit) (hempty : m.outbox = [])
    (hnone : ∀ c w, m.pending c = some w → m.arb.isCommittable w.op = false) :
    m.Hung ∨ ∀ c, (m.producer c).phase = .returned := by
  have hprogress : ∀ c, (m.producer c).progress = [] := fun c =>
    hswept.progress c (by rw [hphase]; rfl)
  have hreturned : ∀ c, m.pending c = none → (m.producer c).phase = .returned := by
    intro c hc
    have hreq := (hswept.req c (by rw [hphase]; rfl)).resolve_left (by rw [hc]; simp)
    exact h.toRunning.returned_of_quiet (hquiet c) (by rw [hphase]; simp) hc hreq
  by_cases hex : ∃ c, (m.pending c).isSome = true
  · -- the earlier one of the pending requests
    obtain ⟨s, -, -⟩ := h.moves
    obtain ⟨c, w, hw, hmin⟩ := ScriptedPair.exists_earliest (s := { s with pending := m.pending }) hex
    have hmark := h.mark_of_pending hempty hw (hquiet c) (hprogress c)
    have hrev : m.arb.progressUpTo c.rev ≤ w.op.reqTime := by
      by_contra hlt
      have hcomm := (h.isCommittable_iff w.op).mpr
        ((ScriptedPair.forall_cpu c).mpr ⟨hmark, Nat.lt_of_not_le hlt⟩)
      exact absurd ((hnone c w hw).symm.trans hcomm) Bool.false_ne_true
    cases hpeer : m.pending c.rev with
    | some q =>
      have hlater := h.mark_of_pending hempty hpeer (hquiet c.rev) (hprogress c.rev)
      have hle := hmin q hpeer
      omega
    | none => exact Or.inl ⟨hempty, c, w, hw, hreturned c.rev hpeer, hprogress c.rev, hrev⟩
  · exact Or.inr fun c => hreturned c (by
      rw [← Option.not_isSome_iff_eq_none]
      exact fun hc => hex ⟨c, hc⟩)

/-- A move of the arbiter thread while the producers are quiet: it takes or
commits something, or the run ends or hangs, or the thread moves on in its loop. -/
structure Advances (m m' : ScriptedThreads) : Prop where
  still : Still m m'
  lap : m'.Swept ∨ m'.phase.toTop < m.phase.toTop
  swept : m.Swept → m'.Swept ∧ m'.phase.toEnd < m.phase.toEnd

/-- At the start of the loop nothing has been looked at. -/
theorem swept_of_top (hphase : m.phase = .poll 0) : m.Swept := by
  refine ⟨fun c hc => ?_, fun c hc => ?_, fun hcheck => ?_⟩
  · rw [hphase] at hc
    exact absurd hc ((by decide : ∀ c, ¬ (ArbiterPhase.poll 0).polled c = true) c)
  · rw [hphase] at hc
    exact absurd hc Bool.false_ne_true
  · exact absurd (hphase.symm.trans hcheck) (by simp)

theorem advances_poll (hphase : m.phase = .poll c)
    (hstep : m.step .arbiter = { m with phase := if c = 0 then .poll 1 else .drain 0 })
    (hgot : (m.pending c).isSome = true ∨ (m.producer c).req = []) :
    Advances m (m.step .arbiter) := by
  have hstill : Still m (m.step .arbiter) := by
    rw [hstep]
    exact ⟨rfl, rfl, rfl, rfl, rfl, by rw [hphase]; simp, (by decide : ∀ c : Fin 2,
      (if c = 0 then ArbiterPhase.poll 1 else .drain 0) ≠ .reply) c⟩
  have hnext : (m.step .arbiter).phase = if c = 0 then .poll 1 else .drain 0 := by rw [hstep]
  have hswept : (∀ d, d ≠ c → (ArbiterPhase.poll c).polled d = true →
      (m.pending d).isSome = true ∨ (m.producer d).req = []) → (m.step .arbiter).Swept := by
    intro hother
    refine ⟨fun d hd => ?_, fun d hd => ?_, fun hcheck => ?_⟩
    · rw [hnext] at hd
      rw [hstill.pending, hstill.producer]
      by_cases hdc : d = c
      · rw [hdc]
        exact hgot
      · exact hother d hdc ((polled_next c d hd).resolve_left hdc)
    · rw [hnext] at hd
      exact absurd ((next_not c d).1.symm.trans hd) Bool.false_ne_true
    · rw [hnext] at hcheck
      exact absurd hcheck ((by decide : ∀ c : Fin 2,
        (if c = 0 then ArbiterPhase.poll 1 else .drain 0) ≠ .check) c)
  refine ⟨hstill, ?_, fun hm => ⟨hswept fun d _ hd => hm.req d (by rw [hphase]; exact hd), ?_⟩⟩
  · -- the first look of a round is at CPU 0
    by_cases hc : c = 0
    · refine Or.inl (hswept fun d _ hd => ?_)
      rw [hc] at hd
      exact absurd hd ((by decide : ∀ d, ¬ (ArbiterPhase.poll 0).polled d = true) d)
    · refine Or.inr ?_
      rw [hnext, hphase, ArbiterPhase.toTop, if_neg hc, if_neg hc]
      decide
  · rw [hnext, hphase]
    exact (by decide : ∀ c : Fin 2, (if c = 0 then ArbiterPhase.poll 1 else .drain 0).toEnd <
      (ArbiterPhase.poll c).toEnd) c

theorem advances_drain (hphase : m.phase = .drain c)
    (hstep : m.step .arbiter = { m with phase := if c = 0 then .drain 1 else .survey })
    (hnil : (m.producer c).progress = []) : Advances m (m.step .arbiter) := by
  have hstill : Still m (m.step .arbiter) := by
    rw [hstep]
    exact ⟨rfl, rfl, rfl, rfl, rfl, by rw [hphase]; simp, (by decide : ∀ c : Fin 2,
      (if c = 0 then ArbiterPhase.drain 1 else .survey) ≠ .reply) c⟩
  have hnext : (m.step .arbiter).phase = if c = 0 then .drain 1 else .survey := by rw [hstep]
  refine ⟨hstill, Or.inr ?_, fun hm => ⟨⟨fun d _ => ?_, fun d hd => ?_, fun hcheck => ?_⟩, ?_⟩⟩
  · rw [hnext, hphase]
    exact (by decide : ∀ c : Fin 2, (if c = 0 then ArbiterPhase.drain 1 else .survey).toTop <
      (ArbiterPhase.drain c).toTop) c
  · rw [hstill.pending, hstill.producer]
    exact hm.req d (by rw [hphase]; rfl)
  · rw [hnext] at hd
    rw [hstill.producer]
    rcases drained_next c d hd with hdc | hbefore
    · rw [hdc]
      exact hnil
    · exact hm.progress d (by rw [hphase]; exact hbefore)
  · rw [hnext] at hcheck
    exact absurd hcheck ((by decide : ∀ c : Fin 2,
      (if c = 0 then ArbiterPhase.drain 1 else .survey) ≠ .check) c)
  · rw [hnext, hphase]
    exact (by decide : ∀ c : Fin 2, (if c = 0 then ArbiterPhase.drain 1 else .survey).toEnd <
      (ArbiterPhase.drain c).toEnd) c

theorem advances_survey (hphase : m.phase = .survey) : Advances m (m.step .arbiter) := by
  rw [step_survey hphase]
  have hstill : Still m m.survey := ⟨rfl, rfl, rfl, rfl, rfl, by rw [hphase]; simp, by
    simp [ScriptedThreads.survey]⟩
  refine ⟨hstill, Or.inr ?_, fun hm => ⟨⟨fun d _ => ?_, fun d _ => ?_, fun hcheck => ?_⟩, ?_⟩⟩
  · rw [hphase]
    exact (by decide : ArbiterPhase.commit.toTop < ArbiterPhase.survey.toTop)
  · exact hm.req d (by rw [hphase]; rfl)
  · exact hm.progress d (by rw [hphase]; rfl)
  · exact absurd hcheck (by simp [ScriptedThreads.survey])
  · rw [hphase]
    exact (by decide : ArbiterPhase.commit.toEnd < ArbiterPhase.survey.toEnd)

theorem still_check (hphase : m.phase = .check) : Still m m.check := by
  rw [ScriptedThreads.check]
  split_ifs <;> exact ⟨rfl, rfl, rfl, rfl, rfl, by rw [hphase]; simp, by simp⟩

theorem still_wait (hphase : m.phase = .wait) :
    Still m { m with seenEpoch := m.epoch, progressed := false, phase := .poll 0 } :=
  ⟨rfl, rfl, rfl, rfl, rfl, by rw [hphase]; simp, by simp⟩

/-- **One move of the arbiter thread** while the producers are quiet. -/
theorem Fit.quiet_step (h : m.Fit total) (htotal : total + 1 < tickMax)
    (hquiet : ∀ c, m.Quiet c) :
    (m.step .arbiter).rank < m.rank ∨ ((m.step .arbiter).Finished ∨ (m.step .arbiter).Hung) ∨
      Advances m (m.step .arbiter) := by
  have hmax : total < tickModulus := by rw [tickMax] at htotal; omega
  obtain ⟨s, htracks, hb⟩ := h.moves
  cases hphase : m.phase with
  | poll c =>
    exact (rank_poll hphase).imp_right fun ⟨hstep, hgot⟩ =>
      Or.inr (advances_poll hphase hstep hgot)
  | drain c =>
    exact (rank_drain hphase).imp_right fun ⟨hstep, hnil⟩ =>
      Or.inr (advances_drain hphase hstep hnil)
  | survey => exact Or.inr (Or.inr (advances_survey hphase))
  | commit =>
    refine (h.toRunning.rank_commit hmax hphase).imp_right fun ⟨hstill, hcheck, hnone⟩ => ?_
    have hempty : m.outbox = [] := htracks.outbox (by rw [hphase]; simp)
    by_cases hswept : m.Swept
    · rcases h.commit_swept hquiet hswept hphase hempty hnone with hung | hreturned
      · exact Or.inl (Or.inr (hung.step h htotal .arbiter))
      · refine Or.inr ⟨hstill, Or.inr ?_, fun _ => ⟨⟨fun d _ => ?_, fun d _ => ?_, fun _ d => ?_⟩, ?_⟩⟩
        · rw [hcheck, hphase]
          decide
        · rw [hstill.pending, hstill.producer]
          exact hswept.req d (by rw [hphase]; rfl)
        · rw [hstill.producer]
          exact hswept.progress d (by rw [hphase]; rfl)
        · rw [hstill.producer]
          exact hreturned d
        · rw [hcheck, hphase]
          decide
    · refine Or.inr ⟨hstill, Or.inr ?_, fun hm => absurd hm hswept⟩
      rw [hcheck, hphase]
      decide
  | reply => exact Or.inl (h.toRunning.rank_reply hphase)
  | check =>
    have hnext := h.toRunning.step hmax .arbiter
    rw [step_check hphase] at hnext ⊢
    refine Or.inr ?_
    by_cases hend : (m.producer 0).done && (m.producer 1).done && (m.pending 0).isNone &&
        (m.pending 1).isNone
    · have heq : m.check = { m with phase := .exited } := by rw [ScriptedThreads.check, if_pos hend]
      rw [heq] at hnext ⊢
      exact Or.inl (Or.inl (hnext.alert.finished hquiet rfl))
    · -- somebody has not ended, so not everything was looked at
      have hswept : ¬ m.Swept := by
        intro hm
        refine hend ?_
        have hdone := fun c => (h.alert.closed c).mpr (Or.inr (hm.ended hphase c))
        have hnone := fun c => (h.toRunning.returned (hm.ended hphase c)).2
        rw [hdone, hdone, hnone, hnone]
        rfl
      refine Or.inr ⟨still_check hphase, ?_, fun hm => absurd hm hswept⟩
      rw [ScriptedThreads.check, if_neg hend]
      split_ifs
      · refine Or.inr ?_
        rw [hphase]
        exact (by decide : ArbiterPhase.wait.toTop < ArbiterPhase.check.toTop)
      · exact Or.inl (swept_of_top rfl)
  | wait =>
    have hlt := h.alert.not_blocked htracks hquiet hphase
    refine Or.inr (Or.inr ?_)
    rw [step_wait hphase, if_pos (by omega)]
    refine ⟨still_wait hphase, Or.inl (swept_of_top rfl), fun _ => ⟨swept_of_top rfl, ?_⟩⟩
    rw [hphase]
    exact (by decide : (ArbiterPhase.poll 0).toEnd < ArbiterPhase.wait.toEnd)
  | exited =>
    rw [step_exited hphase]
    exact Or.inr (Or.inl (Or.inl (h.alert.finished hquiet hphase)))

/-! ### Fair schedules -/

/-- The run has ended or hangs. -/
def Over (m : ScriptedThreads) : Prop := m.Finished ∨ m.Hung

/-- No move of the arbiter thread adds to what is left to do. -/
theorem Fit.rank_arbiter (h : m.Fit total) (htotal : total + 1 < tickMax) :
    (m.step .arbiter).rank < m.rank ∨ Still m (m.step .arbiter) ∨ m.step .arbiter = m := by
  have hmax : total < tickModulus := by rw [tickMax] at htotal; omega
  cases hphase : m.phase with
  | poll c =>
    exact (rank_poll hphase).imp_right fun ⟨hstep, hgot⟩ =>
      Or.inl (advances_poll hphase hstep hgot).still
  | drain c =>
    exact (rank_drain hphase).imp_right fun ⟨hstep, hnil⟩ =>
      Or.inl (advances_drain hphase hstep hnil).still
  | survey => exact Or.inr (Or.inl (advances_survey hphase).still)
  | commit =>
    exact (h.toRunning.rank_commit hmax hphase).imp_right fun ⟨hstill, _⟩ => Or.inl hstill
  | reply => exact Or.inl (h.toRunning.rank_reply hphase)
  | check => exact Or.inr (Or.inl (step_check hphase ▸ still_check hphase))
  | wait =>
    refine Or.inr ?_
    rw [step_wait hphase]
    split_ifs
    · exact Or.inl (still_wait hphase)
    · exact Or.inr rfl
  | exited => exact Or.inr (Or.inr (step_exited hphase))

/-- A producer that is not quiet gets its turn. -/
theorem restless_leadsTo (htotal : total + 1 < tickMax) (c : Fin 2) (v : Nat) :
    Fair.LeadsTo step (fun m => (m.Fit total ∧ m.rank = v) ∧ ¬ m.Quiet c)
      fun m => m.Fit total ∧ m.rank < v := by
  refine Fair.LeadsTo.ensures (.producer c) ?_ ?_
  · rintro m ⟨⟨hfit, hrank⟩, hnot⟩ thread
    have hnext := hfit.step htotal thread
    cases thread with
    | producer d =>
      rcases hfit.toRunning.rank_producer d with hquiet | hlt
      · rw [hquiet.step]
        exact Or.inr ⟨⟨hfit, hrank⟩, hnot⟩
      · exact Or.inl ⟨hnext, by omega⟩
    | arbiter =>
      rcases hfit.rank_arbiter htotal with hlt | hstill | hsame
      · exact Or.inl ⟨hnext, by omega⟩
      · exact Or.inr ⟨⟨hnext, hstill.rank.trans hrank⟩, fun hq => hnot (hstill.quiet.mp hq)⟩
      · rw [hsame]
        exact Or.inr ⟨⟨hfit, hrank⟩, hnot⟩
  · rintro m ⟨⟨hfit, hrank⟩, hnot⟩
    rcases hfit.toRunning.rank_producer c with hquiet | hlt
    · exact absurd hquiet hnot
    · exact ⟨hfit.step htotal _, by omega⟩

/-- Both producers are quiet. -/
def Calm (total v : Nat) (m : ScriptedThreads) : Prop :=
  (m.Fit total ∧ m.rank = v) ∧ ∀ c, m.Quiet c

/-- While both producers are quiet only the arbiter thread moves. -/
theorem calm_leadsTo (htotal : total + 1 < tickMax) {p q : ScriptedThreads → Prop} {v : Nat}
    (hmove : ∀ m, Calm total v m → p m → Advances m (m.step .arbiter) → q (m.step .arbiter)) :
    Fair.LeadsTo step (fun m => Calm total v m ∧ p m)
      fun m => (m.Over ∨ m.Fit total ∧ m.rank < v) ∨ Calm total v m ∧ q m := by
  have harbiter : ∀ m, Calm total v m → p m →
      ((m.step .arbiter).Over ∨ (m.step .arbiter).Fit total ∧ (m.step .arbiter).rank < v) ∨
        Calm total v (m.step .arbiter) ∧ q (m.step .arbiter) := by
    rintro m ⟨⟨hfit, hrank⟩, hquiet⟩ hp
    have hnext := hfit.step htotal .arbiter
    rcases hfit.quiet_step htotal hquiet with hlt | hover | hadv
    · exact Or.inl (Or.inr ⟨hnext, by omega⟩)
    · exact Or.inl (Or.inl hover)
    · exact Or.inr ⟨⟨⟨hnext, hadv.still.rank.trans hrank⟩, fun c => hadv.still.quiet.mpr (hquiet c)⟩,
        hmove m ⟨⟨hfit, hrank⟩, hquiet⟩ hp hadv⟩
  refine Fair.LeadsTo.ensures .arbiter ?_ fun m hm => harbiter m hm.1 hm.2
  rintro m ⟨hcalm, hp⟩ thread
  cases thread with
  | arbiter => exact Or.inl (harbiter m hcalm hp)
  | producer c =>
    rw [(hcalm.2 c).step]
    exact Or.inr ⟨hcalm, hp⟩

/-- **A round of the arbiter thread with quiet producers** lowers what is left to
do, or the run is over. -/
theorem quiet_leadsTo (htotal : total + 1 < tickMax) (v : Nat) :
    Fair.LeadsTo step (Calm total v) fun m => m.Over ∨ m.Fit total ∧ m.rank < v := by
  -- to the start of the loop, where nothing has been looked at
  have htop : Fair.LeadsTo step (Calm total v)
      fun m => (m.Over ∨ m.Fit total ∧ m.rank < v) ∨ Calm total v m ∧ m.Swept := by
    refine Fair.LeadsTo.countdown (fun m => m.phase.toTop) fun k => ?_
    have hmove := calm_leadsTo (v := v) (p := fun m => m.phase.toTop = k)
      (q := fun m => m.Swept ∨ m.phase.toTop < k) htotal fun m _ hk hadv =>
        hadv.lap.imp_right fun hlt => hk ▸ hlt
    refine hmove.mono (fun _ hm => hm) fun m hm => ?_
    rcases hm with hgoal | ⟨hcalm, hswept | hlt⟩
    · exact Or.inl (Or.inl hgoal)
    · exact Or.inl (Or.inr ⟨hcalm, hswept⟩)
    · exact Or.inr ⟨hcalm, hlt⟩
  -- and through it
  have hend : Fair.LeadsTo step (fun m => Calm total v m ∧ m.Swept)
      fun m => m.Over ∨ m.Fit total ∧ m.rank < v := by
    refine Fair.LeadsTo.countdown (fun m => m.phase.toEnd) fun k => ?_
    have hmove := calm_leadsTo (v := v) (p := fun m => m.Swept ∧ m.phase.toEnd = k)
      (q := fun m => m.Swept ∧ m.phase.toEnd < k) htotal fun m _ hk hadv => by
        obtain ⟨hswept, hlt⟩ := hadv.swept hk.1
        exact ⟨hswept, hk.2 ▸ hlt⟩
    refine hmove.mono (fun m ⟨⟨hcalm, hswept⟩, hk⟩ => ⟨hcalm, hswept, hk⟩) fun m hm => ?_
    exact hm.imp_right fun ⟨hcalm, hswept, hlt⟩ => ⟨⟨hcalm, hswept⟩, hlt⟩
  exact htop.trans_or hend

/-- **A fair run gets to its end or hangs.** -/
theorem fit_leadsTo (htotal : total + 1 < tickMax) :
    Fair.LeadsTo step (fun m => m.Fit total) Over := by
  refine Fair.LeadsTo.countdown rank fun v => ?_
  have hrest : ∀ c, Fair.LeadsTo step (fun m => (m.Fit total ∧ m.rank = v) ∧ ¬ m.Quiet c)
      fun m => m.Over ∨ m.Fit total ∧ m.rank < v := fun c =>
    (restless_leadsTo htotal c v).mono (fun _ hm => hm) fun _ hm => Or.inr hm
  refine Fair.LeadsTo.by_cases (a := fun m => m.Quiet 0) ?_ (hrest 0)
  refine Fair.LeadsTo.by_cases (a := fun m => m.Quiet 1) ?_
    ((hrest 1).mono (fun m ⟨⟨hm, _⟩, hnot⟩ => ⟨hm, hnot⟩) fun _ hm => hm)
  exact (quiet_leadsTo htotal v).mono
    (fun m ⟨⟨hm, h0⟩, h1⟩ => ⟨hm, Fin.forall_fin_two.mpr ⟨h0, h1⟩⟩) fun _ hm => hm

/-- An ended run has nothing pending. -/
theorem Fit.not_hung (h : m.Fit total) (hfinished : m.Finished) : ¬ m.Hung := by
  rintro ⟨-, c, w, hw, -⟩
  rw [(h.alert.exited hfinished.1 c).1] at hw
  exact absurd hw (by simp)

end ScriptedThreads

/-- **A fair run of the multi-threaded driver ends**, unless a request is pending
that the last watermark of the finished peer does not let through. -/
theorem multithread_finishes_iff (script : Fin 2 → List ScriptOp) (memory : CommittedMemory)
    (devices : DeviceHub) (policy : ArbitrationPolicy) (haltOnFault : Bool)
    (hvalid : ∀ c, ∀ ins ∈ script c, ins.valid = true)
    (hbudget : ScriptedPair.tickBudget script + 1 < tickMax)
    (sched : Nat → Thread) (hfair : Fair.Schedule sched) :
    (∃ n, ((ScriptedThreads.start script
        { memory, devices, policy, trace := { haltOnFault } }).run
          ((List.range n).map sched)).Finished) ↔
      ¬ ∃ n, ((ScriptedThreads.start script
        { memory, devices, policy, trace := { haltOnFault } }).run
          ((List.range n).map sched)).Hung := by
  generalize hm : ScriptedThreads.start script
    { memory, devices, policy, trace := { haltOnFault } } = m
  have hfit : m.Fit (ScriptedPair.tickBudget script) :=
    hm ▸ ScriptedThreads.fit_start script memory devices policy haltOnFault hvalid hbudget
  have hrun : ∀ n, m.run ((List.range n).map sched) = Fair.after ScriptedThreads.step sched m n :=
    fun n => (Fair.after_eq_foldl m n).symm
  have hfits : ∀ n, (Fair.after ScriptedThreads.step sched m n).Fit _ :=
    fun n => Fair.after_of_step (fun _ t h => h.step hbudget t) sched hfit n
  simp only [hrun]
  constructor
  · rintro ⟨n, hn⟩ ⟨k, hk⟩
    -- both are for ever, and an ended run does not hang
    have hended := Fair.after_of_step
      (p := fun s : ScriptedThreads => s.Fit (ScriptedPair.tickBudget script) ∧ s.Finished)
      (fun s t hs => ⟨hs.1.step hbudget t, (hs.2.step t).symm ▸ hs.2⟩)
      (fun i => sched (n + i)) ⟨hfits n, hn⟩ k
    have hhung := Fair.after_of_step
      (p := fun s : ScriptedThreads => s.Fit (ScriptedPair.tickBudget script) ∧ s.Hung)
      (fun s t hs => ⟨hs.1.step hbudget t, hs.2.step hs.1 hbudget t⟩)
      (fun i => sched (k + i)) ⟨hfits k, hk⟩ n
    rw [← Fair.after_add] at hended hhung
    rw [Nat.add_comm] at hhung
    exact hended.1.not_hung hended.2 hhung.2
  · intro hnever
    obtain ⟨n, hover⟩ := ScriptedThreads.fit_leadsTo hbudget sched hfair m hfit
    rcases hover with hfinished | hhung
    · exact ⟨n, hfinished⟩
    · exact absurd ⟨n, hhung⟩ hnever

/-- The threads take turns. -/
def turns (n : Nat) : Thread :=
  if n % 3 = 0 then .producer 0 else if n % 3 = 1 then .producer 1 else .arbiter

theorem fair_turns : Fair.Schedule turns := by
  intro thread n
  match thread with
  | .producer 0 => exact ⟨3 * n, by omega, if_pos (by omega)⟩
  | .producer 1 =>
    exact ⟨3 * n + 1, by omega, (if_neg (by omega)).trans (if_pos (by omega))⟩
  | .arbiter =>
    exact ⟨3 * n + 2, by omega, (if_neg (by omega)).trans (if_neg (by omega))⟩

theorem multithread_finishes_iff_turns :
    (∃ n, ((ScriptedThreads.start writeBesideCompute
        { memory := .make 16, trace := { haltOnFault := false } }).run
          ((List.range n).map turns)).Finished) ↔
      ¬ ∃ n, ((ScriptedThreads.start writeBesideCompute
        { memory := .make 16, trace := { haltOnFault := false } }).run
          ((List.range n).map turns)).Hung :=
  multithread_finishes_iff writeBesideCompute (.make 16) {} defaultPolicy false (by decide)
    (by decide) turns fair_turns

end Saturnis.Core
