/-
A batch of one producer.

`commit_batch` on the operations of a single producer takes them in their
order, but asks in every round whether another operation would start with the
selected one.  The producer's own next operation counts: where the bus is busy
until both could start, the selected one pays the tie turnaround and the round
robin takes it for the winner of a tie.  `commit` never does that.

* `Spaced` — no operation is requested until the one before it has started;
* `Lone.round` — a round of such a batch;
* `batchMatches_iff` — when a batch does what the single commits do;
* `not_batchMatches_two_reads` — two reads that are requested at once.
-/
import Saturnis.ArbiterOrder
import Saturnis.ArbiterRecords

namespace Saturnis.Bus

open Saturnis.Core Saturnis.Mem Saturnis.Dev

namespace BusArbiter

variable {arb a b : BusArbiter} {op x : BusOp} {ops : List BusOp} {tie : Bool}

/-- `commit` on each operation in turn. -/
def commitEach (arb : BusArbiter) : List BusOp → BusArbiter × List BusResponse
  | [] => (arb, [])
  | op :: ops =>
    (((arb.commit op).1.commitEach ops).1,
      (arb.commit op).2 :: ((arb.commit op).1.commitEach ops).2)

/-- A batch answers as the single commits do and leaves the same. -/
structure BatchMatches (arb : BusArbiter) (ops : List BusOp) : Prop where
  responses : (arb.commitBatch ops).2.map (fun r => (r.op, r.response)) =
    ops.zip (arb.commitEach ops).2
  busFreeTime : (arb.commitBatch ops).1.busFreeTime = (arb.commitEach ops).1.busFreeTime
  hasLastAddr : (arb.commitBatch ops).1.hasLastAddr = (arb.commitEach ops).1.hasLastAddr
  lastAddr : (arb.commitBatch ops).1.lastAddr = (arb.commitEach ops).1.lastAddr
  lastGrantCpu : (arb.commitBatch ops).1.lastGrantCpu = (arb.commitEach ops).1.lastGrantCpu
  memory : (arb.commitBatch ops).1.memory = (arb.commitEach ops).1.memory

/-- Valid operations of one producer in program order, none requested before
what the arbiter has recorded of it, granted or enqueued; no horizon. -/
structure OneProducer (arb : BusArbiter) (ops : List BusOp) : Prop where
  untracked : arb.progressTrackingEnabled = false
  producer : ∀ x ∈ ops, ∀ y ∈ ops, x.cpuId = y.cpuId ∧ x.producer = y.producer
  honours : Honours arb ops
  enqueued : ∀ op ∈ ops, arb.turnsAway op = false

/-! ### The condition -/

/-- The address that the next operation is compared with, if there is one. -/
def previousAddr (arb : BusArbiter) : Option Addr :=
  if arb.hasLastAddr then some arb.lastAddr else none

/-- What an operation costs after `last`, without a tie. -/
def ticks (arb : BusArbiter) (last : Option Addr) (op : BusOp) : Nat :=
  arb.baseLatency op +
    if op.kind ≠ .barrier ∧ last = some op.physAddr then arb.latency.sameAddressContention else 0

/-- With the bus free at `free` and each operation served as it comes, none is
requested until those of its priority before it have started. -/
def Spaced (arb : BusArbiter) : Nat → Option Addr → List BusOp → Prop
  | _, _, [] => True
  | free, last, op :: ops =>
    (∀ x ∈ ops, arb.policy x = arb.policy op → max op.reqTime free < x.reqTime) ∧
      Spaced arb (tickAdd (max op.reqTime free) (arb.ticks last op))
        (if op.kind = .barrier then last else some op.physAddr) ops

instance Spaced.decidable (arb : BusArbiter) :
    ∀ free last ops, Decidable (Spaced arb free last ops)
  | _, _, [] => isTrue trivial
  | free, last, op :: ops =>
    @instDecidableAnd _ _ inferInstance
      (Spaced.decidable arb (tickAdd (max op.reqTime free) (arb.ticks last op))
        (if op.kind = .barrier then last else some op.physAddr) ops)

theorem spaced_congr (hpolicy : a.policy = b.policy) (hlatency : a.latency = b.latency)
    (free : Nat) (last : Option Addr) (ops : List BusOp) :
    Spaced a free last ops ↔ Spaced b free last ops := by
  induction ops generalizing free last with
  | nil => exact Iff.rfl
  | cons op ops ih =>
    have hticks : a.ticks last op = b.ticks last op := by
      rw [ticks, ticks, baseLatency, baseLatency, hlatency]
    rw [Spaced, Spaced, hpolicy, hticks, ih]

theorem totalLatency_ticks (arb : BusArbiter) (op : BusOp) :
    arb.totalLatency op false = arb.ticks arb.previousAddr op := by
  have hsame : (op.kind ≠ .barrier ∧ arb.hasLastAddr = true ∧ op.physAddr = arb.lastAddr) ↔
      op.kind ≠ .barrier ∧ arb.previousAddr = some op.physAddr := by
    refine and_congr_right fun _ => ?_
    rw [previousAddr]
    split
    case isTrue h => rw [Option.some.injEq, and_iff_right h, eq_comm]
    case isFalse h => simp [h]
  rw [totalLatency, contentionExtra, ticks]
  simp only [hsame, Bool.false_eq_true, if_false, Nat.add_zero]

/-- What a grant leaves for the next operation. -/
theorem spaced_grant (arb : BusArbiter) (op : BusOp) (ops : List BusOp) :
    Spaced (arb.grant op false).1 (arb.grant op false).1.busFreeTime
        (arb.grant op false).1.previousAddr ops ↔
      Spaced arb (tickAdd (max op.reqTime arb.busFreeTime) (arb.ticks arb.previousAddr op))
        (if op.kind = .barrier then arb.previousAddr else some op.physAddr) ops := by
  have hfree : (arb.grant op false).1.busFreeTime =
      tickAdd (max op.reqTime arb.busFreeTime) (arb.ticks arb.previousAddr op) := by
    rw [← totalLatency_ticks]
    rfl
  have hlast : (arb.grant op false).1.previousAddr =
      if op.kind = .barrier then arb.previousAddr else some op.physAddr := by
    show (if (if op.kind = .barrier then arb.hasLastAddr else true) = true then
      some (if op.kind = .barrier then arb.lastAddr else op.physAddr) else none) = _
    by_cases hbarrier : op.kind = .barrier
    · rw [if_pos hbarrier, if_pos hbarrier, if_pos hbarrier, previousAddr]
    · rw [if_neg hbarrier, if_neg hbarrier, if_neg hbarrier, if_pos rfl]
  rw [hfree, hlast]
  exact @spaced_congr (arb.grant op false).1 arb rfl rfl _ _ _

/-! ### A round -/

/-- What the rounds of such a batch rely on. -/
structure Lone (arb : BusArbiter) (ops : List BusOp) : Prop where
  running : arb.trace.shouldHalt = false
  untracked : arb.progressTrackingEnabled = false
  slot : ∀ x ∈ ops, ∀ y ∈ ops, producerSlot x = producerSlot y
  honours : Honours arb ops

/-- A later operation would start, at the same priority, with `op`. -/
def crowded (arb : BusArbiter) (op : BusOp) (ops : List BusOp) : Bool :=
  ops.any fun x => arb.policy x = arb.policy op && decide (x.reqTime ≤ arb.startTime op)

theorem crowded_eq_false : arb.crowded op ops = false ↔
    ∀ x ∈ ops, arb.policy x = arb.policy op → max op.reqTime arb.busFreeTime < x.reqTime := by
  rw [crowded, List.any_eq_false]
  simp only [Bool.and_eq_true, decide_eq_true_eq, not_and, Nat.not_le]
  exact Iff.rfl

namespace Lone

theorem later (h : Lone arb (op :: ops)) (hx : x ∈ ops) :
    producerSlot op = producerSlot x ∧ op.reqTime ≤ x.reqTime ∧ op.sequence < x.sequence := by
  have hslot := h.slot op List.mem_cons_self x (List.mem_cons_of_mem op hx)
  exact ⟨hslot, (List.pairwise_cons.mp h.honours.reqTime).1 x hx hslot,
    (List.pairwise_cons.mp h.honours.sequence).1 x hx hslot⟩

/-- The first operation is selected, with the tie flag of those after it. -/
theorem round (h : Lone arb (op :: ops)) :
    arb.opRound (op :: ops) = some (op, arb.crowded op ops) := by
  have hcand : arb.candidates (op :: ops) = op :: ops := candidates_of_untracked h.untracked _
  have hbest : Scan.best arb.replaces op ops = op :=
    Scan.best_eq_front fun x hx =>
      not_replaces_younger (h.later hx).1 (h.later hx).2.1 (h.later hx).2.2
  refine opRound_eq_some.mpr ⟨h.running, by rw [choice_of_cons hcand, hbest], ?_⟩
  rw [tied, hcand, List.any_cons, crowded, Bool.eq_iff_iff]
  have hself : (decide (op ≠ op) && (decide (arb.startTime op = arb.startTime op) &&
      decide (arb.policy op = arb.policy op))) = false := by simp
  rw [hself, Bool.false_or, List.any_eq_true, List.any_eq_true]
  refine exists_congr fun x => and_congr_right fun hx => ?_
  obtain ⟨-, hreq, hseq⟩ := h.later hx
  have hne : x ≠ op := fun heq => Nat.lt_irrefl _ (heq ▸ hseq)
  have hstart : arb.startTime x = arb.startTime op ↔ x.reqTime ≤ arb.startTime op := by
    rw [startTime, startTime]
    omega
  simp only [Bool.and_eq_true, decide_eq_true_eq, hne, hstart, ne_eq, not_false_iff, true_and]
  exact and_comm

theorem accepts (h : Lone arb (op :: ops)) : arb.accepts op = true :=
  h.honours.accepts List.mem_cons_self

/-- A grant leaves the rest of the batch. -/
theorem grant (h : Lone arb (op :: ops)) (tie : Bool) : Lone (arb.grant op tie).1 ops := by
  have hold : Honours.Oldest (op :: ops) op := by
    intro x hx _
    rcases List.mem_cons.mp hx with rfl | hx
    · exact Nat.le_refl _
    · exact Nat.le_of_lt (h.later hx).2.2
  have hafter := h.honours.after List.mem_cons_self hold tie
  rw [List.erase_cons_head, executeCommit_of_accepts h.accepts] at hafter
  exact ⟨h.running, h.untracked, fun x hx y hy => h.slot x (List.mem_cons_of_mem op hx) y
    (List.mem_cons_of_mem op hy), hafter⟩

theorem rounds_cons (h : Lone arb (op :: ops)) :
    rounds (op :: ops).length arb (op :: ops) =
      ((rounds ops.length (arb.grant op (arb.crowded op ops)).1 ops).1,
        (op, (arb.grant op (arb.crowded op ops)).2) ::
          (rounds ops.length (arb.grant op (arb.crowded op ops)).1 ops).2) := by
  rw [List.length_cons, rounds_of_some h.round, executeCommit_of_accepts h.accepts,
    List.erase_cons_head]

end Lone

/-! ### One commit after the other -/

/-- Each operation is granted in turn, without a tie. -/
def grantEach (arb : BusArbiter) : List BusOp → BusArbiter × List BusResponse
  | [] => (arb, [])
  | op :: ops =>
    (((arb.grant op false).1.grantEach ops).1,
      (arb.grant op false).2 :: ((arb.grant op false).1.grantEach ops).2)

theorem grant_lastGrantCpu (arb : BusArbiter) (op : BusOp) (tie : Bool) :
    (arb.grant op tie).1.lastGrantCpu =
      if tie = true ∧ isCpu op.cpuId = true then op.cpuId else arb.lastGrantCpu := rfl

/-- No operation changes the round robin without a tie. -/
theorem grantEach_lastGrantCpu (arb : BusArbiter) (ops : List BusOp) :
    (arb.grantEach ops).1.lastGrantCpu = arb.lastGrantCpu := by
  induction ops generalizing arb with
  | nil => rfl
  | cons op ops ih =>
    rw [grantEach, ih, grant_lastGrantCpu, if_neg fun h => Bool.false_ne_true h.1]

/-- Single commits of operations that pass the enqueue contract are grants. -/
theorem commitEach_eq (h : Lone b ops) (heq : a.resetEnqueued = b.resetEnqueued)
    (henqueued : ∀ op ∈ ops, a.turnsAway op = false) :
    (a.commitEach ops).1.resetEnqueued = (b.grantEach ops).1.resetEnqueued ∧
      (a.commitEach ops).2 = (b.grantEach ops).2 := by
  induction ops generalizing a b with
  | nil => exact ⟨heq, rfl⟩
  | cons op ops ih =>
    have hrunning : a.trace.shouldHalt = false := by
      have htrace : a.trace = b.trace := (congrArg BusArbiter.trace heq :)
      rw [htrace]
      exact h.running
    have hnote : (a.noteEnqueued op).resetEnqueued = b.resetEnqueued := heq
    obtain ⟨hresponse, hafter⟩ := executeCommit_congr_resetEnqueued hnote op false
    rw [executeCommit_of_accepts h.accepts] at hresponse hafter
    have hcommit : a.commit op = (a.noteEnqueued op).executeCommit op false := by
      rw [commit, if_neg (by simp [hrunning]),
        validateEnqueueContract_of_pass (henqueued op List.mem_cons_self)]
    have hgranted : (a.noteEnqueued op).executeCommit op false = (a.noteEnqueued op).grant op false :=
      executeCommit_of_accepts ((accepts_congr (resetEnqueued_core hnote)).trans h.accepts)
    have hnext : ∀ x ∈ ops, (a.commit op).1.turnsAway x = false := by
      intro x hx
      rw [hcommit, hgranted, turnsAway_eq_false]
      intro _
      show Function.update a.producerLastEnqueuedReqTime (producerSlot op) op.reqTime
        (producerSlot x) ≤ x.reqTime
      rw [← (h.later hx).1, Function.update_self]
      exact (h.later hx).2.1
    obtain ⟨hrest, hresponses⟩ := ih (h.grant false) (by rw [hcommit]; exact hafter) hnext
    rw [commitEach, grantEach, hresponses, hcommit, hresponse]
    rw [hcommit] at hrest
    exact ⟨hrest, rfl⟩

/-! ### Batches without ties -/

theorem Lone.rounds_of_spaced (h : Lone arb ops)
    (hspaced : Spaced arb arb.busFreeTime arb.previousAddr ops) :
    rounds ops.length arb ops = ((arb.grantEach ops).1, ops.zip (arb.grantEach ops).2) := by
  induction ops generalizing arb with
  | nil => rfl
  | cons op ops ih =>
    have htie : arb.crowded op ops = false := crowded_eq_false.mpr hspaced.1
    rw [h.rounds_cons, htie, ih (h.grant false) ((spaced_grant arb op ops).mpr hspaced.2),
      grantEach, List.zip_cons_cons]

/-! ### Ties that cost nothing -/

/-- The arbiter up to its round robin. -/
def unturned (arb : BusArbiter) : BusArbiter := { arb with lastGrantCpu := 0 }

/-- A turnaround of no ticks changes a grant in the round robin only. -/
theorem grant_unturned (heq : a.unturned = b.unturned)
    (hturn : a.latency.tieTurnaround % tickModulus = 0) (op : BusOp) (tie : Bool) :
    (a.grant op tie).1.unturned = (b.grant op false).1.unturned ∧
      (a.grant op tie).2 = (b.grant op false).2 := by
  -- a turnaround of zero ticks makes the tie invisible in the latency
  have hfinish : tickAdd (a.startTime op) (a.totalLatency op tie) =
      tickAdd (b.startTime op) (b.totalLatency op false) := by
    have hstart : a.startTime op = b.startTime op := (congrArg (·.startTime op) heq :)
    have hplain : a.totalLatency op false = b.totalLatency op false :=
      (congrArg (·.totalLatency op false) heq :)
    cases tie with
    | false => rw [hstart, hplain]
    | true =>
      rw [← hstart, ← hplain, totalLatency_tie, tickAdd, tickAdd, ← Nat.add_assoc, Nat.add_mod, hturn,
        Nat.add_zero, Nat.mod_mod]
  have hperform : ∀ finish, a.perform op finish = b.perform op finish := fun finish =>
    (congrArg (·.perform op finish) heq :)
  have htrace : a.trace = b.trace := (congrArg (·.trace) heq :)
  have hstart : a.startTime op = b.startTime op := (congrArg (·.startTime op) heq :)
  constructor
  · -- what a grant leaves, apart from whose turn it was, is written from these parts alone
    have hfields : ∀ c : BusArbiter, ∀ tie, (c.grant op tie).1.unturned =
        { c.unturned with
          memory := (c.perform op (tickAdd (c.startTime op) (c.totalLatency op tie))).memory
          devices := (c.perform op (tickAdd (c.startTime op) (c.totalLatency op tie))).devices
          trace := c.trace.addCommit ⟨c.startTime op,
            tickAdd (c.startTime op) (c.totalLatency op tie), op,
            tickSub (tickAdd (c.startTime op) (c.totalLatency op tie)) op.reqTime,
            (c.perform op (tickAdd (c.startTime op) (c.totalLatency op tie))).value, false⟩
          producerSeen := Function.update c.unturned.producerSeen (producerSlot op) true
          producerLastReqTime :=
            Function.update c.unturned.producerLastReqTime (producerSlot op) op.reqTime
          lastAddr := if op.kind = .barrier then c.unturned.lastAddr else op.physAddr
          hasLastAddr := if op.kind = .barrier then c.unturned.hasLastAddr else true
          busFreeTime := tickAdd (c.startTime op) (c.totalLatency op tie) } := fun _ _ => rfl
    rw [hfields, hfields, hfinish, hperform, htrace, hstart, heq]
  · have hfields : ∀ c : BusArbiter, ∀ tie, (c.grant op tie).2 =
        let finish := tickAdd (c.startTime op) (c.totalLatency op tie)
        ⟨(c.perform op finish).value, tickSub finish op.reqTime, c.startTime op, finish,
          (c.perform op finish).lineBase, (c.perform op finish).lineData⟩ := fun _ _ => rfl
    rw [hfields, hfields, hfinish, hstart]
    simp only [hperform]

theorem Lone.rounds_of_turnaround (h : Lone a ops) (heq : a.unturned = b.unturned)
    (hturn : a.latency.tieTurnaround % tickModulus = 0) :
    (rounds ops.length a ops).1.unturned = (b.grantEach ops).1.unturned ∧
      (rounds ops.length a ops).2 = ops.zip (b.grantEach ops).2 := by
  induction ops generalizing a b with
  | nil => exact ⟨heq, rfl⟩
  | cons op ops ih =>
    obtain ⟨hafter, hresponse⟩ := grant_unturned heq hturn op (a.crowded op ops)
    obtain ⟨hrest, hresponses⟩ := ih (h.grant _) hafter hturn
    rw [h.rounds_cons, grantEach, List.zip_cons_cons, hresponses, hresponse]
    exact ⟨hrest, rfl⟩

/-- The round robin stays where it names the CPU of the batch, or where the
batch is of no CPU. -/
theorem Lone.rounds_lastGrantCpu_self (h : Lone arb ops)
    (hlast : ∀ op ∈ ops, isCpu op.cpuId = true → op.cpuId = arb.lastGrantCpu) :
    (rounds ops.length arb ops).1.lastGrantCpu = arb.lastGrantCpu := by
  induction ops generalizing arb with
  | nil => rfl
  | cons op ops ih =>
    have hgrant : (arb.grant op (arb.crowded op ops)).1.lastGrantCpu = arb.lastGrantCpu := by
      rw [grant_lastGrantCpu]
      split
      case isTrue hcpu => exact hlast op List.mem_cons_self hcpu.2
      case isFalse => rfl
    rw [h.rounds_cons]
    refine (ih (h.grant _) fun x hx => ?_).trans hgrant
    rw [hgrant]
    exact hlast x (List.mem_cons_of_mem op hx)

/-- A tie of the batch with itself leaves the round robin at its CPU. -/
theorem Lone.rounds_lastGrantCpu (h : Lone arb ops)
    (hspaced : ¬ Spaced arb arb.busFreeTime arb.previousAddr ops) {i : Int}
    (hcpu : ∀ op ∈ ops, op.cpuId = i) (hi : isCpu i = true) :
    (rounds ops.length arb ops).1.lastGrantCpu = i := by
  induction ops generalizing arb with
  | nil => exact absurd trivial hspaced
  | cons op ops ih =>
    have hop := hcpu op List.mem_cons_self
    have hrest : ∀ x ∈ ops, x.cpuId = i := fun x hx => hcpu x (List.mem_cons_of_mem op hx)
    rw [h.rounds_cons]
    cases htie : arb.crowded op ops with
    | true =>
      have hgrant : (arb.grant op true).1.lastGrantCpu = i := by
        rw [grant_lastGrantCpu, if_pos ⟨rfl, by rw [hop]; exact hi⟩, hop]
      refine ((h.grant true).rounds_lastGrantCpu_self fun x hx _ => ?_).trans hgrant
      rw [hgrant]
      exact hrest x hx
    | false =>
      refine ih (h.grant false) (fun hs => hspaced ?_) hrest
      exact ⟨crowded_eq_false.mp htie, (spaced_grant arb op ops).mp hs⟩

/-- A tie of the batch with itself shows in an answer unless it costs nothing. -/
theorem Lone.turnaround_of_responses (h : Lone arb ops)
    (hspaced : ¬ Spaced arb arb.busFreeTime arb.previousAddr ops)
    (hresponses : (rounds ops.length arb ops).2 = ops.zip (arb.grantEach ops).2) :
    arb.latency.tieTurnaround % tickModulus = 0 := by
  induction ops generalizing arb with
  | nil => exact absurd trivial hspaced
  | cons op ops ih =>
    rw [h.rounds_cons, grantEach, List.zip_cons_cons, List.cons.injEq, Prod.mk.injEq] at hresponses
    obtain ⟨⟨-, hresponse⟩, hrest⟩ := hresponses
    cases htie : arb.crowded op ops with
    | true =>
      by_contra hturn
      rw [htie] at hresponse
      exact absurd (grant_tie_inj hturn hresponse).symm Bool.false_ne_true
    | false =>
      rw [htie] at hrest
      have hlater : ¬ Spaced (arb.grant op false).1 (arb.grant op false).1.busFreeTime
          (arb.grant op false).1.previousAddr ops := fun hs =>
        hspaced ⟨crowded_eq_false.mp htie, (spaced_grant arb op ops).mp hs⟩
      exact @ih (arb.grant op false).1 (h.grant false) hlater hrest

/-! ### Batches and single commits -/

theorem OneProducer.lone (h : OneProducer arb ops) (hrunning : arb.trace.shouldHalt = false) :
    Lone arb ops :=
  ⟨hrunning, h.untracked, fun x hx y hy => by
    obtain ⟨hcpu, hproducer⟩ := h.producer x hx y hy
    rw [producerSlot, producerSlot, BusOp.isDma, BusOp.isDma, hcpu, hproducer], h.honours⟩

/-- On a running arbiter a batch is its rounds and the single commits are grants. -/
theorem OneProducer.batchMatches_iff_rounds (h : OneProducer arb ops)
    (hrunning : arb.trace.shouldHalt = false) :
    BatchMatches arb ops ↔
      (rounds ops.length arb ops).2 = ops.zip (arb.grantEach ops).2 ∧
        (rounds ops.length arb ops).1.busFreeTime = (arb.grantEach ops).1.busFreeTime ∧
        (rounds ops.length arb ops).1.hasLastAddr = (arb.grantEach ops).1.hasLastAddr ∧
        (rounds ops.length arb ops).1.lastAddr = (arb.grantEach ops).1.lastAddr ∧
        (rounds ops.length arb ops).1.lastGrantCpu = (arb.grantEach ops).1.lastGrantCpu ∧
        (rounds ops.length arb ops).1.memory = (arb.grantEach ops).1.memory := by
  obtain ⟨hbatch, hresults⟩ := commitBatch_eq_rounds h.honours
  obtain ⟨heach, hanswers⟩ := commitEach_eq (h.lone hrunning) rfl h.enqueued
  have hfree := congrArg BusArbiter.busFreeTime hbatch
  have hhas := congrArg BusArbiter.hasLastAddr hbatch
  have hlast := congrArg BusArbiter.lastAddr hbatch
  have hturn := congrArg BusArbiter.lastGrantCpu hbatch
  have hmemory := congrArg BusArbiter.memory hbatch
  have hfree' := congrArg BusArbiter.busFreeTime heach
  have hhas' := congrArg BusArbiter.hasLastAddr heach
  have hlast' := congrArg BusArbiter.lastAddr heach
  have hturn' := congrArg BusArbiter.lastGrantCpu heach
  have hmemory' := congrArg BusArbiter.memory heach
  simp only [resetEnqueued] at hfree hhas hlast hturn hmemory hfree' hhas' hlast' hturn' hmemory'
  rw [← hresults, ← hanswers, ← hfree, ← hhas, ← hlast, ← hturn, ← hmemory, ← hfree', ← hhas',
    ← hlast', ← hturn', ← hmemory']
  exact ⟨fun m => ⟨m.responses, m.busFreeTime, m.hasLastAddr, m.lastAddr, m.lastGrantCpu, m.memory⟩,
    fun m => ⟨m.1, m.2.1, m.2.2.1, m.2.2.2.1, m.2.2.2.2.1, m.2.2.2.2.2⟩⟩

/-- A halted arbiter answers single commits but returns nothing from a batch. -/
theorem not_batchMatches_of_halt (h : Honours arb (op :: ops))
    (hhalt : arb.trace.shouldHalt = true) : ¬ BatchMatches arb (op :: ops) := by
  intro hmatch
  have hresults := (commitBatch_eq_rounds h).2
  rw [rounds_of_none (opRound_eq_none.mpr (Or.inl hhalt)), hmatch.responses, commitEach,
    List.zip_cons_cons] at hresults
  exact absurd hresults (List.cons_ne_nil _ _)

/-- **When a batch of one producer is its single commits.**  Exactly when the
arbiter is not halted and no operation is requested until those before it have
started, or when a tie of the batch with itself shows nowhere. -/
theorem batchMatches_iff (arb : BusArbiter) (ops : List BusOp) (h : OneProducer arb ops) :
    BatchMatches arb ops ↔ ops = [] ∨ (arb.trace.shouldHalt = false ∧
      (Spaced arb arb.busFreeTime arb.previousAddr ops ∨
        (arb.latency.tieTurnaround % tickModulus = 0 ∧
          ∀ op ∈ ops, isCpu op.cpuId = true → op.cpuId = arb.lastGrantCpu))) := by
  cases hops : ops with
  | nil => exact iff_of_true ⟨rfl, rfl, rfl, rfl, rfl, rfl⟩ (Or.inl rfl)
  | cons op rest =>
    rw [← hops]
    have hne : ops ≠ [] := by rw [hops]; exact List.cons_ne_nil _ _
    rw [or_iff_right hne]
    cases hhalt : arb.trace.shouldHalt with
    | true =>
      have hnot : ¬ BatchMatches arb ops := by
        rw [hops] at h ⊢
        exact not_batchMatches_of_halt h.honours hhalt
      exact iff_of_false hnot fun hcond => Bool.true_eq_false.mp hcond.1
    | false =>
      rw [and_iff_right rfl, h.batchMatches_iff_rounds hhalt]
      have hlone := h.lone hhalt
      constructor
      · rintro ⟨hresponses, -, -, -, hturn, -⟩
        by_cases hspaced : Spaced arb arb.busFreeTime arb.previousAddr ops
        · exact Or.inl hspaced
        · -- the round robin of the batch ends at its CPU
          refine Or.inr ⟨hlone.turnaround_of_responses hspaced hresponses, fun x hx hcpu => ?_⟩
          rw [hlone.rounds_lastGrantCpu hspaced (fun y hy => (h.producer y hy x hx).1) hcpu,
            grantEach_lastGrantCpu] at hturn
          exact hturn
      · rintro (hspaced | ⟨hturn, hcpu⟩)
        · rw [hlone.rounds_of_spaced hspaced]
          exact ⟨rfl, rfl, rfl, rfl, rfl, rfl⟩
        · obtain ⟨hunturned, hresponses⟩ := hlone.rounds_of_turnaround rfl hturn
          refine ⟨hresponses, (congrArg (·.busFreeTime) hunturned :),
            (congrArg (·.hasLastAddr) hunturned :), (congrArg (·.lastAddr) hunturned :), ?_,
            (congrArg (·.memory) hunturned :)⟩
          rw [hlone.rounds_lastGrantCpu_self hcpu, grantEach_lastGrantCpu]

/-- Two reads of CPU 0, the second one requested once the first one has started. -/
theorem batchMatches_two_reads :
    BatchMatches { memory := .make 16 } [{}, { sequence := 1, reqTime := 2, physAddr := 8 }] :=
  (batchMatches_iff { memory := .make 16 } [{}, { sequence := 1, reqTime := 2, physAddr := 8 }]
    ⟨rfl, by decide, ⟨by decide, by decide, by decide, by decide⟩, by decide⟩).mpr
    (Or.inr ⟨rfl, Or.inl (by decide)⟩)

/-- Two reads of CPU 0 that are requested at once. -/
theorem not_batchMatches_two_reads :
    OneProducer { memory := .make 16 } [{}, { sequence := 1, physAddr := 8 }] ∧
      ¬ BatchMatches { memory := .make 16 } [{}, { sequence := 1, physAddr := 8 }] := by
  refine ⟨⟨rfl, by decide, ⟨by decide, by decide, by decide, by decide⟩, by decide⟩, fun h => ?_⟩
  exact absurd h.busFreeTime (by decide)

end BusArbiter

end Saturnis.Bus
