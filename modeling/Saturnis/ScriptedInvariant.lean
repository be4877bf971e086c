/-
What every round of the single-threaded driver keeps.

`Steady` says what the driver relies on; here the operations it has answered
are followed over a whole run: those of a CPU in program order, each once, with
request times that do not run back, and every answer brings the clock of its
CPU to the tick at which the operation finished.

* `Timed` — the request times and finish ticks of what was answered;
* `roundAnswers`, `afterAnswers` — the answers of a round, one after the other;
* `runScriptedPair_invariant` — the invariant of the loop.
-/
import Saturnis.ScriptedProgress

namespace Saturnis.Core

open Saturnis.Core Saturnis.Mem Saturnis.Dev Saturnis.Bus Saturnis.Cpu

namespace ScriptedPair

variable {s s' : ScriptedPair} {c d : Fin 2} {p : PendingBusOp}

/-! ### What was answered -/

/-- The answered operations of a CPU were requested in their order and not
after its clock; an answer carries the wait up to the finish tick. -/
structure Timed (s : ScriptedPair) : Prop where
  cpuId : ∀ x ∈ s.served, x.1.2.op.cpuId = x.1.1.val
  finish : ∀ x ∈ s.served, tickAdd x.1.2.op.reqTime x.2.stall = x.2.commitTime
  ordered : ∀ c, (s.servedTo c).Pairwise fun p q => p.op.reqTime ≤ q.op.reqTime
  past : ∀ c, ∀ p ∈ s.servedTo c, p.op.reqTime ≤ (s.cpu c).localTime

theorem timed_start (script : Fin 2 → List ScriptOp) (arb : BusArbiter) :
    (start script arb).Timed :=
  ⟨fun _ hx => absurd hx List.not_mem_nil, fun _ hx => absurd hx List.not_mem_nil,
    fun _ => List.Pairwise.nil, fun _ _ hp => absurd hp List.not_mem_nil⟩

theorem servedTo_serve (s : ScriptedPair) (c : Fin 2) (p : PendingBusOp) (tie : Bool) (d : Fin 2) :
    (s.serve c p tie).servedTo d = s.servedTo d ++ if d = c then [p] else [] := by
  rw [servedTo, servedTo, serve, answer_served, List.filter_append, List.map_append]
  by_cases hd : d = c
  · rw [if_pos hd, List.filter_cons_of_pos (by simpa using hd.symm)]
    rfl
  · rw [if_neg hd, List.filter_cons_of_neg (by simpa using Ne.symm hd)]
    rfl

theorem Timed.fetch (ht : s.Timed) (hd : s.Steady)
    (hfit : ∀ c, s.pending c = none → (s.cpu c).ProduceFits) : s.fetch.Timed :=
  ⟨ht.cpuId, ht.finish, ht.ordered, fun c p hp =>
    Nat.le_trans (ht.past c p hp) (fetch_localTime hfit (hd.clock c)).1⟩

theorem Timed.serve (ht : s.Timed) (hd : s.Steady) (h : s.pending c = some p) (tie : Bool)
    (hfit : (s.arb.grant p.op tie).2.startTime ≤ (s.arb.grant p.op tie).2.commitTime) :
    (s.serve c p tie).Timed := by
  have hout := hd.sound.outstanding c p h
  have hclock := hd.serve_le h tie hfit
  have hserved := (hd.serve_eq h tie).2.1
  have hpast : ∀ q ∈ s.servedTo c, q.op.reqTime ≤ p.op.reqTime := by
    intro q hq
    rw [hout.reqTime]
    exact ht.past c q hq
  -- the operation just served stands last, after all those of its core
  refine ⟨fun x hx => ?_, fun x hx => ?_, fun d => ?_, fun d q hq => ?_⟩
  · rw [hserved] at hx
    rcases List.mem_append.mp hx with hold | hnew
    · exact ht.cpuId x hold
    · rw [List.mem_singleton.mp hnew]
      exact hout.cpuId.trans (hd.sound.cpuId c)
  · rw [hserved] at hx
    rcases List.mem_append.mp hx with hold | hnew
    · exact ht.finish x hold
    · rw [List.mem_singleton.mp hnew]
      exact tickAdd_tickSub (by rw [hout.reqTime]; exact hd.clock c) (tickAdd_lt _ _)
  · rw [servedTo_serve]
    split
    case isTrue heq =>
      subst heq
      refine List.pairwise_append.mpr ⟨ht.ordered d, List.pairwise_singleton _ _, ?_⟩
      intro q hq r hr
      rw [List.mem_singleton.mp hr]
      exact hpast q hq
    case isFalse hne =>
      rw [List.append_nil]
      exact ht.ordered d
  · rw [servedTo_serve] at hq
    by_cases hdc : d = c
    · subst hdc
      rw [if_pos rfl] at hq
      rcases List.mem_append.mp hq with hold | hnew
      · -- an earlier operation of the same core: its clock only went up
        exact Nat.le_trans (ht.past d q hold) hclock
      · rw [List.mem_singleton.mp hnew, hout.reqTime]
        exact hclock
    · rw [if_neg hdc, List.append_nil] at hq
      rw [s.serve_cpu_of_ne hdc]
      exact ht.past d q hq

theorem Serves.timed (h : Serves s s') (hd : s.Steady) (ht : s.Timed)
    (hfit : ∀ x ∈ s'.served, x.2.startTime ≤ x.2.commitTime) : s'.Steady ∧ s'.Timed := by
  induction h with
  | refl => exact ⟨hd, ht⟩
  | @tail t u _ hstep ih =>
    obtain ⟨hdt, htt⟩ := ih fun x hx => hfit x (hstep.served.subset hx)
    refine ⟨hstep.steady hdt hfit, ?_⟩
    cases hstep with
    | serve c p tie hp =>
      refine htt.serve hdt hp tie (hfit ((c, p), (t.arb.grant p.op tie).2) ?_)
      rw [(hdt.serve_eq hp tie).2.1]
      exact List.mem_append_right _ List.mem_cons_self
    | note arb _ => exact ⟨htt.cpuId, htt.finish, htt.ordered, htt.past⟩

theorem Steady.ready (hd : s.Steady) (hfit : s.TicksFit) : s.fetch.publish.Steady :=
  (hd.fetch hfit.produce).publish

theorem Timed.ready (ht : s.Timed) (hd : s.Steady) (hfit : s.TicksFit) : s.fetch.publish.Timed :=
  let h := ht.fetch hd hfit.produce
  ⟨h.cpuId, h.finish, h.ordered, h.past⟩

theorem Timed.step (ht : s.Timed) (hd : s.Steady) (hfit : s.TicksFit)
    (hnext : (Loop.step iterate s).TicksFit) :
    (Loop.step iterate s).Steady ∧ (Loop.step iterate s).Timed := by
  have hready := hd.ready hfit
  rcases s.iterate_cases with ⟨-, heq⟩ | ⟨-, -, heq⟩
  · have hserved := hnext.served
    rw [Loop.step, heq] at hserved ⊢
    exact (commit_serves hready.sound).timed hready (ht.ready hd hfit) hserved
  · rw [Loop.step, heq]
    exact ⟨hready, ht.ready hd hfit⟩

/-! ### The answers of a round -/

/-- The answers of the round, in the order in which they are applied. -/
def roundAnswers (s : ScriptedPair) : List (Request × BusResponse) :=
  let s := s.fetch.publish
  answers (requestsOf s.pending) (s.arb.commitBatch ((requestsOf s.pending).map (·.2.op))).2

/-- The round once the first `n` answers are applied. -/
def afterAnswers (s : ScriptedPair) (n : Nat) : ScriptedPair :=
  let t := s.fetch.publish
  (s.roundAnswers.take n).foldl (fun t a => t.answer a.1 a.2)
    { t with arb := (t.arb.commitBatch ((requestsOf t.pending).map (·.2.op))).1 }

theorem Sound.roundAnswers_eq (hs : s.fetch.publish.Sound) :
    s.roundAnswers = s.fetch.publish.results.map fun r =>
      ((cpuOf r.1, (s.fetch.publish.pending (cpuOf r.1)).getD {}), r.2) := by
  simp only [roundAnswers]
  rw [requestsOf_ops, requestsOf_eq, pendingOps, hs.attributed.answers_eq]
  rfl

/-- Right after an answer its CPU is as `apply_response` leaves it. -/
theorem Sound.afterAnswers_cpu (hs : s.fetch.publish.Sound) {n : Nat} {x : Request × BusResponse}
    (hx : s.roundAnswers[n]? = some x) :
    ∃ r ∈ s.fetch.publish.results,
      x = ((cpuOf r.1, (s.fetch.publish.pending (cpuOf r.1)).getD {}), r.2) ∧
      (s.afterAnswers (n + 1)).cpu x.1.1 = s.fetch.publish.answeredCpu (cpuOf r.1) r.2 := by
  set t := s.fetch.publish with ht
  have hanswers : s.roundAnswers = t.results.map fun r =>
      ((cpuOf r.1, (t.pending (cpuOf r.1)).getD {}), r.2) := hs.roundAnswers_eq
  rw [hanswers, List.getElem?_map] at hx
  obtain ⟨r, hr, rfl⟩ := Option.map_eq_some_iff.mp hx
  have hmem : r ∈ t.results.take (n + 1) := by
    refine List.mem_of_getElem? (i := n) ?_
    rw [List.getElem?_take_of_lt (Nat.lt_succ_self n)]
    exact hr
  have hnodup : ((t.results.take (n + 1)).map fun r => cpuOf r.1).Nodup := by
    rw [List.map_take]
    exact hs.results_nodup.sublist (List.take_sublist _ _)
  have hfold := (foldl_answer (t.results.take (n + 1)) (fun c => (t.pending c).getD {})
    { t with arb := (t.arb.commitBatch ((requestsOf t.pending).map (·.2.op))).1 } hnodup
    fun r hr => hs.results_no_fault (List.mem_of_mem_take hr)).2.1 r hmem
  refine ⟨r, List.mem_of_getElem? hr, rfl, ?_⟩
  simp only [afterAnswers, hanswers, ← ht]
  rw [← List.map_take, List.foldl_map]
  exact hfold.1

/-- **An answer brings the clock of its CPU to the finish tick.** -/
theorem Steady.afterAnswers_localTime (hd : s.Steady) (ht : s.Timed) (hfit : s.TicksFit)
    (hnext : (Loop.step iterate s).TicksFit) {n : Nat} {x : Request × BusResponse}
    (hx : s.roundAnswers[n]? = some x) :
    ((s.afterAnswers (n + 1)).cpu x.1.1).localTime = x.2.commitTime := by
  have hready := hd.ready hfit
  obtain ⟨r, hr, rfl, hcpu⟩ := hready.sound.afterAnswers_cpu hx
  set c := cpuOf r.1
  obtain ⟨hp, hop, -⟩ := hready.sound.results_mem hr
  have hpending : ∃ c, (s.fetch.pending c).isSome = true := ⟨c, by
    rw [show s.fetch.pending c = _ from hp]
    rfl⟩
  -- the answer is one of those served after the round
  have hserved : ((c, (s.fetch.publish.pending c).getD {}), r.2) ∈
      (Loop.step iterate s).served := by
    rcases s.iterate_cases with ⟨-, heq⟩ | ⟨hnone, -⟩
    · rw [Loop.step, heq]
      show _ ∈ (s.fetch.publish.commit (requestsOf s.fetch.publish.pending)).served
      rw [hready.sound.commit_spec.2.1]
      exact List.mem_append_right _ (List.mem_map.mpr ⟨r, hr, rfl⟩)
    · obtain ⟨d, hd'⟩ := hpending
      rw [hnone d] at hd'
      exact absurd hd' Bool.false_ne_true
  have hfinish := (ht.step hd hfit hnext).2.finish _ hserved
  rw [hcpu, answeredCpu, ((s.fetch.publish.cpu c).applyResponse_answered _ _ _).localTime,
    ← (hready.sound.outstanding c _ hp).reqTime]
  exact hfinish

/-! ### The invariant of the loop -/

/-- What holds after every round: the trace has the answered operations and no
fault; those of a CPU, followed by the pending one, are what it has issued,
each of them once and in program order, by sequence number and by tick. -/
structure RunInvariant (s : ScriptedPair) : Prop where
  records : s.arb.trace.commits = s.served.map fun x => BusArbiter.record x.1.2.op x.2
  faults : s.arb.trace.faults = []
  cpuId : ∀ x ∈ s.served, x.1.2.op.cpuId = x.1.1.val
  issued : ∀ c, (s.cpu c).Issued (s.servedTo c ++ (s.pending c).toList)
  program : ∀ c, (s.servedTo c).Pairwise fun p q => p.scriptIndex < q.scriptIndex
  sequence : ∀ c, (s.servedTo c).Pairwise fun p q => p.op.sequence < q.op.sequence
  reqTime : ∀ c, (s.servedTo c).Pairwise fun p q => p.op.reqTime ≤ q.op.reqTime

theorem Steady.runInvariant (hd : s.Steady) (ht : s.Timed) : s.RunInvariant := by
  have hsublist : ∀ c, (s.servedTo c).Sublist (s.issued c) := fun c => List.sublist_append_left _ _
  refine ⟨hd.records, hd.faults, ht.cpuId, hd.issued, fun c => ?_, fun c => ?_, ht.ordered⟩
  · exact (hd.issued c).increasing.sublist (hsublist c)
  · have hnumbers : ((s.issued c).map (·.op.sequence)).Pairwise (· < ·) := by
      rw [(hd.issued c).sequence]
      exact List.pairwise_lt_range
    exact (List.pairwise_map.mp hnumbers).sublist (hsublist c)

theorem Steady.iterate (hd : s.Steady) (ht : s.Timed) (n : Nat)
    (hfits : ∀ k ≤ n, ((Loop.step ScriptedPair.iterate)^[k] s).TicksFit) :
    ((Loop.step ScriptedPair.iterate)^[n] s).Steady ∧
      ((Loop.step ScriptedPair.iterate)^[n] s).Timed := by
  induction n with
  | zero => exact ⟨hd, ht⟩
  | succ n ih =>
    obtain ⟨hdn, htn⟩ := ih fun k hk => hfits k (Nat.le_succ_of_le hk)
    have hfit := hfits n (Nat.le_succ n)
    have hnext := hfits (n + 1) (Nat.le_refl _)
    rw [Function.iterate_succ_apply'] at hnext ⊢
    exact htn.step hdn hfit hnext

end ScriptedPair

open ScriptedPair in
/-- **The invariant of the driver.**  It holds after any number of rounds, and
every answer of those rounds has set the clock of its CPU to the finish tick. -/
theorem runScriptedPair_invariant (script : Fin 2 → List ScriptOp) (memory : CommittedMemory)
    (devices : DeviceHub) (policy : ArbitrationPolicy) (latency : LatencyModel) (haltOnFault : Bool)
    (hvalid : ∀ c, ∀ ins ∈ script c, ins.valid = true) (n : Nat)
    (hfits : ∀ k ≤ n, ((Loop.step iterate)^[k]
      (start script { memory, devices, policy, latency, trace := { haltOnFault } })).TicksFit) :
    ((Loop.step iterate)^[n] (start script
        { memory, devices, policy, latency, trace := { haltOnFault } })).RunInvariant ∧
      ∀ k < n, ∀ i x,
        ((Loop.step iterate)^[k] (start script
          { memory, devices, policy, latency, trace := { haltOnFault } })).roundAnswers[i]? =
            some x →
        ((((Loop.step iterate)^[k] (start script
          { memory, devices, policy, latency, trace := { haltOnFault } })).afterAnswers
            (i + 1)).cpu x.1.1).localTime = x.2.commitTime := by
  have hsteady := steady_start script memory devices policy latency haltOnFault hvalid
  have htimed := timed_start script { memory, devices, policy, latency, trace := { haltOnFault } }
  generalize start script { memory, devices, policy, latency, trace := { haltOnFault } } = s at *
  obtain ⟨hd, ht⟩ := hsteady.iterate htimed n hfits
  refine ⟨hd.runInvariant ht, fun k hk i x hx => ?_⟩
  obtain ⟨hdk, htk⟩ := hsteady.iterate htimed k fun j hj => hfits j (by omega)
  have hnext := hfits (k + 1) hk
  rw [Function.iterate_succ_apply'] at hnext
  exact hdk.afterAnswers_localTime htk (hfits k (by omega)) hnext hx

open ScriptedPair in
/-- Two rounds beside a CPU that computes: the write of CPU 0 finishes at tick 3. -/
theorem runScriptedPair_invariant_compute :
    let s := start writeBesideCompute { memory := .make 16, trace := { haltOnFault := false } }
    ((Loop.step iterate)^[2] s).RunInvariant ∧
      s.roundAnswers[0]? = some ((0, ⟨{ kind := .write, producerToken := 1 }, 0⟩),
        ⟨0, 3, 0, 3, 0, []⟩) ∧
      ((s.afterAnswers 1).cpu 0).localTime = 3 := by
  intro s
  obtain ⟨hinv, hanswers⟩ := runScriptedPair_invariant writeBesideCompute (.make 16) {}
    defaultPolicy {} false (by decide) 2 fun k _ => (writeBesideCompute_rounds k).1
  have hfirst : s.roundAnswers[0]? = some ((0, ⟨{ kind := .write, producerToken := 1 }, 0⟩),
      ⟨0, 3, 0, 3, 0, []⟩) := by decide
  have hclock : ∀ x, s.roundAnswers[0]? = some x →
      ((s.afterAnswers 1).cpu x.1.1).localTime = x.2.commitTime := hanswers 0 (by omega) 0
  have hround : ((Loop.step iterate)^[2] s).RunInvariant := hinv
  clear_value s
  exact ⟨hround, hfirst, hclock _ hfirst⟩

end Saturnis.Core
