/-
When the single-threaded driver gets stuck.

The driver lets the arbiter commit what was requested before both watermarks.
A CPU that waits publishes the tick after its request, so the earlier of two
requests can always be committed; but a CPU that has finished its script
publishes its last local time and never moves on.  `Starved` names the states
in which nothing can be committed for good.

* `Steady`, `Driven` — what holds at the head of every round of the loop;
* `runScriptedPair_iff` — the driver ends, having served every operation once,
  exactly when no round starts starved;
* `not_runScriptedPair_empty` — one write beside an empty script is never
  committed.
-/
import Saturnis.ScriptedPair

namespace Saturnis.Core

open Saturnis.Core Saturnis.Mem Saturnis.Dev Saturnis.Bus Saturnis.Cpu

namespace ScriptedPair

variable {s s' : ScriptedPair} {c : Fin 2} {p : PendingBusOp}

/-! ### What has been issued -/

/-- The operations of a CPU the driver has answered. -/
def servedTo (s : ScriptedPair) (c : Fin 2) : List PendingBusOp :=
  (s.served.filter fun x => x.1.1 = c).map (·.1.2)

/-- These and the pending one. -/
def issued (s : ScriptedPair) (c : Fin 2) : List PendingBusOp :=
  s.servedTo c ++ (s.pending c).toList

/-- The driver has answered everything the CPUs issued, once and in order, and
the arbiter has recorded it without a fault. -/
structure AllServed (s : ScriptedPair) : Prop where
  finished : s.finished = true
  issued : ∀ c, (s.cpu c).Issued (s.servedTo c)
  records : s.arb.trace.commits = s.served.map fun x => BusArbiter.record x.1.2.op x.2
  faults : s.arb.trace.faults = []

/-- An answer moves the pending operation to the answered ones. -/
theorem issued_serve (h : s.pending c = some p) (tie : Bool) (d : Fin 2) :
    (s.serve c p tie).issued d = s.issued d := by
  rw [issued, issued, servedTo, servedTo, serve, answer_served, answer_pending, List.filter_append,
    List.map_append]
  by_cases hd : d = c
  · subst hd
    rw [Function.update_self, h]
    simp
  · rw [Function.update_of_ne hd, List.filter_cons_of_neg (by simpa using Ne.symm hd)]
    simp

theorem issued_fetch (s : ScriptedPair) (h : ∀ c, (s.cpu c).Issued (s.issued c)) (c : Fin 2) :
    (s.fetch.cpu c).Issued (s.fetch.issued c) := by
  have hc := h c
  change (fetchCpu (s.cpu c) (s.pending c)).1.Issued
    (s.servedTo c ++ (fetchCpu (s.cpu c) (s.pending c)).2.toList)
  rw [issued] at hc
  cases hp : s.pending c with
  | none =>
    rw [hp, Option.toList_none, List.append_nil] at hc
    rw [fetchCpu_none]
    exact hc.produce
  | some q =>
    rw [hp] at hc
    exact hc

/-! ### What holds at the head of a round -/

/-- The scripts are valid, no tick has run back, what the arbiter recorded of a
CPU is not after its local time, and the trace has the served operations only. -/
structure Steady (s : ScriptedPair) : Prop where
  sound : s.Sound
  valid : ∀ c, ∀ ins ∈ (s.cpu c).script, ins.valid = true
  clock : ∀ c, (s.cpu c).localTime < tickModulus
  recorded : ∀ c : Fin 2, s.arb.producerSeen c.castSucc = true →
    s.arb.producerLastReqTime c.castSucc ≤ (s.cpu c).localTime
  running : s.arb.trace.shouldHalt = false
  issued : ∀ c, (s.cpu c).Issued (s.issued c)
  records : s.arb.trace.commits = s.served.map fun x => BusArbiter.record x.1.2.op x.2
  faults : s.arb.trace.faults = []

/-- Every operation takes time, and no watermark is ahead of what its CPU will publish. -/
structure Driven (s : ScriptedPair) : Prop extends Steady s where
  marks : ∀ c, s.arb.progressUpTo c = tickMax ∨
    s.arb.progressUpTo c ≤ (s.cpu c).localTime + (s.pending c).toList.length
  latency : s.arb.latency = {}

/-- No tick of the next round, and none served so far, passes the tick modulus. -/
structure TicksFit (s : ScriptedPair) : Prop where
  produce : ∀ c, s.pending c = none → (s.cpu c).ProduceFits
  watermark : ∀ c, ∀ p ∈ s.fetch.pending c, p.op.reqTime + 1 < tickModulus
  served : ∀ x ∈ s.served, x.2.startTime ≤ x.2.commitTime

theorem steady_start (script : Fin 2 → List ScriptOp) (memory : CommittedMemory)
    (devices : DeviceHub) (policy : ArbitrationPolicy) (latency : LatencyModel) (haltOnFault : Bool)
    (hvalid : ∀ c, ∀ ins ∈ script c, ins.valid = true) :
    (start script { memory, devices, policy, latency, trace := { haltOnFault } }).Steady where
  sound := sound_start _ _
  valid := hvalid
  clock := fun _ => show 0 < tickModulus by decide
  recorded := fun _ h => absurd h Bool.false_ne_true
  running := rfl
  issued := fun c => ScriptedCPU.issued_make c.val (script c)
  records := rfl
  faults := rfl

theorem driven_start (script : Fin 2 → List ScriptOp) (memory : CommittedMemory)
    (devices : DeviceHub) (policy : ArbitrationPolicy) (haltOnFault : Bool)
    (hvalid : ∀ c, ∀ ins ∈ script c, ins.valid = true) :
    (start script { memory, devices, policy, trace := { haltOnFault } }).Driven where
  toSteady := steady_start script memory devices policy {} haltOnFault hvalid
  marks := fun _ => Or.inl rfl
  latency := rfl

theorem fetch_localTime (hfit : ∀ c, s.pending c = none → (s.cpu c).ProduceFits)
    (hclock : (s.cpu c).localTime < tickModulus) :
    (s.cpu c).localTime ≤ (s.fetch.cpu c).localTime ∧ (s.fetch.cpu c).localTime < tickModulus := by
  change (s.cpu c).localTime ≤ (fetchCpu (s.cpu c) (s.pending c)).1.localTime ∧
    (fetchCpu (s.cpu c) (s.pending c)).1.localTime < tickModulus
  cases hp : s.pending c with
  | none =>
    rw [fetchCpu_none]
    exact (hfit c hp).localTime
  | some p => exact ⟨Nat.le_refl _, hclock⟩

theorem fetch_script (s : ScriptedPair) (c : Fin 2) : (s.fetch.cpu c).script = (s.cpu c).script := by
  change (fetchCpu (s.cpu c) (s.pending c)).1.script = _
  cases hp : s.pending c with
  | none => rw [fetchCpu_none, (s.cpu c).produce_keeps.2.1]
  | some p => rfl

theorem Steady.fetch (hd : s.Steady) (hfit : ∀ c, s.pending c = none → (s.cpu c).ProduceFits) :
    s.fetch.Steady where
  sound := hd.sound.fetch
  valid := fun c => by
    rw [fetch_script]
    exact hd.valid c
  clock := fun c => (fetch_localTime hfit (hd.clock c)).2
  recorded := fun c hseen =>
    Nat.le_trans (hd.recorded c hseen) (fetch_localTime hfit (hd.clock c)).1
  running := hd.running
  issued := issued_fetch s hd.issued
  records := hd.records
  faults := hd.faults

theorem Driven.fetch (hd : s.Driven) (hfit : ∀ c, s.pending c = none → (s.cpu c).ProduceFits) :
    s.fetch.Driven where
  toSteady := hd.toSteady.fetch hfit
  marks := fun c => by
    refine (hd.marks c).imp_right fun hle => ?_
    have htime := (fetch_localTime hfit (hd.clock c)).1
    change s.arb.progressUpTo c ≤
      (s.fetch.cpu c).localTime + (fetchCpu (s.cpu c) (s.pending c)).2.toList.length
    cases hp : s.pending c with
    | none =>
      rw [hp, Option.toList_none, List.length_nil] at hle
      omega
    | some p =>
      rw [hp, Option.toList_some] at hle
      rw [fetchCpu_some, Option.toList_some]
      omega
  latency := hd.latency

/-! ### An answer -/

/-- A pending operation is valid and not before what the arbiter recorded. -/
theorem Steady.accepts (hd : s.Steady) (h : s.pending c = some p) : s.arb.accepts p.op = true := by
  have hout := hd.sound.outstanding c p h
  obtain ⟨ins, hget, hmatches⟩ := hout.matches_
  have hvalid := hmatches.validateBusOp (hd.valid c ins (List.mem_of_getElem? hget))
  rw [BusArbiter.accepts, hvalid, hd.sound.producerSlot h]
  cases hseen : s.arb.producerSeen c.castSucc with
  | false => simp
  | true =>
    have hle := hd.recorded c hseen
    rw [← hout.reqTime] at hle
    simpa using hle

/-- The state after an answer, field by field. -/
theorem Steady.serve_eq (hd : s.Steady) (h : s.pending c = some p) (tie : Bool) :
    (s.serve c p tie).arb = (s.arb.grant p.op tie).1 ∧
      (s.serve c p tie).served = s.served ++ [((c, p), (s.arb.grant p.op tie).2)] ∧
      (s.serve c p tie).pending = Function.update s.pending c none := by
  have hexec : s.arb.executeCommit p.op tie = s.arb.grant p.op tie :=
    BusArbiter.executeCommit_of_accepts (hd.accepts h)
  refine ⟨?_, ?_, rfl⟩
  · rw [hd.sound.serve_arb h, hexec]
  · rw [serve, answer_served, hexec]

/-- What an answer does to the CPU that waits for it. -/
theorem Steady.answered (hd : s.Steady) (h : s.pending c = some p) (tie : Bool) :
    ScriptedCPU.Answered (s.cpu c) ((s.serve c p tie).cpu c) (s.arb.grant p.op tie).2.stall := by
  rw [ScriptedPair.serve, answer_cpu, Function.update_self,
    BusArbiter.executeCommit_of_accepts (hd.accepts h)]
  exact (s.cpu c).applyResponse_answered _ _ _

theorem serve_cpu_of_ne (s : ScriptedPair) {c d : Fin 2} (hne : d ≠ c) (p : PendingBusOp)
    (tie : Bool) : (s.serve c p tie).cpu d = s.cpu d := by
  rw [ScriptedPair.serve, answer_cpu, Function.update_of_ne hne]

/-- An answer brings the clock of its CPU to the finish tick. -/
theorem Steady.serve_localTime (hd : s.Steady) (h : s.pending c = some p) (tie : Bool) :
    ((s.serve c p tie).cpu c).localTime = (s.arb.grant p.op tie).2.commitTime := by
  have hreq := (hd.sound.outstanding c p h).reqTime
  rw [(hd.answered h tie).localTime, ← hreq]
  exact tickAdd_tickSub (by rw [hreq]; exact hd.clock c) (tickAdd_lt _ _)

/-- The clock does not run back where the finish tick does not. -/
theorem Steady.serve_le (hd : s.Steady) (h : s.pending c = some p) (tie : Bool)
    (hfit : (s.arb.grant p.op tie).2.startTime ≤ (s.arb.grant p.op tie).2.commitTime) :
    (s.cpu c).localTime ≤ ((s.serve c p tie).cpu c).localTime := by
  rw [hd.serve_localTime h tie, ← (hd.sound.outstanding c p h).reqTime]
  exact Nat.le_trans (Nat.le_max_left _ _) hfit

theorem Steady.serve (hd : s.Steady) (h : s.pending c = some p) (tie : Bool)
    (hfit : (s.arb.grant p.op tie).2.startTime ≤ (s.arb.grant p.op tie).2.commitTime) :
    (s.serve c p tie).Steady := by
  obtain ⟨harb, hserved, hpending⟩ := hd.serve_eq h tie
  have hout := hd.sound.outstanding c p h
  have hans := hd.answered h tie
  refine ⟨hd.sound.serve c p tie, fun d => ?_, fun d => ?_, fun d hseen => ?_, ?_, fun d => ?_, ?_,
    ?_⟩
  · by_cases hne : d = c
    · rw [hne, hans.script]
      exact hd.valid c
    · rw [s.serve_cpu_of_ne hne]
      exact hd.valid d
  · by_cases hne : d = c
    · rw [hne, hans.localTime]
      exact tickAdd_lt _ _
    · rw [s.serve_cpu_of_ne hne]
      exact hd.clock d
  · rw [harb] at hseen ⊢
    change Function.update s.arb.producerSeen (producerSlot p.op) true d.castSucc = true at hseen
    change Function.update s.arb.producerLastReqTime (producerSlot p.op) p.op.reqTime d.castSucc ≤ _
    rw [hd.sound.producerSlot h] at hseen ⊢
    by_cases hne : d = c
    · rw [hne, Function.update_self, hout.reqTime]
      exact hd.serve_le h tie hfit
    · -- the two cores mark different slots of the arbiter
      have hslot : d.castSucc ≠ c.castSucc := fun heq => hne (Fin.castSucc_injective 2 heq)
      rw [Function.update_of_ne hslot] at hseen ⊢
      rw [s.serve_cpu_of_ne hne]
      exact hd.recorded d hseen
  · rw [harb]
    exact hd.running
  · rw [issued_serve h]
    by_cases hne : d = c
    · rw [hne]
      exact hans.issued (hd.issued c)
    · rw [s.serve_cpu_of_ne hne]
      exact hd.issued d
  · rw [harb, hserved, BusArbiter.grant_commits, hd.records, List.map_append]
    rfl
  · rw [harb, BusArbiter.grant_faults, hd.faults]

theorem Driven.serve (hd : s.Driven) (h : s.pending c = some p) (tie : Bool)
    (hfit : (s.arb.grant p.op tie).2.startTime ≤ (s.arb.grant p.op tie).2.commitTime) :
    (s.serve c p tie).Driven := by
  obtain ⟨harb, -, hpending⟩ := hd.serve_eq h tie
  have hout := hd.sound.outstanding c p h
  -- the clock of `c` moves past the request
  have htime : (s.cpu c).localTime < ((s.serve c p tie).cpu c).localTime := by
    have hlat := BusArbiter.totalLatency_default hd.latency p.op tie
    have hwait := s.arb.grant_wait p.op tie (by rw [hout.reqTime]; exact hd.clock c) hlat.1 hlat.2 hfit
    rw [hout.reqTime] at hwait
    rw [(hd.answered h tie).localTime]
    exact hwait
  refine ⟨hd.toSteady.serve h tie hfit, fun d => ?_, ?_⟩
  · have hmark := hd.marks d
    rw [harb, hpending]
    change s.arb.progressUpTo d = tickMax ∨ s.arb.progressUpTo d ≤ _
    refine hmark.imp_right fun hle => ?_
    by_cases hne : d = c
    · subst hne
      rw [h, Option.toList_some, List.length_singleton] at hle
      omega
    · rw [s.serve_cpu_of_ne hne, Function.update_of_ne hne]
      exact hle
  · rw [harb]
    exact hd.latency

theorem Serve.served (h : Serve s s') : s.served <+: s'.served := by
  cases h with
  | serve c p tie _ => exact ⟨_, rfl⟩
  | note arb _ => exact List.prefix_rfl

theorem Serve.steady (h : Serve s s') (hd : s.Steady)
    (hfit : ∀ x ∈ s'.served, x.2.startTime ≤ x.2.commitTime) : s'.Steady := by
  cases h with
  | serve c p tie hp =>
    refine hd.serve hp tie (hfit ((c, p), (s.arb.grant p.op tie).2) ?_)
    rw [(hd.serve_eq hp tie).2.1]
    exact List.mem_append_right _ List.mem_cons_self
  | note arb heq =>
    exact ⟨⟨hd.sound.cpuId, hd.sound.lineSize, hd.sound.outstanding⟩, hd.valid, hd.clock,
      fun c => (congrArg BusArbiter.producerSeen heq :) ▸
        (congrArg BusArbiter.producerLastReqTime heq :) ▸ hd.recorded c,
      (congrArg (fun a => a.trace.shouldHalt) heq).trans hd.running, hd.issued,
      (congrArg (fun a => a.trace.commits) heq).trans hd.records,
      (congrArg (fun a => a.trace.faults) heq).trans hd.faults⟩

theorem Serve.driven (h : Serve s s') (hd : s.Driven)
    (hfit : ∀ x ∈ s'.served, x.2.startTime ≤ x.2.commitTime) : s'.Driven := by
  have hsteady := h.steady hd.toSteady hfit
  cases h with
  | serve c p tie hp =>
    refine hd.serve hp tie (hfit ((c, p), (s.arb.grant p.op tie).2) ?_)
    rw [(hd.serve_eq hp tie).2.1]
    exact List.mem_append_right _ List.mem_cons_self
  | note arb heq =>
    exact ⟨hsteady, fun c => (congrArg BusArbiter.progressUpTo heq :) ▸ hd.marks c,
      (congrArg BusArbiter.latency heq).trans hd.latency⟩

theorem Serves.driven (h : Serves s s') (hd : s.Driven)
    (hfit : ∀ x ∈ s'.served, x.2.startTime ≤ x.2.commitTime) : s'.Driven := by
  induction h with
  | refl => exact hd
  | tail _ hstep ih =>
    exact hstep.driven (ih fun x hx => hfit x (hstep.served.subset hx)) hfit

/-! ### Watermarks -/

/-- A CPU that waits publishes the tick after its request. -/
theorem mark_eq (hs : s.Sound) (hwater : ∀ c p, s.pending c = some p → p.op.reqTime + 1 < tickModulus)
    (c : Fin 2) : s.mark c = (s.cpu c).localTime + (s.pending c).toList.length := by
  rw [mark]
  cases hp : s.pending c with
  | none => rfl
  | some p =>
    rw [← (hs.outstanding c p hp).reqTime]
    exact tickAdd_of_lt (hwater c p hp)

/-- A watermark only moves up, or away from the unset one. -/
theorem publish_slot (s : ScriptedPair) (c : Fin 2) :
    s.publish.arb.progressUpTo c =
      if s.arb.progressUpTo c = tickMax ∨ s.mark c > s.arb.progressUpTo c then s.mark c
      else s.arb.progressUpTo c := by
  match c with
  | 0 =>
    exact (BusArbiter.updateProgress_of_ne _ (show (0 : Fin 2) ≠ 1 by decide) _).trans
      (BusArbiter.updateProgress_self s.arb 0 _)
  | 1 =>
    have hzero : (s.arb.updateProgress 0 (s.mark 0)).progressUpTo 1 = s.arb.progressUpTo 1 :=
      BusArbiter.updateProgress_of_ne s.arb (show (1 : Fin 2) ≠ 0 by decide) _
    have hone : s.publish.arb.progressUpTo 1 = _ := BusArbiter.updateProgress_self _ 1 _
    rw [hone, hzero]

/-- The arbiter knows exactly what the CPUs have published. -/
theorem publish_progress
    (hmarks : ∀ c, s.arb.progressUpTo c = tickMax ∨ s.arb.progressUpTo c ≤ s.mark c) (c : Fin 2) :
    s.publish.arb.progressUpTo c = s.mark c := by
  rw [publish_slot]
  split
  · rfl
  · have := hmarks c
    omega

theorem publish_core (s : ScriptedPair) : s.publish.arb.core = s.arb.core :=
  (BusArbiter.core_updateProgress _ _ _).trans (BusArbiter.core_updateProgress _ _ _)

/-- An operation may be committed when both watermarks are set and later. -/
theorem isCommittable_publish
    (hmarks : ∀ c, s.arb.progressUpTo c = tickMax ∨ s.arb.progressUpTo c ≤ s.mark c) (op : BusOp) :
    s.publish.arb.isCommittable op = true ↔ ∀ c, s.mark c ≠ tickMax ∧ op.reqTime < s.mark c := by
  have htrack : s.publish.arb.progressTrackingEnabled = true :=
    BusArbiter.updateProgress_tracks _ 1 _
  simp only [BusArbiter.isCommittable, BusArbiter.hasSafeHorizon, BusArbiter.commitHorizon, htrack,
    publish_progress hmarks, Bool.not_true, Bool.false_or, Bool.and_eq_true, decide_eq_true_eq,
    ne_eq, Nat.lt_min, Fin.forall_fin_two]
  tauto

theorem Steady.publish (hd : s.Steady) : s.publish.Steady := by
  have hcore := publish_core s
  refine ⟨⟨hd.sound.cpuId, hd.sound.lineSize, hd.sound.outstanding⟩, hd.valid, hd.clock, ?_, ?_,
    hd.issued, ?_, ?_⟩
  · rw [BusArbiter.core_producerSeen hcore, BusArbiter.core_producerLastReqTime hcore]
    exact hd.recorded
  · rw [BusArbiter.core_trace hcore]
    exact hd.running
  · rw [BusArbiter.core_trace hcore]
    exact hd.records
  · rw [BusArbiter.core_trace hcore]
    exact hd.faults

theorem Driven.publish (hd : s.Driven)
    (hwater : ∀ c p, s.pending c = some p → p.op.reqTime + 1 < tickModulus) :
    s.publish.Driven := by
  have hmark := mark_eq hd.sound hwater
  refine ⟨hd.toSteady.publish, fun c => Or.inr ?_,
    (BusArbiter.core_latency (publish_core s)).trans hd.latency⟩
  rw [publish_progress (fun d => by rw [hmark]; exact hd.marks d), hmark]
  exact Nat.le_refl _

/-! ### Starved states -/

/-- Something is pending, and either a CPU has finished its script at a local
time not after the pending request of the other one, or a CPU publishes the
tick that the arbiter takes for an unset watermark. -/
def Starved (s : ScriptedPair) : Prop :=
  (∃ c, ∃ p ∈ s.fetch.pending c, s.fetch.pending c.rev = none ∧
      (s.fetch.cpu c.rev).localTime ≤ p.op.reqTime) ∨
    (∃ c, (s.fetch.pending c).isSome = true) ∧ ∃ c, s.fetch.mark c = tickMax

instance (s : ScriptedPair) : Decidable s.Starved := inferInstanceAs (Decidable (_ ∨ _))

theorem mem_pendingOps {op : BusOp} :
    op ∈ s.pendingOps ↔ ∃ c p, s.pending c = some p ∧ p.op = op := by
  rw [pendingOps, List.mem_map]
  constructor
  · rintro ⟨c, hc, rfl⟩
    exact ⟨c, _, pending_eq hc, rfl⟩
  · rintro ⟨c, p, hp, rfl⟩
    exact ⟨c, mem_requesters.mpr (by rw [hp]; rfl), by rw [hp]; rfl⟩

/-- The earlier one of the pending requests. -/
theorem exists_earliest (h : ∃ c, (s.pending c).isSome = true) :
    ∃ c p, s.pending c = some p ∧ ∀ q, s.pending c.rev = some q → p.op.reqTime ≤ q.op.reqTime := by
  obtain ⟨c, hc⟩ := h
  obtain ⟨p, hp⟩ := Option.isSome_iff_exists.mp hc
  cases hq : s.pending c.rev with
  | none => exact ⟨c, p, hp, fun q hq' => absurd (hq.symm.trans hq') (by simp)⟩
  | some q =>
    rcases Nat.le_total p.op.reqTime q.op.reqTime with hle | hle
    · exact ⟨c, p, hp, fun q' hq' => Option.some_inj.mp (hq.symm.trans hq') ▸ hle⟩
    · refine ⟨c.rev, q, hq, fun q' hq' => ?_⟩
      rw [Fin.rev_rev] at hq'
      exact Option.some_inj.mp (hp.symm.trans hq') ▸ hle

theorem forall_cpu (c : Fin 2) {P : Fin 2 → Prop} : (∀ d, P d) ↔ P c ∧ P c.rev := by
  match c with
  | 0 => exact Fin.forall_fin_two
  | 1 => exact Fin.forall_fin_two.trans and_comm

/-- A round with something pending is starved when it has no candidate. -/
theorem starved_iff (hd : s.fetch.Driven)
    (hwater : ∀ c p, s.fetch.pending c = some p → p.op.reqTime + 1 < tickModulus)
    (hpending : ∃ c, (s.fetch.pending c).isSome = true) :
    s.Starved ↔ s.fetch.publish.arb.candidates s.fetch.publish.pendingOps = [] := by
  -- No candidate is left exactly when neither pending request is below both watermarks.
  have hmark := mark_eq hd.sound hwater
  have hcomm := isCommittable_publish (s := s.fetch) fun c => by rw [hmark]; exact hd.marks c
  have hcand : s.fetch.publish.arb.candidates s.fetch.publish.pendingOps = [] ↔
      ∀ c p, s.fetch.pending c = some p → s.fetch.publish.arb.isCommittable p.op ≠ true := by
    rw [BusArbiter.candidates, List.filter_eq_nil_iff]
    constructor
    · exact fun h c p hp => h p.op (mem_pendingOps.mpr ⟨c, p, hp, rfl⟩)
    · intro h op hop
      obtain ⟨c, p, hp, rfl⟩ := mem_pendingOps.mp hop
      exact h c p hp
  rw [hcand]
  constructor
  · rintro (⟨c, p, hp, hnone, hle⟩ | ⟨-, c, hmax⟩) d q hq hlt
    · -- the watermark of the finished CPU is not after the request
      have hdc : d = c := by
        by_contra hne
        have hrev : d = c.rev := (by decide : ∀ c d : Fin 2, d ≠ c → d = c.rev) c d hne
        rw [hrev, hnone] at hq
        exact absurd hq (by simp)
      subst hdc
      have hreq := (((hcomm q.op).mp hlt) d.rev).2
      rw [hmark, hnone, Option.toList_none, List.length_nil] at hreq
      rw [hp] at hq
      rw [← Option.some_inj.mp hq] at hreq
      omega
    · -- A watermark that was never set lets nothing through.
      exact (((hcomm q.op).mp hlt) c).1 hmax
  · intro hnone
    by_contra hstarved
    rw [Starved, not_or] at hstarved
    obtain ⟨hfinished, hunset⟩ := hstarved
    -- Otherwise the earliest pending request may be committed.
    obtain ⟨c, p, hp, hmin⟩ := exists_earliest hpending
    refine hnone c p hp ((hcomm p.op).mpr ((forall_cpu c).mpr ⟨⟨?_, ?_⟩, ?_, ?_⟩))
    · exact fun hmax => hunset ⟨hpending, c, hmax⟩
    · rw [hmark, hp, ← (hd.sound.outstanding c p hp).reqTime]
      exact Nat.lt_succ_self _
    · exact fun hmax => hunset ⟨hpending, c.rev, hmax⟩
    · rw [hmark]
      cases hq : s.fetch.pending c.rev with
      | none =>
        by_contra hge
        exact hfinished ⟨c, p, hp, hq, by simpa using hge⟩
      | some q =>
        have hle := hmin q hq
        rw [(hd.sound.outstanding c.rev q hq).reqTime] at hle
        exact Nat.lt_succ_of_le hle

/-! ### One round -/

theorem fetch_done (h : s.fetch.pending c = none) : (s.fetch.cpu c).done = true :=
  fetchCpu_done h

/-- A round that finds something pending commits; any other one ends the loop. -/
theorem iterate_cases (s : ScriptedPair) :
    ((∃ c, (s.fetch.pending c).isSome = true) ∧
        iterate s = (s.fetch.publish.commit (requestsOf s.fetch.publish.pending), false)) ∨
      ((∀ c, s.fetch.pending c = none) ∧ s.fetch.publish.finished = true ∧
        iterate s = (s.fetch.publish, true)) := by
  by_cases hpending : ∃ c, (s.fetch.pending c).isSome = true
  · refine Or.inl ⟨hpending, ?_⟩
    obtain ⟨c, hc⟩ := hpending
    have hfinished : s.fetch.publish.finished = false := by
      have hsome : (s.fetch.publish.pending c).isNone = false := by
        rw [Option.isNone_eq_false_iff]
        exact hc
      rw [finished]
      match c with
      | 0 => rw [hsome]; rfl
      | 1 => rw [hsome, Bool.and_false]; rfl
    have hrequests : (requestsOf s.fetch.publish.pending).isEmpty = false := by
      obtain ⟨p, hp⟩ := Option.isSome_iff_exists.mp hc
      exact List.isEmpty_eq_false_iff_exists_mem.mpr ⟨(c, p), mem_requestsOf.mpr hp⟩
    simp only [iterate, hfinished, hrequests, Bool.false_eq_true, if_false]
  · have hnone : ∀ c, s.fetch.pending c = none := by simpa using hpending
    have hfinished : s.fetch.publish.finished = true := by
      have h0 : s.fetch.publish.pending 0 = none := hnone 0
      have h1 : s.fetch.publish.pending 1 = none := hnone 1
      have hdone0 : (s.fetch.publish.cpu 0).done = true := fetch_done (hnone 0)
      have hdone1 : (s.fetch.publish.cpu 1).done = true := fetch_done (hnone 1)
      rw [finished, h0, h1, hdone0, hdone1]
      rfl
    exact Or.inr ⟨hnone, hfinished, by simp only [iterate, hfinished, if_true]⟩

/-- A state whose ticks fit, as has its successor. -/
theorem Driven.ready (hd : s.Driven) (hfit : s.TicksFit) : s.fetch.publish.Driven :=
  (hd.fetch hfit.produce).publish hfit.watermark

theorem Driven.step (hd : s.Driven) (hfit : s.TicksFit)
    (hnext : (Loop.step iterate s).TicksFit) : (Loop.step iterate s).Driven := by
  have hready := hd.ready hfit
  rcases s.iterate_cases with ⟨-, heq⟩ | ⟨-, -, heq⟩
  · have hserved := hnext.served
    rw [Loop.step, heq] at hserved ⊢
    exact (commit_serves hready.sound).driven hready hserved
  · rw [Loop.step, heq]
    exact hready

/-- Whatever the arbiter does, a second `fetch` finds nothing to do. -/
theorem refetch (s : ScriptedPair) (arb : BusArbiter) :
    ({ s.fetch.publish with arb } : ScriptedPair).fetch = { s.fetch with arb } := by
  have hcpu := congrArg ScriptedPair.cpu s.fetch_fetch
  have hpending := congrArg ScriptedPair.pending s.fetch_fetch
  change ScriptedPair.mk s.fetch.fetch.cpu arb s.fetch.fetch.pending s.served = _
  rw [hcpu, hpending]
  rfl

theorem starved_congr {arb : BusArbiter} (h : s'.fetch = { s.fetch with arb }) :
    s'.Starved ↔ s.Starved := by
  have hcpu : s'.fetch.cpu = s.fetch.cpu := by rw [h]
  have hpending : s'.fetch.pending = s.fetch.pending := by rw [h]
  have hmark : s'.fetch.mark = s.fetch.mark := by
    funext c
    rw [mark, mark, hpending, hcpu]
  rw [Starved, Starved, hcpu, hpending, hmark]

theorem Starved.pending (h : s.Starved) : ∃ c, (s.fetch.pending c).isSome = true := by
  rcases h with ⟨c, p, hp, -⟩ | ⟨hpending, -⟩
  · exact ⟨c, by rw [hp]; rfl⟩
  · exact hpending

/-- Once the loop has broken there is nothing pending in any later round. -/
theorem pending_of_break (hbreak : (iterate s).2 = true) (k : Nat) (c : Fin 2) :
    ((Loop.step iterate)^[k] s).fetch.pending c = none := by
  have hnone : ∀ c, s.fetch.pending c = none := by
    rcases s.iterate_cases with ⟨-, heq⟩ | ⟨hnone, -⟩
    · rw [heq] at hbreak
      exact absurd hbreak (by simp)
    · exact hnone
  clear hbreak
  induction k generalizing s with
  | zero => exact hnone c
  | succ k ih =>
    rw [Function.iterate_succ_apply]
    refine ih fun d => ?_
    rcases s.iterate_cases with ⟨⟨e, he⟩, -⟩ | ⟨-, -, heq⟩
    · rw [hnone e] at he
      exact absurd he Bool.false_ne_true
    · rw [Loop.step, heq]
      exact (congrFun (congrArg ScriptedPair.pending (s.refetch s.fetch.publish.arb)) d).trans
        (hnone d)

/-- A starved round leaves everything pending. -/
theorem Starved.step (hstarved : s.Starved) (hd : s.Driven) (hfit : s.TicksFit) :
    (iterate s).2 = false ∧ (Loop.step iterate s).Starved := by
  have hpending := hstarved.pending
  have hnone := (starved_iff (hd.fetch hfit.produce) hfit.watermark hpending).mp hstarved
  obtain ⟨arb, -, hcommit⟩ := (hd.ready hfit).sound.commit_of_none
        (BusArbiter.opRound_eq_none.mpr (Or.inr hnone))
  rcases s.iterate_cases with ⟨-, heq⟩ | ⟨hall, -⟩
  · rw [Loop.step, heq]
    refine ⟨rfl, ?_⟩
    rw [hcommit]
    exact (starved_congr (s.refetch arb)).mpr hstarved
  · obtain ⟨c, hc⟩ := hpending
    rw [hall c] at hc
    exact absurd hc Bool.false_ne_true

/-- Where `t` is `s` after its `fetch`, ticks fit as before. -/
theorem TicksFit.of_fetch {t : ScriptedPair} {arb : BusArbiter} (hfit : s.TicksFit)
    (ht : t = { s.fetch with arb }) : t.TicksFit := by
  subst ht
  have hfetch := congrArg ScriptedPair.pending s.fetch_fetch
  refine ⟨fun c hnone => ?_, fun c p hp => ?_, hfit.served⟩
  · have hdone : (s.fetch.cpu c).done = true := fetch_done hnone
    have hclock : (s.fetch.cpu c).localTime < tickModulus := by
      change (fetchCpu (s.cpu c) (s.pending c)).2 = none at hnone
      change (fetchCpu (s.cpu c) (s.pending c)).1.localTime < tickModulus
      cases hp : s.pending c with
      | none =>
        rw [fetchCpu_none]
        exact (hfit.produce c hp).localTime.2
      | some p =>
        rw [hp] at hnone
        exact absurd hnone (by simp)
    rw [ScriptedCPU.ProduceFits, ScriptedCPU.produce_of_done hdone,
      ScriptedCPU.clockAt_of_le (Nat.le_refl _)]
    exact hclock
  · change s.fetch.fetch.pending c = some p at hp
    rw [hfetch] at hp
    exact hfit.watermark c p hp

/-- The rounds after the break, and those after a starved one, change no tick. -/
theorem TicksFit.step (hfit : s.TicksFit) (hd : s.Driven)
    (h : (iterate s).2 = true ∨ s.Starved) : (Loop.step iterate s).TicksFit := by
  rcases s.iterate_cases with ⟨hpending, heq⟩ | ⟨-, -, heq⟩
  · rcases h with hbreak | hstarved
    · rw [heq] at hbreak
      exact absurd hbreak (by simp)
    · have hnone := (starved_iff (hd.fetch hfit.produce) hfit.watermark hpending).mp hstarved
      obtain ⟨arb, -, hcommit⟩ := (hd.ready hfit).sound.commit_of_none
        (BusArbiter.opRound_eq_none.mpr (Or.inr hnone))
      rw [Loop.step, heq, hcommit]
      exact hfit.of_fetch rfl
  · rw [Loop.step, heq]
    exact hfit.of_fetch rfl

theorem Starved.ticksFit (hstarved : s.Starved) (hd : s.Driven) (hfit : s.TicksFit) (n : Nat) :
    ((Loop.step iterate)^[n] s).TicksFit ∧ (iterate ((Loop.step iterate)^[n] s)).2 = false := by
  have hinv : ∀ t : ScriptedPair, t.Starved ∧ t.Driven ∧ t.TicksFit →
      (Loop.step iterate t).Starved ∧ (Loop.step iterate t).Driven ∧
        (Loop.step iterate t).TicksFit := by
    rintro t ⟨hs, hdt, hft⟩
    have hnext := hft.step hdt (Or.inr hs)
    exact ⟨(hs.step hdt hft).2, hdt.step hft hnext, hnext⟩
  obtain ⟨hs, hdt, hft⟩ := Loop.invariant hinv ⟨hstarved, hd, hfit⟩ n
  exact ⟨hft, (hs.step hdt hft).1⟩

/-- Nothing happens after the break. -/
theorem TicksFit.after_break (hfit : s.TicksFit) (hd : s.Driven) (hbreak : (iterate s).2 = true)
    (n : Nat) : ((Loop.step iterate)^[n] s).TicksFit ∧ ¬ ((Loop.step iterate)^[n] s).Starved := by
  have hinv : ∀ t : ScriptedPair, (iterate t).2 = true ∧ t.Driven ∧ t.TicksFit →
      (iterate (Loop.step iterate t)).2 = true ∧ (Loop.step iterate t).Driven ∧
        (Loop.step iterate t).TicksFit := by
    rintro t ⟨hb, hdt, hft⟩
    have hnext := hft.step hdt (Or.inl hb)
    refine ⟨?_, hdt.step hft hnext, hnext⟩
    rcases (Loop.step iterate t).iterate_cases with ⟨⟨c, hc⟩, -⟩ | ⟨-, -, heq⟩
    · rw [show (Loop.step iterate t).fetch.pending c = none from pending_of_break hb 1 c] at hc
      exact absurd hc Bool.false_ne_true
    · rw [heq]
  refine ⟨(Loop.invariant hinv ⟨hbreak, hd, hfit⟩ n).2.2, fun hstarved => ?_⟩
  obtain ⟨c, hc⟩ := hstarved.pending
  rw [pending_of_break hbreak n c] at hc
  exact absurd hc Bool.false_ne_true

/-! ### A measure -/

/-- What a CPU has still to execute or to wait for. -/
def budgetOf (s : ScriptedPair) (c : Fin 2) : Nat :=
  ((s.cpu c).script.length - (s.cpu c).pc) + (s.pending c).toList.length

def budget (s : ScriptedPair) : Nat := s.budgetOf 0 + s.budgetOf 1

theorem budget_fetch (s : ScriptedPair) : s.fetch.budget ≤ s.budget := by
  have hof : ∀ c, s.fetch.budgetOf c ≤ s.budgetOf c := by
    intro c
    change ((fetchCpu (s.cpu c) (s.pending c)).1.script.length -
      (fetchCpu (s.cpu c) (s.pending c)).1.pc) +
        (fetchCpu (s.cpu c) (s.pending c)).2.toList.length ≤ s.budgetOf c
    rw [budgetOf]
    cases hp : s.pending c with
    | none =>
      rw [fetchCpu_none]
      exact (s.cpu c).produce_remaining
    | some p => exact Nat.le_refl _
  exact Nat.add_le_add (hof 0) (hof 1)

/-- Every answer takes one from the budget. -/
theorem Serve.budget (h : Serve s s') :
    s'.budget + s'.served.length = s.budget + s.served.length := by
  cases h with
  | note arb _ => rfl
  | serve c p tie hp =>
    have hlen : (s.serve c p tie).served.length = s.served.length + 1 := by
      rw [ScriptedPair.serve, answer_served, List.length_append, List.length_singleton]
    have hself : (s.serve c p tie).budgetOf c + 1 = s.budgetOf c := by
      have hans := (s.cpu c).applyResponse_answered p.scriptIndex
        (s.arb.executeCommit p.op tie).2 p.op.producerToken
      rw [budgetOf, budgetOf, ScriptedPair.serve, answer_cpu, answer_pending, Function.update_self,
        Function.update_self, hans.script, hans.pc, hp]
      rfl
    have hother : (s.serve c p tie).budgetOf c.rev = s.budgetOf c.rev := by
      have hne : c.rev ≠ c := (by decide : ∀ c : Fin 2, c.rev ≠ c) c
      rw [budgetOf, budgetOf, ScriptedPair.serve, answer_cpu, answer_pending, Function.update_of_ne hne,
        Function.update_of_ne hne]
    have hsum : ∀ (t : ScriptedPair) (c : Fin 2), t.budget = t.budgetOf c + t.budgetOf c.rev :=
      fun t => Fin.forall_fin_two.mpr ⟨rfl, Nat.add_comm _ _⟩
    rw [hsum (s.serve c p tie) c, hsum s c, hlen, hother]
    omega

theorem Serves.budget (h : Serves s s') :
    s'.budget + s'.served.length = s.budget + s.served.length := by
  induction h with
  | refl => rfl
  | tail _ hstep ih => exact hstep.budget.trans ih

/-- A round that is not starved serves something. -/
theorem budget_step (hd : s.Driven) (hfit : s.TicksFit) (hstarved : ¬ s.Starved)
    (hcont : (iterate s).2 = false) : (Loop.step iterate s).budget < s.budget := by
  have hready := hd.ready hfit
  rcases s.iterate_cases with ⟨hpending, heq⟩ | ⟨-, -, heq⟩
  · have hcand := mt (starved_iff (hd.fetch hfit.produce) hfit.watermark hpending).mpr hstarved
    have hserved := hready.sound.commit_served hcand hready.running
    have hbudget := (commit_serves hready.sound).budget
    have hfetch : s.fetch.publish.budget ≤ s.budget := budget_fetch s
    rw [Loop.step, heq]
    simp only
    omega
  · rw [heq] at hcont
    exact absurd hcont (by simp)

/-- Where the loop breaks everything has been served. -/
theorem Driven.allServed (hd : s.Driven) (hfit : s.TicksFit) (hbreak : (iterate s).2 = true) :
    (Loop.step iterate s).AllServed := by
  have hready := hd.ready hfit
  rcases s.iterate_cases with ⟨-, heq⟩ | ⟨hnone, hfinished, heq⟩
  · rw [heq] at hbreak
    exact absurd hbreak (by simp)
  · rw [Loop.step, heq]
    refine ⟨hfinished, fun c => ?_, hready.records, hready.faults⟩
    have hissued := hready.issued c
    rw [ScriptedPair.issued, show s.fetch.publish.pending c = none from hnone c,
      Option.toList_none, List.append_nil] at hissued
    exact hissued

end ScriptedPair

/-! ### The driver -/

open ScriptedPair in
/-- **The driver serves every operation once and ends exactly when it never starves.** -/
theorem runScriptedPair_iff (script : Fin 2 → List ScriptOp) (memory : CommittedMemory)
    (devices : DeviceHub) (policy : ArbitrationPolicy) (haltOnFault : Bool)
    (hvalid : ∀ c, ∀ ins ∈ script c, ins.valid = true)
    (hfits : ∀ n, ((Loop.step iterate)^[n]
      (start script { memory, devices, policy, trace := { haltOnFault } })).TicksFit) :
    (∃ fuel final, runScriptedPair fuel
        (start script { memory, devices, policy, trace := { haltOnFault } }) = some final ∧
        final.AllServed) ↔
      ∀ n, ¬ ((Loop.step iterate)^[n]
        (start script { memory, devices, policy, trace := { haltOnFault } })).Starved := by
  have hdriven := driven_start script memory devices policy haltOnFault hvalid
  generalize start script { memory, devices, policy, trace := { haltOnFault } } = s at *
  have hall : ∀ n, ((Loop.step iterate)^[n] s).Driven := by
    intro n
    induction n with
    | zero => exact hdriven
    | succ n ih =>
      have hnext := hfits (n + 1)
      rw [Function.iterate_succ_apply'] at hnext ⊢
      exact ih.step (hfits n) hnext
  constructor
  · rintro ⟨fuel, final, hrun, -⟩ n hstarved
    -- from a starved round on every round is starved, and none breaks
    have hafter : ∀ k, ((Loop.step iterate)^[k + n] s).Starved := by
      intro k
      induction k with
      | zero => rwa [Nat.zero_add]
      | succ k ih =>
        rw [Nat.add_right_comm, Function.iterate_succ_apply']
        exact (ih.step (hall _) (hfits _)).2
    obtain ⟨m, -, hbreak, hbefore, -⟩ := Loop.run_eq_some_iff.mp hrun
    rcases Nat.lt_or_ge m n with hlt | hge
    · obtain ⟨c, hc⟩ := hstarved.pending
      have hnone := pending_of_break hbreak (n - m) c
      rw [← Function.iterate_add_apply, Nat.sub_add_cancel (Nat.le_of_lt hlt)] at hnone
      rw [hnone] at hc
      exact absurd hc Bool.false_ne_true
    · have hm := hafter (m - n)
      rw [Nat.sub_add_cancel hge] at hm
      exact absurd ((hm.step (hall m) (hfits m)).1.symm.trans hbreak) Bool.false_ne_true
  · intro hstarved
    have hlower : ∀ t, (∃ n, t = (Loop.step iterate)^[n] s) → (iterate t).2 = false →
        (∃ n, Loop.step iterate t = (Loop.step iterate)^[n] s) ∧
          (Loop.step iterate t).budget < t.budget := by
      rintro t ⟨n, rfl⟩ hcont
      refine ⟨⟨n + 1, (Function.iterate_succ_apply' _ _ _).symm⟩, ?_⟩
      exact budget_step (hall n) (hfits n) (hstarved n) hcont
    obtain ⟨fuel, final, hrun⟩ := Loop.exists_run budget hlower ⟨0, rfl⟩
    obtain ⟨m, -, hbreak, -, rfl⟩ := Loop.run_eq_some_iff.mp hrun
    refine ⟨fuel, _, hrun, ?_⟩
    rw [Function.iterate_succ_apply']
    exact (hall m).allServed (hfits m) hbreak

/-- A write of CPU 0 at tick 0, beside a CPU 1 that computes until tick 5. -/
def writeBesideCompute : Fin 2 → List ScriptOp :=
  ![[{ kind := .write }], [{ kind := .compute, cycles := 5 }]]

open ScriptedPair in
theorem writeBesideCompute_rounds (n : Nat) :
    ((Loop.step iterate)^[n] (start writeBesideCompute
        { memory := .make 16, trace := { haltOnFault := false } })).TicksFit ∧
      ¬ ((Loop.step iterate)^[n] (start writeBesideCompute
        { memory := .make 16, trace := { haltOnFault := false } })).Starved := by
  have hd0 := driven_start writeBesideCompute (.make 16) {} defaultPolicy false (by decide)
  have hf0 : (start writeBesideCompute
      { memory := .make 16, trace := { haltOnFault := false } }).TicksFit :=
    ⟨by decide, by decide, by decide⟩
  have hf1 : (Loop.step iterate (start writeBesideCompute
      { memory := .make 16, trace := { haltOnFault := false } })).TicksFit :=
    ⟨by decide, by decide, by decide⟩
  cases n with
  | zero => exact ⟨hf0, by decide⟩
  | succ n => exact hf1.after_break (hd0.step hf0 hf1) (by decide) n

open ScriptedPair in
/-- The write is committed in the first round, and the loop ends in the second one. -/
theorem runScriptedPair_compute :
    ∃ fuel final, runScriptedPair fuel (start writeBesideCompute
      { memory := .make 16, trace := { haltOnFault := false } }) = some final ∧
        final.AllServed :=
  (runScriptedPair_iff writeBesideCompute (.make 16) {} defaultPolicy false (by decide)
    fun n => (writeBesideCompute_rounds n).1).mpr fun n => (writeBesideCompute_rounds n).2

open ScriptedPair in
/-- A write of CPU 0 beside an empty script is never committed. -/
theorem not_runScriptedPair_empty :
    let s := start ![[{ kind := .write }], []] { memory := .make 16 }
    (∀ c, ∀ ins ∈ (s.cpu c).script, ins.valid = true) ∧
      (∀ n, ((Loop.step iterate)^[n] s).TicksFit) ∧ ∀ fuel, runScriptedPair fuel s = none := by
  intro s
  have hvalid : ∀ c, ∀ ins ∈ (s.cpu c).script, ins.valid = true := by decide
  have hdriven : s.Driven := driven_start _ (.make 16) {} defaultPolicy false hvalid
  have hfit : s.TicksFit := ⟨by decide, by decide, by decide⟩
  have hstarved : s.Starved := Or.inl ⟨0, _, rfl, rfl, by decide⟩
  refine ⟨hvalid, fun n => (hstarved.ticksFit hdriven hfit n).1, fun fuel => ?_⟩
  cases hrun : runScriptedPair fuel s with
  | none => rfl
  | some final =>
    obtain ⟨m, -, hbreak, -⟩ := Loop.run_eq_some_iff.mp hrun
    exact absurd ((hstarved.ticksFit hdriven hfit m).2.symm.trans hbreak) Bool.false_ne_true

end Saturnis.Core
