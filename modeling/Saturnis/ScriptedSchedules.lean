/-
The multi-threaded driver under every schedule.

A schedule may make the arbiter thread miss a tie, and then the threads do not
do what the single-threaded driver does.  But they still make moves: whatever
the schedule, the threads stand at some state that moves lead to (`Tracks`),
since a commit of the arbiter thread serves one pending request after the other.

* `Tracks.move` — one step of a thread;
* `exists_moves` — a whole schedule;
* `multithread_serves` — **every operation is committed once, in program order**.
-/
import Saturnis.ScriptedAgree
import Saturnis.ScriptedMoves

namespace Saturnis.Core

open Saturnis.Core Saturnis.Mem Saturnis.Dev Saturnis.Bus Saturnis.Cpu

namespace Tracks

variable {s : ScriptedPair} {m : ScriptedThreads} {total : Nat}

/-- A result of the arbiter thread answers a request of the CPU it comes from. -/
theorem results_mem (h : Tracks s m) (hempty : m.outbox = []) (hs : s.fetch.publish.Sound)
    {r : BusOp × BusResponse} (hr : r ∈ results s m) :
    cpuOf r.1 ∈ requesters m.pending ∧
      r.1 = ((s.fetch.publish.pending (cpuOf r.1)).getD {}).op ∧
      ∃ (a : BusArbiter) (tie : Bool), r.2 = (a.executeCommit r.1 tie).2 := by
  have hatt := h.attributed hempty hs
  obtain ⟨hmem, hresp⟩ := BusArbiter.rounds_result _ _ _ r hr
  obtain ⟨c, hc, heq⟩ := List.mem_map.mp hmem
  have hcpu : cpuOf r.1 = c := by
    rw [← heq]
    exact hatt.cpuOf_ask hc
  rw [hcpu]
  exact ⟨hc, heq.symm, hresp⟩

theorem results_nodup (h : Tracks s m) (hempty : m.outbox = []) (hs : s.fetch.publish.Sound) :
    ((results s m).map fun r => cpuOf r.1).Nodup := by
  have hops := BusArbiter.rounds_nodup (requesters m.pending).length m.arb
    (h.attributed hempty hs).ops_nodup
  refine List.pairwise_map.mpr ((List.pairwise_map.mp hops).imp_of_mem fun {x y} hx hy hne heq => ?_)
  have hop := (h.results_mem hempty hs hx).2.1
  rw [heq] at hop
  exact hne (hop.trans (h.results_mem hempty hs hy).2.1.symm)

/-- The state the moves of a commit lead to: every result is answered. -/
def afterCommit (s : ScriptedPair) (m : ScriptedThreads) : ScriptedPair :=
  (results s m).foldl
    (fun t r => t.answer (cpuOf r.1, (s.fetch.publish.pending (cpuOf r.1)).getD {}) r.2)
    { s.fetch with arb := m.commit.arb }

/-- A commit of the arbiter thread serves the requests it takes. -/
theorem commit_moves (h : Tracks s m) (hempty : m.outbox = []) (hs : s.Sound) :
    ScriptedPair.Moves s.fetch (afterCommit s m) := by
  have hready : s.fetch.publish.Sound :=
    ⟨hs.fetch.cpuId, hs.fetch.lineSize, hs.fetch.outstanding⟩
  have hatt := h.attributed hempty hready
  have hnote : ScriptedPair.Moves s.fetch { s.fetch with arb := m.arb } :=
    .single (.note _ h.core)
  have hserves := ScriptedPair.serves_rounds (requesters m.pending).length
    (s := { s.fetch with arb := m.arb })
    ⟨hs.fetch.cpuId, hs.fetch.lineSize, hs.fetch.outstanding⟩
    (fun c hc => by
      obtain ⟨w, hw⟩ := Option.isSome_iff_exists.mp (mem_requesters.mp hc)
      have hpending : s.fetch.publish.pending c = some w := (h.pending_visible hempty hw).1
      rw [hpending]
      exact hpending)
    hatt (h.commit_spec hempty hready).1
  exact hnote.trans hserves.moves

/-- The moves of a commit, field by field. -/
theorem afterCommit_spec (h : Tracks s m) (hempty : m.outbox = []) (hs : s.fetch.publish.Sound) :
    (afterCommit s m).arb = m.commit.arb ∧
      (afterCommit s m).served = s.served ++ (results s m).map (fun r =>
        ((cpuOf r.1, (s.fetch.publish.pending (cpuOf r.1)).getD {}), r.2)) ∧
      (∀ r ∈ results s m,
        (afterCommit s m).cpu (cpuOf r.1) =
            ((s.fetch.cpu (cpuOf r.1)).applyResponse
              ((s.fetch.publish.pending (cpuOf r.1)).getD {}).scriptIndex r.2
              ((s.fetch.publish.pending (cpuOf r.1)).getD {}).op.producerToken).1 ∧
          (afterCommit s m).pending (cpuOf r.1) = none) ∧
      ∀ c, (∀ r ∈ results s m, cpuOf r.1 ≠ c) →
        (afterCommit s m).cpu c = s.fetch.cpu c ∧
          (afterCommit s m).pending c = s.fetch.pending c := by
  have hfault : ∀ r ∈ results s m,
      ((s.fetch.cpu (cpuOf r.1)).applyResponse
        ((s.fetch.publish.pending (cpuOf r.1)).getD {}).scriptIndex r.2
        ((s.fetch.publish.pending (cpuOf r.1)).getD {}).op.producerToken).2 = none := by
    intro r hr
    obtain ⟨hc, hop, a, tie, hresp⟩ := h.results_mem hempty hs hr
    obtain ⟨w, hw⟩ := Option.isSome_iff_exists.mp (mem_requesters.mp hc)
    have hpending : s.fetch.publish.pending (cpuOf r.1) = some w :=
      (h.pending_visible hempty hw).1
    rw [hpending, Option.getD_some] at hop ⊢
    rw [hresp, congrArg (a.executeCommit · tie) hop]
    exact (hs.outstanding _ _ hpending).no_fault (hs.lineSize _) a tie _
  obtain ⟨harb, hmem, hother⟩ := ScriptedPair.foldl_answer (results s m)
    (fun c => (s.fetch.publish.pending c).getD {}) { s.fetch with arb := m.commit.arb }
    (h.results_nodup hempty hs) hfault
  have hserved := ScriptedPair.foldl_answer_served (results s m)
    (fun c => (s.fetch.publish.pending c).getD {}) { s.fetch with arb := m.commit.arb }
  exact ⟨harb, hserved, hmem, hother⟩

/-- **A commit is some moves**, whatever ties it misses. -/
theorem commit_any (h : Tracks s m) (hempty : m.outbox = []) (hb : s.WithinBudget total)
    (htotal : total < tickModulus) :
    ScriptedPair.Moves s.fetch (afterCommit s m) ∧ Tracks (afterCommit s m) m.commit := by
  have hready : s.fetch.publish.Sound :=
    ⟨hb.sound.fetch.cpuId, hb.sound.fetch.lineSize, hb.sound.fetch.outstanding⟩
  have hatt := h.attributed hempty hready
  obtain ⟨harb, houtbox, hserved, hproducer, hpending, hreply⟩ := h.commit_spec hempty hready
  obtain ⟨harb', hserved', hmem, hother⟩ := h.afterCommit_spec hempty hready
  have hmoves := h.commit_moves hempty hb.sound
  have hfetched := hb.fetch htotal
  have hb' := ScriptedPair.Moves.withinBudget hmoves hfetched htotal
  have hlater : ∀ c, (s.fetch.cpu c).localTime ≤ ((afterCommit s m).fetch.cpu c).localTime :=
    ScriptedPair.Moves.localTime (hmoves.tail .fetch) hfetched htotal
  have hprogress := BusArbiter.rounds_progress (requesters m.pending).length m.arb
    ((requesters m.pending).map fun c => ((s.fetch.publish.pending c).getD {}).op)
  refine ⟨hmoves, ?_, ?_, ?_, fun c => ?_, fun c => ?_, hreply⟩
  · rw [harb']
  · rw [hserved, hserved', h.served]
  · exact (congrArg BusArbiter.progressTrackingEnabled harb).trans (hprogress.1.trans h.tracking)
  · obtain ⟨hstage, hmail, hann⟩ := h.lane c
    refine ⟨?_, fun t ht => ?_, fun t ht => ?_⟩
    · rw [hproducer, hpending,
        outboxOf_results (fun c => (s.fetch.publish.pending c).getD {}) houtbox]
      by_cases hr : ∃ r ∈ results s m, cpuOf r.1 = c
      · -- the request of `c` is committed
        obtain ⟨r, hr, rfl⟩ := hr
        obtain ⟨hcpu, hnone⟩ := hmem r hr
        obtain ⟨w, hw⟩ := Option.isSome_iff_exists.mp
          (mem_requesters.mp (h.results_mem hempty hready hr).1)
        obtain ⟨hwait, hcpu', hasks, hroute⟩ := h.pending_visible hempty hw
        have hask : s.fetch.publish.pending (cpuOf r.1) = some w := hwait
        have hstream : Streams.stream (fun x => cpuOf x.1) (cpuOf r.1) (results s m) = [r] :=
          Streams.stream_of_nodup (f := fun x : BusOp × BusResponse => cpuOf x.1)
            (h.results_nodup hempty hready) hr
        have happlied : (m.producer (cpuOf r.1)).applied
            ⟨w.scriptIndex, w.op.producerToken, r.2⟩ = (afterCommit s m).cpu (cpuOf r.1) := by
          rw [hcpu, hask, Option.getD_some, Producer.applied, hcpu']
        rw [hstream, hask, Option.getD_some, hw, List.map_singleton]
        refine ⟨_, none, .committed w ⟨w.scriptIndex, w.op.producerToken, r.2⟩ hasks ?_, ?_,
          fun _ => ?_⟩
        · simp only [Producer.route, Prod.mk.injEq] at hroute ⊢
          exact ⟨hroute.1, hroute.2.1, trivial, trivial, hroute.2.2.2.2⟩
        · rw [happlied, ← hnone]
          rfl
        · rw [happlied]
          exact hb'.produceFits htotal _
      · -- `c` stays as it is
        have hne : ∀ r ∈ results s m, cpuOf r.1 ≠ c := fun r hmem heq => hr ⟨r, hmem, heq⟩
        obtain ⟨hcpu, hpend⟩ := hother c hne
        have htarget : (((afterCommit s m).fetch.cpu c, (afterCommit s m).fetch.pending c) :
            ScriptedCPU × Option PendingBusOp) = (s.fetch.cpu c, s.fetch.pending c) := by
          change fetchCpu ((afterCommit s m).cpu c) ((afterCommit s m).pending c) = _
          rw [hcpu, hpend]
          exact fetchCpu_fetchCpu (s.cpu c) (s.pending c)
        rw [Streams.stream_eq_nil hne, htarget]
        rw [ScriptedThreads.outboxOf, hempty] at hstage
        exact hstage
    · rw [hproducer] at ht
      exact Nat.le_trans (hmail t ht) (Nat.succ_le_succ (hlater c))
    · rw [hproducer] at ht
      exact Nat.le_trans (hann t ht) (hlater c)
  · rw [show m.commit.arb.progressUpTo = m.arb.progressUpTo from
      (congrArg BusArbiter.progressUpTo harb).trans hprogress.2]
    exact (h.slot c).imp_right fun hle => Nat.le_trans hle (Nat.succ_le_succ (hlater c))

/-- A step that is no commit leaves the threads where they stand. -/
theorem stay (h : Tracks s m) {thread : Thread} (hstep : thread = .arbiter → m.phase ≠ .commit) :
    Tracks s (m.step thread) := by
  cases thread with
  | producer c => exact h.producer c
  | arbiter =>
    have hempty : m.phase ≠ .reply → m.outbox = [] := h.outbox
    rw [ScriptedThreads.step]
    cases hphase : m.phase with
    | poll c => exact h.pollRequest c hphase _
    | drain c => exact h.drain c hphase
    | reply => exact h.reply hphase
    | exited => exact h
    | survey =>
      exact ⟨h.core, h.served, h.tracking, h.lane, h.slot, fun _ => hempty (by rw [hphase]; simp)⟩
    | check =>
      change Tracks s m.check
      rw [ScriptedThreads.check]
      split_ifs <;>
        exact ⟨h.core, h.served, h.tracking, h.lane, h.slot, fun _ => hempty (by rw [hphase]; simp)⟩
    | wait =>
      simp only
      split_ifs
      · exact ⟨h.core, h.served, h.tracking, h.lane, h.slot, fun _ =>
          hempty (by rw [hphase]; simp)⟩
      · exact h
    | commit => exact absurd hphase (hstep rfl)

/-- **One step of a thread** stays where the threads stand or is some moves on. -/
theorem move (h : Tracks s m) (hb : s.WithinBudget total) (htotal : total < tickModulus)
    (thread : Thread) : ∃ s', ScriptedPair.Moves s s' ∧ Tracks s' (m.step thread) := by
  by_cases hcommit : thread = .arbiter ∧ m.phase = .commit
  · obtain ⟨rfl, hphase⟩ := hcommit
    obtain ⟨hmoves, htracks⟩ := h.commit_any (h.outbox (by rw [hphase]; simp)) hb htotal
    rw [ScriptedThreads.step, hphase]
    exact ⟨_, .head .fetch hmoves, htracks⟩
  · exact ⟨s, .refl, h.stay fun hthread hphase => hcommit ⟨hthread, hphase⟩⟩

/-- **Whatever the schedule**, the threads stand where some moves lead. -/
theorem exists_moves (h : Tracks s m) (hb : s.WithinBudget total) (htotal : total < tickModulus)
    (schedule : List Thread) :
    ∃ s', ScriptedPair.Moves s s' ∧ Tracks s' (m.run schedule) := by
  induction schedule generalizing s m with
  | nil => exact ⟨s, .refl, h⟩
  | cons thread schedule ih =>
    obtain ⟨s₁, hmoves, htracks⟩ := h.move hb htotal thread
    obtain ⟨s₂, hmoves', htracks'⟩ := ih htracks (ScriptedPair.Moves.withinBudget hmoves hb htotal)
    exact ⟨s₂, hmoves.trans hmoves', htracks'⟩

end Tracks

/-! ### What has been committed -/

namespace ScriptedThreads

/-- The operations of a CPU the arbiter thread has committed. -/
def servedTo (m : ScriptedThreads) (c : Fin 2) : List PendingBusOp :=
  (m.served.filter fun x => x.1.1 = c).map (·.1.2)

/-- The arbiter has recorded exactly what it committed, without a fault; the
operations of a CPU are committed in program order, each of them once.  At the
end of a run they are all that the CPU has issued, and none that needs the bus in
any case is missing. -/
structure ServesOnce (script : Fin 2 → List ScriptOp) (m : ScriptedThreads) : Prop where
  records : m.arb.trace.commits = m.served.map fun x => BusArbiter.record x.1.2.op x.2
  faults : m.arb.trace.faults = []
  sequence : ∀ c, (m.servedTo c).map (·.op.sequence) = List.range (m.servedTo c).length
  increasing : ∀ c, (m.servedTo c).Pairwise fun p q => p.scriptIndex < q.scriptIndex
  matches_ : ∀ c, ∀ p ∈ m.servedTo c, ∃ ins, (script c)[p.scriptIndex]? = some ins ∧
    ins.Matches 16 p.op
  counted : m.Finished → ∀ c, (m.servedTo c).length = (m.producer c).cpu.sequence
  complete : m.Finished → ∀ c k ins, (script c)[k]? = some ins → ins.onBus = true →
    ∃ p ∈ m.servedTo c, p.scriptIndex = k

end ScriptedThreads

namespace Tracks

variable {s : ScriptedPair} {m : ScriptedThreads} {script : Fin 2 → List ScriptOp}

/-- A producer that has returned has the CPU of the round. -/
theorem cpu_of_finished (h : Tracks s m) (hfinished : m.Finished) (c : Fin 2) :
    s.fetch.cpu c = (m.producer c).cpu ∧ s.fetch.pending c = none ∧
      (m.producer c).cpu.done = true := by
  have hphase := hfinished.2 c
  obtain ⟨⟨cpu, pending, hstage, htarget, -⟩, -, -⟩ := h.lane c
  cases hstage with
  | ended _ _ hdone =>
    rw [fetchCpu_none, ScriptedCPU.produce_of_done hdone] at htarget
    obtain ⟨hcpu, hpending⟩ := Prod.mk.inj htarget
    exact ⟨hcpu.symm, hpending.symm, hdone⟩
  | idle hph _ => rcases hph with hph | hph <;> rw [hphase] at hph <;> exact absurd hph (by simp)
  | applied _ hph _ => rw [hphase] at hph; exact absurd hph (by simp)
  | _ =>
    -- the other ones wait for a response
    rename_i hph _
    rw [hphase] at hph
    exact absurd hph Bool.false_ne_true

/-- At the end of a run everything issued has been served. -/
theorem issued_of_finished (h : Tracks s m) (hs : s.Steady) (hfinished : m.Finished) (c : Fin 2) :
    (m.producer c).cpu.Issued (s.servedTo c) := by
  obtain ⟨hcpu, hpending, -⟩ := h.cpu_of_finished hfinished c
  have hissued := ScriptedPair.issued_fetch s hs.issued c
  have hall : s.fetch.issued c = s.servedTo c := by
    rw [ScriptedPair.issued, hpending, Option.toList_none, List.append_nil]
    rfl
  rw [hcpu, hall] at hissued
  exact hissued

theorem servesOnce (h : Tracks s m) (hs : s.Steady) (hscript : ∀ c, (s.cpu c).script = script c) :
    m.ServesOnce script := by
  have hserved : ∀ c, m.servedTo c = s.servedTo c := fun c => by
    rw [ScriptedThreads.servedTo, h.served, ScriptedPair.servedTo]
  refine ⟨?_, ?_, fun c => ?_, fun c => ?_, fun c p hp => ?_, fun hfinished c => ?_,
    fun hfinished c k ins hget hbus => ?_⟩
  · rw [BusArbiter.core_trace h.core, hs.records, h.served]
  · rw [BusArbiter.core_trace h.core, hs.faults]
  · -- what is served is the front of what was issued
    have hseq := (hs.issued c).sequence
    rw [ScriptedPair.issued, List.map_append] at hseq
    have htake := congrArg (List.take (s.servedTo c).length) hseq
    rw [List.take_append_of_le_length (by rw [List.length_map]), List.take_of_length_le
      (by rw [List.length_map]), List.take_range] at htake
    have hlen := congrArg List.length hseq
    rw [List.length_append, List.length_map, List.length_range] at hlen
    rw [hserved, htake, Nat.min_eq_left (by omega)]
  · rw [hserved]
    exact (List.pairwise_append.mp (hs.issued c).increasing).1
  · rw [hserved] at hp
    obtain ⟨ins, hget, hmatches⟩ := (hs.issued c).matches_ p (List.mem_append_left _ hp)
    rw [hs.sound.lineSize] at hmatches
    exact ⟨ins, (hscript c) ▸ hget, hmatches⟩
  · have hlength := congrArg List.length (h.issued_of_finished hs hfinished c).sequence
    rw [List.length_map, List.length_range] at hlength
    rw [hserved, hlength]
  · -- a producer that has returned stands at the end of its script
    obtain ⟨hcpu, -, hdone⟩ := h.cpu_of_finished hfinished c
    have hget' : (m.producer c).cpu.script[k]? = some ins := by
      rw [← hcpu, ScriptedPair.fetch_script, hscript]
      exact hget
    have hlt := (List.getElem?_eq_some_iff.mp hget').1
    have hpc := of_decide_eq_true hdone
    rw [hserved]
    exact (h.issued_of_finished hs hfinished c).onBus k ins hget' (by omega) hbus

end Tracks

/-- **Under every schedule of the multi-threaded driver** the operations of each
CPU are committed in program order, each exactly once, and without a fault. -/
theorem multithread_serves (script : Fin 2 → List ScriptOp) (memory : CommittedMemory)
    (devices : DeviceHub) (policy : ArbitrationPolicy) (haltOnFault : Bool)
    (hvalid : ∀ c, ∀ ins ∈ script c, ins.valid = true)
    (hbudget : ScriptedPair.tickBudget script < tickModulus) (schedule : List Thread) :
    ((ScriptedThreads.start script
      { memory, devices, policy, trace := { haltOnFault } }).run schedule).ServesOnce script := by
  have hb := ScriptedPair.withinBudget_start script memory devices policy haltOnFault hvalid
  have hstart := Tracks.start script { memory, devices, policy, trace := { haltOnFault } }
    (fun _ => rfl) (hb.ticksFit hbudget rfl)
  obtain ⟨s, hmoves, htracks⟩ := hstart.exists_moves hb hbudget schedule
  exact htracks.servesOnce (ScriptedPair.Moves.withinBudget hmoves hb hbudget).toSteady
    (ScriptedPair.Moves.script hmoves)

/-- Both CPUs write at tick 0, and the arbiter thread has passed the request mailbox
of CPU 1 when the request comes. -/
theorem multithread_serves_tie :
    ((ScriptedThreads.start ![[{ kind := .write }], [{ kind := .write, vaddr := 8 }]]
        { memory := .make 16, trace := { haltOnFault := false } }).run
      ([.producer 0, .producer 0, .arbiter, .arbiter, .producer 1, .producer 1] ++
        List.replicate 6 .arbiter ++ inTurn 25)).ServesOnce
      ![[{ kind := .write }], [{ kind := .write, vaddr := 8 }]] :=
  multithread_serves ![[{ kind := .write }], [{ kind := .write, vaddr := 8 }]] (.make 16) {}
    defaultPolicy false (by decide) (by decide) _

end Saturnis.Core
