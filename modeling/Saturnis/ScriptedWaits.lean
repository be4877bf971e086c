/-
How long a scripted CPU waits for the bus.

The arbiter thread commits an operation only when the other CPU has passed the
tick it was requested at.  So an operation that has to wait finds one operation
of the other CPU on the bus, and starts when that ends: nothing overtakes it.

* `Prompt` — the COMMIT records so far, and the bus against the clocks;
* `Prompt.serve` — an operation that both CPUs have come to is served promptly;
* `commit_prompt` — the arbiter thread serves no others;
* `multithread_waits` — **no operation waits for more than one other**.
-/
import Saturnis.ScriptedSchedules

namespace Saturnis.Core

open Saturnis.Core Saturnis.Mem Saturnis.Dev Saturnis.Bus Saturnis.Cpu

/-- The records are a timeline of operations of at most 15 ticks; each starts
when it is requested, or at the end of an operation of the other CPU that has
the bus at that tick. -/
structure FirstCome (commits : List CommitEvent) : Prop where
  timeline : commits.Pairwise fun e e' => e.tEnd ≤ e'.tStart
  takes : ∀ e ∈ commits, e.op.reqTime ≤ e.tStart ∧ e.tStart < e.tEnd ∧ e.tEnd ≤ e.tStart + 15
  waits : ∀ e ∈ commits, e.tStart = e.op.reqTime ∨ ∃ e' ∈ commits,
    e'.op.cpuId ≠ e.op.cpuId ∧ e'.tStart ≤ e.op.reqTime ∧ e.op.reqTime < e'.tEnd ∧
      e.tStart = e'.tEnd

theorem FirstCome.concat {commits : List CommitEvent} {e : CommitEvent} (h : FirstCome commits)
    (hafter : ∀ e' ∈ commits, e'.tEnd ≤ e.tStart)
    (htakes : e.op.reqTime ≤ e.tStart ∧ e.tStart < e.tEnd ∧ e.tEnd ≤ e.tStart + 15)
    (hwaits : e.tStart = e.op.reqTime ∨ ∃ e' ∈ commits, e'.op.cpuId ≠ e.op.cpuId ∧
      e'.tStart ≤ e.op.reqTime ∧ e.op.reqTime < e'.tEnd ∧ e.tStart = e'.tEnd) :
    FirstCome (commits ++ [e]) := by
  refine ⟨?_, fun x hx => ?_, fun x hx => ?_⟩
  · refine List.pairwise_append.mpr ⟨h.timeline, List.pairwise_singleton _ _, fun x hx y hy => ?_⟩
    rw [List.mem_singleton.mp hy]
    exact hafter x hx
  · rcases List.mem_append.mp hx with hx | hx
    · exact h.takes x hx
    · rw [List.mem_singleton.mp hx]
      exact htakes
  · have hmore : ∀ {P : CommitEvent → Prop}, (∃ e' ∈ commits, P e') → ∃ e' ∈ commits ++ [e], P e' :=
      fun ⟨e', he', hp⟩ => ⟨e', List.mem_append_left _ he', hp⟩
    rcases List.mem_append.mp hx with hx | hx
    · exact (h.waits x hx).imp_right hmore
    · rw [List.mem_singleton.mp hx]
      exact hwaits.imp_right hmore

namespace ScriptedPair

variable {s s' : ScriptedPair} {c : Fin 2} {p : PendingBusOp} {total : Nat}

/-- The bus against the clocks: the CPU of the last record stands where the bus
got free, and the other one is not before the start of that record. -/
structure Prompt (s : ScriptedPair) : Prop where
  firstCome : FirstCome s.arb.trace.commits
  ended : ∀ e ∈ s.arb.trace.commits, e.tEnd ≤ s.arb.busFreeTime
  last : s.arb.busFreeTime = 0 ∨ ∃ e ∈ s.arb.trace.commits, ∃ c : Fin 2,
    e.op.cpuId = c.val ∧ e.tEnd = s.arb.busFreeTime ∧ e.tEnd ≤ (s.cpu c).localTime ∧
      ∀ d, d ≠ c → e.tStart ≤ (s.cpu d).localTime

theorem prompt_start (script : Fin 2 → List ScriptOp) (memory : CommittedMemory)
    (devices : DeviceHub) (policy : ArbitrationPolicy) (haltOnFault : Bool) :
    (start script { memory, devices, policy, trace := { haltOnFault } }).Prompt := by
  have hnone : ∀ e, e ∉ (start script
      { memory, devices, policy, trace := { haltOnFault } }).arb.trace.commits :=
    fun _ => List.not_mem_nil
  exact ⟨⟨.nil, fun e he => absurd he (hnone e), fun e he => absurd he (hnone e)⟩,
    fun e he => absurd he (hnone e), Or.inl rfl⟩

/-- Clocks that go on leave the bus behind. -/
theorem Prompt.later (h : s.Prompt) (harb : s'.arb.core = s.arb.core)
    (hlater : ∀ c, (s.cpu c).localTime ≤ (s'.cpu c).localTime) : s'.Prompt := by
  have htrace := BusArbiter.core_trace harb
  have hbus := BusArbiter.core_busFreeTime harb
  refine ⟨?_, ?_, ?_⟩
  · rw [htrace]
    exact h.firstCome
  · rw [htrace, hbus]
    exact h.ended
  · rw [htrace, hbus]
    refine h.last.imp_right fun ⟨e, he, c, hcpu, hend, hown, hother⟩ => ?_
    exact ⟨e, he, c, hcpu, hend, Nat.le_trans hown (hlater c),
      fun d hd => Nat.le_trans (hother d hd) (hlater d)⟩

/-- **An operation that both CPUs have come to is served promptly.** -/
theorem Prompt.serve (h : s.Prompt) (hb : s.WithinBudget total) (htotal : total < tickModulus)
    (hp : s.pending c = some p) (tie : Bool)
    (hcome : ∀ d, p.op.reqTime ≤ (s.cpu d).localTime) : (s.serve c p tie).Prompt := by
  have hout := hb.sound.outstanding c p hp
  have hreq := hout.reqTime
  have hcpu : p.op.cpuId = c.val := hout.cpuId.trans (hb.sound.cpuId c)
  have harb := (hb.serve_eq hp tie).1
  have hclock := hb.serve_localTime hp tie
  have hcommits : (s.serve c p tie).arb.trace.commits = s.arb.trace.commits ++
      [BusArbiter.record p.op (s.arb.grant p.op tie).2] := by
    rw [harb, BusArbiter.grant_commits]
  have hbus : (s.serve c p tie).arb.busFreeTime = (s.arb.grant p.op tie).2.commitTime := by
    rw [harb]
    rfl
  have hlatency := BusArbiter.totalLatency_bounds hb.latency p.op tie
  have hcommit := hb.commitTime htotal hp tie
  have hstart : (s.arb.grant p.op tie).2.startTime = max p.op.reqTime s.arb.busFreeTime := rfl
  have hbehind : ∀ d, d ≠ c → s.arb.busFreeTime ≤ (s.cpu d).localTime := by
    intro d hd
    have hcome := hcome d
    rcases h.last with hzero | ⟨e, he, b, hown, hend, hle, hother⟩
    · omega
    · by_cases hbd : b = d
      · rw [hbd] at hle
        omega
      · rw [show b = c by omega] at hle
        omega
  refine ⟨?_, fun e he => ?_, ?_⟩
  · rw [hcommits]
    refine h.firstCome.concat (fun e he => ?_) ?_ ?_
    · change e.tEnd ≤ (s.arb.grant p.op tie).2.startTime
      have := h.ended e he
      omega
    · change p.op.reqTime ≤ (s.arb.grant p.op tie).2.startTime ∧ (s.arb.grant p.op tie).2.startTime <
        (s.arb.grant p.op tie).2.commitTime ∧ (s.arb.grant p.op tie).2.commitTime ≤
          (s.arb.grant p.op tie).2.startTime + 15
      omega
    · change (s.arb.grant p.op tie).2.startTime = p.op.reqTime ∨ ∃ e ∈ s.arb.trace.commits,
        e.op.cpuId ≠ p.op.cpuId ∧ e.tStart ≤ p.op.reqTime ∧ p.op.reqTime < e.tEnd ∧
          (s.arb.grant p.op tie).2.startTime = e.tEnd
      by_cases hfree : s.arb.busFreeTime ≤ p.op.reqTime
      · exact Or.inl (by omega)
      · rcases h.last with hzero | ⟨e, he, b, hown, hend, hle, hother⟩
        · omega
        · -- a CPU that had the bus last would go on from there
          have hne : c ≠ b := by
            rintro rfl
            omega
          have hbefore := hother c hne
          refine Or.inr ⟨e, he, ?_, by omega, by omega, by omega⟩
          rw [hown, hcpu]
          exact fun heq => hne (Fin.ext (by omega))
  · rw [hbus]
    rw [hcommits] at he
    rcases List.mem_append.mp he with he | he
    · have := h.ended e he
      omega
    · rw [List.mem_singleton.mp he]
      exact Nat.le_refl _
  · -- the other CPU has come to the request, and to what was on the bus before it
    refine Or.inr ⟨BusArbiter.record p.op (s.arb.grant p.op tie).2, ?_, c, hcpu, hbus.symm, ?_,
      fun d hd => ?_⟩
    · rw [hcommits]
      exact List.mem_append_right _ List.mem_cons_self
    · rw [hclock]
      exact Nat.le_refl _
    · rw [s.serve_cpu_of_ne hd]
      change (s.arb.grant p.op tie).2.startTime ≤ _
      rw [hstart]
      exact Nat.max_le.mpr ⟨hcome d, hbehind d hd⟩

/-- The rounds of a batch of operations that both CPUs have come to. -/
theorem Prompt.rounds (n : Nat) {cs : List (Fin 2)} {ask : Fin 2 → PendingBusOp} (h : s.Prompt)
    (hb : s.WithinBudget total) (htotal : total < tickModulus)
    (hask : ∀ c ∈ cs, s.pending c = some (ask c)) (hatt : Attributed cs ask) {arb : BusArbiter}
    (harb : arb.core = (BusArbiter.rounds n s.arb (cs.map fun c => (ask c).op)).1.core)
    (hcome : ∀ op, s.arb.isCommittable op = true → ∀ d, op.reqTime ≤ (s.cpu d).localTime) :
    ((BusArbiter.rounds n s.arb (cs.map fun c => (ask c).op)).2.foldl
      (fun (t : ScriptedPair) r => t.answer (cpuOf r.1, ask (cpuOf r.1)) r.2)
      { s with arb }).Prompt := by
  induction n generalizing s cs with
  | zero => exact h.later harb fun c => Nat.le_refl _
  | succ n ih =>
    cases hround : s.arb.opRound (cs.map fun c => (ask c).op) with
    | none =>
      rw [BusArbiter.rounds_of_none hround] at harb ⊢
      exact h.later harb fun c => Nat.le_refl _
    | some round =>
      obtain ⟨w, tie⟩ := round
      obtain ⟨hmem, hcommittable⟩ := BusArbiter.mem_candidates.mp
        (BusArbiter.choice_mem (BusArbiter.opRound_eq_some.mp hround).2.1)
      obtain ⟨c, hc, rfl⟩ := List.mem_map.mp hmem
      have hserve := hb.sound.serve_arb (hask c hc) tie
      have hask' : ∀ d ∈ cs.erase c, (s.serve c (ask c) tie).pending d = some (ask d) := by
        intro d hd
        have hne : d ≠ c := ((hatt.nodup.mem_erase_iff).mp hd).1
        rw [ScriptedPair.serve, answer_pending, Function.update_of_ne hne]
        exact hask d (List.mem_of_mem_erase hd)
      rw [BusArbiter.rounds_of_some hround, hatt.erase_ask hc] at harb ⊢
      rw [List.foldl_cons]
      simp only [hatt.cpuOf_ask hc]
      rw [hb.sound.answer_eq (hask c hc)]
      rw [← hserve] at harb ⊢
      refine ih (h.serve hb htotal (hask c hc) tie (hcome _ hcommittable))
        (hb.serve htotal (hask c hc) tie) hask' (hatt.sublist List.erase_sublist) harb ?_
      -- what may be committed stays so, and no clock runs back
      intro op hop d
      rw [hserve, BusArbiter.executeCommit_isCommittable] at hop
      exact Nat.le_trans (hcome op hop d) ((Move.serve c (ask c) tie (hask c hc)).localTime hb htotal d)

end ScriptedPair

namespace Tracks

variable {s : ScriptedPair} {m : ScriptedThreads} {total : Nat}

/-- A commit of the arbiter thread serves operations that both CPUs have come to. -/
theorem commit_prompt (h : Tracks s m) (hempty : m.outbox = []) (hb : s.WithinBudget total)
    (htotal : total < tickModulus) (hprompt : s.Prompt) : (afterCommit s m).Prompt := by
  have hready : s.fetch.publish.Sound :=
    ⟨hb.sound.fetch.cpuId, hb.sound.fetch.lineSize, hb.sound.fetch.outstanding⟩
  have hfetched : s.fetch.Prompt :=
    hprompt.later rfl (ScriptedPair.Moves.localTime (.single .fetch) hb htotal)
  have hnoted : ({ s.fetch with arb := m.arb } : ScriptedPair).Prompt :=
    hfetched.later h.core fun _ => Nat.le_refl _
  refine hnoted.rounds _ ((hb.fetch htotal).note h.core) htotal (fun c hc => ?_)
    (h.attributed hempty hready) (BusArbiter.resetEnqueued_core (h.commit_spec hempty hready).1)
    fun op hop => BusArbiter.reqTime_le_of_isCommittable h.tracking h.slot hop
  obtain ⟨w, hw⟩ := Option.isSome_iff_exists.mp (mem_requesters.mp hc)
  have hpending : s.fetch.publish.pending c = some w := (h.pending_visible hempty hw).1
  rw [hpending]
  exact hpending

theorem exists_prompt (h : Tracks s m) (hb : s.WithinBudget total) (htotal : total < tickModulus)
    (hprompt : s.Prompt) (schedule : List Thread) :
    ∃ s', s'.WithinBudget total ∧ Tracks s' (m.run schedule) ∧ s'.Prompt := by
  induction schedule generalizing s m with
  | nil => exact ⟨s, hb, h, hprompt⟩
  | cons thread schedule ih =>
    by_cases hcommit : thread = .arbiter ∧ m.phase = .commit
    · obtain ⟨rfl, hphase⟩ := hcommit
      have hempty : m.outbox = [] := h.outbox (by rw [hphase]; simp)
      obtain ⟨hmoves, htracks⟩ := h.commit_any hempty hb htotal
      have hstep : m.step .arbiter = m.commit := by rw [ScriptedThreads.step, hphase]
      rw [← hstep] at htracks
      exact ih htracks (ScriptedPair.Moves.withinBudget hmoves (hb.fetch htotal) htotal)
        (h.commit_prompt hempty hb htotal hprompt)
    · exact ih (h.stay fun hthread hphase => hcommit ⟨hthread, hphase⟩) hb hprompt

end Tracks

/-- **Under every schedule of the multi-threaded driver** the COMMIT records are a
timeline inside the tick budget, and an operation that has to wait is the next one
behind the operation of the other CPU that has the bus. -/
theorem multithread_waits (script : Fin 2 → List ScriptOp) (memory : CommittedMemory)
    (devices : DeviceHub) (policy : ArbitrationPolicy) (haltOnFault : Bool)
    (hvalid : ∀ c, ∀ ins ∈ script c, ins.valid = true)
    (hbudget : ScriptedPair.tickBudget script < tickModulus) (schedule : List Thread) :
    FirstCome ((ScriptedThreads.start script
        { memory, devices, policy, trace := { haltOnFault } }).run schedule).arb.trace.commits ∧
      (∀ e ∈ ((ScriptedThreads.start script
        { memory, devices, policy, trace := { haltOnFault } }).run schedule).arb.trace.commits,
        e.tEnd ≤ ((ScriptedThreads.start script
          { memory, devices, policy, trace := { haltOnFault } }).run schedule).arb.busFreeTime) ∧
      ((ScriptedThreads.start script
        { memory, devices, policy, trace := { haltOnFault } }).run schedule).arb.busFreeTime ≤
          ScriptedPair.tickBudget script := by
  have hb := ScriptedPair.withinBudget_start script memory devices policy haltOnFault hvalid
  have hstart := Tracks.start script { memory, devices, policy, trace := { haltOnFault } }
    (fun _ => rfl) (hb.ticksFit hbudget rfl)
  obtain ⟨s, hb', htracks, hprompt⟩ := hstart.exists_prompt hb hbudget
    (ScriptedPair.prompt_start script memory devices policy haltOnFault) schedule
  rw [BusArbiter.core_trace htracks.core, BusArbiter.core_busFreeTime htracks.core]
  exact ⟨hprompt.firstCome, hprompt.ended, Nat.le_trans (Nat.le_add_right _ _) hb'.bus⟩

/-- Both CPUs write to one address at tick 0, and the arbiter thread misses the tie. -/
theorem multithread_waits_missed :
    let m := (ScriptedThreads.start
        ![[{ kind := .write }, { kind := .write }], [{ kind := .write }]]
        { memory := .make 16, trace := { haltOnFault := false } }).run
      ([.producer 0, .producer 0, .arbiter, .arbiter, .producer 1, .producer 1] ++ inTurn 40)
    FirstCome m.arb.trace.commits ∧ (∀ e ∈ m.arb.trace.commits, e.tEnd ≤ m.arb.busFreeTime) ∧
      m.arb.busFreeTime ≤ 45 :=
  multithread_waits ![[{ kind := .write }, { kind := .write }], [{ kind := .write }]] (.make 16) {}
    defaultPolicy false (by decide) (by decide) _

end Saturnis.Core
