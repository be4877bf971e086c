/-
`run_bios_trace` returns.

An iteration that leaves a core without an operation has run that core through
its budget.  If both cores wait, the watermarks are one above the request times,
so the older operation is before the horizon and is committed.  Either way the
number of retired instructions grows.

* `Sound.iterate` — every iteration that is made raises the total;
* `ticksBelow_of_le` — up to 2 ^ 56 steps the ticks stay below their modulus;
* `runBiosTrace_returns` — the function returns while they do.
-/
import Saturnis.BiosTicks

namespace Saturnis.Core

open Saturnis.Core Saturnis.Mem Saturnis.Bus Saturnis.Cpu

namespace BiosRun

variable {s : BiosRun} {c d : Fin 2}

/-! ### The horizon -/

theorem updateProgress_above (arb : BusArbiter) (c : Fin 2) {t : Nat} (h : t ≠ tickMax) :
    t ≤ (arb.updateProgress c.val t).progressUpTo c ∧
      (arb.updateProgress c.val t).progressUpTo c ≠ tickMax := by
  rw [BusArbiter.updateProgress_self]
  split
  · exact ⟨Nat.le_refl t, h⟩
  · rename_i hkeep
    rw [not_or, Nat.not_lt] at hkeep
    exact ⟨hkeep.2, hkeep.1⟩

theorem publish_above (s : BiosRun) (c : Fin 2) (h : s.mark c ≠ tickMax) :
    s.mark c ≤ s.publish.arb.progressUpTo c ∧ s.publish.arb.progressUpTo c ≠ tickMax := by
  match c with
  | 0 =>
    have hkeep : s.publish.arb.progressUpTo 0 = (s.arb.updateProgress 0 (s.mark 0)).progressUpTo 0 :=
      BusArbiter.updateProgress_of_ne _ (show (0 : Fin 2) ≠ 1 by decide) (s.mark 1)
    rw [hkeep]
    exact updateProgress_above s.arb 0 h
  | 1 => exact updateProgress_above (s.arb.updateProgress 0 (s.mark 0)) 1 h

theorem three_le_baseLatency {arb : BusArbiter} (h : arb.latency = {}) {op : BusOp}
    (hkind : op.kind ≠ .barrier) : 3 ≤ arb.baseLatency op := by
  rw [BusArbiter.baseLatency, if_neg hkind, h]
  split_ifs <;> decide

/-- Where both cores wait, the older operation is before the horizon. -/
theorem publish_committable (s : BiosRun)
    (h : ∀ c, ∃ op, s.p c = some op ∧ op.reqTime + 3 < tickModulus) :
    ∃ c op, s.p c = some op ∧ s.publish.arb.isCommittable op = true := by
  obtain ⟨x, hx, hfitx⟩ := h 0
  obtain ⟨y, hy, hfity⟩ := h 1
  have hmax : tickModulus = tickMax + 1 := by decide
  have hmark : ∀ c op, s.p c = some op → op.reqTime + 3 < tickModulus →
      op.reqTime < s.publish.arb.progressUpTo c ∧ s.publish.arb.progressUpTo c ≠ tickMax := by
    intro c op hop hfit
    have hsum : s.mark c = op.reqTime + 1 := by
      rw [mark, hop]
      exact tickAdd_of_lt (by omega)
    obtain ⟨habove, hne⟩ := s.publish_above c (by omega)
    exact ⟨by omega, hne⟩
  obtain ⟨hltx, hnex⟩ := hmark 0 x hx hfitx
  obtain ⟨hlty, hney⟩ := hmark 1 y hy hfity
  have hcommittable : ∀ op : BusOp, op.reqTime < s.publish.arb.progressUpTo 0 →
      op.reqTime < s.publish.arb.progressUpTo 1 → s.publish.arb.isCommittable op = true := by
    intro op h₀ h₁
    have hbefore : op.reqTime < s.publish.arb.commitHorizon := Nat.lt_min.mpr ⟨h₀, h₁⟩
    simp [BusArbiter.isCommittable, BusArbiter.hasSafeHorizon, hnex, hney, hbefore]
  rcases Nat.le_total x.reqTime y.reqTime with hle | hle
  · exact ⟨0, x, hx, hcommittable x hltx (by omega)⟩
  · exact ⟨1, y, hy, hcommittable y (by omega) hlty⟩

theorem Sound.slot (hs : s.Sound) {op : BusOp} (h : s.p c = some op) :
    producerSlot op = c.castSucc := by
  rw [(hs.issues c op h).slot, SH2Core.slot, hs.cpuId]
  match c with
  | 0 => rfl
  | 1 => rfl

/-- A batch with an operation that may be committed commits one. -/
theorem Sound.answered_ne_nil (hs : s.Sound) {op : BusOp} (hop : s.p c = some op)
    (hcommittable : s.arb.isCommittable op = true) : s.answered ≠ [] := by
  have hslots : (s.fetches.map (·.2)).Pairwise fun x y => producerSlot x ≠ producerSlot y := by
    refine List.pairwise_map.mpr ?_
    have hcores := List.pairwise_map.mp s.fetches_nodup
    refine hcores.imp_of_mem fun {x y} hx hy hne heq => hne ?_
    rw [hs.slot (mem_fetches.mp hx), hs.slot (mem_fetches.mp hy)] at heq
    exact Fin.castSucc_inj.mp heq
  have hordered := hslots.imp (S := fun x y => producerSlot x = producerSlot y →
    x.reqTime ≤ y.reqTime) fun {_ _} hne heq => absurd heq hne
  have hnodup : (s.fetches.map (·.2)).Nodup := hslots.imp fun {x y} hne heq => hne (by rw [heq])
  have hmem : op ∈ s.fetches.map (·.2) :=
    List.mem_map_of_mem (f := (·.2)) (mem_fetches (x := (c, op)).mpr hop)
  have hrounds := (BusArbiter.commitBatch_eq_rounds_of_ordered s.arb hordered hnodup).2
  intro hnil
  rw [List.map_eq_nil_iff.mp hnil, List.map_nil] at hrounds
  have hround : s.arb.opRound (s.fetches.map (·.2)) ≠ none := by
    intro hnone
    rcases BusArbiter.opRound_eq_none.mp hnone with hhalt | hcand
    · exact absurd (hs.ready.clear.shouldHalt.symm.trans hhalt) (by decide)
    · have := BusArbiter.mem_candidates.mpr ⟨hmem, hcommittable⟩
      rw [hcand] at this
      exact absurd this List.not_mem_nil
  obtain ⟨⟨w, tie⟩, hsome⟩ := Option.ne_none_iff_exists'.mp hround
  obtain ⟨n, hn⟩ := Nat.exists_eq_succ_of_ne_zero
    (Nat.ne_of_gt (List.length_pos_of_mem hmem))
  rw [hn, BusArbiter.rounds_of_some hsome] at hrounds
  exact absurd hrounds (by simp)

/-! ### Iterations -/

theorem iterate_of_lt {maxSteps : Nat} (h : s.executed < maxSteps) :
    (iterate maxSteps s).1 = if s.prepare.fetches.isEmpty then s.prepare else s.prepare.commit := by
  rw [iterate, if_pos h]
  simp only
  split
  · rfl
  · rfl

/-- An iteration that is made retires an instruction or a phase of one. -/
theorem Sound.iterate (hs : s.Sound) {maxSteps : Nat} (h : s.executed < maxSteps)
    (hticks : s.TicksBelow) :
    (iterate maxSteps s).1.Sound ∧ s.total < (iterate maxSteps s).1.total := by
  obtain ⟨hprepare, hruns⟩ := hs.prepare hticks.produce
  obtain ⟨hcommit, hkept, hone⟩ := hprepare.commit hticks.respond
  have hfirst := (hruns 0).executed
  have hsecond := (hruns 1).executed
  have hfirst' := hkept 0
  have hsecond' := hkept 1
  -- one core that moved forward is enough, as neither moves back
  have hsome : ∀ (c : Fin 2) (s' : BiosRun), (s.core 0).executed ≤ (s'.core 0).executed →
      (s.core 1).executed ≤ (s'.core 1).executed →
      (s.core c).executed < (s'.core c).executed → s.total < s'.total := by
    intro c s' h₀ h₁ hlt
    rw [total, total]
    match c with
    | 0 => omega
    | 1 => omega
  rw [iterate_of_lt h]
  by_cases hwait : ∃ c, s.prepare.p c = none
  · -- a core has run through its budget
    obtain ⟨c, hc⟩ := hwait
    have hall := (hruns c).all hc
    have hmore := hkept c
    split
    · exact ⟨hprepare, hsome c _ hfirst hsecond (by omega)⟩
    · exact ⟨hcommit, hsome c _ (by omega) (by omega) (by omega)⟩
  · -- both cores wait
    have hboth : ∀ c, ∃ op, s.prepare.p c = some op ∧ op.reqTime + 3 < tickModulus := by
      intro c
      obtain ⟨op, hop⟩ := Option.ne_none_iff_exists'.mp fun hnone => hwait ⟨c, hnone⟩
      have hlatency := three_le_baseLatency hs.ready.latency (hprepare.issues c op hop).kind
      have := hticks.finish c op hop
      exact ⟨op, hop, by omega⟩
    -- the earlier of the two requests is inside the horizon, so the batch answers someone
    obtain ⟨c, op, hop, hcommittable⟩ := ((s.produce 0).produce 1).publish_committable hboth
    obtain ⟨a, ha⟩ := List.exists_mem_of_ne_nil _ (hprepare.answered_ne_nil hop hcommittable)
    have hexecuted := hone a ha
    have hruns' := (hruns a.1).executed
    split
    · -- two waiting cores never make the empty round that ends the run
      rename_i hempty
      have hmem : (c, op) ∈ s.prepare.fetches := mem_fetches.mpr hop
      rw [List.isEmpty_iff.mp hempty] at hmem
      exact absurd hmem List.not_mem_nil
    · exact ⟨hcommit, hsome a.1 _ (by omega) (by omega) (by omega)⟩

theorem Paired.iterate (h : s.Paired) (maxSteps : Nat) : (iterate maxSteps s).1.Paired := by
  by_cases hlt : s.executed < maxSteps
  · rw [iterate_of_lt hlt]
    split
    · exact h.prepare
    · exact h.prepare.commit
  · rw [BiosRun.iterate, if_neg hlt]
    exact h

/-! ### Runs -/

variable {image : List Byte} {maxSteps : Nat}

theorem after_succ (image : List Byte) (maxSteps n : Nat) :
    after image maxSteps (n + 1) = (iterate maxSteps (after image maxSteps n)).1 := by
  rw [after, Function.iterate_succ_apply']
  rfl

theorem paired_after (image : List Byte) (maxSteps n : Nat) : (after image maxSteps n).Paired :=
  Loop.invariant (I := Paired) (fun _ h => h.iterate maxSteps) (fun _ => rfl) n

/-- An iteration that does not end the loop is made. -/
theorem lt_of_continue (h : (iterate maxSteps s).2 = false) : s.executed < maxSteps := by
  by_contra hge
  rw [iterate, if_neg hge] at h
  exact absurd h (by simp)

theorem sound_after (hticks : ∀ n, Iterates image maxSteps n → (after image maxSteps n).TicksBelow)
    (n : Nat) (h : ∀ m < n, (iterate maxSteps (after image maxSteps m)).2 = false) :
    (after image maxSteps n).Sound := by
  induction n with
  | zero => exact sound_start image
  | succ n ih =>
    have hbefore : ∀ m < n, (iterate maxSteps (after image maxSteps m)).2 = false :=
      fun m hm => h m (by omega)
    have hlt := lt_of_continue (h n (by omega))
    rw [after_succ]
    exact ((ih hbefore).iterate hlt (hticks n ⟨hbefore, hlt⟩)).1

theorem total_lt (hticks : ∀ n, Iterates image maxSteps n → (after image maxSteps n).TicksBelow)
    {n : Nat} (h : Iterates image maxSteps n) :
    (after image maxSteps n).total < (after image maxSteps (n + 1)).total := by
  rw [after_succ]
  exact ((sound_after hticks n h.1).iterate h.2 (hticks n h)).2

/-! ### Ticks -/

theorem Sound.total_le (hs : s.Sound) {bound : Nat} (h : s.Within bound) : s.total ≤ 2 * bound := by
  have h₀ := (hs.counted 0).executed
  have h₁ := (hs.counted 1).executed
  have := h.clock 0
  have := h.clock 1
  rw [total]
  omega

/-- After `n` iterations no tick is past `64 * n`. -/
theorem within_after (hmax : maxSteps ≤ 2 ^ 56) (n : Nat)
    (h : ∀ m < n, (iterate maxSteps (after image maxSteps m)).2 = false) :
    (after image maxSteps n).Sound ∧ (after image maxSteps n).Within (64 * n) ∧
      n ≤ (after image maxSteps n).total ∧ n ≤ maxSteps := by
  induction n with
  | zero => exact ⟨sound_start image, ⟨fun _ => Nat.le_refl 0, Nat.le_refl 0⟩, Nat.zero_le _,
      Nat.zero_le _⟩
  | succ n ih =>
    obtain ⟨hsound, hwithin, htotal, hle⟩ := ih fun m hm => h m (by omega)
    have hlt := lt_of_continue (h n (by omega))
    have hmodulus : tickModulus = 2 ^ 64 := rfl
    have htotal' := hsound.total_le hwithin
    -- the sum of the counters is their total
    have hexecuted : (after image maxSteps n).executed = (after image maxSteps n).total :=
      tickAdd_of_lt (by rw [total] at htotal'; omega)
    obtain ⟨hticks, hprepare, hcommit⟩ := hsound.ticksBelow hwithin (by omega)
    obtain ⟨hnext, hgrows⟩ := hsound.iterate hlt hticks
    rw [after_succ]
    refine ⟨hnext, ?_, by omega, by omega⟩
    rw [iterate_of_lt hlt]
    split
    · exact ⟨fun c => Nat.le_trans (hprepare.clock c) (by omega),
        Nat.le_trans hprepare.bus (by omega)⟩
    · exact hcommit

/-- Up to 2 ^ 56 steps the ticks stay below their modulus. -/
theorem ticksBelow_of_le (hmax : maxSteps ≤ 2 ^ 56) {n : Nat} (h : Iterates image maxSteps n) :
    (after image maxSteps n).TicksBelow := by
  obtain ⟨hsound, hwithin, -, hle⟩ := within_after hmax n h.1
  have hmodulus : tickModulus = 2 ^ 64 := rfl
  exact (hsound.ticksBelow hwithin (by omega)).1

/-! ### The end of the loop -/

theorem Sound.total_lt_modulus (hs : s.Sound) : s.total < 2 * tickModulus := by
  have h₀ := hs.counted 0
  have h₁ := hs.counted 1
  have := h₀.clock
  have := h₀.executed
  have := h₁.clock
  have := h₁.executed
  rw [total]
  omega

/-- The loop ends: the total grows, and it is bounded by the ticks. -/
theorem exists_run (hticks : ∀ n, Iterates image maxSteps n → (after image maxSteps n).TicksBelow) :
    ∃ fuel final, Loop.run (iterate maxSteps) fuel (start image) = some final := by
  let reached : BiosRun → Prop := fun s => ∃ n, s = after image maxSteps n ∧
    ∀ m < n, (iterate maxSteps (after image maxSteps m)).2 = false
  refine Loop.exists_run (I := reached) (fun s => 2 * tickModulus - s.total) (fun s hs hcont => ?_)
    ⟨0, rfl, fun m hm => absurd hm (Nat.not_lt_zero m)⟩
  obtain ⟨n, rfl, hbefore⟩ := hs
  have hthrough : ∀ m < n + 1, (iterate maxSteps (after image maxSteps m)).2 = false := by
    intro m hm
    rcases Nat.lt_succ_iff_lt_or_eq.mp hm with hm | rfl
    · exact hbefore m hm
    · exact hcont
  have hgrows := total_lt hticks ⟨hbefore, lt_of_continue hcont⟩
  have hbound := (sound_after hticks (n + 1) hthrough).total_lt_modulus
  refine ⟨⟨n + 1, (after_succ image maxSteps n).symm, hthrough⟩, ?_⟩
  show 2 * tickModulus - (iterate maxSteps (after image maxSteps n)).1.total < _
  rw [← after_succ]
  omega

/-- So the function returns a trace. -/
theorem exists_trace
    (hticks : ∀ n, Iterates image maxSteps n → (after image maxSteps n).TicksBelow) :
    ∃ fuel trace, runBiosTrace fuel image maxSteps = some trace := by
  obtain ⟨fuel, final, hrun⟩ := exists_run hticks
  exact ⟨fuel, final.probe, by rw [runBiosTrace, hrun, Option.map_some]⟩

end BiosRun

/-- **`run_bios_trace` returns.**  While the ticks stay below their modulus every
iteration that is made raises the number of retired instructions, so the loop
ends; and what a core has been answered is what it has asked for, in that order
and once each. -/
theorem runBiosTrace_returns (image : List Byte) (maxSteps : Nat)
    (hticks : ∀ n, BiosRun.Iterates image maxSteps n →
      (BiosRun.after image maxSteps n).TicksBelow) :
    (∀ n, BiosRun.Iterates image maxSteps n →
      (BiosRun.after image maxSteps n).total < (BiosRun.after image maxSteps (n + 1)).total) ∧
    (∃ fuel trace, runBiosTrace fuel image maxSteps = some trace) ∧
    ∀ n, (BiosRun.after image maxSteps n).Paired := by
  refine ⟨fun n h => BiosRun.total_lt hticks h, ?_, BiosRun.paired_after image maxSteps⟩
  exact BiosRun.exists_trace hticks

/-- `NOP` and zeros, for a thousand steps. -/
theorem runBiosTrace_returns_nop :
    (∀ n, BiosRun.Iterates [0x00, 0x09] 1000 n →
      (BiosRun.after [0x00, 0x09] 1000 n).total < (BiosRun.after [0x00, 0x09] 1000 (n + 1)).total) ∧
    (∃ fuel trace, runBiosTrace fuel [0x00, 0x09] 1000 = some trace) ∧
    ∀ n, (BiosRun.after [0x00, 0x09] 1000 n).Paired :=
  runBiosTrace_returns [0x00, 0x09] 1000 fun _ h => BiosRun.ticksBelow_of_le (by decide) h

end Saturnis.Core
