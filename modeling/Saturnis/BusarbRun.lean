/-
Arbitration over whole runs of `libbusarb`.

A round selects one of the requests of a tick and commits the grant.  The
arbiter remembers one thing about the masters it served, the CPU that was
granted last (`playRounds_lastGrantedCpu`), and DMA grants leave it alone; with
the rank order of `BusarbWinner.lean` this gives DMA priority and CPU round
robin over runs of any length (`playRounds_winner`).
-/
import Saturnis.BusarbWinner

namespace Saturnis.Busarb

open Saturnis.Core Saturnis.Mem

/-- The requests of one tick, and how the grant of the winner is committed. -/
structure Round where
  requests : List BusRequest
  tickStart : Nat
  hadTie : Bool

/-- The CPU that received the last CPU grant of a list of grants. -/
def lastCpuGrant : List BusRequest → Option BusMasterId
  | [] => none
  | req :: later =>
    (lastCpuGrant later).or (if req.masterId = .dma then none else some req.masterId)

/-- The CPU whose turn it is after some grants. -/
def cpuTurn (grants : List BusRequest) : BusMasterId :=
  match lastCpuGrant grants with
  | none => .sh2A
  | some last => if last = .sh2A then .sh2B else .sh2A

namespace Arbiter

variable {arb : Arbiter}

/-- Plays the rounds in order and lists the granted requests. -/
def playRounds (arb : Arbiter) : List Round → Arbiter × List BusRequest
  | [] => (arb, [])
  | round :: rounds =>
    match arb.winner round.requests with
    | none => arb.playRounds rounds
    | some req =>
      let (arb', grants) :=
        (arb.commitGrant req round.tickStart round.hadTie).playRounds rounds
      (arb', req :: grants)

theorem commitGrant_lastGrantedCpu (req : BusRequest) (tickStart : Nat) (hadTie : Bool) :
    (arb.commitGrant req tickStart hadTie).lastGrantedCpu =
      (if req.masterId = .dma then none else some req.masterId).or arb.lastGrantedCpu := by
  cases h : req.masterId <;> simp [commitGrant, h]

theorem playRounds_lastGrantedCpu (arb : Arbiter) (rounds : List Round) :
    (arb.playRounds rounds).1.lastGrantedCpu =
      (lastCpuGrant (arb.playRounds rounds).2).or arb.lastGrantedCpu := by
  induction rounds generalizing arb with
  | nil => simp [playRounds, lastCpuGrant]
  | cons round rounds ih =>
    cases hw : arb.winner round.requests with
    | none =>
      simp only [playRounds, hw]
      exact ih arb
    | some req =>
      simp only [playRounds, hw, lastCpuGrant, Option.or_assoc]
      rw [ih, commitGrant_lastGrantedCpu]

/-- The stored flag encodes whose turn it is. -/
theorem preferred_playRounds (accessCycles : AccessCycles) (config : ArbiterConfig)
    (rounds : List Round) :
    ((fresh accessCycles config).playRounds rounds).1.preferred =
      cpuTurn ((fresh accessCycles config).playRounds rounds).2 := by
  have hlast : ((fresh accessCycles config).playRounds rounds).1.lastGrantedCpu =
      lastCpuGrant ((fresh accessCycles config).playRounds rounds).2 := by
    rw [playRounds_lastGrantedCpu]
    exact Option.or_none
  exact congrArg (fun last : Option BusMasterId =>
    match last with
    | none => BusMasterId.sh2A
    | some last => if last = BusMasterId.sh2A then BusMasterId.sh2B else BusMasterId.sh2A) hlast

/-- **DMA first, CPUs round robin.**  After any run of rounds from a fresh
arbiter, a request list with a DMA request is won by a DMA request, and one
without is won, where both CPUs ask, by the CPU that did not receive the last
CPU grant. -/
theorem playRounds_winner (accessCycles : AccessCycles) (config : ArbiterConfig)
    (rounds : List Round) {reqs : List BusRequest} (hne : reqs ≠ []) :
    ∃ w ∈ reqs,
      ((fresh accessCycles config).playRounds rounds).1.winner reqs = some w ∧
      ((∃ r ∈ reqs, r.masterId = .dma) → w.masterId = .dma) ∧
      ((∀ r ∈ reqs, r.masterId ≠ .dma) → (∃ r ∈ reqs, r.masterId = .sh2A) →
        (∃ r ∈ reqs, r.masterId = .sh2B) →
        w.masterId = cpuTurn ((fresh accessCycles config).playRounds rounds).2) := by
  rw [← preferred_playRounds]
  set arb := ((fresh accessCycles config).playRounds rounds).1
  obtain ⟨w, hw⟩ : ∃ w, arb.winner reqs = some w := by
    rw [← Option.isSome_iff_exists, Option.isSome_iff_ne_none, ne_eq, winner_eq_none_iff]
    exact hne
  have hkey := winner_masterKey_le hw
  refine ⟨w, winner_mem hw, hw, ?_, ?_⟩
  · rintro ⟨r, hr, hdma⟩
    have hle := hkey r hr
    rw [hdma, show arb.masterKey .dma = 0 from rfl] at hle
    by_contra hnot
    rw [masterKey, if_neg hnot] at hle
    split at hle <;> omega
  · intro hcpu hA hB
    -- one of the two CPUs is the preferred one, and its key is 1
    obtain ⟨r, hr, hpref⟩ : ∃ r ∈ reqs, r.masterId = arb.preferred := by
      cases hp : arb.preferred with
      | sh2A => exact hA
      | sh2B => exact hB
      | dma => exact absurd hp (preferred_ne_dma arb)
    have hle := hkey r hr
    rw [masterKey, masterKey, hpref, if_neg (preferred_ne_dma arb), if_pos rfl,
      if_neg (hcpu w (winner_mem hw))] at hle
    by_contra hnot
    rw [if_neg hnot] at hle
    omega

/-- After one grant to SH2_A and one to DMA, SH2_B wins against SH2_A. -/
theorem playRounds_winner_alternates :
    let rounds : List Round := [⟨[{}], 0, false⟩, ⟨[{ masterId := .dma }], 4, true⟩]
    ∃ w ∈ [({} : BusRequest), { masterId := .sh2B }],
      ((fresh fun _ _ _ => 4).playRounds rounds).1.winner [{}, { masterId := .sh2B }] = some w ∧
      w.masterId = .sh2B := by
  intro rounds
  have hne : [({} : BusRequest), { masterId := .sh2B }] ≠ [] := by simp
  obtain ⟨w, hw, hwin, -, hturn⟩ := playRounds_winner (fun _ _ _ => 4) {} rounds hne
  exact ⟨w, hw, hwin, hturn (by decide) (by decide) (by decide)⟩

end Arbiter

end Saturnis.Busarb
