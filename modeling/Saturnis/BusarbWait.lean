/-
Waiting for the bus of `libbusarb`.

`query_wait` answers in a 32-bit count, so a wait that is longer is reported in
parts.  A caller that waits as long as it is told and asks again (`poll`) still
ends at the free tick itself.

* `queryWait_of_free`, `queryWait_of_busy` — the answer on either side of the
  free tick;
* `poll_run` — the queries end, at the free tick;
* `queryWait_exact` — what an answer says.
-/
import Saturnis.BusarbTimeline
import Saturnis.Loop

namespace Saturnis.Busarb.Arbiter

open Saturnis.Core

variable {arb : Arbiter} {req : BusRequest} {now : Nat}

/-- The largest count that an answer holds. -/
def waitLimit : Nat := 0xFFFFFFFF

/-- A query at that tick, and the tick after the wait it asks for; the loop of a
caller ends when there is no wait. -/
def poll (arb : Arbiter) (req : BusRequest) (now : Nat) : Nat × Bool :=
  let wait := arb.queryWait { req with nowTick := now }
  (tickAdd now wait.waitCycles, !wait.shouldWait)

/-- What an answer to a request says. -/
structure WaitExact (arb : Arbiter) (req : BusRequest) : Prop where
  noWait : (arb.queryWait req).shouldWait = false ↔ arb.busFreeTick ≤ req.nowTick
  count : (arb.queryWait req).shouldWait = true →
    (arb.queryWait req).waitCycles = min (arb.busFreeTick - req.nowTick) (2 ^ 32 - 1)
  /-- After any smaller wait the bus is still taken. -/
  least : ∀ w < (arb.queryWait req).waitCycles,
    (arb.queryWait { req with nowTick := tickAdd req.nowTick w }).shouldWait = true
  /-- A count that is not cut off is the distance to the start of the grant. -/
  starts : (arb.queryWait req).shouldWait = true → arb.busFreeTick - req.nowTick ≤ 2 ^ 32 - 1 →
    ∀ (granted : BusRequest) (hadTie : Bool),
      let start := tickAdd req.nowTick (arb.queryWait req).waitCycles
      arb.timeline [⟨granted, start, hadTie⟩] =
        [⟨start, tickAdd start (arb.grantDuration granted hadTie)⟩]
  /-- Waiting as long as one is told ends when the bus is free. -/
  reaches : ∃ queries, Loop.run (arb.poll req) queries req.nowTick =
    some (max req.nowTick arb.busFreeTick)

/-! ### One query -/

theorem queryWait_of_free (h : arb.busFreeTick ≤ req.nowTick) : arb.queryWait req = ⟨false, 0⟩ := by
  rw [queryWait, if_pos h]

theorem queryWait_of_busy (h : req.nowTick < arb.busFreeTick) :
    arb.queryWait req = ⟨true, min (arb.busFreeTick - req.nowTick) waitLimit⟩ := by
  rw [queryWait, if_neg (by omega)]
  rfl

theorem queryWait_shouldWait : (arb.queryWait req).shouldWait = true ↔
    req.nowTick < arb.busFreeTick := by
  constructor
  · intro hwait
    by_contra hfree
    rw [queryWait_of_free (Nat.le_of_not_lt hfree)] at hwait
    exact Bool.false_ne_true hwait
  · intro h
    rw [queryWait_of_busy h]

/-- A wait that is asked for does not go past the free tick. -/
theorem queryWait_le (h : req.nowTick < arb.busFreeTick) :
    0 < (arb.queryWait req).waitCycles ∧
      req.nowTick + (arb.queryWait req).waitCycles ≤ arb.busFreeTick := by
  rw [queryWait_of_busy h]
  simp only [waitLimit]
  omega

/-! ### Queries one after the other -/

theorem poll_of_free (h : arb.busFreeTick ≤ now) (hnow : now < tickModulus) :
    arb.poll req now = (now, true) := by
  have hquery : arb.queryWait { req with nowTick := now } = ⟨false, 0⟩ := queryWait_of_free h
  rw [poll, hquery]
  simp only [Bool.not_false]
  rw [tickAdd_of_lt (by omega), Nat.add_zero]

/-- A query on a taken bus comes nearer to the free tick and not past it. -/
theorem poll_of_busy (h : now < arb.busFreeTick) (hfree : arb.busFreeTick < tickModulus) :
    (arb.poll req now).2 = false ∧ now < (arb.poll req now).1 ∧
      (arb.poll req now).1 ≤ arb.busFreeTick := by
  obtain ⟨hpos, hle⟩ := @queryWait_le arb { req with nowTick := now } h
  dsimp only at hle
  have hbusy : (arb.queryWait { req with nowTick := now }).shouldWait = true :=
    queryWait_shouldWait.mpr h
  rw [poll]
  simp only [hbusy, Bool.not_true, true_and]
  rw [tickAdd_of_lt (by omega)]
  omega

/-- The queries end, and they end where the bus is free. -/
theorem poll_run (hnow : now < tickModulus) (hfree : arb.busFreeTick < tickModulus) :
    ∃ queries, Loop.run (arb.poll req) queries now = some (max now arb.busFreeTick) := by
  rcases Nat.lt_or_ge now arb.busFreeTick with hbusy | hidle
  · -- every query lowers the distance, and none goes past the free tick
    have hstep : ∀ t, t ≤ arb.busFreeTick → (arb.poll req t).2 = false →
        Loop.step (arb.poll req) t ≤ arb.busFreeTick ∧
          arb.busFreeTick - Loop.step (arb.poll req) t < arb.busFreeTick - t := by
      intro t ht hwait
      have hlt : t < arb.busFreeTick := by
        by_contra hge
        rw [poll_of_free (Nat.le_of_not_lt hge) (by omega)] at hwait
        exact Bool.noConfusion hwait
      obtain ⟨-, hnear, hle⟩ := @poll_of_busy arb req t hlt hfree
      rw [Loop.step]
      omega
    obtain ⟨queries, final, hrun⟩ := @Loop.exists_run _ (arb.poll req) now
      (fun t => t ≤ arb.busFreeTick) (fun t => arb.busFreeTick - t) hstep
      (Nat.le_of_lt hbusy)
    refine ⟨queries, ?_⟩
    -- the last query was made at the free tick
    obtain ⟨n, hn, hbreak, hbefore, hfinal⟩ := Loop.run_eq_some_iff.mp hrun
    have hinv := @Loop.invariant _ (arb.poll req) now (fun t => t ≤ arb.busFreeTick)
      (fun t ht => ?_) (Nat.le_of_lt hbusy) n
    · have hlast : arb.busFreeTick ≤ (Loop.step (arb.poll req))^[n] now := by
        by_contra hlt
        rw [(poll_of_busy (Nat.lt_of_not_le hlt) hfree).1] at hbreak
        exact Bool.noConfusion hbreak
      have heq : (Loop.step (arb.poll req))^[n] now = arb.busFreeTick :=
        Nat.le_antisymm hinv hlast
      rw [hrun, hfinal, Function.iterate_succ_apply', heq, Loop.step,
        poll_of_free (Nat.le_refl _) hfree, Nat.max_eq_right (Nat.le_of_lt hbusy)]
    · rcases Nat.lt_or_ge t arb.busFreeTick with hlt | hge
      · exact (poll_of_busy hlt hfree).2.2
      · rw [Loop.step, poll_of_free hge (by omega)]
        exact ht
  · -- the first query ends the loop
    refine ⟨1, ?_⟩
    rw [Loop.run_of_break 0 (by rw [poll_of_free hidle hnow]), Loop.step,
      poll_of_free hidle hnow, Nat.max_eq_left hidle]

/-- **An answer is exact.**  It says whether the bus is free; how long it is
taken, as far as the count goes; and a caller that keeps to it starts when the
bus is free. -/
theorem queryWait_exact (arb : Arbiter) (req : BusRequest) (hnow : req.nowTick < 2 ^ 64)
    (hfree : arb.busFreeTick < 2 ^ 64) : arb.WaitExact req := by
  refine ⟨?_, fun hwait => ?_, fun w hw => ?_, fun hwait hfits granted hadTie => ?_,
    poll_run hnow hfree⟩
  · rw [← Bool.not_eq_true, queryWait_shouldWait]
    omega
  · rw [queryWait_of_busy (queryWait_shouldWait.mp hwait)]
    rfl
  · rcases Nat.lt_or_ge req.nowTick arb.busFreeTick with hbusy | hidle
    · have hle := (queryWait_le hbusy).2
      rw [queryWait_shouldWait, tickAdd_of_lt (by rw [tickModulus]; omega)]
      dsimp only
      omega
    · rw [queryWait_of_free hidle] at hw
      exact absurd hw (Nat.not_lt_zero w)
  · have hbusy := queryWait_shouldWait.mp hwait
    have hend : tickAdd req.nowTick (arb.queryWait req).waitCycles = arb.busFreeTick := by
      rw [queryWait_of_busy hbusy]
      simp only [waitLimit]
      rw [tickAdd_of_lt (by rw [tickModulus]; omega)]
      omega
    rw [hend]
    simp only [timeline, commitGrant, Nat.max_self]

/-- A bus that is taken until tick 7, asked about at tick 2. -/
theorem queryWait_exact_seven :
    ({ accessCycles := fun _ _ _ => 7, busFreeTick := 7 } : Arbiter).WaitExact { nowTick := 2 } :=
  queryWait_exact _ _ (by decide) (by decide)

end Saturnis.Busarb.Arbiter
