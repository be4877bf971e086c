/-
The grants of `libbusarb` as intervals of ticks.

A caller may commit grants early, late or twice; the arbiter starts each one
when the bus is free and charges it on its own.  As long as no finish leaves
the 64-bit clock, the intervals lie one after the other.

* `commitGrant_finish` — one call charges `charge`;
* `timeline_after` — no interval starts before the bus is free;
* `timeline_serialised` — the intervals of a run, and their lengths.
-/
import Saturnis.Busarb

namespace Saturnis.Busarb

open Saturnis.Core Saturnis.Mem

/-- The arguments of a `commit_grant`. -/
structure GrantCall where
  req : BusRequest
  tickStart : Nat
  hadTie : Bool := false
deriving DecidableEq, Repr

/-- The ticks from `start` to before `finish`. -/
structure Interval where
  start : Nat
  finish : Nat
deriving DecidableEq, Repr

/-- What a grant costs after a grant of address `previous`, if there was one. -/
def charge (accessCycles : AccessCycles) (config : ArbiterConfig) (previous : Option Addr)
    (call : GrantCall) : Nat :=
  max 1 (accessCycles call.req.addr call.req.isWrite call.req.sizeBytes) +
    (if previous = some call.req.addr then config.sameAddressContention else 0) +
    (if call.hadTie then config.tieTurnaround else 0)

/-- What each of some grants costs. -/
def charges (accessCycles : AccessCycles) (config : ArbiterConfig) :
    Option Addr → List GrantCall → List Nat
  | _, [] => []
  | previous, call :: calls =>
    charge accessCycles config previous call ::
      charges accessCycles config (some call.req.addr) calls

theorem charge_pos (accessCycles : AccessCycles) (config : ArbiterConfig) (previous : Option Addr)
    (call : GrantCall) : 0 < charge accessCycles config previous call := by
  rw [charge]
  omega

namespace Arbiter

variable {arb : Arbiter}

/-- The interval of each of some grants: from the later of the requested tick
and the free tick before, to the free tick after. -/
def timeline (arb : Arbiter) : List GrantCall → List Interval
  | [] => []
  | call :: calls =>
    let after := arb.commitGrant call.req call.tickStart call.hadTie
    ⟨max call.tickStart arb.busFreeTick, after.busFreeTick⟩ :: after.timeline calls

/-- The address of the grant before, if there was one. -/
def previousAddr (arb : Arbiter) : Option Addr :=
  if arb.hasLastGrantedAddr then some arb.lastGrantedAddr else none

theorem grantDuration_eq (arb : Arbiter) (call : GrantCall) :
    arb.grantDuration call.req call.hadTie =
      charge arb.accessCycles arb.config arb.previousAddr call := by
  have hsame : (arb.hasLastGrantedAddr = true ∧ call.req.addr = arb.lastGrantedAddr) ↔
      arb.previousAddr = some call.req.addr := by
    rw [previousAddr]
    split
    case isTrue h => rw [Option.some.injEq, and_iff_right h, eq_comm]
    case isFalse h => simp [h]
  rw [grantDuration, charge, serviceCycles]
  simp only [hsame]

/-- One call charges the grant from when the bus is free. -/
theorem commitGrant_finish {call : GrantCall}
    (hfits : max call.tickStart arb.busFreeTick +
      charge arb.accessCycles arb.config arb.previousAddr call < tickModulus) :
    (arb.commitGrant call.req call.tickStart call.hadTie).busFreeTick =
      max call.tickStart arb.busFreeTick +
        charge arb.accessCycles arb.config arb.previousAddr call := by
  rw [commitGrant, grantDuration_eq]
  exact tickAdd_of_lt hfits

/-- Each interval is as long as its grant costs. -/
theorem timeline_charges {calls : List GrantCall}
    (hfits : List.Forall₂ (fun g n => g.start + n < tickModulus) (arb.timeline calls)
      (charges arb.accessCycles arb.config arb.previousAddr calls)) :
    List.Forall₂ (fun g n => g.finish = g.start + n ∧ 0 < n) (arb.timeline calls)
      (charges arb.accessCycles arb.config arb.previousAddr calls) := by
  induction calls generalizing arb with
  | nil => exact List.Forall₂.nil
  | cons call calls ih =>
    rw [timeline, charges, List.forall₂_cons] at hfits
    rw [timeline, charges, List.forall₂_cons]
    exact ⟨⟨commitGrant_finish hfits.1, charge_pos _ _ _ _⟩,
      @ih (arb.commitGrant call.req call.tickStart call.hadTie) hfits.2⟩

/-- No interval starts before the bus is free, and each is after those before. -/
theorem timeline_after {calls : List GrantCall}
    (hnonempty : ∀ g ∈ arb.timeline calls, g.start < g.finish) :
    (∀ g ∈ arb.timeline calls, arb.busFreeTick ≤ g.start) ∧
      (arb.timeline calls).Pairwise fun g g' => g.finish ≤ g'.start := by
  induction calls generalizing arb with
  | nil => exact ⟨fun g hg => absurd hg (List.not_mem_nil), List.Pairwise.nil⟩
  | cons call calls ih =>
    rw [timeline] at hnonempty ⊢
    obtain ⟨hfree, hordered⟩ :=
      @ih (arb.commitGrant call.req call.tickStart call.hadTie)
        fun g hg => hnonempty g (List.mem_cons_of_mem _ hg)
    have hfirst := hnonempty _ (List.mem_cons_self ..)
    dsimp only at hfirst
    refine ⟨fun g hg => ?_, List.pairwise_cons.mpr ⟨hfree, hordered⟩⟩
    rcases List.mem_cons.mp hg with rfl | hlater
    · exact Nat.le_max_right _ _
    · have hle := hfree g hlater
      omega

/-- **The grants are a timeline.**  The intervals of any calls on a fresh
arbiter are non-empty, follow each other, and are as long as the calls cost. -/
theorem timeline_serialised (accessCycles : AccessCycles) (config : ArbiterConfig)
    (calls : List GrantCall)
    (hfits : List.Forall₂ (fun g n => g.start + n < tickModulus)
      ((fresh accessCycles config).timeline calls) (charges accessCycles config none calls)) :
    (∀ g ∈ (fresh accessCycles config).timeline calls, g.start < g.finish) ∧
      ((fresh accessCycles config).timeline calls).Pairwise (fun g g' => g.finish ≤ g'.start) ∧
      ((fresh accessCycles config).timeline calls).map (fun g => g.finish - g.start) =
        charges accessCycles config none calls := by
  have hcharged := @timeline_charges (fresh accessCycles config) calls hfits
  have hnonempty : ∀ g ∈ (fresh accessCycles config).timeline calls, g.start < g.finish := by
    intro g hg
    obtain ⟨i, hi, rfl⟩ := List.getElem_of_mem hg
    have hi' := hi
    rw [hcharged.length_eq] at hi'
    obtain ⟨hfinish, hpos⟩ := hcharged.get hi hi'
    dsimp only [List.get_eq_getElem] at hfinish hpos
    omega
  refine ⟨hnonempty, (timeline_after hnonempty).2, ?_⟩
  rw [← List.forall₂_eq_eq_eq, List.forall₂_map_left_iff]
  refine hcharged.imp fun g n h => ?_
  omega

/-- A late grant, the same address again before the bus is free, and a tie. -/
theorem timeline_serialised_three :
    let calls : List GrantCall :=
      [⟨{ addr := 0x100 }, 10, false⟩, ⟨{ addr := 0x100 }, 0, false⟩, ⟨{ addr := 0x200 }, 5, true⟩]
    (∀ g ∈ (fresh fun _ _ _ => 0).timeline calls, g.start < g.finish) ∧
      ((fresh fun _ _ _ => 0).timeline calls).Pairwise (fun g g' => g.finish ≤ g'.start) ∧
      ((fresh fun _ _ _ => 0).timeline calls).map (fun g => g.finish - g.start) = [1, 3, 2] :=
  timeline_serialised (fun _ _ _ => 0) {} _ (by decide)

end Arbiter

end Saturnis.Busarb
