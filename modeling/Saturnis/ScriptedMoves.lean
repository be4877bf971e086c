/-
What a driver of the scripted CPUs does, in whatever order.

A CPU runs up to its next bus operation, or the arbiter executes a pending
operation and its CPU gets the response (`Move`).  When a driver does which of
these, when it publishes watermarks and what it takes into one batch is left out
here, so what holds along all moves holds of every driver that makes them.

* `WithinBudget` — an account of the ticks that a run can still use up, which
  keeps every clock below the tick modulus;
* `Moves.withinBudget` — every move keeps it.
-/
import Saturnis.ScriptedProgress

namespace Saturnis.Cpu

open Saturnis.Core Saturnis.Mem Saturnis.Bus

/-- The ticks a script operation takes at most: 12 for the slowest access, 2
for the same address again, 1 for a tie. -/
def ScriptOp.cost (ins : ScriptOp) : Nat := if ins.kind = .compute then ins.cycles else 15

/-- The ticks a script takes at most on a bus that is never busy. -/
def scriptCost (script : List ScriptOp) : Nat := script.foldr (fun ins n => ins.cost + n) 0

namespace ScriptedCPU

/-- What is left of the script costs this much. -/
def remainingCost (cpu : ScriptedCPU) : Nat := scriptCost (cpu.script.drop cpu.pc)

theorem remainingCost_of_getElem? {cpu : ScriptedCPU} {ins : ScriptOp}
    (hget : cpu.script[cpu.pc]? = some ins) :
    cpu.remainingCost = ins.cost + scriptCost (cpu.script.drop (cpu.pc + 1)) := by
  obtain ⟨hlt, heq⟩ := List.getElem?_eq_some_iff.mp hget
  rw [remainingCost, List.drop_eq_getElem_cons hlt, heq]
  rfl

/-- What a run of `produce` adds to the clock, and the slowest bus operation if
it issues one, comes off what was left. -/
theorem produceLoop_cost (n : Nat) (cpu : ScriptedCPU)
    (hfit : cpu.localTime + cpu.remainingCost < tickModulus) :
    cpu.localTime ≤ (produceLoop n cpu).1.localTime ∧
      (produceLoop n cpu).1.localTime + (produceLoop n cpu).1.remainingCost +
          15 * (produceLoop n cpu).2.toList.length ≤ cpu.localTime + cpu.remainingCost := by
  induction n generalizing cpu with
  | zero => exact ⟨Nat.le_refl _, Nat.le_refl _⟩
  | succ n ih =>
    rw [produceLoop]
    cases hget : cpu.script[cpu.pc]? with
    | none => exact ⟨Nat.le_refl _, Nat.le_refl _⟩
    | some ins =>
      have hcost := remainingCost_of_getElem? hget
      have hissue : ins.kind ≠ .compute →
          cpu.localTime ≤ (cpu.issue ins).1.localTime ∧
            (cpu.issue ins).1.localTime + (cpu.issue ins).1.remainingCost +
              15 * (some (cpu.issue ins).2).toList.length ≤ cpu.localTime + cpu.remainingCost := by
        intro hkind
        have hslow : ins.cost = 15 := if_neg hkind
        rw [remainingCost, issue_localTime, issue_script, issue_pc, hcost, hslow, Option.toList_some,
          List.length_singleton]
        omega
      -- a local operation pays for itself
      have hlocal : ∀ next : ScriptedCPU, next.script = cpu.script → next.pc = cpu.pc + 1 →
          cpu.localTime ≤ next.localTime → next.localTime ≤ cpu.localTime + ins.cost →
          cpu.localTime ≤ (produceLoop n next).1.localTime ∧
            (produceLoop n next).1.localTime + (produceLoop n next).1.remainingCost +
              15 * (produceLoop n next).2.toList.length ≤ cpu.localTime + cpu.remainingCost := by
        intro next hscript hpc hle hpaid
        have hnext : next.remainingCost = scriptCost (cpu.script.drop (cpu.pc + 1)) := by
          rw [remainingCost, hscript, hpc]
        obtain ⟨hclock, hrest⟩ := ih next (by omega)
        omega
      cases hkind : ins.kind with
      | compute =>
        simp only [hkind]
        have hcycles : ins.cost = ins.cycles := if_pos hkind
        have htime : tickAdd cpu.localTime ins.cycles = cpu.localTime + ins.cycles :=
          tickAdd_of_lt (by omega)
        refine hlocal _ rfl rfl ?_ ?_
        · change cpu.localTime ≤ tickAdd cpu.localTime ins.cycles
          omega
        · change tickAdd cpu.localTime ins.cycles ≤ cpu.localTime + ins.cost
          omega
      | barrier =>
        simp only [hkind]
        exact hissue (by simp [hkind])
      | write =>
        simp only [hkind]
        exact hissue (by simp [hkind])
      | read =>
        cases hread : cpu.readLocally ins with
        | none =>
          simp only [hkind, hread]
          exact hissue (by simp [hkind])
        | some value =>
          simp only [hkind, hread]
          exact hlocal _ rfl rfl (Nat.le_refl _) (Nat.le_add_right _ _)

/-- The compute cycles of a part of a script are part of its cost. -/
theorem cycles_le_scriptCost (n : Nat) (script : List ScriptOp) :
    ((script.take n).map fun ins => if ins.kind = .compute then ins.cycles else 0).sum ≤
      scriptCost script := by
  induction script generalizing n with
  | nil => simp
  | cons ins script ih =>
    cases n with
    | zero => exact Nat.zero_le _
    | succ n =>
      have hcycles : (if ins.kind = .compute then ins.cycles else 0) ≤ ins.cost := by
        rw [ScriptOp.cost]
        split <;> omega
      rw [List.take_succ_cons, List.map_cons, List.sum_cons]
      exact Nat.add_le_add hcycles (ih n)

/-- The clock at any later operation is within what was left. -/
theorem clockAt_le (cpu : ScriptedCPU) (stop : Nat) :
    cpu.clockAt stop ≤ cpu.localTime + cpu.remainingCost := by
  rw [clockAt, remainingCost, List.drop_take]
  exact Nat.add_le_add_left (cycles_le_scriptCost _ _) _

theorem produceFits_of_cost {cpu : ScriptedCPU}
    (hfit : cpu.localTime + cpu.remainingCost < tickModulus) : cpu.ProduceFits :=
  Nat.lt_of_le_of_lt (cpu.clockAt_le _) hfit

end ScriptedCPU

end Saturnis.Cpu

namespace Saturnis.Core

open Saturnis.Core Saturnis.Mem Saturnis.Dev Saturnis.Bus Saturnis.Cpu

namespace ScriptedPair

variable {s s' s'' : ScriptedPair} {c : Fin 2} {p : PendingBusOp} {total : Nat}

/-- The CPUs run up to their next bus operations, a pending operation is
executed and answered, or watermarks and enqueue bookkeeping change. -/
inductive Move : ScriptedPair → ScriptedPair → Prop
  | fetch {s : ScriptedPair} : Move s s.fetch
  | serve {s : ScriptedPair} (c : Fin 2) (p : PendingBusOp) (tie : Bool)
      (h : s.pending c = some p) : Move s (s.serve c p tie)
  | note {s : ScriptedPair} (arb : BusArbiter) (h : arb.core = s.arb.core) : Move s { s with arb }

abbrev Moves : ScriptedPair → ScriptedPair → Prop := Relation.ReflTransGen Move

theorem Serves.moves (h : Serves s s') : Moves s s' := by
  refine Relation.ReflTransGen.mono (fun a b hab => ?_) _ _ h
  cases hab with
  | serve c p tie hp => exact .serve c p tie hp
  | note arb harb => exact .note arb (BusArbiter.resetEnqueued_core harb)

theorem Move.script (h : Move s s') (c : Fin 2) : (s'.cpu c).script = (s.cpu c).script := by
  cases h with
  | fetch => exact s.fetch_script c
  | serve d p tie _ =>
    by_cases hne : c = d
    · rw [hne, ScriptedPair.serve, answer_cpu, Function.update_self]
      exact ((s.cpu d).applyResponse_answered _ _ _).script
    · rw [s.serve_cpu_of_ne hne]
  | note arb _ => rfl

theorem Moves.script (h : Moves s s') (c : Fin 2) : (s'.cpu c).script = (s.cpu c).script := by
  induction h with
  | refl => rfl
  | tail _ hstep ih => exact (hstep.script c).trans ih

/-! ### The budget -/

/-- The ticks the pending operations and the rest of the scripts take at most. -/
def owed (s : ScriptedPair) : Nat :=
  ((s.cpu 0).remainingCost + 15 * (s.pending 0).toList.length) +
    ((s.cpu 1).remainingCost + 15 * (s.pending 1).toList.length)

/-- Every operation takes its time, and no clock is so late that what is still
owed could bring it past `total`. -/
structure WithinBudget (total : Nat) (s : ScriptedPair) : Prop extends Steady s where
  latency : s.arb.latency = {}
  clocks : ∀ c, (s.cpu c).localTime + s.owed ≤ total
  bus : s.arb.busFreeTime + s.owed ≤ total

/-- The ticks a run of both scripts takes at most. -/
def tickBudget (script : Fin 2 → List ScriptOp) : Nat := scriptCost (script 0) + scriptCost (script 1)

theorem withinBudget_start (script : Fin 2 → List ScriptOp) (memory : CommittedMemory)
    (devices : DeviceHub) (policy : ArbitrationPolicy) (haltOnFault : Bool)
    (hvalid : ∀ c, ∀ ins ∈ script c, ins.valid = true) :
    (start script { memory, devices, policy, trace := { haltOnFault } }).WithinBudget
      (tickBudget script) := by
  have howed : (start script { memory, devices, policy, trace := { haltOnFault } }).owed =
      tickBudget script := rfl
  refine ⟨steady_start script memory devices policy {} haltOnFault hvalid, rfl, fun c => ?_, ?_⟩
  · rw [howed]
    exact Nat.le_of_eq (Nat.zero_add _)
  · rw [howed]
    exact Nat.le_of_eq (Nat.zero_add _)

namespace WithinBudget

/-- A CPU can pay for the rest of its own script. -/
theorem fits (h : s.WithinBudget total) (htotal : total < tickModulus) (c : Fin 2) :
    (s.cpu c).localTime + (s.cpu c).remainingCost < tickModulus := by
  have hclock := h.clocks c
  rw [owed] at hclock
  match c with
  | 0 => omega
  | 1 => omega

theorem produceFits (h : s.WithinBudget total) (htotal : total < tickModulus) (c : Fin 2) :
    (s.cpu c).ProduceFits :=
  ScriptedCPU.produceFits_of_cost (h.fits htotal c)

end WithinBudget

/-- What `fetch` adds to the clock of a CPU comes off what the CPU owed. -/
theorem fetch_cost (hfit : (s.cpu c).localTime + (s.cpu c).remainingCost < tickModulus) :
    (s.cpu c).localTime ≤ (s.fetch.cpu c).localTime ∧
      (s.fetch.cpu c).localTime +
          ((s.fetch.cpu c).remainingCost + 15 * (s.fetch.pending c).toList.length) ≤
        (s.cpu c).localTime + ((s.cpu c).remainingCost + 15 * (s.pending c).toList.length) := by
  change (s.cpu c).localTime ≤ (fetchCpu (s.cpu c) (s.pending c)).1.localTime ∧
    (fetchCpu (s.cpu c) (s.pending c)).1.localTime +
        ((fetchCpu (s.cpu c) (s.pending c)).1.remainingCost +
          15 * (fetchCpu (s.cpu c) (s.pending c)).2.toList.length) ≤ _
  cases hp : s.pending c with
  | some p => exact ⟨Nat.le_refl _, Nat.le_refl _⟩
  | none =>
    rw [fetchCpu_none, ScriptedCPU.produce, Option.toList_none, List.length_nil]
    obtain ⟨hclock, hcost⟩ := ScriptedCPU.produceLoop_cost _ (s.cpu c) hfit
    exact ⟨hclock, by omega⟩

/-- A pending operation is issued early enough for its watermark to be a tick. -/
theorem WithinBudget.reqTime (h : s.WithinBudget total) (hp : s.pending c = some p) :
    p.op.reqTime + 15 ≤ total := by
  have hreq := (h.sound.outstanding c p hp).reqTime
  have hclock := h.clocks c
  have howed : 15 ≤ s.owed := by
    have hlen : (s.pending c).toList.length = 1 := by rw [hp]; rfl
    rw [owed]
    match c with
    | 0 => omega
    | 1 => omega
  omega

theorem WithinBudget.fetch (h : s.WithinBudget total) (htotal : total < tickModulus) :
    s.fetch.WithinBudget total := by
  obtain ⟨hclock0, hcost0⟩ := fetch_cost (h.fits htotal 0)
  obtain ⟨hclock1, hcost1⟩ := fetch_cost (h.fits htotal 1)
  have howed0 := h.clocks 0
  have howed1 := h.clocks 1
  have hbus := h.bus
  rw [owed] at howed0 howed1 hbus
  refine ⟨h.toSteady.fetch fun c _ => h.produceFits htotal c, h.latency, fun c => ?_, ?_⟩
  · rw [owed]
    match c with
    | 0 => omega
    | 1 => omega
  · rw [owed]
    change s.arb.busFreeTime + _ ≤ total
    omega

/-- An answered operation is no longer owed. -/
theorem owed_serve (h : s.pending c = some p) (tie : Bool) :
    (s.serve c p tie).owed + 15 = s.owed := by
  have hpending : (s.serve c p tie).pending = Function.update s.pending c none := rfl
  have hcost : ∀ d, ((s.serve c p tie).cpu d).remainingCost = (s.cpu d).remainingCost := by
    intro d
    by_cases hne : d = c
    · subst hne
      have hans := (s.cpu d).applyResponse_answered p.scriptIndex
        (s.arb.executeCommit p.op tie).2 p.op.producerToken
      rw [serve, answer_cpu, Function.update_self, ScriptedCPU.remainingCost, hans.script, hans.pc,
        ScriptedCPU.remainingCost]
    · rw [s.serve_cpu_of_ne hne]
  rw [owed, owed, hcost, hcost, hpending]
  rcases (show c = 0 ∨ c = 1 by omega) with rfl | rfl
  · rw [h, Function.update_self, Function.update_of_ne (show (1 : Fin 2) ≠ 0 by decide),
      Option.toList_some, Option.toList_none, List.length_singleton, List.length_nil]
    omega
  · rw [h, Function.update_self, Function.update_of_ne (show (0 : Fin 2) ≠ 1 by decide),
      Option.toList_some, Option.toList_none, List.length_singleton, List.length_nil]
    omega

/-- A granted operation has the bus for its latency. -/
theorem WithinBudget.commitTime (h : s.WithinBudget total) (htotal : total < tickModulus)
    (hp : s.pending c = some p) (tie : Bool) :
    (s.arb.grant p.op tie).2.commitTime =
      (s.arb.grant p.op tie).2.startTime + s.arb.totalLatency p.op tie := by
  have hreq := (h.sound.outstanding c p hp).reqTime
  have hlat := (BusArbiter.totalLatency_bounds h.latency p.op tie).2
  have howed := owed_serve hp tie
  have hclock := h.clocks c
  have hbus := h.bus
  exact tickAdd_of_lt (show max p.op.reqTime s.arb.busFreeTime + _ < tickModulus by omega)

/-- A granted operation finishes at most 15 ticks after the bus or its request. -/
theorem WithinBudget.finish (h : s.WithinBudget total) (htotal : total < tickModulus)
    (hp : s.pending c = some p) (tie : Bool) :
    (s.arb.grant p.op tie).2.startTime ≤ (s.arb.grant p.op tie).2.commitTime ∧
      (s.arb.grant p.op tie).2.commitTime + (s.serve c p tie).owed ≤ total := by
  have hreq := (h.sound.outstanding c p hp).reqTime
  have hlat := (BusArbiter.totalLatency_bounds h.latency p.op tie).2
  have howed := owed_serve hp tie
  have hclock := h.clocks c
  have hbus := h.bus
  have hstart : (s.arb.grant p.op tie).2.startTime = max p.op.reqTime s.arb.busFreeTime := rfl
  rw [h.commitTime htotal hp tie, hstart]
  omega

theorem WithinBudget.ticksFit (h : s.WithinBudget total) (htotal : total < tickModulus)
    (hserved : s.served = []) : s.TicksFit := by
  refine ⟨fun c _ => h.produceFits htotal c, fun c p hp => ?_, fun x hx => ?_⟩
  · have hwithin := (h.fetch htotal).reqTime hp
    omega
  · rw [hserved] at hx
    exact absurd hx List.not_mem_nil

theorem WithinBudget.serve (h : s.WithinBudget total) (htotal : total < tickModulus)
    (hp : s.pending c = some p) (tie : Bool) : (s.serve c p tie).WithinBudget total := by
  obtain ⟨hstart, hfinish⟩ := h.finish htotal hp tie
  have harb := (h.serve_eq hp tie).1
  have howed := owed_serve hp tie
  refine ⟨h.toSteady.serve hp tie hstart, ?_, fun d => ?_, ?_⟩
  · rw [harb]
    exact h.latency
  · by_cases hne : d = c
    · rw [hne, h.serve_localTime hp tie]
      exact hfinish
    · rw [s.serve_cpu_of_ne hne]
      have := h.clocks d
      omega
  · rw [harb]
    exact hfinish

theorem WithinBudget.note (h : s.WithinBudget total) {arb : BusArbiter}
    (harb : arb.core = s.arb.core) : ({ s with arb } : ScriptedPair).WithinBudget total := by
  have hsteady : ({ s with arb } : ScriptedPair).Steady := by
    refine ⟨⟨h.sound.cpuId, h.sound.lineSize, h.sound.outstanding⟩, h.valid, h.clock, ?_, ?_,
      h.issued, ?_, ?_⟩
    · rw [BusArbiter.core_producerSeen harb, BusArbiter.core_producerLastReqTime harb]
      exact h.recorded
    · rw [BusArbiter.core_trace harb]
      exact h.running
    · rw [BusArbiter.core_trace harb]
      exact h.records
    · rw [BusArbiter.core_trace harb]
      exact h.faults
  refine ⟨hsteady, (BusArbiter.core_latency harb).trans h.latency, h.clocks, ?_⟩
  have hbus := h.bus
  rw [← BusArbiter.core_busFreeTime harb] at hbus
  exact hbus

theorem Move.withinBudget (h : Move s s') (hb : s.WithinBudget total) (htotal : total < tickModulus) :
    s'.WithinBudget total := by
  cases h with
  | fetch => exact hb.fetch htotal
  | serve c p tie hp => exact hb.serve htotal hp tie
  | note arb harb => exact hb.note harb

/-- **No move uses up more than the budget.** -/
theorem Moves.withinBudget (h : Moves s s') (hb : s.WithinBudget total)
    (htotal : total < tickModulus) : s'.WithinBudget total := by
  induction h with
  | refl => exact hb
  | tail _ hstep ih => exact hstep.withinBudget ih htotal

/-- No clock runs back. -/
theorem Move.localTime (h : Move s s') (hb : s.WithinBudget total) (htotal : total < tickModulus)
    (c : Fin 2) : (s.cpu c).localTime ≤ (s'.cpu c).localTime := by
  cases h with
  | fetch => exact (fetch_cost (hb.fits htotal c)).1
  | serve d p tie hp =>
    by_cases hne : c = d
    · rw [hne]
      exact hb.serve_le hp tie (hb.finish htotal hp tie).1
    · rw [s.serve_cpu_of_ne hne]
  | note arb harb => exact Nat.le_refl _

theorem Moves.localTime (h : Moves s s') (hb : s.WithinBudget total) (htotal : total < tickModulus)
    (c : Fin 2) : (s.cpu c).localTime ≤ (s'.cpu c).localTime := by
  induction h with
  | refl => exact Nat.le_refl _
  | tail hbefore hstep ih =>
    exact Nat.le_trans ih (hstep.localTime (Moves.withinBudget hbefore hb htotal) htotal c)

end ScriptedPair

end Saturnis.Core
