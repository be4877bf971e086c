/-
The round robin of the two CPUs over a run.

`last_grant_cpu` is set by every grant of a CPU whose tie flag is set, and the
flag is set by any other candidate with the same start and priority class.  It
tells the history of the ties between the CPUs only where no other kind of tie
sets it, and it decides those ties only where the comparison has no cycle.

* `Contested` — the selected operation won a tie of the two CPUs;
* `Alternates` — the turn passes from CPU to CPU with every such tie;
* `Fair` — the condition on a round;
* `runSelections_alternate` — the turns of a run whose rounds are fair;
* `not_alternates_ownTie` — two reads of CPU 0 take the turn away from it.
-/
import Saturnis.ArbiterOrder
import Saturnis.ArbiterRun

namespace Saturnis.Bus

open Saturnis.Core Saturnis.Mem Saturnis.Dev

namespace BusArbiter

variable {arb a b : BusArbiter} {ops : List BusOp} {op w x y : BusOp} {tie : Bool}

/-! ### Ties between the CPUs -/

/-- An operation of CPU 0 or CPU 1. -/
def OfCpu (op : BusOp) : Prop := op.isDma = false ∧ isCpu op.cpuId = true

/-- The operation has the least start time of the candidates, and the highest
priority of those that start with it. -/
def AtFront (arb : BusArbiter) (ops : List BusOp) (x : BusOp) : Prop :=
  ∀ y ∈ ops, arb.startTime x ≤ arb.startTime y ∧
    (arb.startTime y = arb.startTime x → (arb.policy y).rank ≤ (arb.policy x).rank)

/-- `w` is granted where an operation of each CPU is at the front, and is one of
those. -/
def Contested (arb : BusArbiter) (ops : List BusOp) (w : BusOp) : Prop :=
  arb.accepts w = true ∧ (OfCpu w ∧ arb.AtFront ops w) ∧
    ∃ y ∈ ops, OfCpu y ∧ y.cpuId ≠ w.cpuId ∧ arb.AtFront ops y

instance (arb : BusArbiter) (ops : List BusOp) (w : BusOp) : Decidable (arb.Dominates ops w) :=
  inferInstanceAs (Decidable (_ ∧ _))

instance (op : BusOp) : Decidable (OfCpu op) := inferInstanceAs (Decidable (_ ∧ _))

instance (arb : BusArbiter) (ops : List BusOp) (x : BusOp) : Decidable (arb.AtFront ops x) :=
  inferInstanceAs (Decidable (∀ y ∈ ops, _))

instance (arb : BusArbiter) (ops : List BusOp) (w : BusOp) : Decidable (arb.Contested ops w) :=
  inferInstanceAs (Decidable (_ ∧ _))

/-- The CPU whose turn it is. -/
def turnCpu (arb : BusArbiter) : Int := if arb.lastGrantCpu = 0 then 1 else 0

theorem turnCpu_congr (h : a.lastGrantCpu = b.lastGrantCpu) : a.turnCpu = b.turnCpu := by
  rw [turnCpu, turnCpu, h]

theorem OfCpu.cpuId (h : OfCpu op) : op.cpuId = 0 ∨ op.cpuId = 1 := by
  have hcpu := h.2
  rw [isCpu, Bool.or_eq_true, decide_eq_true_eq, decide_eq_true_eq] at hcpu
  exact hcpu

theorem OfCpu.slot_ne (hx : OfCpu x) (hy : OfCpu y) (hne : x.cpuId ≠ y.cpuId) :
    producerSlot x ≠ producerSlot y := by
  simp only [producerSlot, hx.1, hy.1, Bool.false_eq_true, if_false]
  rcases hx.cpuId with hx0 | hx1
  · rcases hy.cpuId with hy0 | hy1
    · exact absurd (hx0.trans hy0.symm) hne
    · rw [hx0, hy1]
      decide
  · rcases hy.cpuId with hy0 | hy1
    · rw [hx1, hy0]
      decide
    · exact absurd (hx1.trans hy1.symm) hne

theorem rank_injective : Function.Injective PriorityClass.rank := by
  intro p q h
  cases p <;> cases q <;> first | rfl | exact absurd h (by decide)

/-- Two operations at the front start together at the same priority. -/
theorem AtFront.together (hx : arb.AtFront ops x) (hy : arb.AtFront ops y) (hxmem : x ∈ ops)
    (hymem : y ∈ ops) :
    arb.startTime y = arb.startTime x ∧ arb.policy y = arb.policy x := by
  have hstart : arb.startTime y = arb.startTime x :=
    Nat.le_antisymm (hy x hxmem).1 (hx y hymem).1
  exact ⟨hstart, rank_injective
    (Nat.le_antisymm ((hx y hymem).2 hstart) ((hy x hxmem).2 hstart.symm))⟩

/-- In a tie of the CPUs the comparison follows the turn. -/
theorem replaces_of_tie (hx : OfCpu x) (hy : OfCpu y) (hne : x.cpuId ≠ y.cpuId)
    (hstart : arb.startTime x = arb.startTime y) (hpolicy : arb.policy x = arb.policy y) :
    arb.replaces x y = decide (x.cpuId = arb.turnCpu) := by
  have hcpus : (isCpu x.cpuId && isCpu y.cpuId && decide (x.cpuId ≠ y.cpuId)) = true := by
    rw [hx.2, hy.2]
    simpa using hne
  rw [replaces, if_neg (by omega), if_neg (by omega), if_neg (hx.slot_ne hy hne),
    if_neg (by rw [hpolicy]; omega), if_neg (by rw [hpolicy]; omega), if_pos hcpus, turnCpu]

/-! ### The rounds of a run -/

/-- A round of `commit_batch`: the arbiter, the committable entries and the
selected one with its tie flag. -/
structure Selection where
  before : BusArbiter
  entries : List Entry
  next : Entry
  tie : Bool

/-- The rounds of the commit loop. -/
def selections : Nat → BusArbiter → List CommitResult → List Selection
  | 0, _, _ => []
  | rounds + 1, arb, pending =>
    match arb.nextRound pending with
    | none => []
    | some (next, tie) =>
      ⟨arb, arb.committable pending, next, tie⟩ ::
        selections rounds (arb.executeCommit next.1.op tie).1 (pending.eraseIdx next.2)

def batchSelections (arb : BusArbiter) (ops : List BusOp) : List Selection :=
  selections (arb.resetEnqueued.enqueue 0 ops).2.length (arb.resetEnqueued.enqueue 0 ops).1
    (arb.resetEnqueued.enqueue 0 ops).2

/-- A single commit has nothing to select. -/
def callSelections (arb : BusArbiter) : ArbiterCall → List Selection
  | .commitBatch ops => arb.batchSelections ops
  | .commit _ | .commitDma _ | .updateProgress _ _ => []

def runSelections : BusArbiter → List ArbiterCall → List Selection
  | _, [] => []
  | arb, call :: calls => arb.callSelections call ++ runSelections (arb.runCall call) calls

namespace Selection

/-- The committable operations. -/
def candidates (sel : Selection) : List BusOp := sel.entries.map (·.1.op)

/-- The round is a tie of the two CPUs. -/
def Contested (sel : Selection) : Prop := sel.before.Contested sel.candidates sel.next.1.op

instance (sel : Selection) : Decidable sel.Contested :=
  inferInstanceAs (Decidable (BusArbiter.Contested _ _ _))

/-- One candidate is preferred to all others; and if it is granted to a CPU while
another candidate starts with it at the same priority, then it wins a tie of the
two CPUs. -/
def Fair (sel : Selection) : Prop :=
  ∃ w ∈ sel.candidates, sel.before.Dominates sel.candidates w ∧
    (sel.before.accepts w = true → isCpu w.cpuId = true →
      (∃ e ∈ sel.entries, ∃ e' ∈ sel.entries, e.1.op = w ∧ e'.2 ≠ e.2 ∧
        sel.before.startTime e'.1.op = sel.before.startTime w ∧
        sel.before.policy e'.1.op = sel.before.policy w) →
      sel.before.Contested sel.candidates w)

instance (sel : Selection) : Decidable sel.Fair :=
  inferInstanceAs (Decidable (∃ w ∈ sel.candidates, _))

end Selection

/-- Each tie of the CPUs is won by the CPU whose turn it is, which is then the
turn of the one that lost. -/
def Alternates : Int → List Selection → Prop
  | _, [] => True
  | turn, sel :: later =>
    if sel.Contested then sel.next.1.op.cpuId = turn ∧ Alternates (1 - turn) later
    else Alternates turn later

instance Alternates.decidable : ∀ turn l, Decidable (Alternates turn l)
  | _, [] => isTrue trivial
  | turn, sel :: later =>
    have := Alternates.decidable (1 - turn) later
    have := Alternates.decidable turn later
    inferInstanceAs (Decidable (if sel.Contested then _ else _))

/-! ### The turn -/

/-- Only a grant with its tie flag set moves the turn. -/
theorem executeCommit_lastGrantCpu (arb : BusArbiter) (op : BusOp) (tie : Bool) :
    (arb.executeCommit op tie).1.lastGrantCpu =
      if arb.accepts op = true ∧ tie = true ∧ isCpu op.cpuId = true then op.cpuId
      else arb.lastGrantCpu := by
  cases h : arb.accepts op with
  | true =>
    rw [executeCommit_of_accepts h]
    simp only [true_and]
    rfl
  | false =>
    obtain ⟨reason, detail, heq⟩ := executeCommit_of_rejected tie h
    rw [heq, if_neg fun hc => Bool.false_ne_true hc.1]
    rfl

theorem commit_lastGrantCpu (arb : BusArbiter) (op : BusOp) :
    (arb.commit op).1.lastGrantCpu = arb.lastGrantCpu := by
  have hvalidate := hardware_lastGrantCpu (arb.hardware_validateEnqueueContract op)
  rw [commit]
  split
  · rfl
  · split
    case h_1 arb' heq => rw [← hvalidate, heq]
    case h_2 arb' heq =>
      rw [executeCommit_lastGrantCpu, if_neg fun hc => Bool.false_ne_true hc.2.1, ← hvalidate, heq]

/-! ### A fair round -/

namespace Selection

variable {sel : Selection}

/-- The entry is what the loop selects from the candidates. -/
structure Made (sel : Selection) : Prop where
  next : sel.next ∈ sel.entries
  position : ∀ e ∈ sel.entries, ∀ e' ∈ sel.entries, e.2 = e'.2 → e = e'
  picked : ∀ w, sel.before.Dominates sel.candidates w → sel.next.1.op = w
  tie : sel.tie = sel.before.hadTie sel.next sel.entries

/-- What a tie flag says. -/
theorem Made.tie_iff (h : sel.Made) : sel.tie = true ↔ ∃ e' ∈ sel.entries, e'.2 ≠ sel.next.2 ∧
    sel.before.startTime e'.1.op = sel.before.startTime sel.next.1.op ∧
    sel.before.policy e'.1.op = sel.before.policy sel.next.1.op := by
  rw [h.tie, hadTie, List.any_eq_true]
  simp only [Bool.and_eq_true, decide_eq_true_eq, ne_eq]

theorem Made.mem (h : sel.Made) : sel.next.1.op ∈ sel.candidates :=
  List.mem_map.mpr ⟨sel.next, h.next, rfl⟩

/-- A tie of the CPUs sets the tie flag. -/
theorem Made.tie_of_contested (h : sel.Made) (hc : sel.Contested) : sel.tie = true := by
  obtain ⟨-, ⟨-, hw⟩, y, hy, -, hne, hfront⟩ := hc
  obtain ⟨e, he, rfl⟩ := List.mem_map.mp hy
  obtain ⟨hstart, hpolicy⟩ := hw.together hfront h.mem hy
  refine h.tie_iff.mpr ⟨e, he, fun hpos => hne ?_, hstart, hpolicy⟩
  rw [h.position e he sel.next h.next hpos]

/-- A tie of the CPUs goes to the CPU whose turn it is. -/
theorem Fair.winner (hf : sel.Fair) (h : sel.Made) (hc : sel.Contested) :
    sel.next.1.op.cpuId = sel.before.turnCpu := by
  obtain ⟨w, -, hdom, -⟩ := hf
  have hnext := h.picked w hdom
  obtain ⟨-, ⟨hcpu, hw⟩, y, hy, hycpu, hne, hfront⟩ := hc
  rw [hnext] at hcpu hw hne ⊢
  obtain ⟨hstart, hpolicy⟩ := hw.together hfront hdom.1 hy
  have hprefers := (hdom.2 y hy fun heq => hne (by rw [heq])).1
  rw [replaces_of_tie hcpu hycpu (Ne.symm hne) hstart.symm hpolicy.symm] at hprefers
  exact of_decide_eq_true hprefers

/-- After a tie of the CPUs it is the turn of the one that lost, and any other
round leaves the turn. -/
theorem Fair.turnCpu (hf : sel.Fair) (h : sel.Made) :
    (sel.before.executeCommit sel.next.1.op sel.tie).1.turnCpu =
      if sel.Contested then 1 - sel.before.turnCpu else sel.before.turnCpu := by
  by_cases hc : sel.Contested
  · have hlast : (sel.before.executeCommit sel.next.1.op sel.tie).1.lastGrantCpu =
        sel.next.1.op.cpuId := by
      rw [executeCommit_lastGrantCpu, if_pos ⟨hc.1, h.tie_of_contested hc, hc.2.1.1.2⟩]
    rw [if_pos hc, ← hf.winner h hc, BusArbiter.turnCpu, hlast]
    rcases hc.2.1.1.cpuId with h0 | h1
    · rw [h0]
      decide
    · rw [h1]
      decide
  · rw [if_neg hc]
    refine turnCpu_congr ?_
    rw [executeCommit_lastGrantCpu, if_neg]
    rintro ⟨haccepts, htie, hcpu⟩
    obtain ⟨w, -, hdom, hcontested⟩ := hf
    have hnext := h.picked w hdom
    obtain ⟨e', he', hpos, hsame⟩ := h.tie_iff.mp htie
    rw [hnext] at haccepts hcpu hsame
    refine hc ?_
    rw [Selection.Contested, hnext]
    exact hcontested haccepts hcpu ⟨sel.next, h.next, e', he', hnext, hpos, hsame⟩

end Selection

/-! ### Runs -/

theorem nextRound_made {pending : List CommitResult} {next : Entry}
    (h : arb.nextRound pending = some (next, tie)) :
    Selection.Made ⟨arb, arb.committable pending, next, tie⟩ := by
  -- an entry's second component is its position, so it tells the entries apart
  have hposition : ∀ e ∈ arb.committable pending, ∀ e' ∈ arb.committable pending, e.2 = e'.2 →
      e = e' := by
    intro e he e' he' heq
    have hi := List.mem_zipIdx_iff_getElem?.mp (List.mem_of_mem_filter he)
    have hj := List.mem_zipIdx_iff_getElem?.mp (List.mem_of_mem_filter he')
    rw [heq, hj] at hi
    exact Prod.ext (Option.some_inj.mp hi).symm heq
  obtain ⟨front, rest, hcand, rfl, htie⟩ := nextRound_eq_some h
  refine ⟨pickNext_mem hcand, hposition, fun w hdom => ?_, ?_⟩
  · -- the scan that picks the entry is the scan over the operations
    have hbest : (arb.pickNext front (front :: rest)).1.op =
        Scan.best arb.replaces front.1.op ((front :: rest).map (·.1.op)) :=
      Scan.best_map (r := arb.replaces) (fun e : Entry => e.1.op) front (front :: rest)
    have hdom' : arb.Dominates ((front :: rest).map (·.1.op)) w := hcand ▸ hdom
    -- the scan starts on the front and meets it again
    have hmem : ∀ x ∈ front.1.op :: (front :: rest).map (·.1.op),
        x ∈ (front :: rest).map (·.1.op) := by
      intro x hx
      rcases List.mem_cons.mp hx with rfl | hx
      · exact List.mem_cons_self
      · exact hx
    rw [hbest]
    refine Scan.best_of_dominates (List.mem_cons_of_mem _ hdom'.1) (fun x hx hne => ?_)
      fun x hx => ?_
    · exact (hdom'.2 x (hmem x hx) hne).1
    · by_cases hxw : x = w
      · rw [hxw]
        exact not_replaces_self w
      · exact (hdom'.2 x (hmem x hx) hxw).2
  · rw [← htie, hcand]

/-- The rounds of a batch pass the turn on to what follows. -/
theorem selections_alternate (n : Nat) (arb : BusArbiter) (pending : List CommitResult)
    {later : List Selection} (hfair : ∀ sel ∈ selections n arb pending, sel.Fair)
    (hlater : Alternates (commitRounds n arb pending).1.turnCpu later) :
    Alternates arb.turnCpu (selections n arb pending ++ later) := by
  induction n generalizing arb pending with
  | zero => exact hlater
  | succ n ih =>
    cases h : arb.nextRound pending with
    | none =>
      rw [commitRounds_of_none h] at hlater
      rw [selections, h]
      exact hlater
    | some round =>
      obtain ⟨next, tie⟩ := round
      have hmade := nextRound_made h
      rw [selections, h] at hfair ⊢
      rw [commitRounds_of_some h] at hlater
      have hfirst := hfair _ List.mem_cons_self
      have hrest := ih (arb.executeCommit next.1.op tie).1 (pending.eraseIdx next.2)
        (fun sel hsel => hfair sel (List.mem_cons_of_mem _ hsel)) hlater
      have hturn := hfirst.turnCpu hmade
      dsimp only at hturn
      rw [hturn] at hrest
      rw [List.cons_append, Alternates]
      split
      case isTrue hc =>
        rw [if_pos hc] at hrest
        exact ⟨hfirst.winner hmade hc, hrest⟩
      case isFalse hc =>
        rw [if_neg hc] at hrest
        exact hrest

theorem runCall_alternate (arb : BusArbiter) (call : ArbiterCall) {later : List Selection}
    (hfair : ∀ sel ∈ arb.callSelections call, sel.Fair)
    (hlater : Alternates (arb.runCall call).turnCpu later) :
    Alternates arb.turnCpu (arb.callSelections call ++ later) := by
  cases call with
  | commit op =>
    rw [runCall, turnCpu, commit_lastGrantCpu] at hlater
    exact hlater
  | commitDma op =>
    rw [runCall, commitDma, turnCpu, commit_lastGrantCpu] at hlater
    exact hlater
  | updateProgress cpuId t =>
    rw [runCall, turnCpu, core_lastGrantCpu (core_updateProgress arb cpuId t)] at hlater
    exact hlater
  | commitBatch ops =>
    have hturn : (arb.resetEnqueued.enqueue 0 ops).1.turnCpu = arb.turnCpu := by
      rw [turnCpu, hardware_lastGrantCpu (hardware_enqueue _ 0 ops)]
      rfl
    rw [← hturn]
    exact selections_alternate _ _ _ hfair hlater

theorem runSelections_turn (arb : BusArbiter) (calls : List ArbiterCall)
    (hfair : ∀ sel ∈ runSelections arb calls, sel.Fair) :
    Alternates arb.turnCpu (runSelections arb calls) := by
  induction calls generalizing arb with
  | nil => exact trivial
  | cons call calls ih =>
    refine runCall_alternate arb call (fun sel hsel => hfair sel (List.mem_append_left _ hsel)) ?_
    exact ih _ fun sel hsel => hfair sel (List.mem_append_right _ hsel)

/-- **The turns of a run.**  From a fresh arbiter with the default policy, a run
whose rounds are all fair alternates between the CPUs, CPU 0 first. -/
theorem runSelections_alternate (memory : CommittedMemory) (devices : DeviceHub) (trace : TraceLog)
    (latency : LatencyModel) (calls : List ArbiterCall)
    (hfair : ∀ sel ∈ runSelections { memory, devices, trace, latency } calls, sel.Fair) :
    Alternates 0 (runSelections { memory, devices, trace, latency } calls) :=
  runSelections_turn { memory, devices, trace, latency } calls hfair

/-- A read of each CPU at tick 0, and another pair at tick 20. -/
def twoTies : List ArbiterCall :=
  [.commitBatch [{}, { cpuId := 1, physAddr := 8 }],
    .commitBatch [{ sequence := 1, reqTime := 20 },
      { cpuId := 1, sequence := 1, reqTime := 20, physAddr := 8 }]]

theorem runSelections_alternate_twoTies :
    Alternates 0 (runSelections { memory := .make 16 } twoTies) ∧
      ((runSelections { memory := .make 16 } twoTies).filter fun sel => sel.Contested).map
        (·.next.1.op.cpuId) = [0, 1] :=
  ⟨runSelections_alternate (.make 16) {} {} {} twoTies (by decide), by decide⟩

/-- Two reads of CPU 0 at tick 0, then a read of each CPU at tick 20. -/
def ownTie : List ArbiterCall :=
  [.commitBatch [{}, { sequence := 1, physAddr := 8 }],
    .commitBatch [{ sequence := 2, reqTime := 20 }, { cpuId := 1, reqTime := 20, physAddr := 8 }]]

/-- The tie between the two reads of CPU 0 hands the turn to CPU 1. -/
theorem not_alternates_ownTie :
    ¬ Alternates 0 (runSelections { memory := .make 16 } ownTie) := by
  decide

end BusArbiter

end Saturnis.Bus
