/-
What a rejected operation leaves behind.

An operation is checked twice.  The enqueue contract records the request time
of every operation it lets through; `execute_commit` rejects what is invalid or
late for the bus, and then only writes its records.  An operation that passes
the first check and fails the second has therefore left its request time in the
enqueue bookkeeping, and in a batch it has stood among the candidates of every
round before its own.

* `commit_noResidue_iff`, `commitBatch_noResidue`, `inert_of_noResidue` — when
  the arbiter goes on as if the operation had never been submitted;
* `rejected_noResidue_iff` — the same for the three entry points together.
-/
import Saturnis.ArbiterEntries

namespace Saturnis.Bus

open Saturnis.Core Saturnis.Mem Saturnis.Dev

namespace BusArbiter

variable {arb a b : BusArbiter} {op : BusOp} {pending : List CommitResult} {w x : CommitResult}

/-- Halt-on-fault mode is off, and nothing has latched. -/
structure Quiet (arb : BusArbiter) : Prop where
  mode : arb.trace.haltOnFault = false
  latch : arb.trace.shouldHalt = false

theorem Quiet.resetEnqueued (hq : Quiet arb) : Quiet arb.resetEnqueued := ⟨hq.mode, hq.latch⟩

/-- The FAULT and the COMMIT record of a rejection. -/
def rejectionLines (op : BusOp) (start : Nat) (reason : String) (detail : Word) :
    List TraceEvent :=
  [.fault ⟨start, op.cpuId, 0, detail, reason⟩,
    .commit ⟨start, start, op, 0, kInvalidBusOpValue, false⟩]

theorem faultResponse_eq_relog (hq : Quiet arb) (op : BusOp) (start : Nat) (reason : String)
    (detail : Word) :
    (arb.faultResponse op start reason detail).1 =
      arb.relog (arb.trace.lines ++ rejectionLines op start reason detail) := by
  simp [faultResponse, relog, TraceLog.addFault, TraceLog.addCommit, rejectionLines, hq.mode]

theorem Quiet.relog (hq : Quiet arb) (l : List TraceEvent) : Quiet (arb.relog l) :=
  ⟨hq.mode, hq.latch⟩

theorem Quiet.noteEnqueued (hq : Quiet arb) (op : BusOp) : Quiet (arb.noteEnqueued op) :=
  ⟨hq.mode, hq.latch⟩

theorem Quiet.executeCommit (hq : Quiet arb) (op : BusOp) (tie : Bool) :
    Quiet (arb.executeCommit op tie).1 := by
  cases h : arb.accepts op with
  | true =>
    rw [executeCommit_of_accepts h]
    exact ⟨hq.mode, hq.latch⟩
  | false =>
    obtain ⟨reason, detail, heq⟩ := executeCommit_of_rejected tie h
    rw [heq, faultResponse_eq_relog hq]
    exact hq.relog _

/-- Only a granted operation looks at the tie flag. -/
theorem executeCommit_tie (h : arb.accepts op = false) (tie tie' : Bool) :
    arb.executeCommit op tie = arb.executeCommit op tie' := by
  rw [BusArbiter.executeCommit, BusArbiter.executeCommit]
  split
  · rfl
  · rename_i hvalid
    split
    · rfl
    · rename_i hmono
      rw [accepts, not_not.mp hvalid] at h
      exact absurd h (by simpa using hmono)

theorem executeCommit_rejected_relog (hq : Quiet arb) (h : arb.accepts op = false) (tie : Bool) :
    ∃ start reason detail response, ∀ l, (arb.relog l).executeCommit op tie =
      (arb.relog (l ++ rejectionLines op start reason detail), response) := by
  obtain ⟨reason, detail, heq⟩ := executeCommit_of_rejected tie h
  obtain ⟨lines, hlines, hl⟩ := (executeCommit_appends op tie).spec arb
  rw [heq, faultResponse_eq_relog hq] at hlines hl
  -- the lines added to the arbiter's own log are those of the rejection
  have hrej : rejectionLines op (arb.startTime op) reason detail = lines :=
    List.append_cancel_left hlines
  refine ⟨arb.startTime op, reason, detail,
    (arb.faultResponse op (arb.startTime op) reason detail).2, fun l => ?_⟩
  rw [hl l, hrej]
  rfl

/-! ### One operation on its own -/

/-- What `commit` rejects: by the enqueue contract, or in `execute_commit`. -/
def Rejects (arb : BusArbiter) (op : BusOp) : Prop :=
  arb.turnsAway op = true ∨ arb.accepts op = false

/-- Handling `op` has changed nothing but the trace, and later calls answer as
if the operation had not been submitted. -/
def NoResidue (arb after : BusArbiter) (op : BusOp) : Prop :=
  (∃ start reason detail,
    after = arb.relog (arb.trace.lines ++ rejectionLines op start reason detail)) ∧
  ∀ calls, after.answersOf calls = arb.answersOf calls

/-- The next operation of the producer that the contract would let through
anyway is not before `op`; where none follows, `op` has the request time on
record. -/
def Absorbed (arb : BusArbiter) (op : BusOp) : List BusOp → Prop
  | [] => arb.producerEnqueuedSeen (producerSlot op) = true ∧
      arb.producerLastEnqueuedReqTime (producerSlot op) = op.reqTime
  | next :: later =>
    if producerSlot next = producerSlot op ∧ arb.turnsAway next = false then
      op.reqTime ≤ next.reqTime
    else Absorbed arb op later

theorem noteEnqueued_eq_self (h : Absorbed arb op []) : arb.noteEnqueued op = arb := by
  have hseen : Function.update arb.producerEnqueuedSeen (producerSlot op) true =
      arb.producerEnqueuedSeen := by rw [← h.1, Function.update_eq_self]
  have hlast : Function.update arb.producerLastEnqueuedReqTime (producerSlot op) op.reqTime =
      arb.producerLastEnqueuedReqTime := by rw [← h.2, Function.update_eq_self]
  rw [noteEnqueued, hseen, hlast]

theorem commit_of_turnsAway (hq : Quiet arb) (h : arb.turnsAway op = true) :
    (arb.commit op).1 = arb.relog (arb.trace.lines ++
      rejectionLines op (arb.startTime op) "ENQUEUE_NON_MONOTONIC_REQ_TIME"
        (BitVec.ofNat 32 op.reqTime)) := by
  rw [commit, if_neg (by simp [hq.latch]), validateEnqueueContract_of_turnsAway h,
    faultResponse_eq_relog hq]

theorem commit_of_rejected (hq : Quiet arb) (hpass : arb.turnsAway op = false)
    (h : arb.accepts op = false) :
    ∃ start reason detail, (arb.commit op).1 = (arb.noteEnqueued op).relog
      (arb.trace.lines ++ rejectionLines op start reason detail) := by
  have h' : (arb.noteEnqueued op).accepts op = false := h
  obtain ⟨start, reason, detail, response, hl⟩ :=
    executeCommit_rejected_relog (hq.noteEnqueued op) h' false
  have hself := hl arb.trace.lines
  refine ⟨start, reason, detail, ?_⟩
  rw [commit, if_neg (by simp [hq.latch]), validateEnqueueContract_of_pass hpass]
  exact congrArg Prod.fst hself

theorem commit_noResidue_iff (hq : Quiet arb) (h : arb.Rejects op) :
    NoResidue arb (arb.commit op).1 op ↔ arb.turnsAway op = true ∨ Absorbed arb op [] := by
  cases hpass : arb.turnsAway op with
  | true =>
    refine ⟨fun _ => Or.inl rfl, fun _ => ⟨⟨_, _, _, commit_of_turnsAway hq hpass⟩, fun calls => ?_⟩⟩
    rw [commit_of_turnsAway hq hpass, answersOf_relog]
  | false =>
    have hacc : arb.accepts op = false := by
      rcases h with h | h
      · rw [hpass] at h
        exact absurd h (by simp)
      · exact h
    obtain ⟨start, reason, detail, hcommit⟩ := commit_of_rejected hq hpass hacc
    constructor
    · rintro ⟨⟨start', reason', detail', heq⟩, -⟩
      -- the bookkeeping of the producer is that of `op` now, and was so before
      rw [hcommit] at heq
      have hseen := congrFun (congrArg BusArbiter.producerEnqueuedSeen heq :) (producerSlot op)
      have hlast := congrFun (congrArg BusArbiter.producerLastEnqueuedReqTime heq :)
        (producerSlot op)
      refine Or.inr ⟨?_, ?_⟩
      · exact hseen.symm.trans (Function.update_self ..)
      · exact hlast.symm.trans (Function.update_self ..)
    · rintro (h | h)
      · exact absurd h (by simp)
      · rw [noteEnqueued_eq_self h] at hcommit
        refine ⟨⟨start, reason, detail, hcommit⟩, fun calls => ?_⟩
        rw [hcommit, answersOf_relog]

/-! ### The rounds of a batch -/

/-- The round that takes the entry `x` rejects it. -/
def RejectedIn : Nat → BusArbiter → List CommitResult → CommitResult → Prop
  | 0, _, _, _ => False
  | n + 1, arb, pending, x =>
    match arb.entryRound pending with
    | none => False
    | some (w, tie) =>
      if w = x then arb.accepts x.op = false
      else RejectedIn n (arb.executeCommit w.op tie).1 (pending.erase w) x

/-- In the rounds before its own the entry `x` neither changes the choice nor
the tie flag of an operation that is granted. -/
def Unswayed : Nat → BusArbiter → List CommitResult → CommitResult → Prop
  | 0, _, _, _ => True
  | n + 1, arb, pending, x =>
    match arb.entryRound pending with
    | none => True
    | some (w, tie) =>
      w = x ∨
        (∃ tie', arb.entryRound (pending.erase x) = some (w, tie') ∧
          (tie' = tie ∨ arb.accepts w.op = false)) ∧
        Unswayed n (arb.executeCommit w.op tie).1 (pending.erase w) x

theorem rejectedIn_of_ne {n : Nat} {tie : Bool} (h : arb.entryRound pending = some (w, tie))
    (hne : w ≠ x) (hrej : RejectedIn (n + 1) arb pending x) :
    RejectedIn n (arb.executeCommit w.op tie).1 (pending.erase w) x := by
  rw [RejectedIn, h] at hrej
  change if w = x then _ else _ at hrej
  rwa [if_neg hne] at hrej

theorem rejectedIn_self {n : Nat} {tie : Bool} (h : arb.entryRound pending = some (x, tie))
    (hrej : RejectedIn (n + 1) arb pending x) : arb.accepts x.op = false := by
  rw [RejectedIn, h] at hrej
  change if x = x then _ else _ at hrej
  rwa [if_pos rfl] at hrej

/-- With or without an entry that does not sway the rounds before its own, the
others are handled the same; only the two records of the rejection come on top. -/
theorem entryRounds_without {n : Nat} (hq : Quiet arb) (hx : x ∈ pending)
    (hrej : RejectedIn (n + 1) arb pending x) (hun : Unswayed (n + 1) arb pending x) :
    ∃ (c : BusArbiter) (before after : List TraceEvent) (start : Nat) (reason : String)
      (detail : Word) (r₁ r₂ : List CommitResult) (response : BusResponse),
      (∀ l, entryRounds (n + 1) (arb.relog l) pending =
        (c.relog (l ++ (before ++ rejectionLines x.op start reason detail ++ after)),
          r₁ ++ { x with response } :: r₂)) ∧
      ∀ l, entryRounds n (arb.relog l) (pending.erase x) =
        (c.relog (l ++ (before ++ after)), r₁ ++ r₂) := by
  induction n generalizing arb pending with
  | zero =>
    cases h : arb.entryRound pending with
    | none =>
      rw [RejectedIn, h] at hrej
      exact hrej.elim
    | some round =>
      obtain ⟨w, tie⟩ := round
      by_cases hw : w = x
      · rw [hw] at h
        obtain ⟨start, reason, detail, response, hl⟩ :=
          executeCommit_rejected_relog hq (rejectedIn_self h hrej) tie
        refine ⟨arb, [], [], start, reason, detail, [], [], response, fun l => ?_, fun l => ?_⟩
        · have h' : (arb.relog l).entryRound pending = some (x, tie) := h
          rw [entryRounds_of_some h', hl l]
          simp [entryRounds]
        · simp [entryRounds]
      · exact (rejectedIn_of_ne h hw hrej).elim
  | succ n ih =>
    cases h : arb.entryRound pending with
    | none =>
      rw [RejectedIn, h] at hrej
      exact hrej.elim
    | some round =>
      obtain ⟨w, tie⟩ := round
      have hround : ∀ l, (arb.relog l).entryRound pending = some (w, tie) := fun _ => h
      by_cases hw : w = x
      · -- the round of `x` itself: what follows is the batch without it
        subst hw
        obtain ⟨start, reason, detail, response, hl⟩ :=
          executeCommit_rejected_relog hq (rejectedIn_self h hrej) tie
        obtain ⟨after, -, hafter⟩ := (entryRounds_appends (n + 1) (pending.erase w)).spec arb
        refine ⟨(entryRounds (n + 1) arb (pending.erase w)).1, [], after, start, reason, detail, [],
          (entryRounds (n + 1) arb (pending.erase w)).2, response, fun l => ?_, fun l => hafter l⟩
        rw [entryRounds_of_some (hround l), hl l]
        rw [hafter, List.append_assoc]
        rfl
      · -- the round of another entry, which is picked without `x` as well
        rw [Unswayed, h] at hun
        obtain ⟨⟨tie', hround', htie⟩, hun⟩ := hun.resolve_left hw
        obtain ⟨lines, -, hl⟩ := (executeCommit_appends w.op tie).spec arb
        obtain ⟨c, before, after, start, reason, detail, r₁, r₂, response, hwith, hwithout⟩ :=
          ih (hq.executeCommit w.op tie) ((List.mem_erase_of_ne (Ne.symm hw)).mpr hx)
            (rejectedIn_of_ne h hw hrej) hun
        refine ⟨c, lines ++ before, after, start, reason, detail,
          { w with response := (arb.executeCommit w.op tie).2 } :: r₁, r₂, response,
          fun l => ?_, fun l => ?_⟩
        · rw [entryRounds_of_some (hround l), hl l, hwith]
          simp only [List.append_assoc, List.cons_append]
        · -- the other flag is the same, or `w` is rejected and it does not matter
          have hsame : (arb.relog l).executeCommit w.op tie' =
              (arb.relog l).executeCommit w.op tie := by
            rcases htie with rfl | hacc
            · rfl
            · exact executeCommit_tie (show (arb.relog l).accepts w.op = false from hacc) _ _
          have hround'' : (arb.relog l).entryRound (pending.erase x) = some (w, tie') := hround'
          rw [entryRounds_of_some hround'', hsame, hl l, List.erase_comm, hwithout]
          simp only [List.append_assoc, List.cons_append]

/-- Conversely, where the others are answered the same the entry has swayed no
round, provided a tie costs something. -/
theorem unswayed_of_results {n : Nat} (hnum : Numbered pending) (hx : x ∈ pending)
    (hrej : RejectedIn (n + 1) arb pending x)
    (hturn : arb.latency.tieTurnaround % tickModulus ≠ 0)
    (hres : (entryRounds (n + 1) arb pending).2.filter (·.inputIndex ≠ x.inputIndex) =
      (entryRounds n arb (pending.erase x)).2) : Unswayed (n + 1) arb pending x := by
  induction n generalizing arb pending with
  | zero =>
    cases h : arb.entryRound pending with
    | none => rw [Unswayed, h]; trivial
    | some round =>
      obtain ⟨w, tie⟩ := round
      rw [Unswayed, h]
      by_cases hw : w = x
      · exact Or.inl hw
      · exact (rejectedIn_of_ne h hw hrej).elim
  | succ n ih =>
    cases h : arb.entryRound pending with
    | none => rw [Unswayed, h]; trivial
    | some round =>
      obtain ⟨w, tie⟩ := round
      rw [Unswayed, h]
      by_cases hw : w = x
      · exact Or.inl hw
      · right
        have hindex : w.inputIndex ≠ x.inputIndex :=
          fun heq => hw (hnum.eq (entryRound_mem h) hx heq)
        rw [entryRounds_of_some h, List.filter_cons_of_pos (by simpa using hindex)] at hres
        cases h' : arb.entryRound (pending.erase x) with
        | none =>
          rw [entryRounds_of_none h'] at hres
          exact absurd hres (by simp)
        | some round' =>
          obtain ⟨w', tie'⟩ := round'
          rw [entryRounds_of_some h'] at hres
          obtain ⟨hhead, htail⟩ := List.cons.inj hres
          obtain ⟨hsame, -, hresponse⟩ := CommitResult.mk.inj hhead
          -- the results agree in their heads, so the two batches picked the same entry
          have hww : w = w' := hnum.eq (entryRound_mem h)
            (List.mem_of_mem_erase (entryRound_mem h')) hsame
          subst hww
          -- a granted entry's response tells its tie flag, since a turnaround takes ticks
          have htie : tie' = tie ∨ arb.accepts w.op = false := by
            cases hacc : arb.accepts w.op with
            | true =>
              rw [executeCommit_of_accepts hacc, executeCommit_of_accepts hacc] at hresponse
              exact Or.inl (grant_tie_inj hturn hresponse).symm
            | false => exact Or.inr rfl
          have hexec : arb.executeCommit w.op tie' = arb.executeCommit w.op tie := by
            rcases htie with rfl | hacc
            · rfl
            · exact executeCommit_tie hacc _ _
          rw [hexec, List.erase_comm] at htail
          exact ⟨⟨tie', rfl, htie⟩, ih (hnum.erase w) ((List.mem_erase_of_ne (Ne.symm hw)).mpr hx)
            (rejectedIn_of_ne h hw hrej) (by rw [executeCommit_latency]; exact hturn) htail⟩

/-! ### The enqueue loop of a batch -/

theorem enqueue_of_pass (hq : Quiet arb) (h : arb.turnsAway op = false) (i : Nat)
    (ops : List BusOp) :
    arb.enqueue i (op :: ops) =
      (((arb.noteEnqueued op).enqueue (i + 1) ops).1,
        ⟨i, op, {}⟩ :: ((arb.noteEnqueued op).enqueue (i + 1) ops).2) := by
  rw [enqueue_cons, if_neg (by simp [hq.latch]), validateEnqueueContract_of_pass h, if_pos rfl]

/-- The arbiter that has turned the operation away. -/
def away (arb : BusArbiter) (op : BusOp) : BusArbiter :=
  arb.relog (arb.trace.lines ++ rejectionLines op (arb.startTime op)
    "ENQUEUE_NON_MONOTONIC_REQ_TIME" (BitVec.ofNat 32 op.reqTime))

theorem Quiet.away (hq : Quiet arb) (op : BusOp) : Quiet (arb.away op) := hq.relog _

theorem enqueue_of_turnsAway (hq : Quiet arb) (h : arb.turnsAway op = true) (i : Nat)
    (ops : List BusOp) : arb.enqueue i (op :: ops) = (arb.away op).enqueue (i + 1) ops := by
  rw [enqueue_cons, if_neg (by simp [hq.latch]), validateEnqueueContract_of_turnsAway h,
    faultResponse_eq_relog hq, if_neg (by simp)]
  rfl

theorem enqueue_quiet (hq : Quiet arb) (i : Nat) (ops : List BusOp) :
    Quiet (arb.enqueue i ops).1 := by
  induction ops generalizing arb i with
  | nil => exact hq
  | cons op ops ih =>
    cases h : arb.turnsAway op with
    | true =>
      rw [enqueue_of_turnsAway hq h]
      exact ih (hq.away op) _
    | false =>
      rw [enqueue_of_pass hq h]
      exact ih (hq.noteEnqueued op) _

theorem enqueue_append (hq : Quiet arb) (i : Nat) (ops later : List BusOp) :
    arb.enqueue i (ops ++ later) =
      (((arb.enqueue i ops).1.enqueue (i + ops.length) later).1,
        (arb.enqueue i ops).2 ++ ((arb.enqueue i ops).1.enqueue (i + ops.length) later).2) := by
  induction ops generalizing arb i with
  | nil => rfl
  | cons op ops ih =>
    rw [List.cons_append, List.length_cons,
      show i + (ops.length + 1) = i + 1 + ops.length by omega]
    cases h : arb.turnsAway op with
    | true =>
      rw [enqueue_of_turnsAway hq h, enqueue_of_turnsAway hq h]
      exact ih (hq.away op) (i + 1)
    | false =>
      rw [enqueue_of_pass hq h, enqueue_of_pass hq h, ih (hq.noteEnqueued op) (i + 1)]
      rfl

/-- The number of an entry in the batch that has one more operation at `n`. -/
def skip (n : Nat) (e : CommitResult) : CommitResult :=
  if e.inputIndex < n then e else { e with inputIndex := e.inputIndex + 1 }

theorem skip_renumbers (n : Nat) : Renumbers (skip n) := by
  have hop : ∀ e, (skip n e).op = e.op := fun e => by rw [skip]; split <;> rfl
  have hresponse : ∀ e, (skip n e).response = e.response := fun e => by rw [skip]; split <;> rfl
  have hindex : ∀ e e', (skip n e).inputIndex = (skip n e').inputIndex ↔
      e.inputIndex = e'.inputIndex := by
    intro e e'
    simp only [skip]
    split <;> split <;> simp only <;> omega
  refine ⟨hop, fun e r => ?_, hindex, fun e e' heq => ?_⟩
  · simp only [skip]
    split <;> rfl
  · have hi := (hindex e e').mp (by rw [heq])
    have ho := (hop e).symm.trans ((congrArg CommitResult.op heq).trans (hop e'))
    have hr := (hresponse e).symm.trans ((congrArg CommitResult.response heq).trans (hresponse e'))
    cases e
    cases e'
    simp only at hi ho hr
    rw [hi, ho, hr]

theorem enqueue_succ (arb : BusArbiter) {n i : Nat} (hle : n ≤ i) (ops : List BusOp) :
    arb.enqueue (i + 1) ops = ((arb.enqueue i ops).1, (arb.enqueue i ops).2.map (skip n)) := by
  induction ops generalizing arb i with
  | nil => rfl
  | cons op ops ih =>
    have hskip : skip n ⟨i, op, {}⟩ = ⟨i + 1, op, {}⟩ := if_neg (by simp only; omega)
    rw [enqueue_cons, enqueue_cons]
    split
    · rfl
    · rw [ih (arb.validateEnqueueContract op).1 (Nat.le_succ_of_le hle)]
      split
      · rw [List.map_cons, hskip]
      · rfl

theorem noteEnqueued_turnsAway (arb : BusArbiter) (op x : BusOp) :
    (arb.noteEnqueued op).turnsAway x =
      if producerSlot x = producerSlot op then decide (x.reqTime < op.reqTime)
      else arb.turnsAway x := by
  by_cases hslot : producerSlot x = producerSlot op
  · rw [if_pos hslot]
    simp [turnsAway, noteEnqueued, hslot]
  · rw [if_neg hslot]
    simp [turnsAway, noteEnqueued, Function.update_of_ne hslot]

/-- `a` turns away whatever `b` does. -/
def Stricter (a b : BusArbiter) : Prop := ∀ x, b.turnsAway x = true → a.turnsAway x = true

theorem Stricter.note (h : Stricter a b) (op : BusOp) :
    Stricter (a.noteEnqueued op) (b.noteEnqueued op) := by
  intro x hx
  rw [noteEnqueued_turnsAway] at hx ⊢
  split at hx
  · rename_i hslot
    rw [if_pos hslot]
    exact hx
  · rename_i hslot
    rw [if_neg hslot]
    exact h x hx

/-- Where only `a` turns the operation away it stays the stricter one. -/
theorem Stricter.note_right (h : Stricter a b) (hop : a.turnsAway op = true) :
    Stricter a (b.noteEnqueued op) := by
  intro x hx
  rw [noteEnqueued_turnsAway] at hx
  split at hx
  · rename_i hslot
    simp only [turnsAway, Bool.and_eq_true, decide_eq_true_eq, hslot] at hop hx ⊢
    exact ⟨hop.1, by omega⟩
  · exact h x hx

theorem enqueue_length_le (ha : Quiet a) (hb : Quiet b) (h : Stricter a b) (i : Nat)
    (ops : List BusOp) : (a.enqueue i ops).2.length ≤ (b.enqueue i ops).2.length := by
  induction ops generalizing a b i with
  | nil => exact Nat.le_refl _
  | cons op ops ih =>
    cases hop : b.turnsAway op with
    | true =>
      rw [enqueue_of_turnsAway hb hop, enqueue_of_turnsAway ha (h op hop)]
      exact ih (ha.away op) (hb.away op) h (i + 1)
    | false =>
      rw [enqueue_of_pass hb hop, List.length_cons]
      cases hop' : a.turnsAway op with
      | true =>
        rw [enqueue_of_turnsAway ha hop']
        have := ih (ha.away op) (hb.noteEnqueued op) (h.note_right hop') (i + 1)
        omega
      | false =>
        rw [enqueue_of_pass ha hop', List.length_cons]
        have := ih (ha.noteEnqueued op) (hb.noteEnqueued op) (h.note op) (i + 1)
        omega

theorem absorbed_congr {ops : List BusOp}
    (hseen : a.producerEnqueuedSeen (producerSlot op) = b.producerEnqueuedSeen (producerSlot op))
    (hlast : a.producerLastEnqueuedReqTime (producerSlot op) =
      b.producerLastEnqueuedReqTime (producerSlot op)) :
    Absorbed a op ops ↔ Absorbed b op ops := by
  induction ops with
  | nil => rw [Absorbed, Absorbed, hseen, hlast]
  | cons x ops ih =>
    have hcond : (producerSlot x = producerSlot op ∧ a.turnsAway x = false) ↔
        producerSlot x = producerSlot op ∧ b.turnsAway x = false := by
      refine and_congr_right fun hslot => ?_
      rw [turnsAway, turnsAway, hslot, hseen, hlast]
    rw [Absorbed, Absorbed, ih]
    simp only [hcond]

theorem absorbed_away {y : BusOp} {ops : List BusOp} :
    Absorbed (arb.away y) op ops ↔ Absorbed arb op ops :=
  absorbed_congr (a := arb.away y) (b := arb) rfl rfl

theorem noteEnqueued_comm {y : BusOp} (h : producerSlot y ≠ producerSlot op) :
    (arb.noteEnqueued op).noteEnqueued y = (arb.noteEnqueued y).noteEnqueued op := by
  simp only [noteEnqueued, BusArbiter.mk.injEq, true_and]
  exact ⟨Function.update_comm h.symm .., Function.update_comm h.symm ..⟩

theorem noteEnqueued_idem {y : BusOp} (h : producerSlot y = producerSlot op) :
    (arb.noteEnqueued op).noteEnqueued y = arb.noteEnqueued y := by
  simp only [noteEnqueued, h, Function.update_idem]

theorem away_noteEnqueued (arb : BusArbiter) (op y : BusOp) :
    (arb.noteEnqueued op).away y = (arb.away y).noteEnqueued op := rfl

/-- Having passed, `op` has raised the bar for its producer only. -/
theorem turnsAway_of_note {y : BusOp} (hpass : arb.turnsAway op = false)
    (h : arb.turnsAway y = true) : (arb.noteEnqueued op).turnsAway y = true := by
  rw [noteEnqueued_turnsAway]
  split
  · rename_i hslot
    simp only [turnsAway, Bool.and_eq_true, decide_eq_true_eq, hslot] at h
    have hle := turnsAway_eq_false.mp hpass h.1
    simp only [decide_eq_true_eq]
    omega
  · exact h

/-- The loop forgets an absorbed operation. -/
theorem enqueue_absorbed (hq : Quiet arb) (hpass : arb.turnsAway op = false) (i : Nat)
    {ops : List BusOp} (h : Absorbed arb op ops) :
    (arb.noteEnqueued op).enqueue i ops = arb.enqueue i ops := by
  induction ops generalizing arb i with
  | nil => rw [noteEnqueued_eq_self h]
  | cons y ops ih =>
    cases hy : arb.turnsAway y with
    | true =>
      rw [Absorbed, if_neg (by simp [hy])] at h
      rw [enqueue_of_turnsAway hq hy,
        enqueue_of_turnsAway (hq.noteEnqueued op) (turnsAway_of_note hpass hy), away_noteEnqueued]
      exact ih (hq.away y) hpass (i + 1) (absorbed_away.mpr h)
    | false =>
      by_cases hslot : producerSlot y = producerSlot op
      · -- `y` takes the place of `op` in the bookkeeping
        rw [Absorbed, if_pos ⟨hslot, hy⟩] at h
        have hy' : (arb.noteEnqueued op).turnsAway y = false := by
          rw [noteEnqueued_turnsAway, if_pos hslot]
          exact decide_eq_false (by omega)
        rw [enqueue_of_pass hq hy, enqueue_of_pass (hq.noteEnqueued op) hy',
          noteEnqueued_idem hslot]
      · rw [Absorbed, if_neg (by simp [hslot])] at h
        have hy' : (arb.noteEnqueued op).turnsAway y = false := by
          rw [noteEnqueued_turnsAway, if_neg hslot, hy]
        have hpass' : (arb.noteEnqueued y).turnsAway op = false := by
          rw [noteEnqueued_turnsAway, if_neg (Ne.symm hslot), hpass]
        have h' : Absorbed (arb.noteEnqueued y) op ops :=
          (absorbed_congr (by simp [noteEnqueued, Function.update_of_ne (Ne.symm hslot)])
            (by simp [noteEnqueued, Function.update_of_ne (Ne.symm hslot)])).mp h
        rw [enqueue_of_pass hq hy, enqueue_of_pass (hq.noteEnqueued op) hy',
          noteEnqueued_comm hslot, ih (hq.noteEnqueued y) hpass' (i + 1) h']

/-- Conversely, an operation that is not absorbed costs a later one its place,
or is still on record at the end. -/
theorem absorbed_of_enqueue (hq : Quiet arb) (hpass : arb.turnsAway op = false) (i : Nat)
    {ops : List BusOp}
    (hlen : ((arb.noteEnqueued op).enqueue i ops).2.length = (arb.enqueue i ops).2.length)
    (hseen : ((arb.noteEnqueued op).enqueue i ops).1.producerEnqueuedSeen =
      (arb.enqueue i ops).1.producerEnqueuedSeen)
    (hlast : ((arb.noteEnqueued op).enqueue i ops).1.producerLastEnqueuedReqTime =
      (arb.enqueue i ops).1.producerLastEnqueuedReqTime) : Absorbed arb op ops := by
  induction ops generalizing arb i with
  | nil =>
    have hs := congrFun hseen (producerSlot op)
    have hl := congrFun hlast (producerSlot op)
    exact ⟨hs.symm.trans (Function.update_self ..), hl.symm.trans (Function.update_self ..)⟩
  | cons y ops ih =>
    cases hy : arb.turnsAway y with
    | true =>
      rw [Absorbed, if_neg (by simp [hy])]
      rw [enqueue_of_turnsAway hq hy, enqueue_of_turnsAway (hq.noteEnqueued op)
        (turnsAway_of_note hpass hy), away_noteEnqueued] at hlen hseen hlast
      exact absorbed_away.mp (ih (hq.away y) hpass (i + 1) hlen hseen hlast)
    | false =>
      by_cases hslot : producerSlot y = producerSlot op
      · rw [Absorbed, if_pos ⟨hslot, hy⟩]
        by_contra hlt
        -- only the arbiter without `op` lets `y` through
        have hy' : (arb.noteEnqueued op).turnsAway y = true := by
          rw [noteEnqueued_turnsAway, if_pos hslot]
          exact decide_eq_true (by omega)
        have hstrict : Stricter (arb.noteEnqueued op) (arb.noteEnqueued y) :=
          Stricter.note_right (fun x hx => turnsAway_of_note hpass hx) hy'
        have hle := enqueue_length_le ((hq.noteEnqueued op).away y) (hq.noteEnqueued y) hstrict
          (i + 1) ops
        rw [enqueue_of_pass hq hy, enqueue_of_turnsAway (hq.noteEnqueued op) hy',
          List.length_cons] at hlen
        omega
      · rw [Absorbed, if_neg (by simp [hslot])]
        have hy' : (arb.noteEnqueued op).turnsAway y = false := by
          rw [noteEnqueued_turnsAway, if_neg hslot, hy]
        have hpass' : (arb.noteEnqueued y).turnsAway op = false := by
          rw [noteEnqueued_turnsAway, if_neg (Ne.symm hslot), hpass]
        rw [enqueue_of_pass hq hy, enqueue_of_pass (hq.noteEnqueued op) hy',
          noteEnqueued_comm hslot] at hlen hseen hlast
        have h := ih (hq.noteEnqueued y) hpass' (i + 1) (by simpa using hlen) hseen hlast
        exact (absorbed_congr (by simp [noteEnqueued, Function.update_of_ne (Ne.symm hslot)])
          (by simp [noteEnqueued, Function.update_of_ne (Ne.symm hslot)])).mp h

/-! ### A batch with and without the operation -/

section Batch

variable (arb : BusArbiter) (pre : List BusOp) (op : BusOp) (post : List BusOp)

/-- The arbiter when the enqueue loop reaches `op`. -/
def reached : BusArbiter := (arb.resetEnqueued.enqueue 0 pre).1

/-- The arbiter and the pending entries when the commit loop starts. -/
def enqueued (ops : List BusOp) : BusArbiter × List CommitResult := arb.resetEnqueued.enqueue 0 ops

def pendingEntry : CommitResult := ⟨pre.length, op, {}⟩

/-- `commit_batch` rejects the operation between `pre` and `post`: by the
enqueue contract, or in the round that takes it. -/
def BatchRejects : Prop :=
  (arb.reached pre).turnsAway op = true ∨
    RejectedIn (arb.enqueued (pre ++ op :: post)).2.length (arb.enqueued (pre ++ op :: post)).1
      (arb.enqueued (pre ++ op :: post)).2 (pendingEntry pre op)

/-- The operation has no part in the batch but its own rejection. -/
def Inert : Prop :=
  (arb.reached pre).turnsAway op = true ∨
    (Absorbed (arb.reached pre) op post ∧
      Unswayed (arb.enqueued (pre ++ op :: post)).2.length (arb.enqueued (pre ++ op :: post)).1
        (arb.enqueued (pre ++ op :: post)).2 (pendingEntry pre op))

/-- The batch with the operation changes what the batch without it does and
nothing else but the two records of the rejection in the trace; the other
operations are answered the same, and so are later calls. -/
def NoBatchResidue : Prop :=
  (∃ before after start reason detail,
    (arb.commitBatch (pre ++ post)).1.trace.lines = before ++ after ∧
    (arb.commitBatch (pre ++ op :: post)).1 = (arb.commitBatch (pre ++ post)).1.relog
      (before ++ rejectionLines op start reason detail ++ after)) ∧
  (arb.commitBatch (pre ++ op :: post)).2.filter (·.inputIndex ≠ pre.length) =
    (arb.commitBatch (pre ++ post)).2.map (skip pre.length) ∧
  ∀ calls, (arb.commitBatch (pre ++ op :: post)).1.answersOf calls =
    (arb.commitBatch (pre ++ post)).1.answersOf calls

variable {arb pre op post}

theorem skip_index_ne (n : Nat) (e : CommitResult) : (skip n e).inputIndex ≠ n := by
  rw [skip]
  split
  · omega
  · simp only
    omega

theorem filter_map_skip (n : Nat) (results : List CommitResult) :
    (results.map (skip n)).filter (·.inputIndex ≠ n) = results.map (skip n) := by
  refine List.filter_eq_self.mpr fun e he => ?_
  obtain ⟨e, -, rfl⟩ := List.mem_map.mp he
  simpa using skip_index_ne n e

theorem map_skip_enqueue (pre : List BusOp) :
    (arb.enqueue 0 pre).2.map (skip pre.length) = (arb.enqueue 0 pre).2 := by
  refine (List.map_congr_left fun e he => ?_).trans (List.map_id _)
  have hget := (enqueue_inputIndex arb 0 pre e he).2
  have hlt := (List.getElem?_eq_some_iff.mp hget).1
  exact if_pos (by omega)

theorem enqueued_without (hq : Quiet arb) :
    arb.enqueued (pre ++ post) = (((arb.reached pre).enqueue pre.length post).1,
      (arb.resetEnqueued.enqueue 0 pre).2 ++ ((arb.reached pre).enqueue pre.length post).2) := by
  have happ := enqueue_append hq.resetEnqueued 0 pre post
  rw [Nat.zero_add] at happ
  exact happ

theorem reached_quiet (hq : Quiet arb) (pre : List BusOp) : Quiet (arb.reached pre) :=
  enqueue_quiet hq.resetEnqueued 0 pre

/-- The start of the commit loop when the contract turns the operation away. -/
theorem enqueued_of_turnsAway (hq : Quiet arb) (h : (arb.reached pre).turnsAway op = true)
    (post : List BusOp) :
    ∃ before after start reason detail,
      (arb.enqueued (pre ++ post)).1.trace.lines = before ++ after ∧
      arb.enqueued (pre ++ op :: post) =
        ((arb.enqueued (pre ++ post)).1.relog
          (before ++ rejectionLines op start reason detail ++ after),
          (arb.enqueued (pre ++ post)).2.map (skip pre.length)) := by
  obtain ⟨after, hafter, hl⟩ := (enqueue_appends pre.length post).spec (arb.reached pre)
  refine ⟨(arb.reached pre).trace.lines, after, (arb.reached pre).startTime op,
    "ENQUEUE_NON_MONOTONIC_REQ_TIME", BitVec.ofNat 32 op.reqTime,
    by rw [enqueued_without hq]; exact hafter, ?_⟩
  rw [enqueued_without hq, enqueued_without hq, enqueue_of_turnsAway (reached_quiet hq pre) h,
    enqueue_succ _ (Nat.le_refl pre.length), List.map_append, map_skip_enqueue]
  exact congrArg (fun r : BusArbiter × List CommitResult =>
    (r.1, (arb.resetEnqueued.enqueue 0 pre).2 ++ r.2.map (skip pre.length))) (hl _)

/-- The start of the commit loop when the contract lets the operation pass. -/
theorem enqueued_of_pass (hq : Quiet arb) (h : (arb.reached pre).turnsAway op = false) :
    arb.enqueued (pre ++ op :: post) =
      ((((arb.reached pre).noteEnqueued op).enqueue pre.length post).1,
        (arb.resetEnqueued.enqueue 0 pre).2 ++ pendingEntry pre op ::
          ((((arb.reached pre).noteEnqueued op).enqueue pre.length post).2.map
            (skip pre.length))) := by
  rw [enqueued_without hq, enqueue_of_pass (reached_quiet hq pre) h,
    enqueue_succ _ (Nat.le_refl pre.length)]
  rfl

theorem commitBatch_eq (arb : BusArbiter) (ops : List BusOp) :
    arb.commitBatch ops =
      entryRounds (arb.enqueued ops).2.length (arb.enqueued ops).1 (arb.enqueued ops).2 :=
  commitBatch_eq_entryRounds arb ops

/-- Turned away by the contract, an operation leaves nothing behind. -/
theorem noBatchResidue_of_turnsAway (hq : Quiet arb)
    (h : (arb.reached pre).turnsAway op = true) : NoBatchResidue arb pre op post := by
  obtain ⟨before, after, start, reason, detail, hlines, henq⟩ :=
    enqueued_of_turnsAway hq h post
  set start' := (arb.enqueued (pre ++ post)).1
  set pending := (arb.enqueued (pre ++ post)).2
  obtain ⟨later, hlater, hl⟩ := (entryRounds_appends pending.length pending).spec start'
  have hwithout : arb.commitBatch (pre ++ post) = entryRounds pending.length start' pending :=
    commitBatch_eq arb _
  have hwith : arb.commitBatch (pre ++ op :: post) =
      ((arb.commitBatch (pre ++ post)).1.relog
        (before ++ rejectionLines op start reason detail ++ (after ++ later)),
        (arb.commitBatch (pre ++ post)).2.map (skip pre.length)) := by
    rw [commitBatch_eq arb (pre ++ op :: post), henq, List.length_map,
      entryRounds_map (skip_renumbers pre.length), hl, hwithout, List.append_assoc]
  refine ⟨⟨before, after ++ later, start, reason, detail, ?_, congrArg Prod.fst hwith⟩, ?_,
    fun calls => ?_⟩
  · rw [hwithout, hlater, hlines, List.append_assoc]
  · rw [congrArg Prod.snd hwith, filter_map_skip]
  · rw [congrArg Prod.fst hwith, answersOf_relog]

/-- The pending entries of the two batches, once the loop has absorbed the
operation. -/
theorem enqueued_of_absorbed (hq : Quiet arb) (hpass : (arb.reached pre).turnsAway op = false)
    (h : Absorbed (arb.reached pre) op post) :
    (arb.enqueued (pre ++ op :: post)).1 = (arb.enqueued (pre ++ post)).1 ∧
      (arb.enqueued (pre ++ op :: post)).2.length = (arb.enqueued (pre ++ post)).2.length + 1 ∧
      (arb.enqueued (pre ++ op :: post)).2.erase (pendingEntry pre op) =
        (arb.enqueued (pre ++ post)).2.map (skip pre.length) := by
  rw [enqueued_of_pass hq hpass, enqueued_without hq,
    enqueue_absorbed (reached_quiet hq pre) hpass pre.length h]
  refine ⟨rfl, ?_, ?_⟩
  · simp only [List.length_append, List.length_cons, List.length_map]
    omega
  · have hfresh : pendingEntry pre op ∉ (arb.resetEnqueued.enqueue 0 pre).2 := by
      intro hmem
      have hget := (enqueue_inputIndex _ 0 pre _ hmem).2
      have hlt := (List.getElem?_eq_some_iff.mp hget).1
      exact absurd hlt (by simp [pendingEntry])
    rw [List.erase_append_right _ hfresh, List.erase_cons_head, List.map_append,
      map_skip_enqueue]

theorem pendingEntry_mem (hq : Quiet arb) (hpass : (arb.reached pre).turnsAway op = false) :
    pendingEntry pre op ∈ (arb.enqueued (pre ++ op :: post)).2 := by
  rw [enqueued_of_pass hq hpass]
  exact List.mem_append_right _ List.mem_cons_self

/-- A batch is handled as without an operation that has no part in it. -/
theorem commitBatch_noResidue (hq : Quiet arb) (hrej : BatchRejects arb pre op post)
    (hinert : Inert arb pre op post) : NoBatchResidue arb pre op post := by
  cases hpass : (arb.reached pre).turnsAway op with
  | true => exact noBatchResidue_of_turnsAway hq hpass
  | false =>
    obtain ⟨habs, hun⟩ := hinert.resolve_left (by simp [hpass])
    have hrej := hrej.resolve_left (by simp [hpass])
    -- absorbed, `op` enters the queue and leaves no other mark there
    obtain ⟨hstart, hlen, herase⟩ := enqueued_of_absorbed hq hpass habs
    have hmem : pendingEntry pre op ∈ (arb.enqueued (pre ++ op :: post)).2 :=
      pendingEntry_mem hq hpass
    have hquiet : Quiet (arb.enqueued (pre ++ op :: post)).1 :=
      enqueue_quiet hq.resetEnqueued 0 _
    rw [hlen] at hrej hun
    obtain ⟨c, before, after, start, reason, detail, r₁, r₂, response, hwith, hwithout⟩ :=
      entryRounds_without hquiet hmem hrej hun
    have hwith := hwith (arb.enqueued (pre ++ op :: post)).1.trace.lines
    have hwithout := hwithout (arb.enqueued (pre ++ op :: post)).1.trace.lines
    rw [relog_self, ← hlen, ← commitBatch_eq] at hwith
    rw [relog_self, herase, entryRounds_map (skip_renumbers pre.length), hstart,
      ← commitBatch_eq] at hwithout
    obtain ⟨hfst, hsnd⟩ := Prod.mk.inj hwithout
    rw [hstart] at hwith
    refine ⟨⟨(arb.enqueued (pre ++ post)).1.trace.lines ++ before, after, start, reason, detail,
      ?_, ?_⟩, ?_, fun calls => ?_⟩
    · rw [hfst, relog_lines, List.append_assoc]
    · rw [hwith, hfst, relog_relog]
      simp only [List.append_assoc]
      rfl
    · -- the results of the others are those that have another index
      have hother : ∀ e ∈ r₁ ++ r₂, e.inputIndex ≠ pre.length := by
        intro e he
        rw [← hsnd] at he
        obtain ⟨e, -, rfl⟩ := List.mem_map.mp he
        exact skip_index_ne _ e
      rw [hwith, hsnd, List.filter_append, List.filter_cons_of_neg (by simp [pendingEntry])]
      rw [← List.filter_append]
      exact List.filter_eq_self.mpr fun e he => by simpa using hother e he
    · rw [hwith, hfst, ← relog_relog c _ (_ ++ (before ++ _ ++ after)), answersOf_relog]

/-! ### The other direction -/

theorem entryRounds_bookkeeping (n : Nat) (arb : BusArbiter) (pending : List CommitResult) :
    (entryRounds n arb pending).1.producerEnqueuedSeen = arb.producerEnqueuedSeen ∧
      (entryRounds n arb pending).1.producerLastEnqueuedReqTime =
        arb.producerLastEnqueuedReqTime := by
  induction n generalizing arb pending with
  | zero => exact ⟨rfl, rfl⟩
  | succ n ih =>
    cases h : arb.entryRound pending with
    | none =>
      rw [entryRounds_of_none h]
      exact ⟨rfl, rfl⟩
    | some round =>
      obtain ⟨w, tie⟩ := round
      rw [entryRounds_of_some h]
      obtain ⟨hseen, hlast⟩ := ih (arb.executeCommit w.op tie).1 (pending.erase w)
      cases hacc : arb.accepts w.op with
      | true =>
        rw [executeCommit_of_accepts hacc] at hseen hlast ⊢
        exact ⟨hseen, hlast⟩
      | false =>
        obtain ⟨reason, detail, heq⟩ := executeCommit_of_rejected tie hacc
        rw [heq] at hseen hlast ⊢
        exact ⟨hseen, hlast⟩

/-- Every operation of a batch is turned away or becomes pending. -/
theorem enqueue_length (hq : Quiet arb) (i : Nat) (ops : List BusOp) :
    (arb.enqueueRecords i ops).length + (arb.enqueue i ops).2.length = ops.length := by
  induction ops generalizing arb i with
  | nil => rfl
  | cons op ops ih =>
    rw [enqueueRecords, if_neg (by simp [hq.latch])]
    cases h : arb.turnsAway op with
    | true =>
      rw [enqueue_of_turnsAway hq h, if_pos rfl, validateEnqueueContract_of_turnsAway h,
        faultResponse_eq_relog hq, List.length_cons, List.length_cons]
      have := ih (hq.away op) (i + 1)
      rw [away] at this ⊢
      omega
    | false =>
      rw [enqueue_of_pass hq h, if_neg (by simp), validateEnqueueContract_of_pass h,
        List.length_cons, List.length_cons]
      have := ih (hq.noteEnqueued op) (i + 1)
      change ((arb.noteEnqueued op).enqueueRecords (i + 1) ops).length + (_ + 1) = _
      omega

/-- The COMMIT records of a batch: of what is turned away, and of the results. -/
theorem commitBatch_commits_length (hq : Quiet arb) (ops : List BusOp) :
    (arb.commitBatch ops).1.trace.commits.length + (arb.enqueued ops).2.length =
      arb.trace.commits.length + ops.length + (arb.commitBatch ops).2.length := by
  have hlen := enqueue_length hq.resetEnqueued 0 ops
  rw [commitBatch_commits, batchRecords, List.length_append, List.length_map, List.length_append,
    List.length_map, enqueued]
  omega

theorem rejectedIn_result {n : Nat} (hrej : RejectedIn n arb pending x) :
    ∃ r ∈ (entryRounds n arb pending).2, r.inputIndex = x.inputIndex := by
  induction n generalizing arb pending with
  | zero => exact hrej.elim
  | succ n ih =>
    cases h : arb.entryRound pending with
    | none =>
      rw [RejectedIn, h] at hrej
      exact hrej.elim
    | some round =>
      obtain ⟨w, tie⟩ := round
      rw [entryRounds_of_some h]
      by_cases hw : w = x
      · exact ⟨_, List.mem_cons_self, by rw [hw]⟩
      · obtain ⟨r, hr, heq⟩ := ih (rejectedIn_of_ne h hw hrej)
        exact ⟨r, List.mem_cons_of_mem _ hr, heq⟩

/-- Taking the one result with a given index out of a list. -/
theorem length_filter_index {results : List CommitResult} {i : Nat}
    (hnodup : (results.map (·.inputIndex)).Nodup) (hmem : ∃ r ∈ results, r.inputIndex = i) :
    (results.filter (·.inputIndex ≠ i)).length + 1 = results.length := by
  obtain ⟨r, hr, rfl⟩ := hmem
  obtain ⟨before, after, rfl⟩ := List.append_of_mem hr
  rw [List.map_append, List.map_cons, List.nodup_middle, List.nodup_cons, ← List.map_append] at hnodup
  have hkeep : (before ++ after).filter (·.inputIndex ≠ r.inputIndex) = before ++ after := by
    refine List.filter_eq_self.mpr fun e he => ?_
    have hne : e.inputIndex ≠ r.inputIndex := fun heq =>
      hnodup.1 (List.mem_map.mpr ⟨e, he, heq⟩)
    simpa using hne
  rw [List.filter_append, List.filter_cons_of_neg (by simp), ← List.filter_append, hkeep]
  simp only [List.length_append, List.length_cons]
  omega

/-- An operation that leaves no residue costs no other one its place. -/
theorem pending_length_of_noResidue (hq : Quiet arb) (hpass : (arb.reached pre).turnsAway op = false)
    (hrej : BatchRejects arb pre op post) (h : NoBatchResidue arb pre op post) :
    (arb.enqueued (pre ++ op :: post)).2.length = (arb.enqueued (pre ++ post)).2.length + 1 := by
  obtain ⟨⟨before, after, start, reason, detail, hlines, heq⟩, hresults, -⟩ := h
  have hwith := commitBatch_commits_length hq (pre ++ op :: post)
  have hwithout := commitBatch_commits_length hq (pre ++ post)
  have hcommits : (arb.commitBatch (pre ++ op :: post)).1.trace.commits.length =
      (arb.commitBatch (pre ++ post)).1.trace.commits.length + 1 := by
    rw [heq, TraceLog.commits, TraceLog.commits, relog_lines, hlines]
    simp only [rejectionLines, List.filterMap_append, List.length_append]
    simp [TraceEvent.commit?]
    omega
  have hresult := rejectedIn_result (hrej.resolve_left (by simp [hpass]))
  rw [← commitBatch_eq] at hresult
  have hcount := length_filter_index (commitBatch_index_nodup arb _) hresult
  have hlen := congrArg List.length hresults
  rw [List.length_map] at hlen
  change (List.filter (fun e : CommitResult => e.inputIndex ≠ pre.length) _).length + 1 = _ at hcount
  simp only [List.length_append, List.length_cons] at hwith hwithout
  omega

theorem inert_of_noResidue (hq : Quiet arb) (hrej : BatchRejects arb pre op post)
    (hturn : arb.latency.tieTurnaround % tickModulus ≠ 0) (h : NoBatchResidue arb pre op post) :
    Inert arb pre op post := by
  cases hpass : (arb.reached pre).turnsAway op with
  | true => exact Or.inl hpass
  | false =>
    have hlen := pending_length_of_noResidue hq hpass hrej h
    obtain ⟨⟨before, after, start, reason, detail, -, heq⟩, hresults, -⟩ := h
    have hq' := reached_quiet hq pre
    have habs : Absorbed (arb.reached pre) op post := by
      -- the bookkeeping at the end is that of the loop
      have hseen := congrArg BusArbiter.producerEnqueuedSeen heq
      have hlast := congrArg BusArbiter.producerLastEnqueuedReqTime heq
      change _ = (arb.commitBatch (pre ++ post)).1.producerEnqueuedSeen at hseen
      change _ = (arb.commitBatch (pre ++ post)).1.producerLastEnqueuedReqTime at hlast
      rw [commitBatch_eq, commitBatch_eq, (entryRounds_bookkeeping _ _ _).1,
        (entryRounds_bookkeeping _ _ _).1, enqueued_of_pass hq hpass, enqueued_without hq] at hseen
      rw [commitBatch_eq, commitBatch_eq, (entryRounds_bookkeeping _ _ _).2,
        (entryRounds_bookkeeping _ _ _).2, enqueued_of_pass hq hpass, enqueued_without hq] at hlast
      rw [enqueued_of_pass hq hpass, enqueued_without hq] at hlen
      simp only [List.length_append, List.length_cons, List.length_map] at hlen
      exact absorbed_of_enqueue hq' hpass pre.length (by omega) hseen hlast
    obtain ⟨hstart, hlen', herase⟩ := enqueued_of_absorbed hq hpass habs
    have hrej := hrej.resolve_left (by simp [hpass])
    refine Or.inr ⟨habs, ?_⟩
    rw [hlen'] at hrej ⊢
    refine unswayed_of_results (enqueue_numbered _ _ _) (pendingEntry_mem hq hpass) hrej ?_ ?_
    · have hlatency := hardware_latency (arb.resetEnqueued.hardware_enqueue 0 (pre ++ op :: post))
      rw [enqueued, hlatency]
      exact hturn
    · rw [← hlen', ← commitBatch_eq, herase, entryRounds_map (skip_renumbers pre.length), hstart,
        ← commitBatch_eq]
      exact hresults

end Batch

def dmaOp (op : BusOp) : BusOp := { op with cpuId := -1, producer := .dma }

/-- **When a rejected operation leaves no residue.**  In `commit` and
`commit_dma` exactly when the enqueue contract turns it away, or has its request
time on record already.  In `commit_batch` when it has no part in the batch but
its own rejection, and, where a tie costs something, only then. -/
theorem rejected_noResidue_iff (hq : Quiet arb) :
    (∀ op, Rejects arb op →
      (NoResidue arb (arb.commit op).1 op ↔ arb.turnsAway op = true ∨ Absorbed arb op [])) ∧
    (∀ op, Rejects arb (dmaOp op) →
      (NoResidue arb (arb.commitDma op).1 (dmaOp op) ↔
        arb.turnsAway (dmaOp op) = true ∨ Absorbed arb (dmaOp op) [])) ∧
    ∀ pre op post, BatchRejects arb pre op post →
      (Inert arb pre op post → NoBatchResidue arb pre op post) ∧
      (arb.latency.tieTurnaround % tickModulus ≠ 0 →
        NoBatchResidue arb pre op post → Inert arb pre op post) :=
  ⟨fun _ h => commit_noResidue_iff hq h, fun _ h => commit_noResidue_iff hq h,
    fun _ _ _ h => ⟨commitBatch_noResidue hq h, inert_of_noResidue hq h⟩⟩

/-- A read of three bytes at the tick on record, and one of a batch that the
enqueue contract turns away. -/
theorem rejected_noResidue_late :
    let arb : BusArbiter := ({ memory := .make 16 } : BusArbiter).commit { reqTime := 5 } |>.1
    NoResidue arb (arb.commit { reqTime := 5, size := 3 }).1 { reqTime := 5, size := 3 } ∧
      NoBatchResidue arb [{ reqTime := 9 }] { reqTime := 8 } [{ reqTime := 9, cpuId := 1 }] := by
  intro arb
  have hq : Quiet arb := ⟨by decide, by decide⟩
  obtain ⟨hcommit, -, hbatch⟩ := rejected_noResidue_iff hq
  refine ⟨(hcommit _ (Or.inr (by decide))).mpr (Or.inr ⟨by decide, by decide⟩), ?_⟩
  have hturned : (arb.reached [{ reqTime := 9 }]).turnsAway { reqTime := 8 } = true := by decide
  exact (hbatch _ _ _ (Or.inl hturned)).1 (Or.inl hturned)

/-- A read of three bytes at tick 10 is rejected, and then CPU 0's read at tick
5 is turned away for it. -/
theorem not_noResidue_invalid_size :
    ¬ ∀ (arb : BusArbiter) (op : BusOp), Quiet arb → Rejects arb op →
      NoResidue arb (arb.commit op).1 op := by
  intro h
  have hanswers := (h { memory := .make 16 } { reqTime := 10, size := 3 } ⟨rfl, rfl⟩
    (Or.inr (by decide))).2 [.commit { reqTime := 5 }]
  revert hanswers
  decide

end BusArbiter

end Saturnis.Bus
