/-
A caller-held queue and its commit_pending calls.

The caller appends operations at any time and hands the whole queue to
`commit_pending`, which compacts it from the list of results.  Two operations
of a queue may be equal, so each carries a ticket here: its position in the
order of arrival.

* `Holder.queue_ops` — the queue with tickets is the queue of the call;
* `Holder.run_commits` — the records with tickets are those of the trace;
* `processesOnce_iff` — every queued operation is taken out of the queue
  exactly when it gets its one COMMIT record if and only if no call finds in
  its queue an operation that the enqueue contract turns away.
-/
import Saturnis.ArbiterRecords

namespace Saturnis.Bus

open Saturnis.Core Saturnis.Mem Saturnis.Dev

inductive QueueCall
  | updateProgress (cpuId : Int) (executedUpTo : Nat)
  | append (op : BusOp)
  | commitPending

/-- The arbiter, the queue with its tickets, the number of operations appended
so far, and the COMMIT records they got. -/
structure Holder where
  arb : BusArbiter
  queue : List (Nat × BusOp) := []
  appended : Nat := 0
  recorded : List (Nat × CommitEvent) := []

namespace Holder

open BusArbiter

variable {h : Holder}

def ops (h : Holder) : List BusOp := h.queue.map Prod.snd

def tickets (h : Holder) : List Nat := h.queue.map Prod.fst

/-- The COMMIT records of a `commit_pending` call, under the tickets of their
operations. -/
def pendingRecords (h : Holder) : List (Nat × CommitEvent) :=
  (h.arb.batchRecords h.ops).filterMap fun r => h.queue[r.1]?.map fun q => (q.1, r.2)

/-- The input index is among those of the results. -/
def taken (h : Holder) (i : Nat) : Bool :=
  (h.arb.commitPending h.ops).2.1.any fun result => result.inputIndex = i

/-- The queue that a `commit_pending` call leaves. -/
def remaining (h : Holder) : List (Nat × BusOp) :=
  h.queue.zipIdx.filterMap fun e => if h.taken e.2 then none else some e.1

def step (h : Holder) : QueueCall → Holder
  | .updateProgress cpuId t => { h with arb := h.arb.updateProgress cpuId t }
  | .append op => { h with queue := h.queue ++ [(h.appended, op)], appended := h.appended + 1 }
  | .commitPending =>
    { h with
      arb := (h.arb.commitPending h.ops).1
      queue := h.remaining
      recorded := h.recorded ++ h.pendingRecords }

def run (h : Holder) (calls : List QueueCall) : Holder := calls.foldl step h

/-- The queue the caller is left with is that of the model's call. -/
theorem queue_ops (h : Holder) :
    (h.step .commitPending).ops = (h.arb.commitPending h.ops).2.2 := by
  have hkeep : ∀ (q : List (Nat × BusOp)) (k : Nat) (taken : Nat → Bool),
      ((q.zipIdx k).filterMap fun e => if taken e.2 then none else some e.1).map Prod.snd =
        ((q.map Prod.snd).zipIdx k).filterMap fun e => if taken e.2 then none else some e.1 := by
    intro q
    induction q with
    | nil => intros; rfl
    | cons e q ih =>
      intro k taken
      simp only [List.zipIdx_cons, List.map_cons, List.filterMap_cons]
      cases taken k with
      | true => exact ih (k + 1) taken
      | false => exact congrArg (e.2 :: ·) (ih (k + 1) taken)
  change h.remaining.map Prod.snd = _
  rw [remaining, hkeep h.queue 0 h.taken, commitPending]
  simp only [taken, commitPending]
  split
  · rename_i hempty
    -- nothing is committed, and the filter keeps everything
    simp only [List.isEmpty_iff.mp hempty, List.any_nil]
    simp [ops]
  · rfl

theorem commitPending_fst (arb : BusArbiter) (ops : List BusOp) :
    (arb.commitPending ops).1 = (arb.commitBatch ops).1 ∧
      (arb.commitPending ops).2.1 = (arb.commitBatch ops).2 := by
  simp only [commitPending]
  split <;> exact ⟨rfl, rfl⟩

theorem taken_iff {i : Nat} :
    h.taken i = true ↔ ∃ result ∈ (h.arb.commitBatch h.ops).2, result.inputIndex = i := by
  rw [taken, (commitPending_fst _ _).2, List.any_eq_true]
  simp

/-! ### Records and tickets -/

theorem mem_pendingRecords {ticket : Nat} {event : CommitEvent} :
    (ticket, event) ∈ h.pendingRecords ↔
      ∃ i, (i, event) ∈ h.arb.batchRecords h.ops ∧ h.queue[i]? = some (ticket, event.op) := by
  rw [pendingRecords, List.mem_filterMap]
  constructor
  · rintro ⟨⟨i, e⟩, hmem, hsome⟩
    obtain ⟨q, hq, heq⟩ := Option.map_eq_some_iff.mp hsome
    obtain ⟨rfl, rfl⟩ := Prod.mk.inj heq
    have hop := batchRecords_get _ _ _ hmem
    rw [ops, List.getElem?_map] at hop
    change Option.map Prod.snd h.queue[i]? = some e.op at hop
    rw [show h.queue[i]? = some q from hq, Option.map_some, Option.some_inj] at hop
    refine ⟨i, hmem, ?_⟩
    rw [← hop]
    exact hq
  · rintro ⟨i, hmem, hget⟩
    refine ⟨(i, event), hmem, ?_⟩
    rw [show h.queue[(i, event).1]? = some (ticket, event.op) from hget]
    rfl

/-- No record of the call is lost where tickets replace positions. -/
theorem pendingRecords_commits (h : Holder) :
    h.pendingRecords.map Prod.snd = (h.arb.batchRecords h.ops).map Prod.snd := by
  rw [pendingRecords, List.map_filterMap, ← List.filterMap_eq_map]
  refine List.filterMap_congr fun r hr => ?_
  have hop := batchRecords_get _ _ r hr
  rw [ops, List.getElem?_map] at hop
  obtain ⟨q, hq, -⟩ := Option.map_eq_some_iff.mp hop
  rw [hq]
  rfl

theorem mem_remaining {e : Nat × BusOp} :
    e ∈ h.remaining ↔ ∃ i, h.queue[i]? = some e ∧ h.taken i = false := by
  rw [remaining, List.mem_filterMap]
  constructor
  · rintro ⟨⟨x, i⟩, hmem, hsome⟩
    split at hsome
    · exact absurd hsome (by simp)
    · rename_i htaken
      rw [← Option.some_inj.mp hsome]
      exact ⟨i, List.mk_mem_zipIdx_iff_getElem?.mp hmem, by simpa using htaken⟩
  · rintro ⟨i, hget, htaken⟩
    exact ⟨(e, i), List.mk_mem_zipIdx_iff_getElem?.mpr hget, by rw [if_neg (by simp [htaken])]⟩

theorem remaining_sublist (h : Holder) : h.remaining.Sublist h.queue := by
  have hall : ∀ (q : List (Nat × BusOp)) (k : Nat),
      ((q.zipIdx k).filterMap fun e => if h.taken e.2 then none else some e.1).Sublist q := by
    intro q
    induction q with
    | nil => exact fun _ => List.Sublist.refl _
    | cons e q ih =>
      intro k
      rw [List.zipIdx_cons, List.filterMap_cons]
      cases h.taken (e, k).2 with
      | true => exact (ih (k + 1)).cons e
      | false => exact (ih (k + 1)).cons_cons e
  exact hall h.queue 0

/-! ### One call -/

/-- A `commit_pending` call takes out of the queue exactly the operations that
get their COMMIT record in it, and leaves the others in their order. -/
def Processes (h : Holder) : Prop :=
  (∀ ticket, (∃ event, (ticket, event) ∈ h.pendingRecords) ↔
    ticket ∈ h.tickets ∧ ticket ∉ (h.step .commitPending).tickets) ∧
  (h.step .commitPending).queue.Sublist h.queue

/-- The enqueue contract finds nothing to turn away in the queue. -/
def Unopposed (h : Holder) : Prop := h.arb.trace.shouldHalt = true ∨ InOrder h.ops

/-- With distinct tickets, a ticket tells the position. -/
theorem ticket_position (hnodup : h.tickets.Nodup) {i j : Nat} {e e' : Nat × BusOp}
    (hi : h.queue[i]? = some e) (hj : h.queue[j]? = some e') (heq : e.1 = e'.1) : i = j := by
  have hi' : h.tickets[i]? = some e.1 := by rw [tickets, List.getElem?_map, hi]; rfl
  have hj' : h.tickets[j]? = some e.1 := by rw [tickets, List.getElem?_map, hj, heq]; rfl
  have hlt : i < h.tickets.length := (List.getElem?_eq_some_iff.mp hi').1
  exact (List.getElem?_inj hlt hnodup).mp (by rw [hi', hj'])

theorem ticket_leaves_iff (hnodup : h.tickets.Nodup) {ticket : Nat} :
    (ticket ∈ h.tickets ∧ ticket ∉ (h.step .commitPending).tickets) ↔
      ∃ i op, h.queue[i]? = some (ticket, op) ∧ h.taken i = true := by
  change (ticket ∈ h.queue.map Prod.fst ∧ ticket ∉ h.remaining.map Prod.fst) ↔ _
  constructor
  · rintro ⟨hmem, hleft⟩
    obtain ⟨e, he, rfl⟩ := List.mem_map.mp hmem
    obtain ⟨i, hget⟩ := List.getElem?_of_mem he
    refine ⟨i, e.2, hget, ?_⟩
    by_contra htaken
    exact hleft (List.mem_map.mpr ⟨e, mem_remaining.mpr ⟨i, hget, by simpa using htaken⟩, rfl⟩)
  · rintro ⟨i, op, hget, htaken⟩
    refine ⟨List.mem_map.mpr ⟨_, List.mem_of_getElem? hget, rfl⟩, fun hleft => ?_⟩
    obtain ⟨e, he, heq⟩ := List.mem_map.mp hleft
    obtain ⟨j, hj, hfree⟩ := mem_remaining.mp he
    rw [ticket_position hnodup hj hget heq, htaken] at hfree
    exact absurd hfree (by simp)

/-- The records of a call are those of its results and of what was turned away. -/
theorem recorded_iff {ticket : Nat} :
    (∃ event, (ticket, event) ∈ h.pendingRecords) ↔
      ∃ i op, h.queue[i]? = some (ticket, op) ∧
        (h.taken i = true ∨ ∃ event, (i, event) ∈ h.arb.resetEnqueued.enqueueRecords 0 h.ops) := by
  constructor
  · rintro ⟨event, hmem⟩
    obtain ⟨i, hi, hget⟩ := mem_pendingRecords.mp hmem
    refine ⟨i, event.op, hget, ?_⟩
    rcases List.mem_append.mp hi with hi | hi
    · exact Or.inr ⟨event, hi⟩
    · obtain ⟨result, hresult, heq⟩ := List.mem_map.mp hi
      exact Or.inl (taken_iff.mpr ⟨result, hresult, congrArg Prod.fst heq⟩)
  · rintro ⟨i, op, hget, hpath⟩
    obtain ⟨event, hevent⟩ : ∃ event, (i, event) ∈ h.arb.batchRecords h.ops := by
      rcases hpath with htaken | ⟨event, hevent⟩
      · obtain ⟨result, hresult, rfl⟩ := taken_iff.mp htaken
        exact ⟨_, List.mem_append_right _ (List.mem_map.mpr ⟨result, hresult, rfl⟩)⟩
      · exact ⟨event, List.mem_append_left _ hevent⟩
    refine ⟨event, mem_pendingRecords.mpr ⟨i, hevent, ?_⟩⟩
    have hop := batchRecords_get _ _ _ hevent
    rw [ops, List.getElem?_map, show h.queue[(i, event).1]? = some (ticket, op) from hget,
      Option.map_some, Option.some_inj] at hop
    rw [← hop]
    exact hget

/-- A position that is turned away has no result. -/
theorem not_taken_of_turned_away {i : Nat} {event : CommitEvent}
    (hmem : (i, event) ∈ h.arb.resetEnqueued.enqueueRecords 0 h.ops) : h.taken i = false := by
  have hnodup := batchRecords_index_nodup h.arb h.ops
  rw [batchRecords, List.map_append, List.nodup_append] at hnodup
  by_contra htaken
  obtain ⟨result, hresult, rfl⟩ := taken_iff.mp (by simpa using htaken)
  refine hnodup.2.2 result.inputIndex (List.mem_map.mpr ⟨_, hmem, rfl⟩) result.inputIndex ?_ rfl
  exact List.mem_map.mpr ⟨_, List.mem_map.mpr ⟨result, hresult, rfl⟩, rfl⟩

theorem processes_iff (hnodup : h.tickets.Nodup) : h.Processes ↔ h.Unopposed := by
  have hnil : h.Unopposed ↔ h.arb.resetEnqueued.enqueueRecords 0 h.ops = [] :=
    (enqueueRecords_eq_nil_iff h.arb h.ops).symm
  rw [hnil]
  constructor
  · rintro ⟨hexact, -⟩
    -- a record of the enqueue loop would belong to an operation that stays
    by_contra hne
    obtain ⟨⟨i, event⟩, hmem⟩ := List.exists_mem_of_ne_nil _ hne
    have hop := (enqueueRecords_get _ 0 _ _ hmem).2
    rw [ops, List.getElem?_map] at hop
    obtain ⟨e, he, -⟩ := Option.map_eq_some_iff.mp hop
    change h.queue[i]? = some e at he
    have hrecorded := recorded_iff.mpr ⟨i, e.2, he, Or.inr ⟨event, hmem⟩⟩
    obtain ⟨j, op, hj, htaken⟩ := (ticket_leaves_iff hnodup).mp ((hexact e.1).mp hrecorded)
    rw [ticket_position hnodup hj he rfl, not_taken_of_turned_away hmem] at htaken
    exact absurd htaken (by simp)
  · intro hnone
    refine ⟨fun ticket => ?_, remaining_sublist h⟩
    rw [recorded_iff, ticket_leaves_iff hnodup, hnone]
    simp

/-! ### A whole run -/

/-- Tickets are given out once, and an operation that has its record is not in
the queue. -/
structure Ticketed (h : Holder) : Prop where
  nodup : h.tickets.Nodup
  issued : ∀ ticket ∈ h.tickets, ticket < h.appended
  recorded : ∀ r ∈ h.recorded, r.1 < h.appended

theorem Ticketed.step (ht : h.Ticketed) (call : QueueCall) : (h.step call).Ticketed := by
  cases call with
  | updateProgress cpuId t => exact ⟨ht.nodup, ht.issued, ht.recorded⟩
  | append op =>
    have hnew : h.appended ∉ h.tickets := fun hmem => Nat.lt_irrefl _ (ht.issued _ hmem)
    have htickets : (h.step (.append op)).tickets = h.tickets ++ [h.appended] := by
      simp [tickets, Holder.step]
    refine ⟨?_, fun ticket hmem => ?_, fun r hr => Nat.lt_succ_of_lt (ht.recorded r hr)⟩
    · rw [htickets, List.nodup_append]
      refine ⟨ht.nodup, List.nodup_singleton _, fun a ha b hb => ?_⟩
      rw [List.mem_singleton.mp hb]
      exact fun heq => hnew (heq ▸ ha)
    · rw [htickets] at hmem
      change ticket < h.appended + 1
      rcases List.mem_append.mp hmem with hmem | hmem
      · exact Nat.lt_succ_of_lt (ht.issued ticket hmem)
      · rw [List.mem_singleton.mp hmem]
        exact Nat.lt_succ_self _
  | commitPending =>
    have hsub : (h.step .commitPending).tickets.Sublist h.tickets := (remaining_sublist h).map _
    refine ⟨ht.nodup.sublist hsub, fun ticket hmem => ht.issued ticket (hsub.subset hmem), ?_⟩
    intro r hr
    rcases List.mem_append.mp hr with hr | hr
    · exact ht.recorded r hr
    · obtain ⟨i, -, hget⟩ := mem_pendingRecords.mp (show (r.1, r.2) ∈ h.pendingRecords from hr)
      exact ht.issued r.1 (List.mem_map.mpr ⟨_, List.mem_of_getElem? hget, rfl⟩)

theorem Ticketed.run (ht : h.Ticketed) (calls : List QueueCall) : (h.run calls).Ticketed := by
  induction calls generalizing h with
  | nil => exact ht
  | cons call calls ih => exact ih (ht.step call)

/-- The records given so far are distinct, and their operations have left. -/
def Settled (h : Holder) : Prop :=
  (h.recorded.map Prod.fst ++ h.tickets).Nodup

theorem pendingRecords_nodup (hnodup : h.tickets.Nodup) :
    (h.pendingRecords.map Prod.fst).Nodup := by
  have hpairwise := batchRecords_index_nodup h.arb h.ops
  rw [List.Nodup, List.pairwise_map] at hpairwise ⊢
  rw [pendingRecords, List.pairwise_filterMap]
  refine hpairwise.imp fun {r r'} hne x hx x' hx' heq => ?_
  obtain ⟨q, hq, rfl⟩ := Option.map_eq_some_iff.mp hx
  obtain ⟨q', hq', rfl⟩ := Option.map_eq_some_iff.mp hx'
  exact hne (ticket_position hnodup hq hq' heq)

theorem Settled.step (hs : h.Settled) (ht : h.Ticketed) (call : QueueCall)
    (hcall : call = .commitPending → h.Processes) : (h.step call).Settled := by
  cases call with
  | updateProgress cpuId t => exact hs
  | append op =>
    have htickets : (h.step (.append op)).tickets = h.tickets ++ [h.appended] := by
      simp [tickets, Holder.step]
    rw [Settled, htickets, ← List.append_assoc, List.nodup_append]
    refine ⟨hs, List.nodup_singleton _, fun a ha b hb heq => ?_⟩
    rw [List.mem_singleton.mp hb] at heq
    have hlt : a < h.appended := by
      rcases List.mem_append.mp ha with ha | ha
      · obtain ⟨r, hr, rfl⟩ := List.mem_map.mp ha
        exact ht.recorded r hr
      · exact ht.issued a ha
    omega
  | commitPending =>
    obtain ⟨hexact, hsub⟩ := hcall rfl
    have hleft : (h.step .commitPending).tickets.Sublist h.tickets := hsub.map _
    rw [Settled, List.nodup_append] at hs ⊢
    obtain ⟨hrec, -, hdisj⟩ := hs
    -- the new records are of operations that were queued, and no longer are
    have hnew : ∀ t ∈ h.pendingRecords.map Prod.fst,
        t ∈ h.tickets ∧ t ∉ (h.step .commitPending).tickets := by
      intro t hmem
      obtain ⟨r, hr, rfl⟩ := List.mem_map.mp hmem
      exact (hexact r.1).mp ⟨r.2, hr⟩
    change (((h.recorded ++ h.pendingRecords).map Prod.fst).Nodup ∧ _)
    rw [List.map_append, List.nodup_append]
    refine ⟨⟨hrec, pendingRecords_nodup ht.nodup, fun a ha b hb => ?_⟩,
      ht.nodup.sublist hleft, fun a ha b hb heq => ?_⟩
    · exact hdisj a ha b (hnew b hb).1
    · change a ∈ (h.recorded ++ h.pendingRecords).map Prod.fst at ha
      rw [List.map_append] at ha
      rcases List.mem_append.mp ha with ha | ha
      · exact hdisj a ha b (hleft.subset hb) heq
      · rw [heq] at ha
        exact (hnew b ha).2 hb

/-- The records under their tickets are those of the trace. -/
theorem run_commits (h : Holder) (calls : List QueueCall) :
    ∃ records, (h.run calls).recorded = h.recorded ++ records ∧
      (h.run calls).arb.trace.commits = h.arb.trace.commits ++ records.map Prod.snd := by
  induction calls generalizing h with
  | nil => exact ⟨[], by simp [run], by simp [run]⟩
  | cons call calls ih =>
    obtain ⟨records, hrec, htrace⟩ := ih (h.step call)
    change (h.run (call :: calls)).recorded = _ at hrec
    change (h.run (call :: calls)).arb.trace.commits = _ at htrace
    cases call with
    | updateProgress cpuId t =>
      have hkeep : (h.arb.updateProgress cpuId t).trace = h.arb.trace :=
        core_trace (core_updateProgress h.arb cpuId t)
      refine ⟨records, hrec, htrace.trans ?_⟩
      rw [← hkeep]
      rfl
    | append op => exact ⟨records, hrec, htrace⟩
    | commitPending =>
      refine ⟨h.pendingRecords ++ records, by rw [hrec, ← List.append_assoc]; rfl, ?_⟩
      rw [htrace, List.map_append, ← List.append_assoc, pendingRecords_commits]
      change (h.arb.commitPending h.ops).1.trace.commits ++ _ = _
      rw [(commitPending_fst _ _).1, commitBatch_commits]

end Holder

namespace BusArbiter

/-- A caller that holds an empty queue. -/
def holder (arb : BusArbiter) : Holder := { arb }

/-- Over the whole run no operation gets two COMMIT records, and every
`commit_pending` call takes out of the queue exactly the operations that get
theirs in it and leaves the others in their order. -/
def ProcessesOnce (arb : BusArbiter) (calls : List QueueCall) : Prop :=
  (((arb.holder).run calls).recorded.map Prod.fst).Nodup ∧
    ∀ before after, calls = before ++ .commitPending :: after →
      (arb.holder.run before).Processes

theorem holder_ticketed (arb : BusArbiter) : arb.holder.Ticketed :=
  ⟨List.nodup_nil, by simp [holder, Holder.tickets], by simp [holder]⟩

theorem settled_of_processes {h : Holder} {calls : List QueueCall} (ht : h.Ticketed)
    (hs : h.Settled)
    (hall : ∀ before after, calls = before ++ .commitPending :: after →
      (h.run before).Processes) : (h.run calls).Settled := by
  induction calls generalizing h with
  | nil => exact hs
  | cons call calls ih =>
    refine ih (ht.step call) (hs.step ht call fun heq => ?_) fun before after heq => ?_
    · exact hall [] calls (by rw [heq]; rfl)
    · exact hall (call :: before) after (by rw [heq]; rfl)

/-- **Each queued operation is processed exactly once** in a run of
`update_progress` and `commit_pending` calls with operations appended at any
time, if and only if in every `commit_pending` call the queue holds each
producer's operations in the order of their requests (or the trace has halted).
The queue with tickets is the one that `commit_pending` returns, and the records
under tickets are those of the trace. -/
theorem processesOnce_iff (arb : BusArbiter) (calls : List QueueCall) :
    (arb.ProcessesOnce calls ↔
      ∀ before after, calls = before ++ .commitPending :: after →
        (arb.holder.run before).Unopposed) ∧
      (∀ before after, calls = before ++ .commitPending :: after →
        (arb.holder.run (before ++ [.commitPending])).ops =
          ((arb.holder.run before).arb.commitPending (arb.holder.run before).ops).2.2) ∧
      (arb.holder.run calls).arb.trace.commits =
        arb.trace.commits ++ (arb.holder.run calls).recorded.map Prod.snd := by
  have hiff : ∀ before, (arb.holder.run before).Processes ↔ (arb.holder.run before).Unopposed :=
    fun before => Holder.processes_iff ((holder_ticketed arb).run before).nodup
  refine ⟨⟨?_, ?_⟩, fun before after _ => ?_, ?_⟩
  · rintro ⟨-, hall⟩ before after heq
    exact (hiff before).mp (hall before after heq)
  · intro hall
    have hprocesses : ∀ before after, calls = before ++ .commitPending :: after →
        (arb.holder.run before).Processes :=
      fun before after heq => (hiff before).mpr (hall before after heq)
    have hsettled : (arb.holder.run calls).Settled :=
      settled_of_processes (holder_ticketed arb) List.nodup_nil hprocesses
    exact ⟨(List.nodup_append.mp hsettled).1, hprocesses⟩
  · rw [Holder.run, List.foldl_append]
    exact Holder.queue_ops _
  · obtain ⟨records, hrecorded, hcommits⟩ := Holder.run_commits arb.holder calls
    have hnew : (arb.holder.run calls).recorded = records := hrecorded
    rw [hnew]
    exact hcommits

/-- Two reads of CPU 0, the later one first: the second is turned away in the
first call and gets a second record in the next one. -/
theorem not_processesOnce_inversion :
    ¬ ∀ calls : List QueueCall,
      ProcessesOnce { memory := .make 16 } calls := by
  intro h
  have hnodup := (h [.append { reqTime := 10, physAddr := 0 },
    .append { reqTime := 9, physAddr := 4, sequence := 1 }, .commitPending, .commitPending]).1
  revert hnodup
  decide

end BusArbiter

end Saturnis.Bus
