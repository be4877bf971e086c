/-
What a batch commits first.

The comparison of `pick_next` is not transitive, but it respects one key: the
start time, and at the same start time DMA before the CPUs (`frontKey`).  So
the scan ends on an operation with the least key, whatever cycles it meets on
its way.

* `replaces_of_frontKey_lt` — the comparison respects the key;
* `nextRound_front` — one round;
* `Selection.Sees` — what a round has to select from;
* `commitBatch_front` — every round of every batch.
-/
import Saturnis.ArbiterOrder
import Saturnis.ArbiterTurns

namespace Saturnis.Bus

namespace BusArbiter

variable {arb : BusArbiter} {ops : List BusOp} {x y : BusOp}

/-- The negative CPU numbers are those of DMA. -/
def NamesOwner (op : BusOp) : Prop := op.cpuId < 0 ↔ op.isDma = true

instance (op : BusOp) : Decidable (NamesOwner op) := inferInstanceAs (Decidable (_ ↔ _))

/-- Earliest start first, then DMA before the CPUs. -/
def frontKey (arb : BusArbiter) (op : BusOp) : Nat :=
  2 * arb.startTime op + if op.isDma then 0 else 1

/-- The selected operation starts as early as any committable one, and is one of
a CPU only where no committable DMA operation starts with it. -/
structure Selection.First (sel : Selection) : Prop where
  committable : sel.next ∈ sel.entries
  earliest : ∀ e ∈ sel.entries,
    sel.before.startTime sel.next.1.op ≤ sel.before.startTime e.1.op
  dma : sel.next.1.op.isDma = false → ∀ e ∈ sel.entries, e.1.op.isDma = true →
    sel.before.startTime e.1.op ≠ sel.before.startTime sel.next.1.op

/-! ### The comparison -/

theorem defaultPolicy_dma (hx : NamesOwner x) (hdma : x.isDma = true) :
    defaultPolicy x = .dma := by
  rw [defaultPolicy, if_pos (hx.mpr hdma)]

theorem defaultPolicy_cpu (hx : NamesOwner x) (hcpu : x.isDma = false) :
    (defaultPolicy x).rank < PriorityClass.dma.rank := by
  have hid : ¬ x.cpuId < 0 := fun h => Bool.false_ne_true (hcpu.symm.trans (hx.mp h))
  rw [defaultPolicy, if_neg hid]
  split <;> decide

/-- At one start time DMA is preferred to the CPUs. -/
theorem replaces_dma (hpolicy : arb.policy = defaultPolicy) (hx : NamesOwner x) (hy : NamesOwner y)
    (hdma : x.isDma = true) (hcpu : y.isDma = false) (hstart : arb.startTime x = arb.startTime y) :
    arb.replaces x y = true ∧ arb.replaces y x = false := by
  have hlt : (arb.policy y).rank < (arb.policy x).rank := by
    rw [hpolicy, defaultPolicy_dma hx hdma]
    exact defaultPolicy_cpu hy hcpu
  have hslot : producerSlot x ≠ producerSlot y := by
    simp only [producerSlot, hdma, hcpu, if_true, Bool.false_eq_true, if_false]
    split <;> decide
  constructor
  · rw [replaces, if_neg (by omega), if_neg (by omega), if_neg hslot, if_pos hlt]
  · rw [replaces, if_neg (by omega), if_neg (by omega), if_neg (Ne.symm hslot), if_neg (by omega),
      if_pos hlt]

theorem replaces_of_frontKey_lt (hpolicy : arb.policy = defaultPolicy) (hx : NamesOwner x)
    (hy : NamesOwner y) (h : arb.frontKey x < arb.frontKey y) :
    arb.replaces x y = true ∧ arb.replaces y x = false := by
  rcases Nat.lt_or_ge (arb.startTime x) (arb.startTime y) with hlt | hge
  · exact ⟨replaces_of_start_lt hlt, not_replaces_of_start_lt hlt⟩
  · -- the start times are equal, so the owners differ
    rw [frontKey, frontKey] at h
    cases hdma : x.isDma with
    | true =>
      cases hcpu : y.isDma with
      | true =>
        rw [hdma, hcpu] at h
        omega
      | false =>
        rw [hdma, hcpu, if_pos rfl, if_neg Bool.false_ne_true] at h
        exact replaces_dma hpolicy hx hy hdma hcpu (by omega)
    | false =>
      rw [hdma, if_neg Bool.false_ne_true] at h
      split at h <;> omega

/-! ### The rounds -/

theorem nextRound_front {pending : List CommitResult} {next : Entry} {tie : Bool}
    (hpolicy : arb.policy = defaultPolicy) (howner : ∀ p ∈ pending, NamesOwner p.op)
    (h : arb.nextRound pending = some (next, tie)) :
    Selection.First ⟨arb, arb.committable pending, next, tie⟩ := by
  have hmem := (nextRound_made h).next
  have hnamed : ∀ e ∈ arb.committable pending, NamesOwner e.1.op := fun e he =>
    howner e.1 (List.mem_of_getElem? (List.mem_zipIdx_iff_getElem?.mp (List.mem_of_mem_filter he)))
  have hleast : ∀ e ∈ arb.committable pending, arb.frontKey next.1.op ≤ arb.frontKey e.1.op := by
    obtain ⟨front, rest, hcand, rfl, -⟩ := nextRound_eq_some h
    rw [hcand] at hnamed
    -- the scan starts on the front and meets it again
    have hlisted : ∀ e ∈ front :: front :: rest, NamesOwner e.1.op := by
      intro e he
      rcases List.mem_cons.mp he with rfl | he
      · exact hnamed e List.mem_cons_self
      · exact hnamed e he
    have hscan := @Scan.best_minimal _ (fun x cur : Entry => arb.replaces x.1.op cur.1.op)
      front (front :: rest) (fun e : Entry => arb.frontKey e.1.op)
      (fun x hx cur hcur hr => by
        by_contra hlt
        have hnot := (replaces_of_frontKey_lt hpolicy (hlisted cur hcur) (hlisted x hx)
          (Nat.lt_of_not_le hlt)).2
        exact Bool.false_ne_true (hnot.symm.trans hr))
      (fun x hx cur hcur hr => by
        by_contra hlt
        have hyes := (replaces_of_frontKey_lt hpolicy (hlisted x hx) (hlisted cur hcur)
          (Nat.lt_of_not_le hlt)).1
        exact Bool.false_ne_true (hr.symm.trans hyes))
    intro e he
    rw [hcand] at he
    exact hscan e (List.mem_cons_of_mem front he)
  refine ⟨hmem, fun e he => ?_, fun hcpu e he hdma hstart => ?_⟩
  · have hle := hleast e he
    rw [frontKey, frontKey] at hle
    dsimp only
    split at hle <;> split at hle <;> omega
  · have hle := hleast e he
    dsimp only at hcpu hstart
    rw [frontKey, frontKey, hcpu, hdma, hstart, if_pos rfl, if_neg Bool.false_ne_true] at hle
    omega

theorem selections_front (n : Nat) (arb : BusArbiter) (pending : List CommitResult)
    (hpolicy : arb.policy = defaultPolicy) (howner : ∀ p ∈ pending, NamesOwner p.op) :
    ∀ sel ∈ selections n arb pending, sel.First := by
  induction n generalizing arb pending with
  | zero => simp [selections]
  | succ n ih =>
    cases h : arb.nextRound pending with
    | none => simp [selections, h]
    | some round =>
      obtain ⟨next, tie⟩ := round
      intro sel hsel
      rw [selections, h] at hsel
      rcases List.mem_cons.mp hsel with rfl | hlater
      · exact nextRound_front hpolicy howner h
      · exact ih _ _ ((executeCommit_policy arb next.1.op tie).trans hpolicy)
          (fun p hp => howner p (List.eraseIdx_subset hp)) sel hlater

/-- A round looks at the arbiter that the rounds before it have left, and at those
pending operations that it lets through: what was enqueued but for the selected
entries of these rounds. -/
structure Selection.Sees (enqueued : BusArbiter × List CommitResult) (earlier : List Selection)
    (sel : Selection) : Prop where
  before : sel.before =
    earlier.foldl (fun arb s => (arb.executeCommit s.next.1.op s.tie).1) enqueued.1
  entries : ∃ pending : List CommitResult,
    (pending ++ earlier.map fun s => s.next.1).Perm enqueued.2 ∧
      sel.entries = pending.zipIdx.filter fun e => sel.before.isCommittable e.1.op

theorem selections_sees (n : Nat) {arb : BusArbiter} {pending : List CommitResult}
    {earlier later : List Selection} {sel : Selection}
    (h : selections n arb pending = earlier ++ sel :: later) : sel.Sees (arb, pending) earlier := by
  induction n generalizing arb pending earlier with
  | zero => exact absurd h (by simp [selections])
  | succ n ih =>
    cases hround : arb.nextRound pending with
    | none => exact absurd h (by simp [selections, hround])
    | some round =>
      obtain ⟨next, tie⟩ := round
      rw [selections, hround] at h
      cases earlier with
      | nil =>
        obtain ⟨rfl, -⟩ := List.cons.inj h
        exact ⟨rfl, pending, by rw [List.map_nil, List.append_nil], rfl⟩
      | cons first earlier =>
        obtain ⟨rfl, hlater⟩ := List.cons.inj h
        obtain ⟨hbefore, left, hperm, hentries⟩ := ih hlater
        obtain ⟨hlt, hget⟩ := List.getElem?_eq_some_iff.mp (nextRound_getElem? hround)
        refine ⟨hbefore, left, ?_, hentries⟩
        -- the selected entry is put back where it was taken from
        have hback := List.getElem_cons_eraseIdx_perm hlt
        rw [hget] at hback
        exact (List.perm_middle.trans (hperm.cons next.1)).trans hback

/-- The rounds of a batch are what its results come from. -/
theorem selections_results (n : Nat) (arb : BusArbiter) (pending : List CommitResult) :
    (commitRounds n arb pending).2 = (selections n arb pending).map fun sel =>
      { sel.next.1 with response := (sel.before.executeCommit sel.next.1.op sel.tie).2 } := by
  induction n generalizing arb pending with
  | zero => rfl
  | succ n ih =>
    cases h : arb.nextRound pending with
    | none =>
      rw [commitRounds_of_none h, selections, h]
      rfl
    | some round =>
      obtain ⟨next, tie⟩ := round
      rw [commitRounds_of_some h, selections, h, List.map_cons, ih]

/-- **Earliest start first, DMA before the CPUs.**  The results of a batch are
those of its rounds, and every round selects, of the operations that may be
committed then, one that starts first and does not pass over DMA. -/
theorem commitBatch_front (arb : BusArbiter) (hpolicy : arb.policy = defaultPolicy)
    (ops : List BusOp) (howner : ∀ op ∈ ops, NamesOwner op) :
    (arb.commitBatch ops).2 = (arb.batchSelections ops).map (fun sel =>
        { sel.next.1 with response := (sel.before.executeCommit sel.next.1.op sel.tie).2 }) ∧
      (∀ earlier sel later, arb.batchSelections ops = earlier ++ sel :: later →
        sel.Sees (arb.resetEnqueued.enqueue 0 ops) earlier) ∧
      ∀ sel ∈ arb.batchSelections ops, sel.First := by
  refine ⟨selections_results _ _ _, fun _ _ _ => selections_sees _,
    selections_front _ _ _ ?_ fun p hp => ?_⟩
  · rw [hardware_policy (hardware_enqueue _ 0 ops)]
    exact hpolicy
  · exact howner p.op (List.mem_of_getElem? (enqueue_inputIndex _ 0 ops p hp).2)

/-- A read of each CPU and one of the DMA engine at one tick, and a later write. -/
def fourOwners : List BusOp :=
  [{}, { cpuId := 1, physAddr := 8 }, { cpuId := 1, sequence := 1, reqTime := 2, kind := .write },
    { cpuId := -1, producer := .dma, physAddr := 16 }]

theorem commitBatch_front_fourOwners :
    let arb : BusArbiter := { memory := .make 32 }
    (arb.commitBatch fourOwners).2 = (arb.batchSelections fourOwners).map (fun sel =>
        { sel.next.1 with response := (sel.before.executeCommit sel.next.1.op sel.tie).2 }) ∧
      (arb.batchSelections fourOwners).length = 4 ∧
      ∀ sel ∈ arb.batchSelections fourOwners, sel.First := by
  intro arb
  obtain ⟨hresults, -, hfirst⟩ := commitBatch_front arb rfl fourOwners (by decide)
  exact ⟨hresults, by decide, hfirst⟩

end BusArbiter

end Saturnis.Bus
