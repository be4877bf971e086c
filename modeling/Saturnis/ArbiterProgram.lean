/-
Program order of the producers.

A batch keeps program order when every round commits the oldest pending
operation of some producer.  Of these oldest operations one is preferred to the
others, and the scan of `pick_next` ends at it unless a candidate that is
listed later, a younger operation of another producer with a higher priority,
takes its place (`Unjumped`).

* `keepsProgramOrder_iff` — a batch of the default policy keeps program order
  and adds no fault if and only if no round is jumped in this way.
-/
import Saturnis.ArbiterOrder

namespace Saturnis.Bus

open Saturnis.Core Saturnis.Mem Saturnis.Dev

/-- The CPU number of the operation is the one its producer carries. -/
def BusOp.Attributed (op : BusOp) : Prop :=
  (op.isDma = false ∧ (op.cpuId = 0 ∨ op.cpuId = 1)) ∨ (op.isDma = true ∧ op.cpuId < 0)

instance (op : BusOp) : Decidable op.Attributed := inferInstanceAs (Decidable (_ ∨ _))

namespace BusArbiter

variable {arb a b : BusArbiter} {ops ops' l l₁ l₂ : List BusOp} {w x y : BusOp} {tie : Bool}

/-! ### Attributed operations under the default policy -/

theorem isDma_iff_slot (h : x.Attributed) : x.isDma = true ↔ producerSlot x = 2 := by
  rw [producerSlot]
  rcases h with ⟨hdma, hid⟩ | ⟨hdma, _⟩
  · rw [hdma]
    rcases hid with hid | hid <;> simp [hid]
  · simp [hdma]

theorem producersApart_of_attributed (h : ∀ x ∈ ops, x.Attributed) : ProducersApart ops := by
  intro x hx y hy hid
  rw [producerSlot, producerSlot]
  rcases h x hx with ⟨hdx, hix⟩ | ⟨hdx, hix⟩ <;> rcases h y hy with ⟨hdy, hiy⟩ | ⟨hdy, hiy⟩
  · rw [hdx, hdy, hid]
  · omega
  · omega
  · rw [hdx, hdy, hid]

theorem rank_of_dma (h : x.Attributed) (hdma : x.isDma = true) : (defaultPolicy x).rank = 2 := by
  rcases h with ⟨hcpu, _⟩ | ⟨_, hid⟩
  · rw [hcpu] at hdma
    exact absurd hdma (by simp)
  · rw [defaultPolicy, if_pos hid]
    rfl

theorem rank_lt_of_cpu (h : x.Attributed) (hcpu : x.isDma = false) :
    (defaultPolicy x).rank < 2 := by
  rcases h with ⟨_, hid⟩ | ⟨hdma, _⟩
  · rw [defaultPolicy, if_neg (by omega)]
    split <;> decide
  · rw [hdma] at hcpu
    exact absurd hcpu (by simp)

/-! ### Rounds that are not jumped -/

/-- The oldest operation of a producer, preferred to those of the others. -/
def Foremost (arb : BusArbiter) (l : List BusOp) (w : BusOp) : Prop :=
  ∀ y, Streams.IsFirst producerSlot l y → y ≠ w → arb.replaces w y = true

/-- `w` is the oldest operation of its producer, preferred to those of the
others, and no operation listed after it replaces it. -/
def Unjumped (arb : BusArbiter) (l : List BusOp) (w : BusOp) : Prop :=
  ∃ l₁ l₂, l = l₁ ++ w :: l₂ ∧ (∀ x ∈ l₁, producerSlot x ≠ producerSlot w) ∧
    arb.Foremost l w ∧ ∀ x ∈ l₂, arb.replaces x w = false

/-- An older operation of the same producer starts no later. -/
theorem Honours.startTime_le (h : Honours arb l) (hy : Streams.IsFirst producerSlot l y)
    (hx : x ∈ l) (hslot : producerSlot y = producerSlot x) : b.startTime y ≤ b.startTime x :=
  startTime_mono (h.reqTime_le hy.mem hx hslot.symm
    ((h.isFirst_iff hy.mem).mp hy x hx hslot.symm))

theorem Honours.foremost_iff (h : Honours arb l) :
    b.Foremost l w ↔ ∀ y ∈ l, Honours.Oldest l y → y ≠ w → b.replaces w y = true :=
  ⟨fun hw y hy hold => hw y ((h.isFirst_iff hy).mpr hold),
    fun hw y hy => hw y hy.mem ((h.isFirst_iff hy.mem).mp hy)⟩

/-- Nothing starts before the foremost operation. -/
theorem Foremost.startTime_le (hw : b.Foremost l w) (h : Honours arb l) (hx : x ∈ l) :
    b.startTime w ≤ b.startTime x := by
  obtain ⟨y, hy, hslot⟩ := Streams.exists_isFirst (f := producerSlot) hx
  refine Nat.le_trans ?_ (h.startTime_le hy hx hslot)
  by_cases hyw : y = w
  · exact Nat.le_of_eq (by rw [hyw])
  · exact start_le_of_replaces (hw y hy hyw)

/-- Where a CPU is foremost the operations of the DMA engine start later. -/
theorem Foremost.startTime_lt_of_dma (hw : b.Foremost l w) (h : Honours arb l)
    (hdef : b.policy = defaultPolicy) (hatt : ∀ x ∈ l, x.Attributed) (hwl : w ∈ l)
    (hcpu : w.isDma = false) (hx : x ∈ l) (hdma : x.isDma = true) :
    b.startTime w < b.startTime x := by
  obtain ⟨y, hy, hslot⟩ := Streams.exists_isFirst (f := producerSlot) hx
  have hydma : y.isDma = true :=
    (isDma_iff_slot (hatt y hy.mem)).mpr (hslot.trans ((isDma_iff_slot (hatt x hx)).mp hdma))
  have hyw : y ≠ w := fun heq => by
    rw [heq, hcpu] at hydma
    exact absurd hydma (by simp)
  have hslot' : producerSlot w ≠ producerSlot y := fun heq => by
    rw [(isDma_iff_slot (hatt w hwl)).mpr
      (heq.trans ((isDma_iff_slot (hatt y hy.mem)).mp hydma))] at hcpu
    exact absurd hcpu (by simp)
  have hid : w.cpuId ≠ y.cpuId := fun heq =>
    hslot' (producersApart_of_attributed hatt w hwl y hy.mem heq)
  have hprec := (replaces_iff_precedes hslot' hid).mp (hw y hy hyw)
  have hle := h.startTime_le (b := b) hy hx hslot
  have hrank := rank_of_dma (hatt y hy.mem) hydma
  have hrank' := rank_lt_of_cpu (hatt w hwl) hcpu
  rw [Precedes, hdef] at hprec
  omega

/-- Before the foremost operation the scan has chosen one that it replaces. -/
theorem Foremost.replaces_best {c : BusOp} {m : List BusOp} (hw : b.Foremost (c :: m ++ w :: l₂) w)
    (h : Honours arb (c :: m ++ w :: l₂)) (hdef : b.policy = defaultPolicy)
    (hatt : ∀ x ∈ c :: m ++ w :: l₂, x.Attributed)
    (hfirst : ∀ x ∈ c :: m, producerSlot x ≠ producerSlot w) :
    b.replaces w (Scan.best b.replaces c m) = true := by
  set cur := Scan.best b.replaces c m with hcur
  have hwl : w ∈ c :: m ++ w :: l₂ := List.mem_append_right _ List.mem_cons_self
  have hmem : cur ∈ c :: m := Scan.best_mem c m
  have hcurl : cur ∈ c :: m ++ w :: l₂ := List.mem_append_left _ hmem
  have hslot := hfirst cur hmem
  have hle := hw.startTime_le h hcurl
  by_cases hlt : b.startTime w < b.startTime cur
  · exact replaces_of_start_lt hlt
  cases hwdma : w.isDma with
  | true =>
    -- the DMA engine has the highest priority
    have hcpu : cur.isDma = false := by
      by_contra hdma
      exact hslot (((isDma_iff_slot (hatt cur hcurl)).mp (by simpa using hdma)).trans
        ((isDma_iff_slot (hatt w hwl)).mp hwdma).symm)
    have hid : w.cpuId ≠ cur.cpuId := fun heq =>
      hslot (producersApart_of_attributed hatt w hwl cur hcurl heq).symm
    rw [replaces_iff_precedes (Ne.symm hslot) hid, Precedes, hdef]
    have := rank_of_dma (hatt w hwl) hwdma
    have := rank_lt_of_cpu (hatt cur hcurl) hcpu
    omega
  | false =>
    obtain ⟨y, hy, hyslot⟩ := Streams.exists_isFirst (f := producerSlot) hmem
    have hyl := hy.append (w :: l₂)
    have hyw : y ≠ w := fun heq => hfirst y hy.mem (by rw [heq])
    have hstart := h.startTime_le (b := b) hyl hcurl hyslot
    have hdmaLater : ∀ x ∈ c :: m, x.isDma = true → b.startTime y < b.startTime x := by
      intro x hx hdma
      have := hw.startTime_lt_of_dma h hdef hatt hwl hwdma (List.mem_append_left _ hx) hdma
      omega
    -- `w` is a CPU's, so another producer that starts with it is the other CPU
    have hycpu : y.isDma = false := by
      by_contra hdma
      exact absurd (hdmaLater y hy.mem (by simpa using hdma)) (Nat.lt_irrefl _)
    have hother : ∀ x ∈ c :: m, producerSlot x ≠ producerSlot y → x.isDma = true := by
      intro x hx hxy
      have hxw := hfirst x hx
      have hyw := hfirst y hy.mem
      by_contra hcpu
      have hxcpu : x.isDma = false := by simpa using hcpu
      simp only [producerSlot, hxcpu, hycpu, hwdma, Bool.false_eq_true, if_false] at hxy hxw hyw
      split_ifs at hxy hxw hyw <;> simp_all
    have hcury : cur = y := by
      obtain ⟨p, q, hsplit, hp⟩ := hy
      refine Scan.best_eq_of_split hsplit (fun d n hd => ?_) fun x hx => ?_
      · have hbest : Scan.best b.replaces d n ∈ p := hd ▸ Scan.best_mem d n
        have hin : Scan.best b.replaces d n ∈ c :: m := hsplit ▸ List.mem_append_left _ hbest
        exact replaces_of_start_lt (hdmaLater _ hin (hother _ hin (hp _ hbest)))
      · have hin : x ∈ c :: m := hsplit ▸ List.mem_append_right _ (List.mem_cons_of_mem _ hx)
        by_cases hxy : producerSlot x = producerSlot y
        · have hpair := h.pairwise
          rw [hsplit, List.append_assoc] at hpair
          have := (List.pairwise_cons.mp (List.pairwise_append.mp hpair).2.1).1 x
            (List.mem_append_left _ hx) hxy.symm
          exact not_replaces_younger hxy.symm this.1 this.2
        · exact not_replaces_of_start_lt (hdmaLater x hin (hother x hin hxy))
    rw [hcury]
    exact hw y hyl hyw

/-- The scan of an unjumped list ends at the foremost operation. -/
theorem Unjumped.best {front : BusOp} {rest : List BusOp} (hw : b.Unjumped (front :: rest) w)
    (h : Honours arb (front :: rest)) (hdef : b.policy = defaultPolicy)
    (hatt : ∀ x ∈ front :: rest, x.Attributed) : Scan.best b.replaces front rest = w := by
  obtain ⟨l₁, l₂, hsplit, hfirst, hw, hkeep⟩ := hw
  refine Scan.best_eq_of_split hsplit (fun c m hl₁ => ?_) hkeep
  subst hl₁
  rw [hsplit] at h hatt hw
  exact hw.replaces_best h hdef hatt hfirst

/-- The choice of a scan does not come after the front. -/
theorem best_precedes {front : BusOp} {rest : List BusOp}
    (hpair : (front :: rest).Pairwise fun x y => producerSlot x = producerSlot y →
      x.reqTime ≤ y.reqTime ∧ x.sequence < y.sequence)
    (hapart : ProducersApart (front :: rest)) :
    Scan.best b.replaces front rest = front ∨
      b.Precedes (Scan.best b.replaces front rest) front := by
  induction rest generalizing front with
  | nil => exact Or.inl rfl
  | cons x rest ih =>
    rw [Scan.best_cons]
    by_cases hx : b.replaces x front = true
    · rw [if_pos hx]
      have hslot : producerSlot x ≠ producerSlot front := fun heq => by
        have hlt := (List.pairwise_cons.mp hpair).1 x List.mem_cons_self heq.symm
        rw [not_replaces_younger heq.symm hlt.1 hlt.2] at hx
        exact absurd hx (by simp)
      have hid : x.cpuId ≠ front.cpuId := fun heq =>
        hslot (hapart x (List.mem_cons_of_mem _ List.mem_cons_self) front List.mem_cons_self heq)
      have hprec := (replaces_iff_precedes hslot hid).mp hx
      right
      rcases ih hpair.of_cons (fun y hy z hz => hapart y (List.mem_cons_of_mem _ hy) z
        (List.mem_cons_of_mem _ hz)) with heq | hlt
      · rw [heq]
        exact hprec
      · exact hlt.trans hprec
    · rw [if_neg hx]
      have hsub : (front :: rest).Sublist (front :: x :: rest) := (List.sublist_cons_self x rest).cons_cons _
      exact ih (hpair.sublist hsub) fun y hy z hz => hapart y (hsub.subset hy) z (hsub.subset hz)

/-- Nor does it come after the oldest operation of any producer. -/
theorem best_not_after {front : BusOp} {rest : List BusOp} (h : Honours arb (front :: rest))
    (hapart : ProducersApart (front :: rest))
    (hy : Streams.IsFirst producerSlot (front :: rest) y) :
    Scan.best b.replaces front rest = y ∨ b.Precedes (Scan.best b.replaces front rest) y := by
  have hpair := h.pairwise
  -- The scan up to `y`, then `y`, then the rest.
  obtain ⟨l₁, l₂, hsplit, hl₁⟩ := hy
  cases l₁ with
  | nil =>
    obtain ⟨rfl, rfl⟩ := List.cons.inj hsplit
    exact best_precedes hpair hapart
  | cons c m =>
    rw [List.cons_append] at hsplit
    obtain ⟨rfl, rfl⟩ := List.cons.inj hsplit
    rw [← List.cons_append] at hpair hapart
    rw [Scan.best_append, Scan.best_cons]
    by_cases hyr : b.replaces y (Scan.best b.replaces front m) = true
    · rw [if_pos hyr]
      exact best_precedes (List.pairwise_append.mp hpair).2.1 fun x hx z hz =>
        hapart x (List.mem_append_right _ hx) z (List.mem_append_right _ hz)
    · -- the choice so far stays, and comes before `y`
      rw [if_neg hyr]
      have hcur : Scan.best b.replaces front m ∈ front :: m := Scan.best_mem front m
      have hslot := hl₁ _ hcur
      have hid : (Scan.best b.replaces front m).cpuId ≠ y.cpuId := fun heq =>
        hslot (hapart _ (List.mem_append_left _ hcur) y
          (List.mem_append_right _ List.mem_cons_self) heq)
      have hprec : b.Precedes (Scan.best b.replaces front m) y :=
        (precedes_total hid).resolve_right fun hlt =>
          hyr ((replaces_iff_precedes (Ne.symm hslot) (Ne.symm hid)).mpr hlt)
      have hmem : ∀ x ∈ Scan.best b.replaces front m :: l₂, x ∈ front :: m ++ y :: l₂ := by
        intro x hx
        rcases List.mem_cons.mp hx with rfl | hx
        · exact List.mem_append_left _ hcur
        · exact List.mem_append_right _ (List.mem_cons_of_mem _ hx)
      -- The choice so far takes the place of what is before `y`, and the rest is as it was.
      have hpair' : (Scan.best b.replaces front m :: l₂).Pairwise fun x y =>
          producerSlot x = producerSlot y → x.reqTime ≤ y.reqTime ∧ x.sequence < y.sequence :=
        List.pairwise_cons.mpr ⟨fun x hx =>
          (List.pairwise_append.mp hpair).2.2 _ hcur x (List.mem_cons_of_mem _ hx),
          (List.pairwise_append.mp hpair).2.1.of_cons⟩
      right
      rcases best_precedes hpair' fun x hx z hz => hapart x (hmem x hx) z (hmem z hz)
        with heq | hlt
      · rw [heq]
        exact hprec
      · exact hlt.trans hprec

/-- A scan that ends at the oldest operation of a producer was not jumped. -/
theorem unjumped_of_best {front : BusOp} {rest : List BusOp} (h : Honours arb (front :: rest))
    (hapart : ProducersApart (front :: rest)) (hbest : Scan.best b.replaces front rest = w)
    (hw : Streams.IsFirst producerSlot (front :: rest) w) : b.Unjumped (front :: rest) w := by
  have hfore : b.Foremost (front :: rest) w := by
    intro y hy hyw
    have hslot : producerSlot w ≠ producerSlot y := by
      intro heq
      have hle := (h.isFirst_iff hw.mem).mp hw y hy.mem heq.symm
      have hle' := (h.isFirst_iff hy.mem).mp hy w hw.mem heq
      rcases h.comparable hy.mem hw.mem hyw heq.symm with hlt | hlt <;> omega
    have hid : w.cpuId ≠ y.cpuId := fun heq => hslot (hapart w hw.mem y hy.mem heq)
    rw [replaces_iff_precedes hslot hid, ← hbest]
    refine (best_not_after h hapart hy).resolve_left fun heq => hyw ?_
    rw [← heq, hbest]
  obtain ⟨l₁, l₂, hsplit, hl₁⟩ := hw
  exact ⟨l₁, l₂, hsplit, hl₁, hfore, Scan.not_replaces_after_best hbest hsplit h.nodup⟩

/-! ### Faults of the loop -/

/-- A rejection adds a fault, a grant does not. -/
theorem executeCommit_faults_length (arb : BusArbiter) (op : BusOp) (tie : Bool) :
    (arb.executeCommit op tie).1.trace.faults.length =
      arb.trace.faults.length + if arb.accepts op then 0 else 1 := by
  cases h : arb.accepts op with
  | true =>
    rw [executeCommit_of_accepts h, grant_faults]
    rfl
  | false =>
    obtain ⟨reason, detail, heq⟩ := executeCommit_of_rejected tie h
    rw [heq]
    simp [faultResponse]

theorem rounds_faults_length (n : Nat) (arb : BusArbiter) (ops : List BusOp) :
    arb.trace.faults.length ≤ (rounds n arb ops).1.trace.faults.length := by
  induction n generalizing arb ops with
  | zero => exact Nat.le_refl _
  | succ n ih =>
    cases hround : arb.opRound ops with
    | none => exact Nat.le_of_eq (by rw [rounds_of_none hround])
    | some round =>
      obtain ⟨w, tie⟩ := round
      rw [rounds_of_some hround]
      have := executeCommit_faults_length arb w tie
      have := ih (arb.executeCommit w tie).1 (ops.erase w)
      simp only
      omega

theorem rounds_subset (n : Nat) (arb : BusArbiter) (ops : List BusOp) :
    ∀ x ∈ (rounds n arb ops).2.map Prod.fst, x ∈ ops := by
  induction n generalizing arb ops with
  | zero => simp [rounds]
  | succ n ih =>
    cases hround : arb.opRound ops with
    | none =>
      rw [rounds_of_none hround]
      simp
    | some round =>
      obtain ⟨w, tie⟩ := round
      rw [rounds_of_some hround]
      intro x hx
      rcases List.mem_cons.mp hx with rfl | hx
      · exact (mem_candidates.mp (choice_mem (opRound_eq_some.mp hround).2.1)).1
      · exact List.erase_subset (ih _ _ x hx)

/-- A loop without faults commits every candidate. -/
theorem rounds_complete {n : Nat} (hlen : ops.length ≤ n) (hhalt : arb.trace.shouldHalt = false)
    (hfaults : (rounds n arb ops).1.trace.faults.length = arb.trace.faults.length) :
    ∀ x ∈ arb.candidates ops, x ∈ (rounds n arb ops).2.map Prod.fst := by
  induction n generalizing arb ops with
  | zero =>
    rw [List.length_eq_zero_iff.mp (Nat.le_zero.mp hlen)]
    exact fun x hx => absurd hx (by simp [candidates])
  | succ n ih =>
    intro x hx
    cases hround : arb.opRound ops with
    | none =>
      rcases opRound_eq_none.mp hround with h | h
      · rw [h] at hhalt
        exact absurd hhalt (by simp)
      · rw [h] at hx
        exact absurd hx (by simp)
    | some round =>
      obtain ⟨w, tie⟩ := round
      rw [rounds_of_some hround] at hfaults ⊢
      have hmem := (mem_candidates.mp (choice_mem (opRound_eq_some.mp hround).2.1)).1
      have hlater := rounds_faults_length n (arb.executeCommit w tie).1 (ops.erase w)
      have hone := executeCommit_faults_length arb w tie
      -- a rejection would have left its fault
      have hacc : arb.accepts w = true := by
        by_contra hrej
        rw [if_neg hrej] at hone
        simp only at hfaults
        omega
      rw [if_pos hacc] at hone
      by_cases hxw : x = w
      · rw [hxw]
        exact List.mem_cons_self
      · refine List.mem_cons_of_mem _ (ih ?_ ?_ ?_ x ?_)
        · rw [List.length_erase_of_mem hmem]
          omega
        · rw [executeCommit_of_accepts hacc, grant_shouldHalt, hhalt]
        · simp only at hfaults
          omega
        · rw [mem_candidates, executeCommit_isCommittable]
          exact ⟨(List.mem_erase_of_ne hxw).mpr (mem_candidates.mp hx).1, (mem_candidates.mp hx).2⟩

/-! ### Program order -/

/-- Each producer's operations are committed by increasing sequence numbers,
and no fault is added. -/
def KeepsProgramOrder (arb : BusArbiter) (ops : List BusOp) : Prop :=
  ((arb.commitBatch ops).2.map (·.op)).Pairwise
      (fun x y => producerSlot x = producerSlot y → x.sequence < y.sequence) ∧
    (arb.commitBatch ops).1.trace.faults = arb.trace.faults

/-- No round of the batch is jumped. -/
inductive UnjumpedRounds : BusArbiter → List BusOp → Prop
  | stop {arb : BusArbiter} {ops : List BusOp}
      (h : arb.trace.shouldHalt = true ∨ arb.candidates ops = []) : UnjumpedRounds arb ops
  | round {arb : BusArbiter} {ops : List BusOp} (w : BusOp)
      (hw : arb.Unjumped (arb.candidates ops) w)
      (hrest : UnjumpedRounds (arb.executeCommit w (arb.tied w ops)).1 (ops.erase w)) :
      UnjumpedRounds arb ops

/-- An unjumped round commits the oldest operation of a producer. -/
theorem Unjumped.choice (hw : arb.Unjumped (arb.candidates ops) w) (h : Honours arb ops)
    (hdef : arb.policy = defaultPolicy) (hatt : ∀ x ∈ ops, x.Attributed) :
    arb.choice ops = some w ∧ w ∈ ops ∧ Honours.Oldest ops w := by
  have hmem : w ∈ arb.candidates ops := by
    obtain ⟨l₁, l₂, hsplit, -⟩ := hw
    rw [hsplit]
    exact List.mem_append_right _ List.mem_cons_self
  have hops := (mem_candidates.mp hmem).1
  have hfirst : Streams.IsFirst producerSlot (arb.candidates ops) w := by
    obtain ⟨l₁, l₂, hsplit, hl₁, -⟩ := hw
    exact ⟨l₁, l₂, hsplit, hl₁⟩
  refine ⟨?_, hops, fun x hx hslot => ?_⟩
  · have hcand := h.candidates
    have hatt' : ∀ x ∈ arb.candidates ops, x.Attributed := fun x hx =>
      hatt x (mem_candidates.mp hx).1
    cases hlist : arb.candidates ops with
    | nil =>
      rw [hlist] at hmem
      exact absurd hmem (by simp)
    | cons front rest =>
      rw [hlist] at hw hcand hatt'
      rw [choice_of_cons hlist, hw.best hcand hdef hatt']
  · -- an older operation would be a candidate as well
    by_contra hlt
    have hne : x ≠ w := fun heq => hlt (Nat.le_of_eq (by rw [heq]))
    rcases h.comparable hx hops hne hslot with ⟨hreq, _⟩ | ⟨_, hseq⟩
    · have hxc := mem_candidates.mpr ⟨hx, isCommittable_mono hreq (mem_candidates.mp hmem).2⟩
      exact hlt ((h.candidates.isFirst_iff hmem).mp hfirst x hxc hslot)
    · omega

theorem UnjumpedRounds.keeps (hu : UnjumpedRounds arb ops) (n : Nat) (h : Honours arb ops)
    (hdef : arb.policy = defaultPolicy) (hatt : ∀ x ∈ ops, x.Attributed) :
    ((rounds n arb ops).2.map Prod.fst).Pairwise
        (fun x y => producerSlot x = producerSlot y → x.sequence < y.sequence) ∧
      (rounds n arb ops).1.trace.faults = arb.trace.faults := by
  induction hu generalizing n with
  | stop hstop =>
    rw [rounds_of_none (opRound_eq_none.mpr hstop)]
    exact ⟨List.Pairwise.nil, rfl⟩
  | @round arb ops w hw _ ih =>
    cases n with
    | zero => exact ⟨List.Pairwise.nil, rfl⟩
    | succ n =>
      cases hhalt : arb.trace.shouldHalt with
      | true =>
        rw [rounds_of_none (opRound_eq_none.mpr (Or.inl hhalt))]
        exact ⟨List.Pairwise.nil, rfl⟩
      | false =>
        obtain ⟨hchoice, hmem, hold⟩ := hw.choice h hdef hatt
        obtain ⟨hpw, hfaults⟩ := ih n (h.after hmem hold _)
          ((executeCommit_policy arb w _).trans hdef) fun x hx => hatt x (List.erase_subset hx)
        rw [rounds_of_some (opRound_eq_some.mpr ⟨hhalt, hchoice, rfl⟩)]
        refine ⟨List.pairwise_cons.mpr ⟨fun x hx hslot => ?_, hpw⟩, ?_⟩
        · have hxe := rounds_subset n _ _ x hx
          have hxops := List.erase_subset hxe
          have hne : x ≠ w := fun heq => h.nodup.not_mem_erase (heq ▸ hxe)
          have hle := hold x hxops hslot.symm
          rcases h.comparable hxops hmem hne hslot.symm with hlt | hlt
          · omega
          · exact hlt.2
        · simp only
          rw [hfaults, executeCommit_of_accepts (h.accepts hmem), grant_faults]

theorem unjumpedRounds_of_keeps {n : Nat} (hlen : ops.length ≤ n) (h : Honours arb ops)
    (hapart : ProducersApart ops)
    (hpw : ((rounds n arb ops).2.map Prod.fst).Pairwise
      fun x y => producerSlot x = producerSlot y → x.sequence < y.sequence)
    (hfaults : (rounds n arb ops).1.trace.faults = arb.trace.faults) :
    UnjumpedRounds arb ops := by
  induction n generalizing arb ops with
  | zero =>
    rw [List.length_eq_zero_iff.mp (Nat.le_zero.mp hlen)]
    exact .stop (Or.inr rfl)
  | succ n ih =>
    cases hround : arb.opRound ops with
    | none => exact .stop (opRound_eq_none.mp hround)
    | some round =>
      obtain ⟨w, tie⟩ := round
      obtain ⟨hhalt, hchoice, htie⟩ := opRound_eq_some.mp hround
      have hmem := choice_mem hchoice
      obtain ⟨hops, hcomm⟩ := mem_candidates.mp hmem
      have hacc := h.accepts hops
      rw [rounds_of_some hround] at hpw hfaults
      obtain ⟨hhead, hpw'⟩ := List.pairwise_cons.mp hpw
      have hfaults' : (rounds n (arb.executeCommit w tie).1 (ops.erase w)).1.trace.faults =
          (arb.executeCommit w tie).1.trace.faults := by
        rw [executeCommit_of_accepts hacc, grant_faults, ← executeCommit_of_accepts hacc]
        exact hfaults
      have hlen' : (ops.erase w).length ≤ n := by
        rw [List.length_erase_of_mem hops]
        omega
      -- an older operation left behind would be committed later
      have hold : Honours.Oldest ops w := by
        intro x hx hslot
        by_contra hlt
        have hne : x ≠ w := fun heq => hlt (Nat.le_of_eq (by rw [heq]))
        rcases h.comparable hx hops hne hslot with ⟨hreq, _⟩ | ⟨_, hseq⟩
        · have hcand : x ∈ (arb.executeCommit w tie).1.candidates (ops.erase w) := by
            rw [mem_candidates, executeCommit_isCommittable]
            exact ⟨(List.mem_erase_of_ne hne).mpr hx, isCommittable_mono hreq hcomm⟩
          have hhalt' : (arb.executeCommit w tie).1.trace.shouldHalt = false := by
            rw [executeCommit_of_accepts hacc, grant_shouldHalt, hhalt]
          have hlater := rounds_complete hlen' hhalt' (congrArg List.length hfaults') x hcand
          have hyounger : w.sequence < x.sequence := hhead x hlater hslot.symm
          omega
        · omega
      have hfirst := (h.candidates.isFirst_iff hmem).mpr fun x hx hslot =>
        hold x (mem_candidates.mp hx).1 hslot
      have hcand := h.candidates
      have hapart' : ProducersApart (arb.candidates ops) := fun x hx y hy =>
        hapart x (mem_candidates.mp hx).1 y (mem_candidates.mp hy).1
      refine .round w ?_ ?_
      · cases hlist : arb.candidates ops with
        | nil =>
          rw [hlist] at hmem
          exact absurd hmem (by simp)
        | cons front rest =>
          rw [hlist] at hfirst hcand hapart'
          rw [choice_of_cons hlist, Option.some_inj] at hchoice
          exact unjumped_of_best hcand hapart' hchoice hfirst
      · rw [htie]
        exact ih hlen' (h.after hops hold tie)
          (fun x hx y hy => hapart x (List.erase_subset hx) y (List.erase_subset hy)) hpw' hfaults'

/-- **A batch keeps program order if and only if no round of it is jumped.** -/
theorem keepsProgramOrder_iff (arb : BusArbiter) (hdef : arb.policy = defaultPolicy)
    (ops : List BusOp) (h : Honours arb ops) (hatt : ∀ x ∈ ops, x.Attributed) :
    KeepsProgramOrder arb ops ↔ UnjumpedRounds arb ops := by
  obtain ⟨harb, hres⟩ := commitBatch_eq_rounds h
  have hops : (arb.commitBatch ops).2.map (·.op) = (rounds ops.length arb ops).2.map Prod.fst := by
    rw [← hres, List.map_map]
    rfl
  rw [KeepsProgramOrder, hops, core_trace (resetEnqueued_core harb)]
  constructor
  · rintro ⟨hpw, hfaults⟩
    exact unjumpedRounds_of_keeps (Nat.le_refl _) h (producersApart_of_attributed hatt) hpw hfaults
  · exact fun hu => hu.keeps ops.length h hdef hatt

/-- A read of CPU 1 between two of CPU 0. -/
theorem keepsProgramOrder_three_reads :
    KeepsProgramOrder { memory := .make 16 }
      [{ cpuId := 0 }, { cpuId := 1 }, { cpuId := 0, sequence := 1 }] := by
  have h : Honours { memory := .make 16 }
      [{ cpuId := 0 }, { cpuId := 1 }, { cpuId := 0, sequence := 1 }] :=
    ⟨by decide, by decide, by decide, by decide⟩
  refine (keepsProgramOrder_iff { memory := .make 16 } rfl _ h (by decide)).mpr ?_
  refine .round { cpuId := 0 } ⟨[], _, rfl, by simp, h.foremost_iff.mpr (by decide), by decide⟩ ?_
  have h' := h.after (w := { cpuId := 0 }) (by decide) (by decide) true
  refine .round { cpuId := 1 } ⟨[], _, rfl, by simp, h'.foremost_iff.mpr (by decide), by decide⟩ ?_
  have h'' := h'.after (w := { cpuId := 1 }) (by decide) (by decide) true
  refine .round { cpuId := 0, sequence := 1 }
    ⟨[], _, rfl, by simp, h''.foremost_iff.mpr (by decide), by decide⟩ ?_
  exact .stop (Or.inr rfl)

/-- On a bus that is busy until tick 3, the device read of CPU 0 overtakes its
older RAM read, which is then rejected. -/
theorem not_keepsProgramOrder_jump :
    let arb := (BusArbiter.commit { memory := .make 16 } { cpuId := 1, kind := .write }).1
    let ram : BusOp := { cpuId := 0, reqTime := 1 }
    let device : BusOp :=
      { cpuId := 0, reqTime := 2, sequence := 1, kind := .mmioRead, physAddr := 0x05FE0000 }
    let other : BusOp :=
      { cpuId := 1, reqTime := 1, sequence := 1, kind := .mmioRead, physAddr := 0x05FE0004 }
    (Honours arb [ram, other, device] ∧ (∀ x ∈ [ram, other, device], x.Attributed) ∧
      arb.policy = defaultPolicy) ∧
    (arb.commitBatch [ram, other, device]).2.map (·.op) = [device, other, ram] ∧
    (arb.commitBatch [ram, other, device]).1.trace.faults.map (·.reason) =
      ["NON_MONOTONIC_REQ_TIME"] := by
  intro arb ram device other
  exact ⟨⟨⟨by decide, by decide, by decide, by decide⟩, by decide, rfl⟩, by decide, by decide⟩

end BusArbiter

end Saturnis.Bus
