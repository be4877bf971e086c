/-
Which request `pick_winner` selects.

`rank` orders requests by master (DMA, then the preferred CPU, then the other
one) and then by address.  The scan respects it (`replaces_eq`), so the choice
always has the least rank; among requests of equal rank the comparison is

* a write replaces a read, whatever the sizes,
* and otherwise the smaller access replaces the larger one, a read replacing
  a write in this way too.

The two rules contradict each other on a write and a smaller read.
`winner_perm_iff` says that this is the only way in which the order of the list
can matter.
-/
import Mathlib.Data.List.Basic
import Mathlib.Tactic.Set
import Saturnis.Busarb

namespace Saturnis.Busarb

open Saturnis.Core Saturnis.Mem

namespace Arbiter

variable {arb : Arbiter}

/-- Position of a master in the arbitration order. -/
def masterKey (arb : Arbiter) (m : BusMasterId) : Nat :=
  if m = .dma then 0 else if m = arb.preferred then 1 else 2

/-- Arbitration order of requests up to direction and size. -/
def rank (arb : Arbiter) (req : BusRequest) : Nat :=
  arb.masterKey req.masterId * 2 ^ 32 + req.addr.toNat

/-- The comparison at equal rank. -/
def accessReplaces (cand cur : BusRequest) : Bool :=
  if cand.isWrite ≠ cur.isWrite ∧ cand.isWrite then true
  else cand.sizeBytes < cur.sizeBytes

theorem preferred_ne_dma (arb : Arbiter) : arb.preferred ≠ .dma := by
  unfold preferred
  split
  · simp
  · split <;> simp

theorem masterKey_injective : Function.Injective arb.masterKey := by
  intro m m' h
  have hp := preferred_ne_dma arb
  revert h
  cases hpref : arb.preferred <;> cases m <;> cases m' <;>
    simp_all [masterKey]

theorem rank_lt_iff {r r' : BusRequest} :
    arb.rank r < arb.rank r' ↔ arb.masterKey r.masterId < arb.masterKey r'.masterId ∨
      (r.masterId = r'.masterId ∧ r.addr < r'.addr) := by
  have h := r.addr.isLt
  have h' := r'.addr.isLt
  have hinj : r.masterId = r'.masterId ↔
      arb.masterKey r.masterId = arb.masterKey r'.masterId := masterKey_injective.eq_iff.symm
  rw [hinj, BitVec.lt_def]
  simp only [rank]
  omega

theorem rank_eq_iff {r r' : BusRequest} :
    arb.rank r = arb.rank r' ↔ r.masterId = r'.masterId ∧ r.addr = r'.addr := by
  have h := r.addr.isLt
  have h' := r'.addr.isLt
  have hinj : r.masterId = r'.masterId ↔
      arb.masterKey r.masterId = arb.masterKey r'.masterId := masterKey_injective.eq_iff.symm
  rw [hinj, BitVec.toNat_eq]
  simp only [rank]
  omega

/-- What one comparison of the scan does, in terms of the rank. -/
theorem replaces_eq (cand cur : BusRequest) :
    arb.replaces cand cur =
      if arb.rank cand < arb.rank cur then true
      else if arb.rank cur < arb.rank cand then false
      else accessReplaces cand cur := by
  simp only [rank_lt_iff]
  have hp := preferred_ne_dma arb
  cases hpref : arb.preferred <;> cases hcand : cand.masterId <;> cases hcur : cur.masterId <;>
    simp_all [replaces, masterKey, priority, BusMasterId.code, accessReplaces]

theorem replaces_of_rank_lt {cand cur : BusRequest} (h : arb.rank cand < arb.rank cur) :
    arb.replaces cand cur = true := by
  rw [replaces_eq, if_pos h]

theorem not_replaces_of_rank_lt {cand cur : BusRequest} (h : arb.rank cur < arb.rank cand) :
    arb.replaces cand cur = false := by
  rw [replaces_eq, if_neg (by omega), if_pos h]

theorem replaces_of_rank_eq {cand cur : BusRequest} (h : arb.rank cand = arb.rank cur) :
    arb.replaces cand cur = accessReplaces cand cur := by
  rw [replaces_eq, if_neg (by omega), if_neg (by omega)]

/-! ### The scan -/

/-- The index that `pick_winner` returns is that of the scan's choice. -/
theorem winner_cons (arb : Arbiter) (req : BusRequest) (reqs : List BusRequest) :
    arb.winner (req :: reqs) = some (Scan.best arb.replaces req reqs) := by
  have hpick : arb.pickWinner (req :: reqs) = some
      (Scan.best (fun cand cur => arb.replaces cand.1 cur.1) (req, 0) (reqs.zipIdx 1)).2 := by
    simp [pickWinner, List.zipIdx_cons]
  have hmem := Scan.best_mem (r := fun cand cur : BusRequest × Nat => arb.replaces cand.1 cur.1)
    (req, 0) (reqs.zipIdx 1)
  have hfst := Scan.best_map (r := arb.replaces) (f := Prod.fst) (req, 0) (reqs.zipIdx 1)
  rw [List.zipIdx_map_fst] at hfst
  set e := Scan.best (fun cand cur : BusRequest × Nat => arb.replaces cand.1 cur.1) (req, 0)
    (reqs.zipIdx 1) with he
  have hget : (req :: reqs)[e.2]? = some e.1 := by
    rw [show (req, 0) :: reqs.zipIdx 1 = (req :: reqs).zipIdx from by simp [List.zipIdx_cons]]
      at hmem
    exact List.mem_zipIdx_iff_getElem?.mp hmem
  rw [winner, hpick, Option.bind_some, hget, hfst]

theorem winner_eq_none_iff (arb : Arbiter) (reqs : List BusRequest) :
    arb.winner reqs = none ↔ reqs = [] := by
  cases reqs with
  | nil => simp [winner, pickWinner]
  | cons req reqs => simp [winner_cons]

theorem winner_mem {reqs : List BusRequest} {w : BusRequest} (h : arb.winner reqs = some w) :
    w ∈ reqs := by
  cases reqs with
  | nil => simp [winner, pickWinner] at h
  | cons req reqs =>
    rw [winner_cons, Option.some_inj] at h
    exact h ▸ Scan.best_mem req reqs

/-- The selected request has the least rank. -/
theorem winner_rank_le {reqs : List BusRequest} {w : BusRequest} (h : arb.winner reqs = some w) :
    ∀ r ∈ reqs, arb.rank w ≤ arb.rank r := by
  cases reqs with
  | nil => simp
  | cons req reqs =>
    rw [winner_cons, Option.some_inj] at h
    rw [← h]
    refine Scan.best_minimal arb.rank (fun cand _ cur _ hr => ?_) (fun cand _ cur _ hr => ?_)
    · by_contra hlt
      rw [not_replaces_of_rank_lt (by omega)] at hr
      exact absurd hr (by simp)
    · by_contra hlt
      rw [replaces_of_rank_lt (by omega)] at hr
      exact absurd hr (by simp)

theorem winner_masterKey_le {reqs : List BusRequest} {w : BusRequest}
    (h : arb.winner reqs = some w) :
    ∀ r ∈ reqs, arb.masterKey w.masterId ≤ arb.masterKey r.masterId := by
  intro r hr
  have hle := winner_rank_le h r hr
  have := r.addr.isLt
  have := w.addr.isLt
  simp only [rank] at hle
  omega

/-- The request that is moved to the end of the list is met last by the scan. -/
theorem winner_concat {reqs : List BusRequest} {r c : BusRequest}
    (h : arb.winner reqs = some c) :
    arb.winner (reqs ++ [r]) = some (if arb.replaces r c then r else c) := by
  cases reqs with
  | nil => simp [winner, pickWinner] at h
  | cons req reqs =>
    rw [winner_cons, Option.some_inj] at h
    rw [List.cons_append, winner_cons, Scan.best_concat, h]

theorem winner_of_dominates {reqs : List BusRequest} {w : BusRequest} (hw : w ∈ reqs)
    (hwin : ∀ r ∈ reqs, r ≠ w → arb.replaces w r = true)
    (hkeep : ∀ r ∈ reqs, arb.replaces r w = false) : arb.winner reqs = some w := by
  cases reqs with
  | nil => simp at hw
  | cons req reqs =>
    rw [winner_cons, Scan.best_of_dominates hw hwin hkeep]

/-! ### Order of the request list -/

/-- `req` is outranked by none of `reqs`. -/
def Contends (arb : Arbiter) (reqs : List BusRequest) (req : BusRequest) : Prop :=
  req ∈ reqs ∧ ∀ r ∈ reqs, arb.rank req ≤ arb.rank r

/-- No contending read is smaller than every contending write. -/
def Undisputed (arb : Arbiter) (reqs : List BusRequest) : Prop :=
  ∀ w r, arb.Contends reqs w → arb.Contends reqs r → w.isWrite = true → r.isWrite = false →
    ∃ w', arb.Contends reqs w' ∧ w'.isWrite = true ∧ w'.sizeBytes ≤ r.sizeBytes

theorem Contends.rank_eq {reqs : List BusRequest} {r r' : BusRequest}
    (h : arb.Contends reqs r) (h' : arb.Contends reqs r') : arb.rank r = arb.rank r' :=
  Nat.le_antisymm (h.2 r' h'.1) (h'.2 r h.1)

/-- Requests of one tick that agree in rank, direction and size are equal. -/
theorem eq_of_rank_eq {r r' : BusRequest} (hrank : arb.rank r = arb.rank r')
    (hdir : r.isWrite = r'.isWrite) (hsize : r.sizeBytes = r'.sizeBytes)
    (hnow : r.nowTick = r'.nowTick) : r = r' := by
  obtain ⟨hm, ha⟩ := rank_eq_iff.mp hrank
  cases r
  cases r'
  simp_all

theorem exists_contends {reqs : List BusRequest} (h : reqs ≠ []) :
    ∃ r, arb.Contends reqs r := by
  obtain ⟨r, hr, hmin⟩ := Scan.exists_minimal arb.rank h
  exact ⟨r, hr, hmin⟩

/-- Among the contending requests that satisfy `P` there is a smallest one. -/
theorem exists_smallest {reqs : List BusRequest} (P : BusRequest → Bool) {r : BusRequest}
    (hr : arb.Contends reqs r) (hP : P r = true) :
    ∃ w, arb.Contends reqs w ∧ P w = true ∧
      ∀ x, arb.Contends reqs x → P x = true → w.sizeBytes ≤ x.sizeBytes := by
  classical
  have hmem : ∀ x, x ∈ reqs.filter (fun x => decide (arb.Contends reqs x) && P x) ↔
      arb.Contends reqs x ∧ P x = true := by
    intro x
    simp only [List.mem_filter, Bool.and_eq_true, decide_eq_true_eq]
    exact ⟨fun h => h.2, fun h => ⟨h.1.1, h⟩⟩
  obtain ⟨w, hw, hmin⟩ := Scan.exists_minimal BusRequest.sizeBytes
    (List.ne_nil_of_mem ((hmem r).mpr ⟨hr, hP⟩))
  exact ⟨w, ((hmem w).mp hw).1, ((hmem w).mp hw).2, fun x hx hPx => hmin x ((hmem x).mpr ⟨hx, hPx⟩)⟩

/-- An undisputed list has a request that beats every other one. -/
theorem exists_dominating {reqs : List BusRequest} {now : Nat} (hne : reqs ≠ [])
    (hnow : ∀ r ∈ reqs, r.nowTick = now) (h : arb.Undisputed reqs) :
    ∃ w ∈ reqs, (∀ r ∈ reqs, r ≠ w → arb.replaces w r = true) ∧
      ∀ r ∈ reqs, arb.replaces r w = false := by
  -- a request of greater rank loses to every contender
  have hother : ∀ w, arb.Contends reqs w → ∀ r ∈ reqs, ¬ arb.Contends reqs r →
      arb.rank w < arb.rank r := by
    intro w hw r hr hnot
    by_contra hlt
    exact hnot ⟨hr, fun x hx => Nat.le_trans (Nat.le_of_not_lt hlt) (hw.2 x hx)⟩
  obtain ⟨c, hc⟩ : ∃ c, arb.Contends reqs c := exists_contends hne
  by_cases hwrite : ∃ w, arb.Contends reqs w ∧ w.isWrite = true
  · -- the smallest contending write
    obtain ⟨w₀, hw₀, hw₀write⟩ := hwrite
    obtain ⟨w, hw, hww, hmin⟩ := exists_smallest (·.isWrite) hw₀ hw₀write
    refine ⟨w, hw.1, fun r hr hrw => ?_, fun r hr => ?_⟩
    · by_cases hcr : arb.Contends reqs r
      · rw [replaces_of_rank_eq (hw.rank_eq hcr), accessReplaces]
        cases hdir : r.isWrite with
        | false => simp [hww]
        | true =>
          have hle := hmin r hcr hdir
          have hsize : w.sizeBytes ≠ r.sizeBytes := fun heq =>
            hrw (eq_of_rank_eq (hcr.rank_eq hw) (hdir.trans hww.symm) heq.symm
              ((hnow r hr).trans (hnow w hw.1).symm))
          simp only [hww, ne_eq, not_true_eq_false, false_and, if_false, decide_eq_true_eq]
          omega
      · exact replaces_of_rank_lt (hother w hw r hr hcr)
    · by_cases hcr : arb.Contends reqs r
      · rw [replaces_of_rank_eq (hcr.rank_eq hw), accessReplaces]
        cases hdir : r.isWrite with
        | false =>
          obtain ⟨w', hw', hw'w, hle⟩ := h w r hw hcr hww hdir
          have := hmin w' hw' hw'w
          simp
          omega
        | true =>
          have := hmin r hcr hdir
          simp [hww]
          omega
      · exact not_replaces_of_rank_lt (hother w hw r hr hcr)
  · -- only reads contend, and the smallest of them wins
    have hread : ∀ x, arb.Contends reqs x → x.isWrite = false := fun x hx =>
      Bool.eq_false_iff.mpr fun hx' => hwrite ⟨x, hx, hx'⟩
    obtain ⟨w, hw, -, hmin⟩ := exists_smallest (fun _ => true) hc rfl
    refine ⟨w, hw.1, fun r hr hrw => ?_, fun r hr => ?_⟩
    · by_cases hcr : arb.Contends reqs r
      · have hle := hmin r hcr rfl
        have hsize : w.sizeBytes ≠ r.sizeBytes := fun heq =>
          hrw (eq_of_rank_eq (hcr.rank_eq hw) ((hread r hcr).trans (hread w hw).symm) heq.symm
            ((hnow r hr).trans (hnow w hw.1).symm))
        rw [replaces_of_rank_eq (hw.rank_eq hcr), accessReplaces, hread r hcr, hread w hw]
        simp
        omega
      · exact replaces_of_rank_lt (hother w hw r hr hcr)
    · by_cases hcr : arb.Contends reqs r
      · have := hmin r hcr rfl
        rw [replaces_of_rank_eq (hcr.rank_eq hw), accessReplaces, hread r hcr, hread w hw]
        simp
        omega
      · exact not_replaces_of_rank_lt (hother w hw r hr hcr)

/-- With a contender moved to the end, the choice is that contender or one it
does not replace, and it contends. -/
theorem winner_erase_concat {reqs : List BusRequest} {x r : BusRequest}
    (hx : arb.Contends reqs x) (hr : arb.Contends reqs r) (hne : r ≠ x) :
    ∃ c, arb.Contends reqs c ∧
      arb.winner (reqs.erase x ++ [x]) = some (if accessReplaces x c then x else c) := by
  have hmem : r ∈ reqs.erase x := (List.mem_erase_of_ne hne).mpr hr.1
  obtain ⟨c, hc⟩ : ∃ c, arb.winner (reqs.erase x) = some c := by
    rw [← Option.isSome_iff_exists, Option.isSome_iff_ne_none, ne_eq, winner_eq_none_iff]
    exact List.ne_nil_of_mem hmem
  have hcont : arb.Contends reqs c := by
    refine ⟨List.mem_of_mem_erase (winner_mem hc), fun y hy => ?_⟩
    exact Nat.le_trans (winner_rank_le hc r hmem) (hr.2 y hy)
  refine ⟨c, hcont, ?_⟩
  rw [winner_concat hc, replaces_of_rank_eq (hx.rank_eq hcont)]

theorem perm_erase_concat {reqs : List BusRequest} {x : BusRequest} (hx : x ∈ reqs) :
    (reqs.erase x ++ [x]).Perm reqs :=
  (List.perm_append_comm.trans (List.perm_cons_erase hx).symm)

/-- **The order of the request list matters exactly when it is disputed.** -/
theorem winner_perm_iff (arb : Arbiter) {reqs : List BusRequest} {now : Nat}
    (hnow : ∀ r ∈ reqs, r.nowTick = now) :
    (∀ reqs', reqs'.Perm reqs → arb.winner reqs' = arb.winner reqs) ↔ arb.Undisputed reqs := by
  constructor
  · intro hperm w r hw hr hww hrr
    by_contra hnone
    have hlarge : ∀ x, arb.Contends reqs x → x.isWrite = true → r.sizeBytes < x.sizeBytes :=
      fun x hx hxw => Nat.lt_of_not_le fun hle => hnone ⟨x, hx, hxw, hle⟩
    have hne : r ≠ w := by
      rintro rfl
      rw [hww] at hrr
      exact absurd hrr (by simp)
    -- the write last: it beats a read, and otherwise a write is chosen already
    obtain ⟨c, -, hcw⟩ := winner_erase_concat hw hr hne
    have hwrite : (if accessReplaces w c then w else c).isWrite = true := by
      cases hdir : c.isWrite with
      | false => simp [accessReplaces, hww, hdir]
      | true => split <;> assumption
    -- the read last: it is smaller than every contending write
    obtain ⟨d, hd, hdr⟩ := winner_erase_concat hr hw hne.symm
    have hread : (if accessReplaces r d then r else d).isWrite = false := by
      cases hdir : d.isWrite with
      | false => split <;> assumption
      | true =>
        have := hlarge d hd hdir
        simp [accessReplaces, hrr, this]
    have heq := (hperm _ (perm_erase_concat hw.1)).trans (hperm _ (perm_erase_concat hr.1)).symm
    rw [hcw, hdr, Option.some_inj] at heq
    rw [heq, hread] at hwrite
    exact absurd hwrite (by simp)
  · intro hund reqs' hperm
    by_cases hne : reqs = []
    · rw [hne] at hperm
      rw [hne, hperm.eq_nil]
    · obtain ⟨w, hw, hwin, hkeep⟩ := exists_dominating hne hnow hund
      rw [winner_of_dominates hw hwin hkeep]
      exact winner_of_dominates (hperm.mem_iff.mpr hw)
        (fun r hr => hwin r (hperm.mem_iff.mp hr)) (fun r hr => hkeep r (hperm.mem_iff.mp hr))

/-- Two reads are selected from in the same way in both orders. -/
theorem winner_perm_two_reads :
    (fresh fun _ _ _ => 4).winner [{ masterId := .sh2B }, {}] =
      (fresh fun _ _ _ => 4).winner [{}, { masterId := .sh2B }] := by
  refine (winner_perm_iff (fresh fun _ _ _ => 4)
    (show ∀ r ∈ [({} : BusRequest), { masterId := .sh2B }], r.nowTick = 0 by decide)).mpr ?_ _
    (List.Perm.swap _ _ [])
  intro w r hw _ hww _
  have hread : ∀ x ∈ [({} : BusRequest), { masterId := .sh2B }], x.isWrite = false := by decide
  rw [hread w hw.1] at hww
  exact absurd hww (by decide)

/-- A longword write and a word read of one CPU at one address: whichever comes
last in the list is selected. -/
theorem winner_perm_disputed :
    let write : BusRequest := { isWrite := true, sizeBytes := 4 }
    let read : BusRequest := { isWrite := false, sizeBytes := 2 }
    [read, write].Perm [write, read] ∧
      (fresh fun _ _ _ => 4).winner [write, read] = some read ∧
      (fresh fun _ _ _ => 4).winner [read, write] = some write := by
  refine ⟨List.Perm.swap _ _ [], ?_, ?_⟩ <;> rfl

end Arbiter

end Saturnis.Busarb
