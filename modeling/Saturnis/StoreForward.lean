/-
Store buffer forwarding against draining.

`forward` answers with the value of the newest entry at the same address and of
the same size.  It looks at no entry that only overlaps the read, and it
returns the value as it was pushed, wider than the entry if it was.

* `drain` — the entries applied in push order;
* `byteAt_drain` — a drained byte is that of the newest entry that covers it;
* `forward_drain_iff` — **when a forwarded value is what draining leaves**.
-/
import Mathlib.Data.List.Induction
import Saturnis.ByteStore

namespace Saturnis.Mem

variable {e : StoreEntry} {older younger : List StoreEntry} {phys addr : Addr} {size : Nat}
  {v : Word} {m : CommittedMemory}

namespace StoreEntry

/-- The entry stores to that address. -/
def Covers (e : StoreEntry) (addr : Addr) : Prop := (addr - e.phys).toNat < e.size

instance (e : StoreEntry) (addr : Addr) : Decidable (e.Covers addr) :=
  inferInstanceAs (Decidable (_ < _))

/-- The byte it stores there. -/
def byteAt (e : StoreEntry) (addr : Addr) : Byte := laneByte e.value e.size (addr - e.phys).toNat

/-- The entry has a size that an access has and lies inside the memory. -/
structure Fits (m : CommittedMemory) (e : StoreEntry) : Prop where
  size : e.size = 1 ∨ e.size = 2 ∨ e.size = 4
  inside : Inside m.size e.phys e.size

theorem Fits.size_le (h : e.Fits m) : e.size ≤ 4 := by
  rcases h.size with hsize | hsize | hsize <;> rw [hsize] <;> decide

end StoreEntry

/-- The newest of the entries that covers the address. -/
def newestCovering (entries : List StoreEntry) (addr : Addr) : Option StoreEntry :=
  entries.reverse.find? fun e => e.Covers addr

/-! ### Draining -/

/-- All entries, applied in push order. -/
def drain (m : CommittedMemory) (entries : List StoreEntry) : CommittedMemory :=
  entries.foldl (fun m e => m.write e.phys e.size e.value) m

theorem drain_concat (m : CommittedMemory) (entries : List StoreEntry) (e : StoreEntry) :
    drain m (entries ++ [e]) = (drain m entries).write e.phys e.size e.value := by
  rw [drain, List.foldl_append]
  rfl

theorem size_drain (m : CommittedMemory) (entries : List StoreEntry) :
    (drain m entries).size = m.size := by
  induction entries using List.reverseRecOn with
  | nil => rfl
  | append_singleton entries e ih => rw [drain_concat, CommittedMemory.size_write, ih]

theorem newestCovering_concat (entries : List StoreEntry) (e : StoreEntry) (addr : Addr) :
    newestCovering (entries ++ [e]) addr =
      if e.Covers addr then some e else newestCovering entries addr := by
  rw [newestCovering, List.reverse_append, List.reverse_singleton, List.singleton_append,
    List.find?_cons]
  by_cases hcovers : e.Covers addr
  · rw [if_pos hcovers, decide_eq_true hcovers]
  · rw [if_neg hcovers, decide_eq_false hcovers]
    rfl

/-- A drained byte is that of the newest entry that covers it. -/
theorem byteAt_drain {entries : List StoreEntry} (h : ∀ e ∈ entries, e.Fits m) (addr : Addr) :
    (drain m entries).byteAt addr =
      match newestCovering entries addr with
      | some e => e.byteAt addr
      | none => m.byteAt addr := by
  induction entries using List.reverseRecOn with
  | nil => rfl
  | append_singleton entries e ih =>
    have hfits := h e (by simp)
    have hinside : Inside (drain m entries).size e.phys e.size := by
      rw [size_drain]
      exact hfits.inside
    rw [drain_concat, CommittedMemory.write_byteAt _ _ (Nat.le_trans hfits.size_le (by decide)),
      refStore, if_pos hinside, newestCovering_concat]
    by_cases hcovers : e.Covers addr
    · rw [if_pos hcovers]
      exact if_pos hcovers
    · rw [if_neg hcovers, ← ih fun e he => h e (by simp [he])]
      exact if_neg hcovers

/-! ### Forwarding -/

/-- The newest entry of that address and size, with the entries pushed before
and after it. -/
structure Newest (entries : List StoreEntry) (phys : Addr) (size : Nat)
    (older : List StoreEntry) (e : StoreEntry) (younger : List StoreEntry) : Prop where
  split : entries = older ++ e :: younger
  samePhys : e.phys = phys
  sameSize : e.size = size
  last : ∀ other ∈ younger, ¬ (other.phys = phys ∧ other.size = size)

theorem Newest.forward {entries : List StoreEntry} (h : Newest entries phys size older e younger) :
    (StoreBuffer.mk entries).forward phys size = some e.value := by
  have hnone : younger.reverse.find? (fun e => decide (e.phys = phys ∧ e.size = size)) = none := by
    rw [List.find?_eq_none]
    intro other hother
    simpa using h.last other (List.mem_reverse.mp hother)
  rw [StoreBuffer.forward, h.split, List.reverse_append, List.reverse_cons, List.append_assoc,
    List.find?_append, hnone, Option.none_or, List.singleton_append, List.find?_cons,
    decide_eq_true ⟨h.samePhys, h.sameSize⟩]
  rfl

theorem newest_of_forward {entries : List StoreEntry}
    (h : (StoreBuffer.mk entries).forward phys size = some v) :
    ∃ older e younger, Newest entries phys size older e younger ∧ e.value = v := by
  rw [StoreBuffer.forward, Option.map_eq_some_iff] at h
  obtain ⟨e, hfind, hvalue⟩ := h
  obtain ⟨hmatch, before, after, hsplit, hbefore⟩ := List.find?_eq_some_iff_append.mp hfind
  obtain ⟨hphys, hsize⟩ := of_decide_eq_true hmatch
  refine ⟨after.reverse, e, before.reverse, ⟨?_, hphys, hsize, ?_⟩, hvalue⟩
  · rw [← List.reverse_reverse entries, hsplit]
    simp
  · rintro other hother ⟨hother_phys, hother_size⟩
    have hmiss := hbefore other (List.mem_reverse.mp hother)
    simp [hother_phys, hother_size] at hmiss

/-- The value is no wider than the entry, and where younger entries overlap it
the newest of them stores the same byte. -/
structure Forwardable (e : StoreEntry) (younger : List StoreEntry) : Prop where
  narrow : e.value.toNat < 2 ^ (8 * e.size)
  overlap : ∀ addr, e.Covers addr → ∀ other, newestCovering younger addr = some other →
    other.byteAt addr = e.byteAt addr

theorem newestCovering_of_covers (h : e.Covers addr) :
    newestCovering (older ++ e :: younger) addr =
      (newestCovering younger addr).or (some e) := by
  rw [newestCovering, newestCovering, List.reverse_append, List.reverse_cons, List.append_assoc,
    List.find?_append, List.singleton_append, List.find?_cons, decide_eq_true h]

theorem Newest.read_drain_iff {entries : List StoreEntry}
    (h : Newest entries phys size older e younger) (hfits : ∀ e ∈ entries, e.Fits m) :
    (drain m entries).read phys size = e.value ↔ Forwardable e younger := by
  obtain ⟨hsplit, rfl, rfl, -⟩ := h
  have hfit := hfits e (by simp [hsplit])
  have hinside : Inside (drain m entries).size e.phys e.size := by
    rw [size_drain]
    exact hfit.inside
  rw [CommittedMemory.read, if_pos (accessInRange_of_inside hinside),
    assemble_eq_iff hfit.size_le]
  -- the byte that draining leaves at an address of the entry
  have hbyte : ∀ addr, e.Covers addr → ((drain m entries).byteAt addr = e.byteAt addr ↔
      ∀ other, newestCovering younger addr = some other → other.byteAt addr = e.byteAt addr) := by
    intro addr hcovers
    rw [byteAt_drain hfits, hsplit, newestCovering_of_covers hcovers]
    cases newestCovering younger addr with
    | none => simp
    | some other => simp
  constructor
  · rintro ⟨hnarrow, hlanes⟩
    refine ⟨hnarrow, fun addr hcovers => (hbyte addr hcovers).mp ?_⟩
    have hlane := hlanes (addr - e.phys).toNat hcovers
    rwa [BitVec.ofNat_toNat, BitVec.setWidth_eq, BitVec.add_comm, BitVec.sub_add_cancel] at hlane
  · rintro ⟨hnarrow, hoverlap⟩
    refine ⟨hnarrow, fun i hi => ?_⟩
    have hsize := hfit.size_le
    have hdist := toNat_add_ofNat_sub e.phys (show i < 2 ^ 32 by omega)
    have hcovers : e.Covers (e.phys + BitVec.ofNat 32 i) := by
      rw [StoreEntry.Covers, hdist]
      exact hi
    rw [(hbyte _ hcovers).mpr (hoverlap _ hcovers), StoreEntry.byteAt, hdist]

/-- **A forwarded value is what draining leaves exactly when** the entry it
comes from is forwardable. -/
theorem forward_drain_iff {b : StoreBuffer} (hfits : ∀ e ∈ b.entries, e.Fits m)
    (hforward : b.forward phys size = some v) :
    (drain m b.entries).read phys size = v ↔
      ∃ older e younger, Newest b.entries phys size older e younger ∧ Forwardable e younger := by
  constructor
  · intro hread
    obtain ⟨older, e, younger, hnewest, rfl⟩ := newest_of_forward hforward
    exact ⟨older, e, younger, hnewest, (hnewest.read_drain_iff hfits).mp hread⟩
  · rintro ⟨older, e, younger, hnewest, hforwardable⟩
    obtain rfl := Option.some.inj (hnewest.forward.symm.trans hforward)
    exact (hnewest.read_drain_iff hfits).mpr hforwardable

/-- A word at 0 and then a byte. -/
def wordAndByte (addr : Addr) : StoreBuffer :=
  ({} : StoreBuffer).push { phys := 0, size := 4, value := 0x11223344#32 }
    |>.push { storeId := 1, phys := addr, size := 1, value := 0xAA }

theorem wordAndByte_fits {addr : Addr} (h : addr = 1 ∨ addr = 4) :
    ∀ e ∈ (wordAndByte addr).entries, e.Fits (CommittedMemory.make 8) := by
  intro e he
  rcases List.mem_pair.mp he with rfl | rfl
  · exact ⟨Or.inr (Or.inr rfl), by decide⟩
  · rcases h with rfl | rfl
    · exact ⟨Or.inl rfl, by decide⟩
    · exact ⟨Or.inl rfl, by decide⟩

/-- A byte next to the word does not disturb it. -/
theorem forward_drain_apart :
    (drain (CommittedMemory.make 8) (wordAndByte 4).entries).read 0 4 = 0x11223344#32 := by
  refine (forward_drain_iff (b := wordAndByte 4) (wordAndByte_fits (Or.inr rfl)) (by decide)).mpr
    ⟨[], _, _, ⟨rfl, rfl, rfl, by decide⟩, by decide, ?_⟩
  intro addr hcovers other hother
  -- the byte at 4 covers no address of the word
  have hfound := List.find?_some hother
  obtain rfl := List.mem_singleton.mp (List.mem_reverse.mp (List.mem_of_find?_eq_some hother))
  have hbyte : (addr - 4#32).toNat < 1 := of_decide_eq_true hfound
  have hword : (addr - 0#32).toNat < 4 := hcovers
  bv_omega

/-- A byte inside the word is not forwarded. -/
theorem not_forward_drain :
    ¬ ∀ (b : StoreBuffer) (m : CommittedMemory) (phys : Addr) (size : Nat) (v : Word),
      (∀ e ∈ b.entries, e.Fits m) → b.forward phys size = some v →
        (drain m b.entries).read phys size = v := by
  intro hall
  have hread := hall (wordAndByte 1) (CommittedMemory.make 8) 0 4 0x11223344#32
    (wordAndByte_fits (Or.inl rfl)) (by decide)
  revert hread
  decide

end Saturnis.Mem
