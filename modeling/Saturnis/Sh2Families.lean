/-
The families of the decode table, and what the core takes their words for.

`sh2_decode.cpp` has a table of instruction families of its own, which the core
does not use.  No word belongs to two families.  On a cached fetch the core tests
for a data access first (`meaningOf`), and takes a word for the instruction of a
family exactly when the word belongs to that family, but for the conditional
branches: those with a low digit of 0 or 1 are taken for stores.

* `patterns_apart` — two patterns of the table differ in a bit that both test;
* `meaningOf_iff` — **the core and the table agree**, off the words `0x8xy0` and
  `0x8xy1`.
-/
import Mathlib.Data.List.Nodup
import Mathlib.Data.List.Pairwise
import Saturnis.Sh2Dispatch

namespace Saturnis.Cpu

open Saturnis.Core Saturnis.Mem Saturnis.Bus

/-! ### The table -/

/-- `kPatterns`. -/
def patterns : List (Row String) := [
  ⟨0xF000, 0xA000, "BRA disp12"⟩,
  ⟨0xF000, 0xB000, "BSR disp12"⟩,
  ⟨0xF0FF, 0x400B, "JSR @Rn"⟩,
  ⟨0xF0FF, 0x402B, "JMP @Rn"⟩,
  ⟨0xFFFF, 0x000B, "RTS"⟩,
  ⟨0xFF00, 0x8900, "BT"⟩,
  ⟨0xFF00, 0x8B00, "BF"⟩,
  ⟨0xFF00, 0x8D00, "BT/S"⟩,
  ⟨0xFF00, 0x8F00, "BF/S"⟩,
  ⟨0xFF00, 0xC300, "TRAPA #imm"⟩,
  ⟨0xFFFF, 0x002B, "RTE"⟩,
  ⟨0xF0FF, 0x400E, "LDC Rm,SR"⟩,
  ⟨0xF0FF, 0x0002, "STC SR,Rn"⟩,
  ⟨0xF0FF, 0x4022, "STS.L PR,@-Rn"⟩,
  ⟨0xF0FF, 0x4026, "LDS.L @Rm+,PR"⟩,
  ⟨0xF000, 0x9000, "MOV.W @(disp,PC),Rn"⟩,
  ⟨0xF000, 0xD000, "MOV.L @(disp,PC),Rn"⟩,
  ⟨0xFF00, 0xC700, "MOVA @(disp,PC),R0"⟩,
  ⟨0xF00F, 0x000C, "MOV.B @(R0,Rm),Rn"⟩,
  ⟨0xF00F, 0x000D, "MOV.W @(R0,Rm),Rn"⟩,
  ⟨0xF00F, 0x000E, "MOV.L @(R0,Rm),Rn"⟩,
  ⟨0xF00F, 0x0004, "MOV.B Rm,@(R0,Rn)"⟩,
  ⟨0xF00F, 0x0005, "MOV.W Rm,@(R0,Rn)"⟩,
  ⟨0xF00F, 0x0006, "MOV.L Rm,@(R0,Rn)"⟩,
  ⟨0xFF00, 0xC400, "MOV.B @(disp,GBR),R0"⟩,
  ⟨0xFF00, 0xC500, "MOV.W @(disp,GBR),R0"⟩,
  ⟨0xFF00, 0xC600, "MOV.L @(disp,GBR),R0"⟩,
  ⟨0xFF00, 0xC000, "MOV.B R0,@(disp,GBR)"⟩,
  ⟨0xFF00, 0xC100, "MOV.W R0,@(disp,GBR)"⟩,
  ⟨0xFF00, 0xC200, "MOV.L R0,@(disp,GBR)"⟩]

def decodeFamily (instr : Instr) : Option String := lookup patterns instr

def decodeMatchCount (instr : Instr) : Nat :=
  patterns.foldl (fun found p => if p.matches instr then found + 1 else found) 0

/-! ### The core -/

/-- An instruction of the core: a data access, or a branch of `execute_instruction`. -/
inductive Meaning
  | access (form : DataForm)
  | execute (op : Opcode)
deriving DecidableEq

/-- What the core takes a cached word for; the data accesses are tested first. -/
def meaningOf (instr : Instr) : Meaning :=
  match dataFormOf instr with
  | some form => .access form
  | none => .execute (opcodeOf instr)

/-- The families with the instructions they are named after. -/
def families : List (String × Meaning) := [
  ("BRA disp12", .execute (.branch .bra)),
  ("BSR disp12", .execute (.branch .bsr)),
  ("JSR @Rn", .execute (.branch .jsr)),
  ("JMP @Rn", .execute (.branch .jmp)),
  ("RTS", .execute (.branch .rts)),
  ("BT", .execute (.branch .bt)),
  ("BF", .execute (.branch .bf)),
  ("BT/S", .execute (.branch .btS)),
  ("BF/S", .execute (.branch .bfS)),
  ("TRAPA #imm", .execute .trapa),
  ("RTE", .execute .rte),
  ("LDC Rm,SR", .execute (.reg .ldcSr)),
  ("STC SR,Rn", .execute (.reg .stcSr)),
  ("STS.L PR,@-Rn", .access (.pushSys .pr)),
  ("LDS.L @Rm+,PR", .access (.popSys .pr)),
  ("MOV.W @(disp,PC),Rn", .access .loadPcWord),
  ("MOV.L @(disp,PC),Rn", .access .loadPcLong),
  ("MOVA @(disp,PC),R0", .execute (.reg .mova)),
  ("MOV.B @(R0,Rm),Rn", .access (.loadIndexed .byte)),
  ("MOV.W @(R0,Rm),Rn", .access (.loadIndexed .word)),
  ("MOV.L @(R0,Rm),Rn", .access (.loadIndexed .long)),
  ("MOV.B Rm,@(R0,Rn)", .access (.storeIndexed .byte)),
  ("MOV.W Rm,@(R0,Rn)", .access (.storeIndexed .word)),
  ("MOV.L Rm,@(R0,Rn)", .access (.storeIndexed .long)),
  ("MOV.B @(disp,GBR),R0", .access (.loadGbr .byte)),
  ("MOV.W @(disp,GBR),R0", .access (.loadGbr .word)),
  ("MOV.L @(disp,GBR),R0", .access (.loadGbr .long)),
  ("MOV.B R0,@(disp,GBR)", .access (.storeGbr .byte)),
  ("MOV.W R0,@(disp,GBR)", .access (.storeGbr .word)),
  ("MOV.L R0,@(disp,GBR)", .access (.storeGbr .long))]

/-- The words that the core takes for stores by their first and last digit alone. -/
def StoreGroup (instr : Instr) : Prop :=
  instr &&& 0xF00F#16 = 0x8000#16 ∨ instr &&& 0xF00F#16 = 0x8001#16

instance (instr : Instr) : Decidable (StoreGroup instr) := inferInstanceAs (Decidable (_ ∨ _))

variable {instr : Instr}

theorem meaningOf_eq_access {form : DataForm} :
    meaningOf instr = .access form ↔ dataFormOf instr = some form := by
  rw [meaningOf]
  cases dataFormOf instr with
  | some other => simp
  | none => simp

theorem meaningOf_eq_execute {op : Opcode} :
    meaningOf instr = .execute op ↔ dataFormOf instr = none ∧ opcodeOf instr = op := by
  rw [meaningOf]
  cases dataFormOf instr with
  | some other => simp
  | none => simp

/-! ### The two tables -/

/-- Two patterns differ in a bit that both test. -/
theorem patterns_apart :
    patterns.Pairwise fun p q => p.value &&& q.mask ≠ q.value &&& p.mask := by
  decide +kernel

theorem foldl_count {α : Type*} (p : α → Bool) (l : List α) (n : Nat) :
    l.foldl (fun found x => if p x then found + 1 else found) n = n + l.countP p := by
  induction l generalizing n with
  | nil => rfl
  | cons x l ih =>
    rw [List.foldl_cons, ih, List.countP_cons]
    split_ifs <;> omega

theorem countP_le_one {α : Type*} {p : α → Bool} {l : List α}
    (h : l.Pairwise fun x y => ¬ (p x = true ∧ p y = true)) : l.countP p ≤ 1 := by
  induction l with
  | nil => exact Nat.zero_le 1
  | cons x l ih =>
    obtain ⟨hx, hl⟩ := List.pairwise_cons.mp h
    rw [List.countP_cons]
    split_ifs with hp
    · rw [List.countP_eq_zero.mpr fun y hy hpy => hx y hy ⟨hp, hpy⟩]
    · exact ih hl

/-- **No word belongs to two families.** -/
theorem decodeMatchCount_le_one (instr : Instr) : decodeMatchCount instr ≤ 1 := by
  rw [decodeMatchCount, foldl_count, Nat.zero_add]
  exact countP_le_one (patterns_apart.imp fun hapart h => hapart (Row.agree h.1 h.2))

/-- The patterns with the instructions of their families. -/
def entries : List (Row String × String × Meaning) := patterns.zip families

theorem patterns_names : patterns.map Row.result = families.map Prod.fst := by
  decide +kernel

/-- Every family has one pattern. -/
theorem exists_entry {f : String × Meaning} (hf : f ∈ families) :
    ∃ p ∈ patterns, p.result = f.1 ∧ (p, f) ∈ entries := by
  have hlen : patterns.length = families.length := rfl
  obtain ⟨i, hi, hget⟩ := List.mem_iff_getElem.mp hf
  have hi' : i < patterns.length := hlen ▸ hi
  have hname : (patterns.map Row.result)[i]? = (families.map Prod.fst)[i]? := by
    rw [patterns_names]
  rw [List.getElem?_map, List.getElem?_map, List.getElem?_eq_getElem hi',
    List.getElem?_eq_getElem hi, hget] at hname
  refine ⟨patterns[i], List.getElem_mem hi', Option.some_inj.mp hname, ?_⟩
  have hzip : entries[i]? = some (patterns[i], f) := by
    rw [entries, List.getElem?_zip_eq_some, List.getElem?_eq_getElem hi',
      List.getElem?_eq_getElem hi, hget]
    exact ⟨rfl, rfl⟩
  exact List.mem_of_getElem? hzip

theorem pattern_unique {p q : Row String} (hp : p ∈ patterns) (hq : q ∈ patterns)
    (h : p.result = q.result) : p = q := by
  have hnodup : (patterns.map Row.result).Nodup := by decide +kernel
  exact List.inj_on_of_nodup_map hnodup hp hq h

/-- A row of the core's tables for the instruction of a family tests what its
pattern tests. -/
theorem pattern_of_meaning {f : String × Meaning} (hf : f ∈ families)
    (h : meaningOf instr = f.2) : decodeFamily instr = some f.1 := by
  have hdata : ∀ row ∈ dataTable, ∀ x ∈ entries, x.2.2 = .access row.result →
      x.1.mask = row.mask ∧ x.1.value = row.value := by
    decide +kernel
  have hexecute : ∀ row ∈ executeTable, ∀ x ∈ entries, x.2.2 = .execute row.result →
      x.1.mask = row.mask ∧ x.1.value = row.value := by
    decide +kernel
  have hlegal : ∀ f ∈ families, f.2 ≠ .execute .illegal := by decide
  obtain ⟨p, hp, hname, hentry⟩ := exists_entry hf
  have hsame : ∀ {α : Type} {row : Row α}, row.matches instr = true →
      p.mask = row.mask ∧ p.value = row.value → decodeFamily instr = some f.1 := by
    intro α row hmatches heq
    rw [Row.matches, ← heq.1, ← heq.2] at hmatches
    rw [← hname]
    refine lookup_of_matches hp hmatches fun other hother => ?_
    by_cases hne : p = other
    · exact Or.inl (congrArg Row.result hne.symm)
    · have : Std.Symm fun p q : Row String => p.value &&& q.mask ≠ q.value &&& p.mask :=
        ⟨fun _ _ => Ne.symm⟩
      exact Or.inr (patterns_apart.forall hp hother hne)
  cases hmeaning : f.2 with
  | access form =>
    rw [hmeaning] at h
    obtain ⟨row, hrow, hmatches, rfl⟩ := lookup_some (meaningOf_eq_access.mp h)
    exact hsame hmatches (hdata row hrow (p, f) hentry hmeaning)
  | execute op =>
    rw [hmeaning] at h
    obtain ⟨row, hrow, hmatches, rfl⟩ := opcodeOf_row (meaningOf_eq_execute.mp h).2
      fun hillegal => hlegal f hf (hmeaning.trans (congrArg Meaning.execute hillegal))
    exact hsame hmatches (hexecute row hrow (p, f) hentry hmeaning)

/-- A pattern is a row of the core's tables, and the other rows differ from it,
but for the two that take the group. -/
def Encodes (p : Row String) : Meaning → Prop
  | .access form => (⟨p.mask, p.value, form⟩ : Row DataForm) ∈ dataTable ∧
      ∀ other ∈ dataTable, other.result = form ∨ p.value &&& other.mask ≠ other.value &&& p.mask
  | .execute op => ((⟨p.mask, p.value, op⟩ : Row Opcode) ∈ executeTable ∧
      ∀ other ∈ executeTable, other.result = op ∨ p.value &&& other.mask ≠ other.value &&& p.mask) ∧
      ∀ other ∈ dataTable, p.value &&& other.mask ≠ other.value &&& p.mask ∨
        other.mask = 0xF00F#16 ∧ (other.value = 0x8000#16 ∨ other.value = 0x8001#16)

instance (p : Row String) : (m : Meaning) → Decidable (Encodes p m)
  | .access _ => inferInstanceAs (Decidable (_ ∧ _))
  | .execute _ => inferInstanceAs (Decidable (_ ∧ _))

theorem entries_encode : ∀ x ∈ entries, Encodes x.1 x.2.2 := by
  decide +kernel

/-- Off the stores by two digits the core takes a word for the instruction of
its family. -/
theorem meaning_of_pattern {f : String × Meaning} (hf : f ∈ families)
    (h : decodeFamily instr = some f.1) (hgroup : ¬ StoreGroup instr) : meaningOf instr = f.2 := by
  obtain ⟨p, hp, hname, hentry⟩ := exists_entry hf
  obtain ⟨q, hq, hmatches, hresult⟩ := lookup_some h
  obtain rfl := pattern_unique hq hp (hresult.trans hname.symm)
  have hencodes := entries_encode (q, f) hentry
  cases hmeaning : f.2 with
  | access form =>
    rw [hmeaning] at hencodes
    exact meaningOf_eq_access.mpr (lookup_of_matches hencodes.1 hmatches hencodes.2)
  | execute op =>
    rw [hmeaning] at hencodes
    obtain ⟨⟨hrow, hothers⟩, hdata⟩ := hencodes
    refine meaningOf_eq_execute.mpr ⟨lookup_eq_none.mpr fun other hother => ?_, ?_⟩
    · refine Bool.eq_false_iff.mpr fun hother' => ?_
      rcases hdata other hother with hapart | ⟨hmask, hvalue⟩
      · exact hapart (Row.agree hmatches hother')
      · -- one of the two rows that take the group
        rw [Row.matches, beq_iff_eq, hmask] at hother'
        exact hgroup (hvalue.imp hother'.trans hother'.trans)
    · rw [opcodeOf, lookup_of_matches hrow hmatches hothers]
      rfl

/-- **The core and the table agree.**  No word belongs to two families; the core
takes a cached word for the instruction of a family exactly when it belongs to the
family, and is not one of the group that is taken for stores. -/
theorem meaningOf_iff (instr : Instr) : decodeMatchCount instr ≤ 1 ∧
    ∀ f ∈ families, meaningOf instr = f.2 ↔ decodeFamily instr = some f.1 ∧ ¬ StoreGroup instr := by
  refine ⟨decodeMatchCount_le_one instr, fun f hf => ⟨fun h => ⟨pattern_of_meaning hf h, ?_⟩,
    fun h => meaning_of_pattern hf h.1 h.2⟩⟩
  -- what the group is taken for is no family
  have hnone : ∀ f ∈ families, ∀ n : Fin 16,
      f.2 ≠ .access (byteGroup n) ∧ f.2 ≠ .access (wordGroup n) := by
    decide +kernel
  rintro (hgroup | hgroup)
  · exact (hnone f hf _).1 (h.symm.trans (meaningOf_eq_access.mpr (dataFormOf_byteGroup hgroup).1))
  · exact (hnone f hf _).2 (h.symm.trans (meaningOf_eq_access.mpr (dataFormOf_wordGroup hgroup).1))

end Saturnis.Cpu
