/-
Multi-precision chains on the SH-2: CLRT, then ADDC, SUBC or NEGC for one limb
after the other.

ADDC adds in 64 bits and keeps every carry.  SUBC and NEGC add T to the
subtrahend in 32 bits first: where the subtrahend is `0xFFFFFFFF` and T is set
the sum wraps to zero and the borrow is lost.

* `executeChain_eq` — a chain of instructions is a chain of its steps;
* `addcStep_sum`, `subcStep_forgetful` — what the steps do to the numbers;
* `clearAndChain_exact` — **which chains are exact**.
-/
import Saturnis.Limbs
import Saturnis.Sh2Program

namespace Saturnis.Cpu

open Saturnis.Core Saturnis.Mem Saturnis.Bus Saturnis.Limbs

/-! ### The program -/

/-- `CLRT` -/
def clrtWord : Instr := 0x0008#16

/-- `ADDC Rm,Rn` -/
def addcWord (m n : Fin 16) : Instr := Instr.onTwo 0x300E#16 n m

/-- `SUBC Rm,Rn` -/
def subcWord (m n : Fin 16) : Instr := Instr.onTwo 0x300A#16 n m

/-- `NEGC Rm,Rn` -/
def negcWord (m n : Fin 16) : Instr := Instr.onTwo 0x600A#16 n m

/-- The limbs of one place, `x` in the register that is written and `y` in the
other operand. -/
structure Limb where
  n : Fin 16
  m : Fin 16
  x : Word
  y : Word
  /-- One register holds one word. -/
  same : n = m → x = y

def Limb.pair (limb : Limb) : Word × Word := (limb.x, limb.y)

/-- The number that words stand for. -/
def number (words : List Word) : Nat := value (2 ^ 32) BitVec.toNat words

namespace SH2Core

/-- The operands are loaded, which keeps T. -/
def load (core : SH2Core) (limb : Limb) : SH2Core :=
  (core.setReg limb.n limb.x).setReg limb.m limb.y

/-- One instruction for each place: the words it leaves and the core. -/
def executeChain (word : Fin 16 → Fin 16 → Instr) (core : SH2Core) (trace : TraceLog) :
    List Limb → List Word × SH2Core
  | [] => ([], core)
  | limb :: limbs =>
    let (core, trace) := (core.load limb).executeInstruction (word limb.m limb.n) trace
    let (words, last) := executeChain word core trace limbs
    (core.r limb.n :: words, last)

end SH2Core

/-! ### The steps -/

def addcStep (x y : Word) (carry : Bool) : Word × Bool :=
  let sum : BitVec 64 := x.setWidth 64 + y.setWidth 64 + (flagWord carry).setWidth 64
  (sum.setWidth 32, sum >>> 32 != 0)

def subcStep (x y : Word) (carry : Bool) : Word × Bool :=
  (x - (y + flagWord carry), decide (x < y + flagWord carry))

/-- NEGC subtracts from zero. -/
def negcStep (_ y : Word) (carry : Bool) : Word × Bool :=
  (0 - (y + flagWord carry), y + flagWord carry != 0)

@[simp] theorem toNat_flagWord (flag : Bool) : (flagWord flag).toNat = flag.toNat := by
  cases flag <;> rfl

theorem addcStep_sum (x y : Word) (carry : Bool) :
    (addcStep x y carry).1.toNat + 2 ^ 32 * (addcStep x y carry).2.toNat =
      x.toNat + y.toNat + carry.toNat := by
  have hx := x.isLt
  have hy := y.isLt
  have hc : carry.toNat ≤ 1 := Bool.toNat_le carry
  have hsum : (x.setWidth 64 + y.setWidth 64 + (flagWord carry).setWidth 64 : BitVec 64).toNat =
      x.toNat + y.toNat + carry.toNat := by
    rw [BitVec.toNat_add, BitVec.toNat_add, BitVec.toNat_setWidth, BitVec.toNat_setWidth,
      BitVec.toNat_setWidth, toNat_flagWord]
    omega
  simp only [addcStep]
  generalize (x.setWidth 64 + y.setWidth 64 + (flagWord carry).setWidth 64 : BitVec 64) = sum at hsum
  have hhigh : (sum >>> 32).toNat = sum.toNat / 2 ^ 32 := by
    rw [BitVec.toNat_ushiftRight, Nat.shiftRight_eq_div_pow]
  have hcarry : (sum >>> 32 != 0).toNat = sum.toNat / 2 ^ 32 := by
    by_cases hzero : sum >>> 32 = 0
    · rw [hzero] at hhigh
      rw [hzero, ← hhigh]
      rfl
    · have hne : (sum >>> 32).toNat ≠ 0 := fun h => hzero (BitVec.eq_of_toNat_eq h)
      rw [bne_iff_ne.mpr hzero, Bool.toNat_true]
      omega
  rw [hcarry, BitVec.toNat_setWidth, hsum]
  exact Nat.mod_add_div _ _

theorem subcStep_forgetful : Forgetful (2 ^ 32) BitVec.toNat subcStep where
  below x y carry := (subcStep x y carry).1.isLt
  exact x y carry hmeet := by
    have hx := x.isLt
    have hy := y.isLt
    have hc : carry.toNat ≤ 1 := Bool.toNat_le carry
    have hrhs : (y + flagWord carry).toNat = y.toNat + carry.toNat := by
      rw [BitVec.toNat_add, toNat_flagWord]
      apply Nat.mod_eq_of_lt
      cases carry with
      | false => simpa using hy
      | true =>
        have hne : y.toNat + 1 ≠ 2 ^ 32 := fun h => hmeet ⟨h, rfl⟩
        rw [Bool.toNat_true]
        omega
    rw [subcStep]
    simp only [BitVec.toNat_sub, BitVec.lt_def, hrhs]
    by_cases hlt : x.toNat < y.toNat + carry.toNat
    · rw [decide_eq_true hlt, Bool.toNat_true, Nat.mod_eq_of_lt (by omega)]
      omega
    · rw [decide_eq_false hlt, Bool.toNat_false, Nat.mod_eq_sub_mod (by omega),
        Nat.mod_eq_of_lt (by omega)]
      omega
  forgets x y hlargest := by
    -- the sum of the subtrahend and T wraps to zero
    have hwrap : y + flagWord true = 0 := by
      apply BitVec.eq_of_toNat_eq
      rw [BitVec.toNat_add, toNat_flagWord, Bool.toNat_true, hlargest]
      rfl
    have hnot : ¬ x < (0 : Word) := Nat.not_lt_zero _
    rw [subcStep, hwrap, decide_eq_false hnot]
    exact Prod.ext (BitVec.sub_zero x) rfl

theorem negcStep_eq (x y : Word) (carry : Bool) : negcStep x y carry = subcStep 0 y carry := by
  refine Prod.ext rfl ?_
  show (y + flagWord carry != 0) = decide ((0 : Word) < y + flagWord carry)
  generalize y + flagWord carry = rhs
  by_cases hzero : rhs = 0
  · rw [hzero]
    rfl
  · have hpos : (0 : Word) < rhs := by
      rw [BitVec.lt_def]
      exact Nat.pos_of_ne_zero fun h => hzero (BitVec.eq_of_toNat_eq h)
    rw [bne_iff_ne.mpr hzero, decide_eq_true hpos]

/-- The instruction of a word reads two registers and T and leaves what the
step makes of them in the first register and in T. -/
structure Computes (word : Fin 16 → Fin 16 → Instr) (step : Word → Word → Bool → Word × Bool)
    (op : RegOp) : Prop where
  decodes : ∀ m n, opcodeOf (word m n) = .reg op
  effect : ∀ m n x, op.effect (word m n) x =
    (x.setTFlag (step (x.r n) (x.r m) x.tFlag).2).writeReg n (step (x.r n) (x.r m) x.tFlag).1

theorem addc_computes : Computes addcWord addcStep .addc where
  decodes m n := opcodeOf_onTwo (by decide) (by decide) (by decide) n m
  effect m n x := by
    show (x.setTFlag (addcStep (x.r (addcWord m n).fieldN) (x.r (addcWord m n).fieldM)
      x.tFlag).2).writeReg (addcWord m n).fieldN _ = _
    rw [addcWord, Instr.fieldN_onTwo (by decide), Instr.fieldM_onTwo (by decide)]
    rfl

theorem subc_computes : Computes subcWord subcStep .subc where
  decodes m n := opcodeOf_onTwo (by decide) (by decide) (by decide) n m
  effect m n x := by
    show (x.setTFlag (subcStep (x.r (subcWord m n).fieldN) (x.r (subcWord m n).fieldM)
      x.tFlag).2).writeReg (subcWord m n).fieldN _ = _
    rw [subcWord, Instr.fieldN_onTwo (by decide), Instr.fieldM_onTwo (by decide)]
    rfl

theorem negc_computes : Computes negcWord negcStep .negc where
  decodes m n := opcodeOf_onTwo (by decide) (by decide) (by decide) n m
  effect m n x := by
    show (x.setTFlag (negcStep (x.r (negcWord m n).fieldN) (x.r (negcWord m n).fieldM)
      x.tFlag).2).writeReg (negcWord m n).fieldN _ = _
    rw [negcWord, Instr.fieldN_onTwo (by decide), Instr.fieldM_onTwo (by decide)]
    rfl

/-! ### Chains -/

namespace SH2Core

variable {core : SH2Core} {word : Fin 16 → Fin 16 → Instr}
  {step : Word → Word → Bool → Word × Bool} {op : RegOp}

theorem load_r_n (core : SH2Core) (limb : Limb) : (core.load limb).r limb.n = limb.x := by
  show Function.update (Function.update core.r limb.n limb.x) limb.m limb.y limb.n = _
  by_cases heq : limb.n = limb.m
  · rw [heq, Function.update_self, limb.same heq]
  · rw [Function.update_of_ne heq, Function.update_self]

theorem load_r_m (core : SH2Core) (limb : Limb) : (core.load limb).r limb.m = limb.y :=
  Function.update_self _ _ _

/-- A chain of instructions is a chain of its steps. -/
theorem executeChain_eq (hcomputes : Computes word step op) (hkept : core.SrKept)
    (trace : TraceLog) (limbs : List Limb) :
    (core.executeChain word trace limbs).1 = (chain step core.tFlag (limbs.map Limb.pair)).1 ∧
      (core.executeChain word trace limbs).2.tFlag =
        (chain step core.tFlag (limbs.map Limb.pair)).2 := by
  induction limbs generalizing core trace with
  | nil => exact ⟨rfl, rfl⟩
  | cons limb limbs ih =>
    have hloaded : (core.load limb).SrKept := hkept
    obtain ⟨⟨pc, hregs⟩, hkept'⟩ := executeInstruction_reg
      (hcomputes.decodes limb.m limb.n) hloaded trace
    rw [hcomputes.effect] at hregs
    simp only [load_r_n, load_r_m] at hregs
    generalize hfirst : (core.load limb).executeInstruction (word limb.m limb.n) trace = first
      at hregs hkept'
    obtain ⟨next, log⟩ := first
    dsimp only at hregs hkept'
    have hout : next.r limb.n = (step limb.x limb.y core.tFlag).1 := by
      have hr := congrFun (congrArg Registers.r hregs) limb.n
      exact hr.trans (Function.update_self _ _ _)
    have hcarry : next.tFlag = (step limb.x limb.y core.tFlag).2 := by
      have hsr := congrArg Registers.sr hregs
      rw [Registers.tFlag_eq, hsr]
      exact (Registers.getLsbD_setTFlag _ _ (by decide)).trans (if_pos rfl)
    obtain ⟨houts, hlast⟩ := ih hkept' log
    simp only [executeChain, hfirst, List.map_cons]
    rw [show limb.pair = (limb.x, limb.y) from rfl, chain_cons, ← hcarry, ← hout]
    exact ⟨congrArg _ houts, hlast⟩

/-! ### Which chains are exact -/

/-- The sum of the numbers, with the carry out of the last place. -/
def AddsExactly (limbs : List Limb) (result : List Word × SH2Core) : Prop :=
  result.1.length = limbs.length ∧
    number result.1 + (2 ^ 32) ^ limbs.length * result.2.tFlag.toNat =
      number (limbs.map Limb.x) + number (limbs.map Limb.y)

/-- The difference modulo the size of the numbers, with the borrow. -/
def SubtractsExactly (limbs : List Limb) (result : List Word × SH2Core) : Prop :=
  number result.1 = (number (limbs.map Limb.x) + ((2 ^ 32) ^ limbs.length -
      number (limbs.map Limb.y))) % (2 ^ 32) ^ limbs.length ∧
    (result.2.tFlag = true ↔ number (limbs.map Limb.x) < number (limbs.map Limb.y))

/-- The negation modulo the size of the number, with the borrow. -/
def NegatesExactly (limbs : List Limb) (result : List Word × SH2Core) : Prop :=
  number result.1 = ((2 ^ 32) ^ limbs.length - number (limbs.map Limb.y)) %
      (2 ^ 32) ^ limbs.length ∧
    (result.2.tFlag = true ↔ number (limbs.map Limb.y) ≠ 0)

/-- Below every `0xFFFFFFFF` of the subtrahend there is nothing to borrow. -/
def SubtrahendFits (limbs : List Limb) : Prop :=
  ∀ below limb above, limbs = below ++ limb :: above → limb.y = 0xFFFFFFFF#32 →
    number (below.map Limb.y) ≤ number (below.map Limb.x)

/-- Below every `0xFFFFFFFF` all limbs are zero. -/
def OnlyZerosBelow (limbs : List Limb) : Prop :=
  ∀ below limb above, limbs = below ++ limb :: above → limb.y = 0xFFFFFFFF#32 →
    ∀ other ∈ below, other.y = 0#32

/-- CLRT, then the chain. -/
def clearAndChain (word : Fin 16 → Fin 16 → Instr) (core : SH2Core) (trace : TraceLog)
    (limbs : List Limb) : List Word × SH2Core :=
  let (core, trace) := core.executeInstruction clrtWord trace
  core.executeChain word trace limbs

theorem clearAndChain_eq (hcomputes : Computes word step op) (hkept : core.SrKept)
    (trace : TraceLog) (limbs : List Limb) :
    (core.clearAndChain word trace limbs).1 = (chain step false (limbs.map Limb.pair)).1 ∧
      (core.clearAndChain word trace limbs).2.tFlag =
        (chain step false (limbs.map Limb.pair)).2 := by
  obtain ⟨⟨pc, hregs⟩, hkept'⟩ :=
    executeInstruction_reg (show opcodeOf clrtWord = .reg .clrt by decide) hkept trace
  have hclear : (core.executeInstruction clrtWord trace).1.tFlag = false := by
    rw [Registers.tFlag_eq, hregs]
    exact (Registers.getLsbD_setTFlag _ _ (by decide)).trans (if_pos rfl)
  have hchain := executeChain_eq hcomputes hkept' (core.executeInstruction clrtWord trace).2 limbs
  rwa [hclear] at hchain

theorem number_lt (words : List Word) : number words < (2 ^ 32) ^ words.length :=
  value_lt (2 ^ 32) BitVec.toNat (by decide) (fun x => x.isLt) words

/-- The difference and the borrow say the same as one equation. -/
theorem difference_iff {x y out size : Nat} {borrow : Bool} (hx : x < size) (hy : y < size)
    (hout : out < size) :
    x + size * borrow.toNat = out + y ↔
      out = (x + (size - y)) % size ∧ (borrow = true ↔ x < y) := by
  have hwrap : (x + (size - y)) % size = if x < y then x + (size - y) else x - y := by
    split
    · exact Nat.mod_eq_of_lt (by omega)
    · rw [Nat.mod_eq_sub_mod (by omega), Nat.mod_eq_of_lt (by omega)]
      omega
  rw [hwrap]
  cases borrow with
  | false =>
    simp only [Bool.toNat_false, Nat.mul_zero, Nat.add_zero, Bool.false_eq_true, false_iff]
    split <;> omega
  | true =>
    simp only [Bool.toNat_true, Nat.mul_one, true_iff]
    split <;> omega

theorem largest_iff (y : Word) : y.toNat + 1 = 2 ^ 32 ↔ y = 0xFFFFFFFF#32 := by
  rw [← BitVec.toNat_inj]
  exact Nat.succ_inj

theorem executeChain_addc (hkept : core.SrKept) (trace : TraceLog) (limbs : List Limb) :
    AddsExactly limbs (core.clearAndChain addcWord trace limbs) := by
  obtain ⟨hout, hcarry⟩ := clearAndChain_eq addc_computes hkept trace limbs
  have hsum := chain_sum addcStep_sum false (limbs.map Limb.pair)
  rw [AddsExactly, hout, hcarry]
  refine ⟨by simp, ?_⟩
  simpa [number, List.map_map, Function.comp_def, Limb.pair] using hsum

/-- A chain of SUBC on minuends that the limbs give. -/
theorem chain_subcStep (minuend : Limb → Word) (limbs : List Limb) {outs : List Word}
    {borrow : Bool}
    (hchain : chain subcStep false (limbs.map fun limb => (minuend limb, limb.y)) =
      (outs, borrow)) :
    (number outs = (number (limbs.map minuend) + ((2 ^ 32) ^ limbs.length -
        number (limbs.map Limb.y))) % (2 ^ 32) ^ limbs.length ∧
      (borrow = true ↔ number (limbs.map minuend) < number (limbs.map Limb.y))) ↔
    ∀ below limb above, limbs = below ++ limb :: above → limb.y = 0xFFFFFFFF#32 →
      number (below.map Limb.y) ≤ number (below.map minuend) := by
  have hdifference := chain_difference (by decide) subcStep_forgetful false
    (limbs.map fun limb => (minuend limb, limb.y))
  have hlen : outs.length = limbs.length := by
    have hlength := @length_chain _ subcStep false
      (limbs.map fun limb => (minuend limb, limb.y))
    rwa [hchain, List.length_map] at hlength
  rw [hchain] at hdifference
  have hx := number_lt (limbs.map minuend)
  have hy := number_lt (limbs.map Limb.y)
  have hout := number_lt outs
  rw [List.length_map] at hx hy
  rw [hlen] at hout
  rw [← difference_iff hx hy hout]
  simp only [Subtracts, BorrowKept, List.map_map, List.length_map, Bool.toNat_false,
    Nat.add_zero] at hdifference
  refine (Iff.trans ?_ hdifference).trans ?_
  · exact Iff.rfl
  · constructor
    · intro hkept below limb above hlimbs hlargest
      have hle := hkept (below.map fun limb => (minuend limb, limb.y)) (minuend limb, limb.y)
        (above.map fun limb => (minuend limb, limb.y)) (by rw [hlimbs]; simp)
        ((largest_iff _).mpr hlargest)
      rwa [List.map_map, List.map_map] at hle
    · intro hfits below pair above hpairs hlargest
      obtain ⟨low, rest, hlimbs, rfl, hrest⟩ := List.map_eq_append_iff.mp hpairs
      obtain ⟨limb, high, rfl, rfl, rfl⟩ := List.map_eq_cons_iff.mp hrest
      rw [List.map_map, List.map_map]
      exact hfits low limb high hlimbs ((largest_iff _).mp hlargest)

theorem executeChain_subc (hkept : core.SrKept) (trace : TraceLog) (limbs : List Limb) :
    SubtractsExactly limbs (core.clearAndChain subcWord trace limbs) ↔ SubtrahendFits limbs := by
  obtain ⟨hout, hborrow⟩ := clearAndChain_eq subc_computes hkept trace limbs
  rw [SubtractsExactly, hout, hborrow]
  exact chain_subcStep Limb.x limbs rfl

/-- A chain of NEGC is a chain of SUBC on minuends that are zero. -/
theorem chain_negcStep (carry : Bool) (limbs : List Limb) :
    chain negcStep carry (limbs.map Limb.pair) =
      chain subcStep carry (limbs.map fun limb => (0, limb.y)) := by
  induction limbs generalizing carry with
  | nil => rfl
  | cons limb limbs ih =>
    rw [List.map_cons, List.map_cons, show limb.pair = (limb.x, limb.y) from rfl, chain_cons,
      chain_cons, negcStep_eq, ih]

theorem number_zeros (limbs : List Limb) : number (limbs.map fun _ => (0 : Word)) = 0 :=
  value_zero _ _ (by simp)

theorem number_eq_zero {words : List Word} : number words = 0 ↔ ∀ word ∈ words, word = 0#32 := by
  constructor
  · intro h
    induction words with
    | nil => simp
    | cons first words ih =>
      rw [number, value_cons] at h
      have hfirst : first.toNat = 0 := by omega
      have hrest : number words = 0 := by
        rw [number]
        omega
      intro word hmem
      rcases List.mem_cons.mp hmem with rfl | hmem
      · exact BitVec.eq_of_toNat_eq hfirst
      · exact ih hrest word hmem
  · intro h
    exact value_zero _ _ fun word hmem => by rw [h word hmem]; rfl

theorem executeChain_negc (hkept : core.SrKept) (trace : TraceLog) (limbs : List Limb) :
    NegatesExactly limbs (core.clearAndChain negcWord trace limbs) ↔ OnlyZerosBelow limbs := by
  obtain ⟨hout, hborrow⟩ := clearAndChain_eq negc_computes hkept trace limbs
  have hzero := chain_subcStep (fun _ => 0) limbs rfl
  simp only [number_zeros, Nat.zero_add, Nat.pos_iff_ne_zero] at hzero
  rw [NegatesExactly, hout, hborrow, chain_negcStep]
  refine hzero.trans ?_
  rw [OnlyZerosBelow]
  simp only [Nat.le_zero, number_eq_zero, List.mem_map, forall_exists_index, and_imp,
    forall_apply_eq_imp_iff₂]

/-- **Chains of ADDC are exact; chains of SUBC and of NEGC are exactly when no
borrow meets a limb `0xFFFFFFFF`.** -/
theorem clearAndChain_exact (hkept : core.SrKept) (trace : TraceLog) (limbs : List Limb) :
    AddsExactly limbs (core.clearAndChain addcWord trace limbs) ∧
      (SubtractsExactly limbs (core.clearAndChain subcWord trace limbs) ↔ SubtrahendFits limbs) ∧
      (NegatesExactly limbs (core.clearAndChain negcWord trace limbs) ↔ OnlyZerosBelow limbs) :=
  ⟨executeChain_addc hkept trace limbs, executeChain_subc hkept trace limbs,
    executeChain_negc hkept trace limbs⟩

/-- Two places, the words of the first in R1 and R2, of the second in R3 and R4. -/
def twoPlaces (x₀ y₀ x₁ y₁ : Word) : List Limb :=
  [⟨1, 2, x₀, y₀, fun h => absurd h (by decide)⟩, ⟨3, 4, x₁, y₁, fun h => absurd h (by decide)⟩]

/-- `0x700000000 - 0x1FFFFFFFF`: the largest limb is in the lowest place. -/
theorem clearAndChain_exact_lowest :
    AddsExactly (twoPlaces 0 0xFFFFFFFF#32 7 1)
        (({} : SH2Core).clearAndChain addcWord {} (twoPlaces 0 0xFFFFFFFF#32 7 1)) ∧
      SubtractsExactly (twoPlaces 0 0xFFFFFFFF#32 7 1)
        (({} : SH2Core).clearAndChain subcWord {} (twoPlaces 0 0xFFFFFFFF#32 7 1)) ∧
      NegatesExactly (twoPlaces 0 0xFFFFFFFF#32 7 1)
        (({} : SH2Core).clearAndChain negcWord {} (twoPlaces 0 0xFFFFFFFF#32 7 1)) := by
  obtain ⟨hadd, hsub, hneg⟩ := @clearAndChain_exact {} (Or.inl rfl) {}
    (twoPlaces 0 0xFFFFFFFF#32 7 1)
  have hlowest : ∀ below limb above, twoPlaces 0 0xFFFFFFFF#32 7 1 = below ++ limb :: above →
      limb.y = 0xFFFFFFFF#32 → below = [] := by
    intro below limb above hlimbs hlargest
    rcases below with _ | ⟨first, _ | ⟨second, below⟩⟩
    · rfl
    · obtain ⟨-, hrest⟩ := List.cons.inj hlimbs
      rw [← (List.cons.inj hrest).1] at hlargest
      exact absurd hlargest (by decide)
    · exact absurd (congrArg List.length hlimbs) (by simp [twoPlaces])
  refine ⟨hadd, hsub.mpr ?_, hneg.mpr ?_⟩
  · intro below limb above hlimbs hlargest
    rw [hlowest below limb above hlimbs hlargest]
    exact Nat.le_refl _
  · intro below limb above hlimbs hlargest other hother
    rw [hlowest below limb above hlimbs hlargest] at hother
    exact absurd hother (by simp)

/-- `0 - 0xFFFFFFFF00000001` ends without a borrow. -/
theorem clearAndChain_exact_lostBorrow :
    ¬ ∀ (core : SH2Core) (trace : TraceLog) (limbs : List Limb), core.SrKept →
      AddsExactly limbs (core.clearAndChain addcWord trace limbs) ∧
        SubtractsExactly limbs (core.clearAndChain subcWord trace limbs) ∧
        NegatesExactly limbs (core.clearAndChain negcWord trace limbs) := by
  intro hexact
  have hsub := (hexact {} {} (twoPlaces 0 1 0 0xFFFFFFFF#32) (Or.inl rfl)).2.1
  have hfits := (@executeChain_subc {} (Or.inl rfl) {} _).mp hsub
  exact absurd (hfits [⟨1, 2, 0, 1, by decide⟩] ⟨3, 4, 0, 0xFFFFFFFF#32, by decide⟩ [] rfl rfl)
    (by decide)

end SH2Core

end Saturnis.Cpu
