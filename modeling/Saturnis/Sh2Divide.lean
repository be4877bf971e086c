/-
The division program of the SH-2: DIV0U, 32 times ROTCL and DIV1, ROTCL.

DIV1 keeps in the Q bit only the borrow or carry of its own subtraction or
addition: the bit it shifts out of the partial remainder is stored there first
and then overwritten.  As long as the quotient bits are ones the core does a
restoring division; after the first zero it adds the divisor back without ever
noticing, and the bits that follow are zeros or wrong.

* `div1_step` — what DIV1 does to the partial remainder and to Q and T;
* `rounds_bits` — the words of the loop turn the bits of the dividend into the
  bits `div1Bits` writes down;
* `div1Bits_restoring`, `div1Bits_borrowed` — when these bits are the bits of
  the quotient;
* `executeAll_divideWords` — **the exact condition under which the program divides**.
-/
import Saturnis.LongDivision
import Saturnis.Sh2Program

namespace Saturnis.Cpu

open Saturnis.Core Saturnis.Mem Saturnis.Bus Saturnis.LongDivision

/-! ### The program -/

/-- `DIV0U` -/
def div0uWord : Instr := 0x0019#16

/-- `ROTCL Rn` -/
def rotclWord (n : Fin 16) : Instr := Instr.onOne 0x4024#16 n

/-- `DIV1 Rm,Rn` -/
def div1Word (m n : Fin 16) : Instr := Instr.onTwo 0x3004#16 n m

/-- The next bit of the dividend, then one step of the division. -/
def divideRounds (hi lo d : Fin 16) : Nat → List Instr
  | 0 => []
  | k + 1 => rotclWord lo :: div1Word d hi :: divideRounds hi lo d k

def divideWords (hi lo d : Fin 16) : List Instr :=
  div0uWord :: (divideRounds hi lo d 32 ++ [rotclWord lo])

theorem opcodeOf_div0u : opcodeOf div0uWord = .reg .div0u := by decide

theorem opcodeOf_rotcl (n : Fin 16) : opcodeOf (rotclWord n) = .reg .rotcl :=
  opcodeOf_onOne (by decide) (by decide) (by decide) n

theorem opcodeOf_div1 (m n : Fin 16) : opcodeOf (div1Word m n) = .reg .div1 :=
  opcodeOf_onTwo (by decide) (by decide) (by decide) n m

/-! ### One step on numbers -/

/-- DIV1 with M clear: the partial remainder and Q after it, when `c` is the
bit that comes in. -/
def div1Step (d hi : Nat) (q c : Bool) : Nat × Bool :=
  let tmp := (2 * hi + c.toNat) % 2 ^ 32
  if q then ((tmp + d) % 2 ^ 32, decide (2 ^ 32 ≤ tmp + d))
  else ((tmp + (2 ^ 32 - d)) % 2 ^ 32, decide (tmp < d))

/-- The bits DIV1 leaves in T. -/
def div1Bits (d : Nat) : Nat → Bool → List Bool → List Bool
  | _, _, [] => []
  | hi, q, c :: bits =>
    (!(div1Step d hi q c).2) :: div1Bits d (div1Step d hi q c).1 (div1Step d hi q c).2 bits

@[simp] theorem length_div1Bits (d hi : Nat) (q : Bool) (bits : List Bool) :
    (div1Bits d hi q bits).length = bits.length := by
  induction bits generalizing hi q with
  | nil => rfl
  | cons c bits ih => rw [div1Bits, List.length_cons, ih, List.length_cons]

/-- After a zero of the quotient the partial remainder is short of the divisor:
it stands for `r` when it holds `r` less the divisor. -/
theorem div1Bits_borrowed {d r hi : Nat} (hd : d < 2 ^ 32) (hr : r < d) (hhi : hi + d = 2 ^ 32 + r)
    (bits : List Bool) :
    div1Bits d hi true bits = quotientBits d r bits ↔
      bits = [] ∨ dividend r bits / 2 + 2 ^ 31 < d := by
  induction bits generalizing r hi with
  | nil => simp [div1Bits, quotientBits]
  | cons c bits ih =>
    have hc : c.toNat ≤ 1 := Bool.toNat_le c
    have hgrow := le_dividend (2 * r + c.toNat) bits
    rw [dividend_cons]
    by_cases hshort : r + 2 ^ 31 < d
    · -- nothing is shifted out and the addition carries: a zero, as it should be
      have hlt : 2 * r + c.toNat < d := by omega
      have hstep : div1Step d hi true c = (2 * hi + c.toNat + d - 2 ^ 32, true) := by
        rw [div1Step, if_pos rfl, Nat.mod_eq_of_lt (show 2 * hi + c.toNat < 2 ^ 32 by omega),
          Nat.mod_eq_sub_mod (by omega), Nat.mod_eq_of_lt (by omega), decide_eq_true (by omega)]
      rw [div1Bits, hstep, quotientBits_of_lt hlt, Bool.not_true, List.cons.injEq,
        ih hlt (by simp only []; omega)]
      simp only [true_and, reduceCtorEq, false_or]
      constructor
      · rintro (rfl | h)
        · simp only [dividend, List.length_nil, Nat.pow_zero, Nat.mul_one, bitValue]
          omega
        · exact h
      · exact Or.inr
    · -- the lost bit is missing: the carry says the opposite of the quotient bit
      have hstep : (div1Step d hi true c).2 = decide (d ≤ 2 * r + c.toNat) := by
        have hwrap : (2 * hi + c.toNat) % 2 ^ 32 = 2 * hi + c.toNat - 2 ^ 32 := by
          rw [Nat.mod_eq_sub_mod (by omega), Nat.mod_eq_of_lt (by omega)]
        rw [div1Step, if_pos rfl, hwrap]
        exact decide_eq_decide.mpr (by omega)
      have hwrong : div1Bits d hi true (c :: bits) ≠ quotientBits d r (c :: bits) := by
        intro heq
        rw [div1Bits, quotientBits] at heq
        split at heq <;> rename_i hle
        · rw [List.cons.injEq, hstep, decide_eq_true hle] at heq
          exact absurd heq.1 (by decide)
        · rw [List.cons.injEq, hstep, decide_eq_false hle] at heq
          exact absurd heq.1 (by decide)
      refine iff_of_false hwrong ?_
      rintro (h | h)
      · exact absurd h (by simp)
      · omega

/-- The quotient is a run of ones and then a run of `i` zeros, and the last
remainder leaves room for them; `total` is the dividend. -/
def DividesFrom (d total n : Nat) : Prop :=
  ∃ i ≤ n, (2 ^ n - 2 ^ i) * d ≤ total ∧ total < (2 ^ n - 2 ^ i + 1) * d ∧
    (i ≤ 1 ∨ (total - (2 ^ n - 2 ^ i) * d) / 2 + 2 ^ 31 < d)

/-- A quotient that begins with a one. -/
theorem dividesFrom_add {d total n : Nat} :
    DividesFrom d (total + 2 ^ n * d) (n + 1) ↔ DividesFrom d total n := by
  have hpow : 2 ^ (n + 1) = 2 ^ n + 2 ^ n := by rw [Nat.pow_succ, Nat.mul_two]
  have hsplit : ∀ i ≤ n, (2 ^ (n + 1) - 2 ^ i) * d = (2 ^ n - 2 ^ i) * d + 2 ^ n * d := by
    intro i hi
    have hle : 2 ^ i ≤ 2 ^ n := Nat.pow_le_pow_right (by decide) hi
    rw [← Nat.add_mul, hpow, Nat.sub_add_comm hle]
  constructor
  · rintro ⟨i, hi, hlow, hhigh, hroom⟩
    have hin : i ≤ n := by
      by_contra hgt
      have hlast : i = n + 1 := by omega
      have hd : d ≤ 2 ^ n * d := Nat.le_mul_of_pos_left d (Nat.two_pow_pos n)
      rw [hlast, Nat.sub_self, Nat.zero_add, Nat.one_mul] at hhigh
      omega
    rw [Nat.add_mul, hsplit i hin] at hhigh
    rw [hsplit i hin] at hlow hroom
    refine ⟨i, hin, by omega, by rw [Nat.add_mul]; omega, ?_⟩
    rwa [Nat.add_sub_add_right] at hroom
  · rintro ⟨i, hi, hlow, hhigh, hroom⟩
    rw [Nat.add_mul] at hhigh
    refine ⟨i, Nat.le_succ_of_le hi, ?_, ?_, ?_⟩
    · rw [hsplit i hi]
      omega
    · rw [Nat.add_mul, hsplit i hi]
      omega
    · rwa [hsplit i hi, Nat.add_sub_add_right]

/-- A quotient that begins with a zero. -/
theorem dividesFrom_lt {d total n : Nat} (h : total < 2 ^ n * d) :
    DividesFrom d total (n + 1) ↔ total < d ∧ (n = 0 ∨ total / 2 + 2 ^ 31 < d) := by
  constructor
  · rintro ⟨i, hi, hlow, hhigh, hroom⟩
    have hlast : i = n + 1 := by
      by_contra hne
      have hle : 2 ^ i ≤ 2 ^ n := Nat.pow_le_pow_right (by decide) (by omega)
      have hmore : 2 ^ n ≤ 2 ^ (n + 1) - 2 ^ i := by rw [Nat.pow_succ]; omega
      have hmul := Nat.mul_le_mul_right d hmore
      omega
    rw [hlast, Nat.sub_self, Nat.zero_add, Nat.one_mul] at hhigh
    rw [hlast, Nat.sub_self, Nat.zero_mul, Nat.sub_zero] at hroom
    exact ⟨hhigh, hroom.imp_left (by omega)⟩
  · rintro ⟨hlt, hroom⟩
    refine ⟨n + 1, Nat.le_refl _, ?_, ?_, ?_⟩
    · rw [Nat.sub_self, Nat.zero_mul]
      exact Nat.zero_le _
    · rwa [Nat.sub_self, Nat.zero_add, Nat.one_mul]
    · rw [Nat.sub_self, Nat.zero_mul, Nat.sub_zero]
      exact hroom.imp_left (by omega)

/-- With Q clear the partial remainder is exact. -/
theorem div1Bits_restoring {d r : Nat} (hd : d < 2 ^ 32) (hr : r < d) (bits : List Bool) :
    div1Bits d r false bits = quotientBits d r bits ↔
      (bits = [] ∨ r < 2 ^ 31) ∧ DividesFrom d (dividend r bits) bits.length := by
  induction bits generalizing r with
  | nil =>
    refine iff_of_true rfl ⟨Or.inl rfl, 0, Nat.le_refl 0, ?_, ?_, Or.inl (Nat.zero_le 1)⟩
    · simp
    · simpa [dividend, bitValue] using hr
  | cons c bits ih =>
    have hc : c.toNat ≤ 1 := Bool.toNat_le c
    rw [dividend_cons, List.length_cons]
    by_cases hsmall : r < 2 ^ 31
    · have hwrap : (2 * r + c.toNat) % 2 ^ 32 = 2 * r + c.toNat := Nat.mod_eq_of_lt (by omega)
      by_cases hle : d ≤ 2 * r + c.toNat
      · have hstep : div1Step d r false c = (2 * r + c.toNat - d, false) := by
          have hsub : (2 * r + c.toNat + (2 ^ 32 - d)) % 2 ^ 32 = 2 * r + c.toNat - d := by
            rw [Nat.mod_eq_sub_mod (by omega), Nat.mod_eq_of_lt (by omega)]
            omega
          rw [div1Step, if_neg Bool.false_ne_true, hwrap, hsub, decide_eq_false (by omega)]
        rw [div1Bits, hstep, quotientBits_of_le hle, Bool.not_false, List.cons.injEq,
          ih (by omega), dividend_sub hle, dividesFrom_add]
        have hnext : 2 * r + c.toNat - d < 2 ^ 31 := by omega
        simp only [hnext, hsmall, or_true, true_and]
      · have hlt : 2 * r + c.toNat < d := Nat.lt_of_not_le hle
        have hstep : div1Step d r false c = (2 * r + c.toNat + (2 ^ 32 - d), true) := by
          rw [div1Step, if_neg Bool.false_ne_true, hwrap,
            Nat.mod_eq_of_lt (show 2 * r + c.toNat + (2 ^ 32 - d) < 2 ^ 32 by omega),
            decide_eq_true hlt]
        rw [div1Bits, hstep, quotientBits_of_lt hlt, Bool.not_true, List.cons.injEq,
          div1Bits_borrowed hd hlt (by simp only []; omega), dividesFrom_lt (dividend_lt hlt bits)]
        simp only [hsmall, or_true, true_and, List.length_eq_zero_iff]
        constructor
        · rintro (rfl | hroom)
          · exact ⟨by simpa [dividend, bitValue] using hlt, Or.inl rfl⟩
          · exact ⟨by omega, Or.inr hroom⟩
        · exact And.right
    · -- the bit shifted out of the partial remainder is lost
      have hle : d ≤ 2 * r + c.toNat := by omega
      have hstep : (div1Step d r false c).2 = true := by
        have hwrap : (2 * r + c.toNat) % 2 ^ 32 = 2 * r + c.toNat - 2 ^ 32 := by
          rw [Nat.mod_eq_sub_mod (by omega), Nat.mod_eq_of_lt (by omega)]
        rw [div1Step, if_neg Bool.false_ne_true, hwrap]
        exact decide_eq_true (by omega)
      refine iff_of_false ?_ ?_
      · intro heq
        rw [div1Bits, quotientBits_of_le hle, List.cons.injEq, hstep] at heq
        exact absurd heq.1 (by decide)
      · rintro ⟨h | h, -⟩
        · exact absurd h (by simp)
        · exact hsmall h

/-! ### The instructions -/

theorem signBit_eq (a : Word) : signBit a = a.getLsbD 31 :=
  Registers.and_bit_ne a (i := 31) (by decide)

/-- A shift that takes in a flag. -/
theorem toNat_shiftIn (a : Word) (flag : Bool) :
    ((a <<< 1) ||| flagWord flag).toNat = (2 * a.toNat + flag.toNat) % 2 ^ 32 := by
  have hshift : (a <<< 1) ||| flagWord flag = a.shiftConcat flag := by
    apply BitVec.eq_of_getLsbD_eq
    intro i hi
    rw [BitVec.getLsbD_or, BitVec.getLsbD_shiftLeft, BitVec.getLsbD_shiftConcat]
    cases flag <;> cases i <;> simp [flagWord, hi]
  rw [hshift, BitVec.toNat_shiftConcat, Nat.shiftLeft_eq, Nat.pow_one, Nat.mul_comm]

/-- The subtraction or addition of DIV1 with M clear. -/
def div1Sum (tmp d : Word) (q : Bool) : Word × Bool :=
  if q then (tmp + d, decide (tmp + d < tmp)) else (tmp - d, decide (tmp - d > tmp))

theorem div1Sum_eq (a d : Word) (q c : Bool) :
    (div1Sum ((a <<< 1) ||| flagWord c) d q).1.toNat = (div1Step d.toNat a.toNat q c).1 ∧
      (div1Sum ((a <<< 1) ||| flagWord c) d q).2 = (div1Step d.toNat a.toNat q c).2 := by
  have hd := d.isLt
  have htmp := toNat_shiftIn a c
  generalize (a <<< 1) ||| flagWord c = tmp at htmp
  have hlt := tmp.isLt
  rw [div1Step, div1Sum, ← htmp]
  cases q with
  | true =>
    have hadd : (tmp + d).toNat = (tmp.toNat + d.toNat) % 2 ^ 32 := BitVec.toNat_add tmp d
    refine ⟨hadd, decide_eq_decide.mpr ?_⟩
    rw [BitVec.lt_def, hadd]
    omega
  | false =>
    have hsub : (tmp - d).toNat = (tmp.toNat + (2 ^ 32 - d.toNat)) % 2 ^ 32 := by
      rw [BitVec.toNat_sub, Nat.add_comm]
    refine ⟨hsub, decide_eq_decide.mpr ?_⟩
    rw [gt_iff_lt, BitVec.lt_def, hsub]
    omega

/-- DIV1 with M clear. -/
theorem Registers.div1_eq (x : Registers) (hm : x.mFlag = false) (n m : Fin 16) :
    x.div1 n m =
      (((x.setQFlag (signBit (x.r n))).setQFlag
        (div1Sum ((x.r n <<< 1) ||| flagWord x.tFlag) (x.r m) x.qFlag).2).setTFlag
        (!(div1Sum ((x.r n <<< 1) ||| flagWord x.tFlag) (x.r m) x.qFlag).2)).writeReg n
        (div1Sum ((x.r n <<< 1) ||| flagWord x.tFlag) (x.r m) x.qFlag).1 := by
  have hq : (x.setQFlag (signBit (x.r n))).tFlag = x.tFlag := by
    rw [tFlag_eq, tFlag_eq, getLsbD_setQFlag _ _ (by decide), if_neg (by decide)]
  rw [div1, hm]
  simp only [setQFlag_r, hq]
  cases hold : x.qFlag <;> simp [div1Sum]

theorem Registers.div1_step (x : Registers) (hm : x.mFlag = false) (n m : Fin 16) :
    (∃ rest : Word, (x.div1 n m).r = Function.update x.r n rest ∧
      rest.toNat = (div1Step (x.r m).toNat (x.r n).toNat x.qFlag x.tFlag).1) ∧
      (x.div1 n m).qFlag = (div1Step (x.r m).toNat (x.r n).toNat x.qFlag x.tFlag).2 ∧
      (x.div1 n m).tFlag = !(div1Step (x.r m).toNat (x.r n).toNat x.qFlag x.tFlag).2 ∧
      (x.div1 n m).mFlag = false := by
  obtain ⟨hrest, hnew⟩ := div1Sum_eq (x.r n) (x.r m) x.qFlag x.tFlag
  rw [div1_eq x hm, hnew]
  refine ⟨⟨_, rfl, hrest⟩, ?_, ?_, ?_⟩
  · rw [qFlag_eq, writeReg_sr, getLsbD_setTFlag _ _ (by decide), if_neg (by decide),
      getLsbD_setQFlag _ _ (by decide), if_pos rfl]
  · rw [tFlag_eq, writeReg_sr, getLsbD_setTFlag _ _ (by decide), if_pos rfl]
  · rw [mFlag_eq, writeReg_sr, getLsbD_setTFlag _ _ (by decide), if_neg (by decide),
      getLsbD_setQFlag _ _ (by decide), if_neg (by decide), getLsbD_setQFlag _ _ (by decide),
      if_neg (by decide), ← mFlag_eq, hm]

/-- ROTCL takes in T at the bottom and puts the highest bit into T. -/
theorem Registers.rotcl_step (x : Registers) {instr : Instr} {n : Fin 16} (hn : instr.fieldN = n) :
    (∃ value : Word, (RegOp.rotcl.effect instr x).r = Function.update x.r n value ∧
      value.toNat = (2 * (x.r n).toNat + x.tFlag.toNat) % 2 ^ 32) ∧
      (RegOp.rotcl.effect instr x).tFlag = (x.r n).toNat.testBit 31 ∧
      (RegOp.rotcl.effect instr x).qFlag = x.qFlag ∧
      (RegOp.rotcl.effect instr x).mFlag = x.mFlag := by
  subst hn
  refine ⟨⟨_, rfl, toNat_shiftIn _ _⟩, ?_, ?_, ?_⟩
  · show (Registers.writeReg _ _ _).tFlag = _
    rw [tFlag_eq, writeReg_sr, getLsbD_setTFlag _ _ (by decide), if_pos rfl, signBit_eq]
    rfl
  · show (Registers.writeReg _ _ _).qFlag = _
    rw [qFlag_eq, writeReg_sr, getLsbD_setTFlag _ _ (by decide), if_neg (by decide), qFlag_eq]
  · show (Registers.writeReg _ _ _).mFlag = _
    rw [mFlag_eq, writeReg_sr, getLsbD_setTFlag _ _ (by decide), if_neg (by decide), mFlag_eq]

namespace SH2Core

variable {core : SH2Core} {hi lo d : Fin 16}

/-- One turn of the loop: the dividend gives its highest bit `c`, takes in the
last bit of the quotient, and DIV1 leaves the next one in T. -/
theorem executeAll_round (hhl : hi ≠ lo) (hhd : hi ≠ d) (hld : lo ≠ d) (hkept : core.SrKept)
    (hm : core.mFlag = false) {c : Bool} {rest : List Bool}
    (hbits : bitsOf 32 (core.r lo).toNat = c :: rest) (trace : TraceLog) :
    ∃ next : SH2Core, ∃ log : TraceLog, (∀ words, core.executeAll trace
        (rotclWord lo :: div1Word d hi :: words) = next.executeAll log words) ∧
      next.SrKept ∧ next.mFlag = false ∧ next.r d = core.r d ∧
      bitsOf 32 (next.r lo).toNat = rest ++ [core.tFlag] ∧
      (next.r hi).toNat = (div1Step (core.r d).toNat (core.r hi).toNat core.qFlag c).1 ∧
      next.qFlag = (div1Step (core.r d).toNat (core.r hi).toNat core.qFlag c).2 ∧
      next.tFlag = !(div1Step (core.r d).toNat (core.r hi).toNat core.qFlag c).2 := by
  obtain ⟨rfl, rfl⟩ : (core.r lo).toNat.testBit 31 = c ∧ bitsOf 31 (core.r lo).toNat = rest :=
    List.cons.inj hbits
  -- ROTCL
  obtain ⟨⟨pc, hregs⟩, hkept₁⟩ := executeInstruction_reg (opcodeOf_rotcl lo) hkept trace
  generalize hfirst : core.executeInstruction (rotclWord lo) trace = first at hregs hkept₁
  obtain ⟨mid, log⟩ := first
  obtain ⟨⟨value, hr, hvalue⟩, ht, hq, hm₁⟩ := core.toRegisters.rotcl_step
    (@Instr.fieldN_onOne 0x4024#16 (by decide) lo)
  have hmidR : mid.r = Function.update core.r lo value := (congrArg Registers.r hregs).trans hr
  have hmidT : mid.tFlag = (core.r lo).toNat.testBit 31 := (congrArg Registers.tFlag hregs).trans ht
  have hmidQ : mid.qFlag = core.qFlag := (congrArg Registers.qFlag hregs).trans hq
  have hmidM : mid.mFlag = false := ((congrArg Registers.mFlag hregs).trans hm₁).trans hm
  have hmidD : mid.r d = core.r d := by rw [hmidR, Function.update_of_ne hld.symm]
  have hmidHi : mid.r hi = core.r hi := by rw [hmidR, Function.update_of_ne hhl]
  -- DIV1
  obtain ⟨⟨pc', hregs'⟩, hkept₂⟩ := executeInstruction_reg (opcodeOf_div1 d hi) hkept₁ log
  generalize hsecond : mid.executeInstruction (div1Word d hi) log = second at hregs' hkept₂
  obtain ⟨next, log'⟩ := second
  obtain ⟨⟨left, hr', hleft⟩, hq', ht', hm'⟩ := mid.toRegisters.div1_step hmidM hi d
  have heffect : RegOp.div1.effect (div1Word d hi) mid.toRegisters = mid.toRegisters.div1 hi d := by
    show mid.toRegisters.div1 (div1Word d hi).fieldN (div1Word d hi).fieldM = _
    rw [div1Word, Instr.fieldN_onTwo (by decide), Instr.fieldM_onTwo (by decide)]
  rw [heffect] at hregs'
  rw [hmidQ, hmidT, hmidD, hmidHi] at hleft hq' ht'
  have hnextR : next.r = Function.update mid.r hi left := (congrArg Registers.r hregs').trans hr'
  refine ⟨next, log', ?_, hkept₂, (congrArg Registers.mFlag hregs').trans hm', ?_, ?_, ?_,
    (congrArg Registers.qFlag hregs').trans hq', (congrArg Registers.tFlag hregs').trans ht'⟩
  · intro words
    simp only [executeAll, hfirst, hsecond]
  · rw [hnextR, Function.update_of_ne hhd.symm, hmidD]
  · rw [hnextR, Function.update_of_ne hhl.symm, hmidR, Function.update_self, hvalue,
      bitsOf_mod (Nat.le_refl 32), bitsOf_shift]
  · rw [hnextR, Function.update_self, hleft]

/-- The loop: the register of the dividend and T hold the bits of the quotient. -/
theorem rounds_bits (hhl : hi ≠ lo) (hhd : hi ≠ d) (hld : lo ≠ d) (bits done : List Bool)
    (hkept : core.SrKept) (hm : core.mFlag = false)
    (hbits : bitsOf 32 (core.r lo).toNat = bits ++ done) (trace : TraceLog) :
    ∃ out : SH2Core, ∃ log : TraceLog, (∀ words, core.executeAll trace
        (divideRounds hi lo d bits.length ++ words) = out.executeAll log words) ∧
      out.SrKept ∧ bitsOf 32 (out.r lo).toNat ++ [out.tFlag] =
        done ++ core.tFlag :: div1Bits (core.r d).toNat (core.r hi).toNat core.qFlag bits := by
  induction bits generalizing core trace done with
  | nil => exact ⟨core, trace, fun words => rfl, hkept, by rw [hbits]; rfl⟩
  | cons c bits ih =>
    obtain ⟨next, log, hrun, hkept', hm', hd, hlo, hhi, hq, ht⟩ :=
      executeAll_round hhl hhd hld hkept hm hbits trace
    obtain ⟨out, log', hrest, hkeptOut, hout⟩ := ih (done ++ [core.tFlag]) hkept' hm'
      (hlo.trans (List.append_assoc _ _ _)) log
    refine ⟨out, log', fun words => (hrun _).trans (hrest words), hkeptOut, ?_⟩
    rw [hout, hd, hhi, hq, ht, List.append_assoc, div1Bits]
    rfl

/-- The program leaves in the register of the dividend the bits that DIV1
wrote down. -/
theorem divideWords_bits (hhl : hi ≠ lo) (hhd : hi ≠ d) (hld : lo ≠ d) (hkept : core.SrKept)
    (trace : TraceLog) :
    bitsOf 32 ((core.executeAll trace (divideWords hi lo d)).1.r lo).toNat =
      div1Bits (core.r d).toNat (core.r hi).toNat false (bitsOf 32 (core.r lo).toNat) := by
  -- DIV0U clears the flags
  obtain ⟨⟨pc, hregs⟩, hkept₁⟩ := executeInstruction_reg opcodeOf_div0u hkept trace
  generalize hfirst : core.executeInstruction div0uWord trace = first at hregs hkept₁
  obtain ⟨start, log⟩ := first
  dsimp only at hregs hkept₁
  have hr : start.r = core.r := (congrArg Registers.r hregs).trans rfl
  have hsr : start.sr = core.sr &&& ~~~(kSrQBit ||| kSrMBit ||| kSrTBit) :=
    (congrArg Registers.sr hregs).trans rfl
  have hq : start.qFlag = false := by
    rw [Registers.qFlag_eq, hsr, BitVec.getLsbD_and, show (~~~(kSrQBit ||| kSrMBit |||
      kSrTBit)).getLsbD 8 = false by decide, Bool.and_false]
  have hm : start.mFlag = false := by
    rw [Registers.mFlag_eq, hsr, BitVec.getLsbD_and, show (~~~(kSrQBit ||| kSrMBit |||
      kSrTBit)).getLsbD 9 = false by decide, Bool.and_false]
  -- the loop
  have hbits : bitsOf 32 (start.r lo).toNat = bitsOf 32 (core.r lo).toNat ++ [] := by
    rw [hr, List.append_nil]
  obtain ⟨out, log', hrun, hkept₂, hout⟩ := rounds_bits hhl hhd hld _ [] hkept₁ hm hbits log
  rw [length_bitsOf] at hrun
  rw [hr, hq, List.nil_append] at hout
  -- the last ROTCL takes in the last bit
  obtain ⟨⟨pc', hregs'⟩, -⟩ := executeInstruction_reg (opcodeOf_rotcl lo) hkept₂ log'
  obtain ⟨⟨value, hr', hvalue⟩, -⟩ := out.toRegisters.rotcl_step
    (@Instr.fieldN_onOne 0x4024#16 (by decide) lo)
  have hall : (core.executeAll trace (divideWords hi lo d)).1 =
      (out.executeInstruction (rotclWord lo) log').1 := by
    simp only [divideWords, executeAll, hfirst, hrun]
  rw [hall, (congrArg Registers.r hregs').trans hr', Function.update_self, hvalue,
    bitsOf_mod (Nat.le_refl 32), bitsOf_shift]
  exact congrArg List.tail hout

/-- **The division program leaves the quotient exactly when** the partial
remainder starts below `2^31`, the quotient is a run of ones followed by zeros
and the remainder leaves room for all zeros but the first. -/
theorem executeAll_divideWords (hhl : hi ≠ lo) (hhd : hi ≠ d) (hld : lo ≠ d)
    (hkept : core.SrKept) (hdividend : core.r hi < core.r d) (trace : TraceLog) :
    ((core.executeAll trace (divideWords hi lo d)).1.r lo).toNat =
        ((core.r hi).toNat * 2 ^ 32 + (core.r lo).toNat) / (core.r d).toNat ↔
      (core.r hi).toNat < 2 ^ 31 ∧
        DividesFrom (core.r d).toNat ((core.r hi).toNat * 2 ^ 32 + (core.r lo).toNat) 32 := by
  have hquotient := divideWords_bits hhl hhd hld hkept trace
  generalize (core.executeAll trace (divideWords hi lo d)).1.r lo = value at hquotient
  have hlt : (core.r hi).toNat < (core.r d).toNat := hdividend
  have htotal : dividend (core.r hi).toNat (bitsOf 32 (core.r lo).toNat) =
      (core.r hi).toNat * 2 ^ 32 + (core.r lo).toNat := by
    rw [dividend, length_bitsOf, bitValue_bitsOf, Nat.mod_eq_of_lt (core.r lo).isLt]
  have hvalue : value.toNat = bitValue (div1Bits (core.r d).toNat (core.r hi).toNat false
      (bitsOf 32 (core.r lo).toNat)) := by
    rw [← hquotient, bitValue_bitsOf, Nat.mod_eq_of_lt value.isLt]
  have hrestoring := div1Bits_restoring (core.r d).isLt hlt (bitsOf 32 (core.r lo).toNat)
  rw [htotal, length_bitsOf] at hrestoring
  rw [hvalue, ← htotal, ← bitValue_quotientBits hlt, htotal]
  constructor
  · intro heq
    have hsame := hrestoring.mp (bitValue_inj (by simp) heq)
    exact ⟨hsame.1.resolve_left (by simp [bitsOf]), hsame.2⟩
  · rintro ⟨hsmall, hdivides⟩
    rw [hrestoring.mpr ⟨Or.inr hsmall, hdivides⟩]

/-- A core with the dividend in R1 and R2 and the divisor in R3. -/
def dividing (hi lo d : Word) : SH2Core :=
  ((({} : SH2Core).setReg 1 hi).setReg 2 lo).setReg 3 d

/-- `5 / 0xFFFFFFFF` is done right. -/
theorem executeAll_divideWords_fiveByLargest :
    (((dividing 0 5 0xFFFFFFFF#32).executeAll {} (divideWords 1 2 3)).1.r 2).toNat = 0 :=
  (@executeAll_divideWords (dividing 0 5 0xFFFFFFFF#32) 1 2 3 (by decide) (by decide) (by decide)
    (Or.inl rfl) (by decide) {}).mpr
    ⟨by decide, 32, by decide, by decide, by decide, by decide⟩

/-- `6 / 3` is not. -/
theorem executeAll_divideWords_sixByThree :
    ¬ ∀ (core : SH2Core) (trace : TraceLog) (hi lo d : Fin 16), hi ≠ lo → hi ≠ d → lo ≠ d →
      core.SrKept → core.r d ≠ 0#32 → core.r hi < core.r d →
        ((core.executeAll trace (divideWords hi lo d)).1.r lo).toNat =
          ((core.r hi).toNat * 2 ^ 32 + (core.r lo).toNat) / (core.r d).toNat := by
  intro hdivides
  have htwo := hdivides (dividing 0 6 3) {} 1 2 3 (by decide) (by decide) (by decide) (Or.inl rfl)
    (by decide) (by decide)
  have hbits := @divideWords_bits (dividing 0 6 3) 1 2 3 (by decide) (by decide)
    (by decide) (Or.inl rfl) {}
  rw [htwo] at hbits
  revert hbits
  decide

end SH2Core

end Saturnis.Cpu
