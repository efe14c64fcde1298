import NachOS.Machine.Mips
import NachOS.Lib.DoubleWords
import Mathlib.Data.BitVec
import Mathlib.Tactic.LinearCombination

/-!
# Multiplication

`Mult` adds up shifted copies of one operand, for the bits of the other, in two words with a
carry by hand. The operands are made positive before, and the result negative after, if the
arithmetic is signed.
-/

namespace NachOS

/-! ## The tests on single bits -/

/-- The test of the lowest bit. -/
theorem and_one_ne_zero_iff (x : Word) : x &&& 1 ≠ 0 ↔ x.toNat % 2 = 1 := by
  have hbit : (x &&& 1).toNat = x.toNat % 2 := by
    rw [BitVec.toNat_and]
    exact Nat.and_one_is_mod _
  rw [Ne, ← BitVec.toNat_inj, hbit]
  exact ⟨Nat.mod_two_ne_zero.mp, Nat.mod_two_ne_zero.mpr⟩

/-- The test of the sign bit. -/
theorem and_signBit_ne_zero_iff (x : Word) : x &&& 0x80000000 ≠ 0 ↔ x.msb = true := by
  have htwoPow : (0x80000000 : Word) = BitVec.twoPow 32 31 := rfl
  rw [htwoPow, BitVec.and_twoPow, BitVec.msb_eq_getLsbD_last]
  cases x.getLsbD 31 <;> decide

/-- Nothing above the lowest bit. -/
theorem toNat_lt_two_of_and_eq_zero {x : Word} (h : x &&& 0xfffffffe = 0) : x.toNat < 2 := by
  have hx : x = x &&& 1 := by
    calc x = x &&& (0xfffffffe ||| 1) := (BitVec.and_allOnes).symm
      _ = x &&& 1 := by rw [BitVec.and_or_distrib_left, h]; exact BitVec.zero_or
  rw [hx, BitVec.toNat_and]
  exact Nat.lt_succ_of_le Nat.and_le_right

/-- The shift of an `int` copies the sign into the highest bit. -/
theorem toNat_sshiftRight_one_mod (x : Word) {k : ℕ} (hk : k ≤ 31) :
    (x.sshiftRight 1).toNat % 2 ^ k = x.toNat / 2 % 2 ^ k := by
  apply Nat.eq_of_testBit_eq
  intro i
  rw [Nat.testBit_mod_two_pow, Nat.testBit_mod_two_pow, Nat.testBit_div_two,
    BitVec.testBit_toNat, BitVec.testBit_toNat]
  by_cases hi : i < k
  · rw [BitVec.getLsbD_sshiftRight]
    have hlt : i + 1 < 32 := by omega
    have hge : ¬ 32 ≤ i := by omega
    simp [hlt, hge, Nat.add_comm 1 i]
  · simp [hi]

/-! ## The loop -/

/-- The words `hi` and `lo` as one number of 64 bits. -/
def doubleWord (hi lo : Word) : BitVec 64 := hi ++ lo

/-- Adding the words with a carry adds the double words. -/
theorem doubleWord_add (hi lo hi' lo' : Word) :
    doubleWord ((if lo + lo' < lo' then hi + 1 else hi) + hi') (lo + lo') =
      doubleWord hi lo + doubleWord hi' lo' := (DoubleWord.append_add hi lo hi' lo').symm

/-- The shift of `bHi` and `bLo`. -/
theorem doubleWord_shift (hi lo : Word) :
    doubleWord (if lo &&& 0x80000000 ≠ 0 then (hi <<< 1) ||| 1 else hi <<< 1) (lo <<< 1) =
      2 * doubleWord hi lo := by
  have hdouble : (2 : BitVec 64) * doubleWord hi lo = doubleWord hi lo <<< 1 := by
    rw [BitVec.shiftLeft_eq_mul_twoPow, BitVec.mul_comm]
    rfl
  rw [hdouble, doubleWord, doubleWord, DoubleWord.append_shiftLeft_one]
  simp only [and_signBit_ne_zero_iff]

/-- What the iterations that are left add: the low bits of `a`, times the shifted `b`. -/
theorem multLoop_eq {fuel : ℕ} (hfuel : fuel ≤ 32) (a bHi bLo hi lo : Word) :
    doubleWord (multLoop fuel a bHi bLo hi lo).1 (multLoop fuel a bHi bLo hi lo).2 =
      doubleWord hi lo + BitVec.ofNat 64 (a.toNat % 2 ^ fuel) * doubleWord bHi bLo := by
  induction fuel generalizing a bHi bLo hi lo with
  | zero => simp [multLoop, Nat.mod_one]
  | succ fuel ih =>
    have hsplit : a.toNat % 2 ^ (fuel + 1) =
        a.toNat % 2 + 2 * ((a.sshiftRight 1).toNat % 2 ^ fuel) := by
      rw [toNat_sshiftRight_one_mod a (by omega), Nat.pow_succ', Nat.mod_mul]
    have hnext := ih (by omega) (a.sshiftRight 1)
      (if bLo &&& 0x80000000 ≠ 0 then (bHi <<< 1) ||| 1 else bHi <<< 1) (bLo <<< 1)
    simp only [doubleWord_shift] at hnext
    rw [multLoop]
    dsimp only
    split
    · rename_i hodd
      rw [and_one_ne_zero_iff] at hodd
      split
      · rename_i hrest
        -- the highest bit of `a` has been added
        have hone : a.toNat % 2 ^ (fuel + 1) = 1 := by
          have hlt := toNat_lt_two_of_and_eq_zero hrest
          rw [Nat.mod_eq_of_lt (Nat.lt_of_lt_of_le hlt (Nat.le_self_pow (by omega) 2))]
          omega
        rw [doubleWord_add, hone]
        exact congrArg (doubleWord hi lo + ·) (BitVec.one_mul _).symm
      · rw [hnext, doubleWord_add, hsplit, hodd, BitVec.ofNat_add, BitVec.ofNat_mul]
        generalize BitVec.ofNat 64 ((a.sshiftRight 1).toNat % 2 ^ fuel) = rest
        show _ = doubleWord hi lo + (1 + 2 * rest) * doubleWord bHi bLo
        ring
    · rename_i heven
      rw [and_one_ne_zero_iff, Nat.mod_two_not_eq_one] at heven
      rw [hnext, hsplit, heven, Nat.zero_add, BitVec.ofNat_mul]
      generalize BitVec.ofNat 64 ((a.sshiftRight 1).toNat % 2 ^ fuel) = rest
      show _ = doubleWord hi lo + 2 * rest * doubleWord bHi bLo
      ring

/-! ## The product -/

theorem slt_zero_iff (x : Word) : x.slt 0 = true ↔ x.toInt < 0 := by
  rw [BitVec.slt_iff_toInt_lt]
  rfl

/-- `-x` for a negative `int`: the least one is its own negation, and the bits are right. -/
theorem toNat_magnitude (x : Word) : (if x.slt 0 then -x else x).toNat = x.toInt.natAbs := by
  have hlt := x.isLt
  have hneg := BitVec.toNat_neg x
  have hint := BitVec.toInt_eq_toNat_cond x
  simp only [slt_zero_iff]
  split
  · rw [hneg]
    omega
  · omega

/-- The loop of `Mult` ends with the product of the two words as unsigned numbers. -/
theorem doubleWord_multLoop (a b : Word) :
    doubleWord (multLoop 32 a 0 b 0 0).1 (multLoop 32 a 0 b 0 0).2 =
      BitVec.ofNat 64 (a.toNat * b.toNat) := by
  have hb : doubleWord 0 b = BitVec.ofNat 64 b.toNat := by
    apply BitVec.eq_of_toNat_eq
    rw [doubleWord, DoubleWord.toNat_append, BitVec.toNat_ofNat,
      Nat.mod_eq_of_lt (Nat.lt_trans b.isLt (by decide))]
    exact Nat.zero_add _
  rw [multLoop_eq (Nat.le_refl 32), Nat.mod_eq_of_lt a.isLt, hb, BitVec.ofNat_mul]
  exact BitVec.zero_add _

/-- The carry out of the negated low word negates the double word. -/
theorem doubleWord_negate (hi lo : Word) :
    doubleWord (if ~~~lo + 1 = 0 then ~~~hi + 1 else ~~~hi) (~~~lo + 1) = -doubleWord hi lo :=
  (DoubleWord.neg_append (by decide) hi lo).symm

theorem toInt_ofNat_of_lt {n : ℕ} (h : n < 2 ^ 63) : (BitVec.ofNat 64 n).toInt = n := by
  rw [BitVec.toInt_eq_toNat_cond, BitVec.toNat_ofNat, Nat.mod_eq_of_lt (by omega)]
  exact if_pos (by omega)

theorem toInt_neg_ofNat_of_lt {n : ℕ} (h : n < 2 ^ 63) : (-BitVec.ofNat 64 n).toInt = -n := by
  rw [BitVec.toInt_eq_toNat_cond, BitVec.toNat_neg, BitVec.toNat_ofNat,
    Nat.mod_eq_of_lt (by omega : n < 2 ^ 64)]
  omega

theorem mult_zero {a b : Word} (h : a = 0 ∨ b = 0) (signedArith : Bool) :
    mult a b signedArith = (0, 0) := if_pos h

/-- Without the signs `Mult` gives the product of the unsigned words. -/
theorem mult_unsigned (a b : Word) :
    (doubleWord (mult a b false).1 (mult a b false).2).toNat = a.toNat * b.toNat := by
  by_cases hzero : a = 0 ∨ b = 0
  · rw [mult_zero hzero]
    rcases hzero with rfl | rfl
    · exact (Nat.zero_mul _).symm
    · exact (Nat.mul_zero _).symm
  · have hmult : mult a b false = multLoop 32 a 0 b 0 0 := if_neg hzero
    have hlt : a.toNat * b.toNat < 2 ^ 32 * 2 ^ 32 := Nat.mul_lt_mul'' a.isLt b.isLt
    rw [hmult, doubleWord_multLoop, BitVec.toNat_ofNat]
    exact Nat.mod_eq_of_lt hlt

/-- The product of two least `int`s is the largest. -/
theorem natAbs_product_lt (a b : Word) : (a.toInt * b.toInt).natAbs < 2 ^ 63 := by
  have ha : a.toInt.natAbs ≤ 2 ^ 31 := by
    have hle := BitVec.le_toInt a
    have hlt := BitVec.toInt_lt (x := a)
    omega
  have hb : b.toInt.natAbs ≤ 2 ^ 31 := by
    have hle := BitVec.le_toInt b
    have hlt := BitVec.toInt_lt (x := b)
    omega
  rw [Int.natAbs_mul]
  exact Nat.lt_of_le_of_lt (Nat.mul_le_mul ha hb) (by decide)

/-- Factors of different signs have a product that is not positive. -/
theorem product_nonpos {a b : Word} (h : (a.slt 0 != b.slt 0) = true) :
    a.toInt * b.toInt ≤ 0 := by
  have hne : a.slt 0 ≠ b.slt 0 := by simpa using h
  have hdiffer : ¬ (a.toInt < 0 ↔ b.toInt < 0) := by
    rw [← slt_zero_iff, ← slt_zero_iff, ← Bool.eq_iff_iff]
    exact hne
  by_cases ha : a.toInt < 0
  · exact mul_nonpos_of_nonpos_of_nonneg (by omega) (by omega)
  · exact mul_nonpos_of_nonneg_of_nonpos (by omega) (by omega)

/-- And those of equal signs one that is not negative. -/
theorem product_nonneg {a b : Word} (h : ¬ (a.slt 0 != b.slt 0) = true) :
    0 ≤ a.toInt * b.toInt := by
  have heq : a.slt 0 = b.slt 0 := by simpa using h
  have hsame : a.toInt < 0 ↔ b.toInt < 0 := by
    rw [← slt_zero_iff, ← slt_zero_iff, heq]
  by_cases ha : a.toInt < 0
  · exact mul_nonneg_of_nonpos_of_nonpos (by omega) (by omega)
  · exact mul_nonneg (by omega) (by omega)

/-- With them it gives the product of the signed ones. -/
theorem mult_signed (a b : Word) :
    (doubleWord (mult a b true).1 (mult a b true).2).toInt = a.toInt * b.toInt := by
  by_cases hzero : a = 0 ∨ b = 0
  · rw [mult_zero hzero]
    rcases hzero with rfl | rfl
    · exact (Int.zero_mul _).symm
    · exact (Int.mul_zero _).symm
  · have hproduct := doubleWord_multLoop (if a.slt 0 then -a else a) (if b.slt 0 then -b else b)
    rw [toNat_magnitude, toNat_magnitude, ← Int.natAbs_mul] at hproduct
    have hlt := natAbs_product_lt a b
    simp only [mult, if_neg hzero, Bool.true_and]
    generalize multLoop 32 (if a.slt 0 then -a else a) 0 (if b.slt 0 then -b else b) 0 0 = result
      at hproduct
    by_cases hnegative : (a.slt 0 != b.slt 0) = true
    · have hsign := product_nonpos hnegative
      rw [if_pos hnegative, doubleWord_negate, hproduct, toInt_neg_ofNat_of_lt hlt]
      omega
    · have hsign := product_nonneg hnegative
      rw [if_neg hnegative, hproduct, toInt_ofNat_of_lt hlt]
      omega

/-- What `MULT` and `MULTU` leave in `HI` and `LO`. -/
theorem mult_correct (a b : Word) :
    (doubleWord (mult a b true).1 (mult a b true).2).toInt = a.toInt * b.toInt ∧
      (doubleWord (mult a b false).1 (mult a b false).2).toNat = a.toNat * b.toNat :=
  ⟨mult_signed a b, mult_unsigned a b⟩

end NachOS
