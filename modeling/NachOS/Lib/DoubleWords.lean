import Mathlib.Data.Nat.Notation
import Mathlib.Tactic.Ring

/-!
# Double words

Arithmetic on numbers that are kept in two words, a high one and a low one: how the carry goes
from the low word to the high one.
-/

namespace DoubleWord

variable {w : ℕ}

/-- A number of two digits below `n * n`, digit by digit. -/
theorem mul_add_mod_mul {n x y : ℕ} (hy : y < n) : (x * n + y) % (n * n) = x % n * n + y := by
  rw [Nat.mod_mul, Nat.mul_comm x n, Nat.mul_add_mod, Nat.mod_eq_of_lt hy,
    Nat.mul_add_div (by omega), Nat.div_eq_of_lt hy, Nat.add_zero]
  ring

theorem toNat_append (hi lo : BitVec w) : (hi ++ lo).toNat = hi.toNat * 2 ^ w + lo.toNat := by
  rw [BitVec.toNat_append, ← Nat.shiftLeft_add_eq_or_of_lt lo.isLt, Nat.shiftLeft_eq]

theorem toNat_one_of_pos (h : 0 < w) : (1 : BitVec w).toNat = 1 := BitVec.toNat_one h

/-- Addition, with the carry found as the low sum below a summand. -/
theorem append_add (hi lo hi' lo' : BitVec w) : (hi ++ lo) + (hi' ++ lo') =
    ((if lo + lo' < lo' then hi + 1 else hi) + hi') ++ (lo + lo') := by
  apply BitVec.eq_of_toNat_eq
  have hlo := lo.isLt
  have hlo' := lo'.isLt
  rw [BitVec.toNat_add, toNat_append, toNat_append, toNat_append, Nat.pow_add]
  by_cases hcarry : lo.toNat + lo'.toNat < 2 ^ w
  · have hsum : (lo + lo').toNat = lo.toNat + lo'.toNat := by
      rw [BitVec.toNat_add, Nat.mod_eq_of_lt hcarry]
    have hno : ¬ lo + lo' < lo' := by
      rw [BitVec.lt_def, hsum]
      omega
    rw [if_neg hno, hsum, BitVec.toNat_add, ← mul_add_mod_mul hcarry]
    congr 1
    ring
  · have hsum : (lo + lo').toNat = lo.toNat + lo'.toNat - 2 ^ w := by
      rw [BitVec.toNat_add, Nat.mod_eq_sub_mod (by omega), Nat.mod_eq_of_lt (by omega)]
    have hyes : lo + lo' < lo' := by
      rw [BitVec.lt_def, hsum]
      omega
    have hhi : ((hi + 1) + hi').toNat = (hi.toNat + hi'.toNat + 1) % 2 ^ w := by
      rw [BitVec.toNat_add, BitVec.toNat_add, Nat.mod_add_mod, Nat.add_right_comm]
      cases w with
      | zero => rw [Nat.pow_zero, Nat.mod_one, Nat.mod_one]
      | succ k => rw [toNat_one_of_pos (by omega)]
    rw [if_pos hyes, hsum, hhi, ← mul_add_mod_mul (by omega)]
    have hexact : lo.toNat + lo'.toNat = lo.toNat + lo'.toNat - 2 ^ w + 2 ^ w := by omega
    congr 1
    calc hi.toNat * 2 ^ w + lo.toNat + (hi'.toNat * 2 ^ w + lo'.toNat)
        = (hi.toNat + hi'.toNat) * 2 ^ w + (lo.toNat + lo'.toNat) := by ring
      _ = (hi.toNat + hi'.toNat) * 2 ^ w + (lo.toNat + lo'.toNat - 2 ^ w + 2 ^ w) := by
        rw [← hexact]
      _ = (hi.toNat + hi'.toNat + 1) * 2 ^ w + (lo.toNat + lo'.toNat - 2 ^ w) := by ring

/-- Doubling moves the sign bit of the low word to the high one. -/
theorem append_shiftLeft_one (hi lo : BitVec w) : (hi ++ lo) <<< 1 =
    (if lo.msb then (hi <<< 1) ||| 1 else hi <<< 1) ++ (lo <<< 1) := by
  apply BitVec.eq_of_getLsbD_eq
  intro i hi'
  rw [BitVec.getLsbD_shiftLeft, BitVec.getLsbD_append, BitVec.getLsbD_append]
  by_cases hlow : i < w
  · have hprev : i - 1 < w := by omega
    rw [if_pos hprev, if_pos hlow, BitVec.getLsbD_shiftLeft]
    simp [hi', hlow]
  · have hpos : ¬ i < 1 := by omega
    rw [if_neg hlow]
    by_cases hfirst : i = w
    · -- the lowest bit of the high word is the sign bit of the low one
      have hprev : i - 1 < w := by omega
      have hzero : i - w = 0 := by omega
      have hwidth : 0 < w := by omega
      have hmsb : lo.getLsbD (i - 1) = lo.msb := by rw [BitVec.msb_eq_getLsbD_last, hfirst]
      rw [if_pos hprev, hmsb, hzero]
      cases lo.msb with
      | true => simp [hi', hpos, hwidth, -Nat.lt_one_iff]
      | false => simp
    · have hprev : ¬ i - 1 < w := by omega
      have hplace : i - 1 - w = i - w - 1 := by omega
      have hin : i - w < w := by omega
      have hone : (1 : BitVec w).getLsbD (i - w) = false := by
        simp
        omega
      have hne : ¬ i - w < 1 := by omega
      have hshift : (hi <<< 1).getLsbD (i - w) = hi.getLsbD (i - w - 1) := by
        rw [BitVec.getLsbD_shiftLeft, decide_eq_true hin, decide_eq_false hne]
        rfl
      rw [if_neg hprev, hplace, decide_eq_true hi', decide_eq_false hpos]
      cases lo.msb with
      | true =>
        rw [if_pos rfl, BitVec.getLsbD_or, hone, hshift, Bool.or_false]
        rfl
      | false =>
        rw [if_neg (by simp), hshift]
        rfl

/-- The two's complement, with the carry found as the low word becoming 0. -/
theorem neg_append (h : 0 < w) (hi lo : BitVec w) : -(hi ++ lo) =
    (if ~~~lo + 1 = 0 then ~~~hi + 1 else ~~~hi) ++ (~~~lo + 1) := by
  have hone : (1 : BitVec (w + w)) = (0 : BitVec w) ++ (1 : BitVec w) := by
    apply BitVec.eq_of_toNat_eq
    rw [toNat_append, toNat_one_of_pos h, toNat_one_of_pos (by omega)]
    exact (congrArg (· + 1) (Nat.zero_mul (2 ^ w))).symm
  have hcarry : ~~~lo + 1 < 1 ↔ ~~~lo + 1 = 0 := BitVec.lt_one_iff h
  have hadd := append_add (~~~hi) (~~~lo) 0 1
  simp only [hcarry] at hadd
  rw [← hone] at hadd
  rw [BitVec.neg_eq_not_add, BitVec.not_append]
  exact hadd.trans (congrArg (· ++ (~~~lo + 1)) (BitVec.add_zero _))

end DoubleWord
