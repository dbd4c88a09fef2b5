import Mathlib.Algebra.Order.Field.Power
import Mathlib.Algebra.Order.Field.Rat
import Mathlib.Order.Compare
import SymCalc.Binary.Scale

/-!
# SymCalc.Proofs.Binary.Order

What is read off the significand and exponent of a dyadic number is right for
its value.

1. `sign` is the sign of the value (`sign_eq_one_iff`, `sign_eq_neg_one_iff`),
   and `ilog2` the exponent of the power of two at or below its magnitude
   (`zpow_ilog2_le`, `lt_zpow_ilog2_add_one`);
2. so are `IsWhole` and `IsOdd` (`isWhole_iff`, `isOdd_iff`);
3. the order decided by signs, leading exponents and a last comparison is the
   order of the values.

Main statement: `order_eq_cmp`.
-/

namespace SymCalc.Binary

/-! ## signs -/

/-- The value of a dyadic number in its normal form. -/
theorem toRat_ofOdd (n k : Int) (hn : n % 2 = 1) :
    (Dyadic.ofOdd n k hn).toRat = n * (2 : Rat) ^ (-k) :=
  Dyadic.toRat_ofOdd_eq_mul_two_pow

/-- The sign is `1` for the positive numbers alone. -/
theorem sign_eq_one_iff {x : Dyadic} : sign x = 1 ↔ 0 < x.toRat := by
  cases x with
  | zero => simp [sign, Dyadic.toRat]
  | ofOdd n k hn =>
    rw [toRat_ofOdd, mul_pos_iff_of_pos_right (zpow_pos two_pos _), Int.cast_pos]
    exact Int.sign_eq_one_iff_pos

/-- The sign is `-1` for the negative numbers alone. -/
theorem sign_eq_neg_one_iff {x : Dyadic} : sign x = -1 ↔ x.toRat < 0 := by
  have h : sign (-x) = 1 ↔ 0 < (-x).toRat := sign_eq_one_iff
  rw [sign_neg, Dyadic.toRat_neg, Left.neg_pos_iff] at h
  rw [← h]
  omega

/-- The three signs, each with what it says about the value. -/
theorem sign_cases (x : Dyadic) :
    sign x = 1 ∧ 0 < x.toRat ∨ sign x = 0 ∧ x.toRat = 0 ∨ sign x = -1 ∧ x.toRat < 0 := by
  have hzero : sign x = 0 ↔ x.toRat = 0 := sign_eq_zero_iff.trans Dyadic.toRat_eq_zero_iff.symm
  rw [sign_eq_one_iff, sign_eq_neg_one_iff, hzero]
  simp only [and_self]
  exact (lt_trichotomy 0 x.toRat).imp_right (.imp_left Eq.symm)

/-! ## whole numbers -/

/-- An odd number shifted to the left is whole, and odd only if it is not shifted. -/
theorem toRat_ofOdd_neg (n : Int) (j : Nat) (hn : n % 2 = 1) :
    (Dyadic.ofOdd n (-j) hn).toRat = (n * 2 ^ j : Int) := by
  rw [toRat_ofOdd, neg_neg, zpow_natCast, Int.cast_mul, Int.cast_pow, Int.cast_ofNat]

/-- A dyadic number is whole if and only if its value is an integer. -/
theorem isWhole_iff {x : Dyadic} : IsWhole x ↔ ∃ m : Int, x.toRat = m := by
  cases x with
  | zero => exact iff_of_true trivial ⟨0, by simp [Dyadic.toRat]⟩
  | ofOdd n k hn =>
    constructor
    · intro h
      obtain ⟨j, hj⟩ := Int.eq_ofNat_of_zero_le (Int.neg_nonneg_of_nonpos h)
      obtain rfl : k = -j := by omega
      exact ⟨_, toRat_ofOdd_neg n j hn⟩
    · rintro ⟨m, hm⟩
      by_contra hk
      have hpos : 0 < k := not_le.mp hk
      obtain ⟨j, rfl⟩ : ∃ j : Nat, k = (j + 1 : Nat) := ⟨k.toNat - 1, by omega⟩
      -- a bit below the point would make the odd number a multiple of two
      have heven : n = 2 * (m * 2 ^ j) := by
        rw [toRat_ofOdd, zpow_neg, zpow_natCast, mul_inv_eq_iff_eq_mul₀ (pow_ne_zero _ two_ne_zero),
          pow_succ', mul_left_comm] at hm
        exact_mod_cast hm
      omega

/-- A dyadic number is odd if and only if its value is an odd integer. -/
theorem isOdd_iff {x : Dyadic} : IsOdd x ↔ ∃ m : Int, x.toRat = m ∧ m % 2 = 1 := by
  cases x with
  | zero =>
    refine iff_of_false id ?_
    rintro ⟨m, hm, hodd⟩
    obtain rfl : m = 0 := by simpa [Dyadic.toRat] using hm.symm
    cases hodd
  | ofOdd n k hn =>
    constructor
    · rintro rfl
      refine ⟨n, ?_, hn⟩
      rw [toRat_ofOdd, neg_zero, zpow_zero, mul_one]
    · rintro ⟨m, hm, hodd⟩
      have hk : k ≤ 0 := isWhole_iff.mpr ⟨m, hm⟩
      obtain ⟨j, hj⟩ := Int.eq_ofNat_of_zero_le (Int.neg_nonneg_of_nonpos hk)
      obtain rfl : k = -j := by omega
      rw [toRat_ofOdd_neg, Rat.intCast_inj] at hm
      cases j with
      | zero => rfl
      | succ j =>
        rw [pow_succ', mul_left_comm] at hm
        omega

/-! ## leading exponents -/

/-- The magnitude of a dyadic number in its normal form. -/
theorem abs_toRat_ofOdd (n k : Int) (hn : n % 2 = 1) :
    |(Dyadic.ofOdd n k hn).toRat| = n.natAbs * (2 : Rat) ^ (-k) := by
  have hscale : (0 : Rat) < 2 ^ (-k) := zpow_pos two_pos _
  rw [toRat_ofOdd, abs_mul, abs_of_pos hscale, Nat.cast_natAbs, Int.cast_abs]

/-- A power of two, split between the significand and its place. -/
theorem zpow_natCast_sub (m : Nat) (k : Int) :
    (2 : Rat) ^ ((m : Int) - k) = (2 ^ m : Nat) * (2 : Rat) ^ (-k) := by
  rw [sub_eq_add_neg, zpow_add₀ two_ne_zero, zpow_natCast, Nat.cast_pow, Nat.cast_ofNat]

/-- The magnitude is the leading bit at least. -/
theorem zpow_ilog2_le {x : Dyadic} (hx : x ≠ 0) : (2 : Rat) ^ ilog2 x ≤ |x.toRat| := by
  cases x with
  | zero => exact absurd rfl hx
  | ofOdd n k hn =>
    have hn0 : n.natAbs ≠ 0 := by omega
    rw [abs_toRat_ofOdd, ilog2, zpow_natCast_sub]
    gcongr
    exact Nat.log2_self_le hn0

/-- The magnitude is below the bit above the leading one. -/
theorem lt_zpow_ilog2_add_one (x : Dyadic) : |x.toRat| < (2 : Rat) ^ (ilog2 x + 1) := by
  cases x with
  | zero => simp [ilog2, Dyadic.toRat]
  | ofOdd n k hn =>
    have hexp : ilog2 (.ofOdd n k hn) + 1 = ((n.natAbs.log2 + 1 : Nat) : Int) - k := by
      simp only [ilog2]
      omega
    rw [abs_toRat_ofOdd, hexp, zpow_natCast_sub]
    gcongr
    exact Nat.lt_log2_self

/-- Of two positive numbers the one with the larger leading exponent is larger. -/
theorem toRat_lt_of_ilog2_lt {x y : Dyadic} (hx : 0 < x.toRat) (hy : 0 < y.toRat)
    (h : ilog2 x < ilog2 y) : x.toRat < y.toRat := by
  have hy0 : y ≠ 0 := by
    rintro rfl
    exact lt_irrefl _ hy
  calc x.toRat = |x.toRat| := (abs_of_pos hx).symm
    _ < 2 ^ (ilog2 x + 1) := lt_zpow_ilog2_add_one x
    _ ≤ 2 ^ ilog2 y := zpow_le_zpow_right₀ one_le_two (Int.add_one_le_iff.mpr h)
    _ ≤ |y.toRat| := zpow_ilog2_le hy0
    _ = y.toRat := abs_of_pos hy

/-! ## order -/

/-- Opposites are ordered the other way round. -/
theorem compares_of_neg {o : Ordering} {a b : Rat} (h : o.Compares (-b) (-a)) :
    o.Compares a b := by
  cases o with
  | lt => exact neg_lt_neg_iff.mp h
  | eq => exact (neg_injective h).symm
  | gt => exact neg_lt_neg_iff.mp h

/-- Positive numbers are compared by their values. -/
theorem orderPositive_compares {x y : Dyadic} (hx : 0 < x.toRat) (hy : 0 < y.toRat) :
    (orderPositive x y).Compares x.toRat y.toRat := by
  unfold orderPositive
  cases h : compare (ilog2 x) (ilog2 y) with
  | lt => exact toRat_lt_of_ilog2_lt hx hy (compare_lt_iff_lt.mp h)
  | gt => exact toRat_lt_of_ilog2_lt hy hx (compare_gt_iff_gt.mp h)
  | eq =>
    by_cases hlt : x < y
    · simp only [if_pos hlt]
      exact Dyadic.toRat_lt_toRat_iff.mpr hlt
    · by_cases hgt : y < x
      · simp only [if_neg hlt, if_pos hgt]
        exact Dyadic.toRat_lt_toRat_iff.mpr hgt
      · simp only [if_neg hlt, if_neg hgt]
        exact congrArg Dyadic.toRat
          (Dyadic.le_antisymm (Dyadic.not_le.mp hgt) (Dyadic.not_le.mp hlt))

/-- Different signs settle the order; equal ones leave two numbers on the same
side of zero, and of negative ones the opposites are compared. -/
theorem order_compares (x y : Dyadic) : (order x y).Compares x.toRat y.toRat := by
  unfold order
  obtain ⟨hsx, hx⟩ | ⟨hsx, hx⟩ | ⟨hsx, hx⟩ := sign_cases x <;>
    obtain ⟨hsy, hy⟩ | ⟨hsy, hy⟩ | ⟨hsy, hy⟩ := sign_cases y <;> rw [hsx, hsy]
  · exact orderPositive_compares hx hy
  · exact hy.trans_lt hx
  · exact hy.trans hx
  · exact hx.trans_lt hy
  · exact hx.trans hy.symm
  · exact hy.trans_eq hx.symm
  · exact hx.trans hy
  · exact hx.trans_eq hy.symm
  · have h : (orderPositive (-y) (-x)).Compares (-y).toRat (-x).toRat :=
      orderPositive_compares (by rwa [Dyadic.toRat_neg, neg_pos])
        (by rwa [Dyadic.toRat_neg, neg_pos])
    rw [Dyadic.toRat_neg, Dyadic.toRat_neg] at h
    exact compares_of_neg h

/-- The order of two dyadic numbers is that of their values. -/
theorem order_eq_cmp (x y : Dyadic) : order x y = cmp x.toRat y.toRat :=
  (order_compares x y).cmp_eq.symm

end SymCalc.Binary
