import SymCalc.Proofs.Number.Order

/-!
# SymCalc.Proofs.Number.RealArith

Arithmetic of reals: every operation is the exact one, rounded once.

1. Rounding is off by half the last bit at most (`error_nearest_le`), keeps the sign
   (`isNegative_nearest_iff`), and takes opposites to opposites (`nearest_neg`,
   `realOfRat_neg`);
2. a product is the real nearest to the exact one (`mul_eq_nearest`);
3. so is a sum (`add_eq_nearest`), also where the smaller operand is not looked at:
   near the larger one the reals lie too far apart for it (`nearest_add_of_dwarfs`).
-/

namespace SymCalc

namespace Real256

/-! ## rounding -/

/-- The real nearest to an opposite. -/
theorem nearest_neg (q : Rat) : nearest (-q) = -nearest q := by
  apply ext
  rw [value_neg, nearest, nearest, value_ofQuotient (Rat.den_nz _), value_ofQuotient (Rat.den_nz _),
    Rat.neg_num, Rat.neg_den, Binary.roundQuotient_neg]

theorem toRat_neg (x : Real256) : (-x).value.toRat = -x.value.toRat := Dyadic.toRat_neg _

theorem ofInt_neg (n : Int) : ofInt (-n) = -ofInt n := by
  rw [ofInt_eq_nearest, ofInt_eq_nearest, Int.cast_neg, nearest_neg]

/-- A real is negative if and only if its value is. -/
theorem isNegative_iff {x : Real256} : x.isNegative = true ↔ x.value.toRat < 0 := by
  unfold isNegative sign
  rw [decide_eq_true_iff, ← Binary.sign_eq_neg_one_iff]
  rcases Binary.sign_cases x.value with ⟨h, -⟩ | ⟨h, -⟩ | ⟨h, -⟩ <;> rw [h] <;> decide

/-- Rounding to a real keeps numbers below zero there. -/
theorem isNegative_nearest_iff {q : Rat} : (nearest q).isNegative = true ↔ q < 0 := by
  unfold isNegative
  rw [nearest, sign_ofQuotient _ _ (Rat.den_nz q), decide_eq_true_iff, ← Rat.num_neg]
  exact Int.sign_neg_iff

/-- Rounding to a real is off by half the last bit at most. -/
theorem error_nearest_le (q : Rat) :
    |q - (nearest q).value.toRat| * (2 ^ workingPrecision : Nat) ≤ |q| := by
  have h : |(q.num : Rat) / q.den * 2 ^ (0 : Int) - (nearest q).value.toRat| *
      (2 ^ workingPrecision : Nat) ≤ |(q.num : Rat) / q.den * 2 ^ (0 : Int)| := by
    rw [nearest, value_ofQuotient (Rat.den_nz q)]
    exact Binary.error_roundQuotient_le (by decide) (Rat.den_nz q)
  rwa [cast_num_div_den] at h

/-! ## products and sums -/

/-- A dyadic number becomes the real nearest to its value. -/
theorem ofDyadic_eq_nearest (x : Dyadic) : ofDyadic x = nearest x.toRat := by
  by_cases h : Binary.Fits workingPrecision x
  · exact ofDyadic_of_fits h
  · cases x with
    | zero => exact absurd trivial h
    | ofOdd n k hn =>
      have hround : ofDyadic (.ofOdd n k hn) = ofQuotient n 1 (-k) := by
        apply ext
        rw [value_ofQuotient one_ne_zero]
        exact if_neg h
      rw [hround, ofQuotient_eq_nearest one_ne_zero, Binary.toRat_ofOdd, Nat.cast_one, div_one]

/-- A product of reals is rounded once. -/
theorem mul_eq_nearest (x y : Real256) : x * y = nearest (x.value.toRat * y.value.toRat) := by
  rw [← Dyadic.toRat_mul, ← ofDyadic_eq_nearest]
  rfl

/-- Reals from `2 ^ k` on are multiples of the unit that is the last of their bits at
`2 ^ k`. -/
theorem exists_scaled_eq {x : Real256} {k : Int} (h : (2 : Rat) ^ k ≤ |x.value.toRat|) :
    ∃ m : Int, x.value.toRat * 2 ^ (255 - k) = m := by
  have hbits : (0 : Nat) < workingPrecision := by decide
  have hlarge : (2 ^ (workingPrecision - 1) : Nat) ≤ |x.value.toRat| * 2 ^ (255 - k) := by
    calc ((2 ^ (workingPrecision - 1) : Nat) : Rat) = 2 ^ k * 2 ^ (255 - k) := by
          rw [← zpow_add₀ two_ne_zero, add_sub_cancel]
          norm_cast
      _ ≤ |x.value.toRat| * 2 ^ (255 - k) := by gcongr
  -- the sign decides whether the number or its opposite is too large to be other than whole
  rcases abs_cases x.value.toRat with ⟨habs, -⟩ | ⟨habs, -⟩
  · rw [habs] at hlarge
    exact (Binary.scaled_of_fits hbits x.fits _).resolve_right hlarge.not_gt
  · rw [habs, ← toRat_neg] at hlarge
    obtain ⟨m, hm⟩ := (Binary.scaled_of_fits hbits (-x).fits _).resolve_right hlarge.not_gt
    refine ⟨-m, ?_⟩
    rw [Int.cast_neg, ← hm, toRat_neg, neg_mul, neg_neg]

/-- Two such reals that are less than the unit apart are one. -/
theorem eq_of_abs_sub_lt {x y : Real256} {k : Int} (hx : (2 : Rat) ^ k ≤ |x.value.toRat|)
    (hy : (2 : Rat) ^ k ≤ |y.value.toRat|)
    (h : |x.value.toRat - y.value.toRat| < 2 ^ (k - 255)) : x = y := by
  have hscale : (0 : Rat) < 2 ^ (255 - k) := zpow_pos two_pos _
  obtain ⟨m, hm⟩ := exists_scaled_eq hx
  obtain ⟨n, hn⟩ := exists_scaled_eq hy
  have hlt : |((m - n : Int) : Rat)| < 1 := by
    calc |((m - n : Int) : Rat)| = |x.value.toRat - y.value.toRat| * 2 ^ (255 - k) := by
          rw [Int.cast_sub, ← hm, ← hn, ← sub_mul, abs_mul, abs_of_pos hscale]
      _ < 2 ^ (k - 255) * 2 ^ (255 - k) := by gcongr
      _ = 1 := by rw [← zpow_add₀ two_ne_zero, sub_add_sub_cancel, sub_self, zpow_zero]
  rw [← Int.cast_abs, ← Int.cast_one, Int.cast_lt, Int.abs_lt_one_iff] at hlt
  rw [sub_eq_zero.mp hlt, ← hn] at hm
  exact ext (Dyadic.toRat_inj.mp (mul_right_cancel₀ hscale.ne' hm))

/-- The real nearest to a sum is no further from the first operand than twice the second. -/
theorem abs_sub_nearest_add_le (x : Real256) (q : Rat) :
    |x.value.toRat - (nearest (x.value.toRat + q)).value.toRat| ≤ 2 * |q| := by
  have hnearest := abs_sub_nearest_le (x.value.toRat + q) x
  rw [add_sub_cancel_left] at hnearest
  have htriangle := abs_sub_abs_le_abs_sub
    (x.value.toRat - (nearest (x.value.toRat + q)).value.toRat) (-q)
  rw [abs_neg, sub_neg_eq_add, sub_add_eq_add_sub] at htriangle
  linarith

/-- Next to a real that dwarfs it an operand does not count. -/
theorem nearest_add_of_dwarfs {x y : Real256} (h : Dwarfs x.value y.value) :
    nearest (x.value.toRat + y.value.toRat) = x := by
  obtain ⟨hx0, hlog⟩ := h
  have hdist := abs_sub_nearest_add_le x y.value.toRat
  generalize nearest (x.value.toRat + y.value.toRat) = z at hdist ⊢
  generalize hk : Binary.ilog2 x.value - 1 = k
  have hx : (2 : Rat) * 2 ^ k ≤ |x.value.toRat| := by
    rw [← zpow_one_add₀ two_ne_zero, ← hk, add_sub_cancel]
    exact Binary.zpow_ilog2_le hx0
  have hy : 2 * |y.value.toRat| < 2 ^ (k - 255) := by
    have hprecision : (workingPrecision : Int) = 256 := rfl
    calc 2 * |y.value.toRat| < 2 * 2 ^ (Binary.ilog2 y.value + 1) := by
          gcongr
          exact Binary.lt_zpow_ilog2_add_one y.value
      _ = 2 ^ (1 + (Binary.ilog2 y.value + 1)) := (zpow_one_add₀ two_ne_zero _).symm
      _ ≤ 2 ^ (k - 255) := zpow_le_zpow_right₀ one_le_two (by omega)
  have hunit : (2 : Rat) ^ (k - 255) ≤ 2 ^ k := zpow_le_zpow_right₀ one_le_two (by omega)
  have hpos : (0 : Rat) < 2 ^ k := zpow_pos two_pos _
  have hz : (2 : Rat) ^ k ≤ |z.value.toRat| := by
    have htriangle := abs_sub_abs_le_abs_sub x.value.toRat z.value.toRat
    linarith
  exact (eq_of_abs_sub_lt (by linarith) hz (by linarith)).symm

/-- A sum of reals is rounded once. -/
theorem add_eq_nearest (x y : Real256) : x + y = nearest (x.value.toRat + y.value.toRat) := by
  change add x y = _
  unfold add
  split_ifs with hy hx
  · rcases hy with hy | hy
    · rw [hy, Dyadic.toRat_zero, add_zero, nearest_toRat]
    · exact (nearest_add_of_dwarfs hy).symm
  · rcases hx with hx | hx
    · rw [hx, Dyadic.toRat_zero, zero_add, nearest_toRat]
    · rw [add_comm]
      exact (nearest_add_of_dwarfs hx).symm
  · rw [← Dyadic.toRat_add, ← ofDyadic_eq_nearest]

end Real256

namespace Number

theorem realOfRat_neg (q : Rat) : realOfRat (-q) = -realOfRat q := by
  rw [realOfRat, realOfRat, Real256.div_eq_nearest, Real256.div_eq_nearest, Rat.neg_num,
    Rat.neg_den, Real256.ofInt_neg, Real256.toRat_neg, neg_div, Real256.nearest_neg]

end Number

end SymCalc
