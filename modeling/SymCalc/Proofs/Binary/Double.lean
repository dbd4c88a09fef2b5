import SymCalc.Binary.Double
import SymCalc.Proofs.Binary.Rounding

/-!
# SymCalc.Proofs.Binary.Double

Narrowing a dyadic number to a double, seen from the values.

1. A code is a significand and the place of its last bit, and the double reads both
   back (`toRat_value_ofCode`);
2. from the least normal number up a number of the bits of a double keeps its value
   (`narrow_of_normal`), as long as it is not too large for a double
   (`narrow_of_large`);
3. below it the places of a double are missing, but what is left stays below one
   (`narrow_of_small`).
-/

namespace SymCalc

namespace Double

open Binary

/-! ## codes -/

section codes

variable {negative : Bool} {c m e : Nat}

/-- The bits of a double are its sign above its code. -/
theorem toNat_bits_ofCode (hc : c < 2 ^ 63) :
    (ofCode negative c).bits.toNat = (if negative then 2 ^ 63 else 0) + c := by
  apply UInt64.toNat_ofNat_of_lt'
  change _ < 2 ^ 64
  split <;> omega

/-- A code below the sign is read back. -/
theorem code_ofCode (hc : c < 2 ^ 63) : (ofCode negative c).code = c := by
  rw [code, toNat_bits_ofCode hc]
  split <;> omega

/-- The sign above a code is read back. -/
theorem isNegative_ofCode (hc : c < 2 ^ 63) : (ofCode negative c).isNegative = negative := by
  rw [isNegative, toNat_bits_ofCode hc]
  cases negative
  · simp
    omega
  · simp

/-- A significand and the distance of its place from the least one, read back from
their code.  Only in the least place may the leading bit be missing. -/
theorem toRat_value_ofCode (negative : Bool) (hm : m < 2 ^ 53) (he : e < 2046)
    (h : e = 0 ∨ 2 ^ 52 ≤ m) :
    (ofCode negative (m + e <<< fractionBits)).isFinite = true ∧
      (ofCode negative (m + e <<< fractionBits)).value.toRat =
        (if negative then -(m : Int) else m : Int) * 2 ^ ((e : Int) + leastPlace) := by
  have hshift : m + e <<< fractionBits = m + e * 2 ^ 52 := by rw [Nat.shiftLeft_eq]; rfl
  have hcode : (ofCode negative (m + e <<< fractionBits)).code = m + e * 2 ^ 52 := by
    rw [code_ofCode (by omega), hshift]
  have hsign : (ofCode negative (m + e <<< fractionBits)).isNegative = negative :=
    isNegative_ofCode (by omega)
  have hsignificand : (ofCode negative (m + e <<< fractionBits)).significand = m := by
    rw [significand, hcode, fractionBits]
    split <;> omega
  have hplace : (ofCode negative (m + e <<< fractionBits)).place = e + leastPlace := by
    rw [place, hcode, fractionBits, Nat.shiftRight_eq_div_pow]
    split <;> omega
  constructor
  · have hinfinite : infiniteCode = 2047 * 2 ^ 52 := by decide
    rw [isFinite, hcode, hinfinite, decide_eq_true_iff]
    omega
  · rw [value, hsign, hsignificand, hplace, Dyadic.toRat_ofIntWithPrec_eq_mul_two_pow, neg_neg]

end codes

/-! ## nearest codes -/

section nearest

variable {m : Nat} {scale : Int}

/-- The shift to one leading bit drops all the bits behind it at most. -/
theorem neg_log2_le_quotientShift (m : Nat) : -(m.log2 : Int) ≤ quotientShift 1 m 1 := by
  have hone : Nat.log2 1 = 0 := by decide
  unfold quotientShift
  simp only [hone]
  split <;> omega

/-- The shift of a whole number to one leading bit drops all the bits behind it. -/
theorem quotientShift_one (hm : m ≠ 0) : quotientShift 1 m 1 = -m.log2 := by
  have hle := Nat.log2_self_le hm
  have hone : Nat.log2 1 = 0 := by decide
  unfold quotientShift
  simp [Nat.shiftLeft_eq, hone, hle]

/-- A number of magnitude `2 ^ 1024` or more becomes an infinity. -/
theorem nearestCode_of_large (hm : m ≠ 0) (h : 1024 ≤ m.log2 + scale) :
    nearestCode m 1 scale = infiniteCode := by
  unfold nearestCode
  rw [quotientShift_one hm]
  exact if_pos (by omega)

/-- Shifted to the leading bit of a normal number. -/
theorem shifted_bounds (hm : m ≠ 0) (hlog : m.log2 ≤ 52) :
    2 ^ 52 ≤ m * 2 ^ (52 - m.log2) ∧ m * 2 ^ (52 - m.log2) < 2 ^ 53 := by
  constructor
  · calc 2 ^ 52 = 2 ^ m.log2 * 2 ^ (52 - m.log2) := by rw [← pow_add]; congr 1; omega
      _ ≤ m * 2 ^ (52 - m.log2) := Nat.mul_le_mul_right _ (Nat.log2_self_le hm)
  · calc m * 2 ^ (52 - m.log2) < 2 ^ (m.log2 + 1) * 2 ^ (52 - m.log2) :=
          Nat.mul_lt_mul_of_pos_right Nat.lt_log2_self (Nat.two_pow_pos _)
      _ = 2 ^ 53 := by rw [← pow_add]; congr 1; omega

/-- With a place for each of its bits a number is not rounded. -/
theorem nearestCode_of_normal (hm : m ≠ 0) (hlog : m.log2 ≤ 52) (hlow : -1022 ≤ m.log2 + scale)
    (hhigh : m.log2 + scale < 1024) :
    nearestCode m 1 scale =
      m * 2 ^ (52 - m.log2) + (m.log2 + scale + 1022).toNat <<< fractionBits := by
  have hlt := (shifted_bounds hm hlog).2
  have hplace : max (scale - -(m.log2 : Int) - fractionBits) leastPlace =
      m.log2 + scale - 52 := by
    simp only [fractionBits, leastPlace]
    omega
  unfold nearestCode
  simp only [quotientShift_one hm]
  rw [if_neg (by omega), if_neg (by simp only [leastPlace]; omega), hplace]
  have hup : (scale - (m.log2 + scale - 52)).toNat = 52 - m.log2 := by omega
  have hdown : (-(scale - (m.log2 + scale - 52))).toNat = 0 := by omega
  have hfield : (m.log2 + scale - 52 - leastPlace).toNat = (m.log2 + scale + 1022).toNat := by
    simp only [leastPlace]
    omega
  rw [hup, hdown, hfield, Nat.shiftLeft_zero, nearestEven_one, Nat.shiftLeft_eq m]
  refine min_eq_left ?_
  have hinfinite : infiniteCode = 2047 * 2 ^ 52 := by decide
  rw [hinfinite, Nat.shiftLeft_eq, fractionBits]
  omega

/-- Below the least normal number a code counts least places, and there are not enough
for more than that number. -/
theorem nearestCode_of_small (h : m.log2 + scale < -1022) :
    nearestCode m 1 scale ≤ 2 ^ 52 := by
  have hshift := neg_log2_le_quotientShift m
  have hplace : max (scale - quotientShift 1 m 1 - fractionBits) leastPlace = leastPlace := by
    simp only [fractionBits, leastPlace]
    omega
  unfold nearestCode
  simp only [hplace]
  rw [if_neg (by omega), sub_self, Int.toNat_zero, Nat.zero_shiftLeft, add_zero]
  split
  · exact Nat.zero_le _
  · refine (min_le_left _ _).trans (nearestEven_le ?_)
    rw [Nat.shiftLeft_eq, Nat.shiftLeft_eq, Nat.one_mul, ← pow_add]
    calc m * 2 ^ (scale - leastPlace).toNat
        < 2 ^ (m.log2 + 1) * 2 ^ (scale - leastPlace).toNat :=
          Nat.mul_lt_mul_of_pos_right Nat.lt_log2_self (Nat.two_pow_pos _)
      _ = 2 ^ (m.log2 + 1 + (scale - leastPlace).toNat) := (pow_add _ _ _).symm
      _ ≤ 2 ^ ((-(scale - leastPlace)).toNat + 52) := by
          refine Nat.pow_le_pow_right two_pos ?_
          simp only [leastPlace]
          omega

end nearest

/-! ## narrowing -/

section narrow

variable {x : Dyadic}

/-- Only numbers far below one have bits at a quarter of the last place. -/
theorem quarterPlace_of_lt {m : Nat} {k : Int} (h : k < 1076) : quarterPlace m k = 0 := by
  unfold quarterPlace
  simp only [leastPlace]
  exact if_neg (by omega)

/-- The place of the leading bit grows with the number. -/
theorem log2_le_log2 {m n : Nat} (h : m ≤ n) : m.log2 ≤ n.log2 := by
  rcases Nat.eq_zero_or_pos m with rfl | hm
  · simp
  · exact (Nat.le_log2 (by omega)).mpr ((Nat.log2_self_le hm.ne').trans h)

/-- An integer is its magnitude with its sign, shifted or not. -/
theorem signed_natAbs_mul (n : Int) (j : Nat) :
    (if decide (n < 0) then -((n.natAbs * 2 ^ j : Nat) : Int) else (n.natAbs * 2 ^ j : Nat)) =
      n * 2 ^ j := by
  push_cast
  by_cases h : n < 0
  · simp [h, abs_of_neg h]
  · simp [h, abs_of_nonneg (not_lt.mp h)]

/-- The sign does not change the magnitude. -/
theorem abs_signed (negative : Bool) (c : Nat) :
    |((if negative then -(c : Int) else c : Int) : Rat)| = c := by
  cases negative <;> simp

/-- **A normal number is narrowed by one rounding to its bits.** -/
theorem narrow_of_normal (hlow : -1022 ≤ ilog2 (roundTo precision x))
    (hhigh : ilog2 (roundTo precision x) < 1024) :
    (narrow x).isFinite = true ∧ (narrow x).value = roundTo precision x := by
  have hfits : Fits precision (roundTo precision x) := fits_roundTo (by decide) x
  unfold narrow
  generalize roundTo precision x = y at hlow hhigh hfits
  cases y with
  | zero => decide
  | ofOdd n k hn =>
    have hn0 : n.natAbs ≠ 0 := by omega
    have hlog : n.natAbs.log2 < 53 := (Nat.log2_lt hn0).mpr hfits
    rw [ilog2] at hlow hhigh
    simp only [quarterPlace_of_lt (by omega : k < 1076), Nat.sub_zero]
    rw [nearestCode_of_normal hn0 (by omega) (by omega) (by omega)]
    obtain ⟨hle, hlt⟩ := shifted_bounds hn0 (by omega)
    generalize he : ((n.natAbs.log2 : Int) + -k + 1022).toNat = e
    obtain ⟨hfinite, hvalue⟩ := toRat_value_ofCode (decide (n < 0)) hlt
      (by omega : e < 2046) (.inr hle)
    refine ⟨hfinite, Dyadic.toRat_inj.mp ?_⟩
    have hexponent : ((52 - n.natAbs.log2 : Nat) : Int) + ((e : Int) + leastPlace) = -k := by
      simp only [leastPlace]
      omega
    rw [hvalue, signed_natAbs_mul, toRat_ofOdd, ← hexponent,
      zpow_add₀ two_ne_zero ((52 - n.natAbs.log2 : Nat) : Int), zpow_natCast, Int.cast_mul,
      Int.cast_pow, Int.cast_ofNat, mul_assoc]

/-- Beyond the largest places there is no finite double. -/
theorem narrow_of_large (h : 1024 ≤ ilog2 (roundTo precision x)) :
    (narrow x).isFinite = false := by
  have hfits : Fits precision (roundTo precision x) := fits_roundTo (by decide) x
  unfold narrow
  generalize roundTo precision x = y at h hfits
  cases y with
  | zero => simp [ilog2] at h
  | ofOdd n k hn =>
    have hn0 : n.natAbs ≠ 0 := by omega
    have hlog : n.natAbs.log2 < 53 := (Nat.log2_lt hn0).mpr hfits
    rw [ilog2] at h
    simp only [quarterPlace_of_lt (by omega : k < 1076), Nat.sub_zero]
    rw [nearestCode_of_large hn0 (by omega), isFinite, code_ofCode (by decide)]
    decide

/-- Below the least normal number the double is finite and stays below one. -/
theorem narrow_of_small (h : ilog2 (roundTo precision x) < -1022) :
    (narrow x).isFinite = true ∧ |(narrow x).value.toRat| < 1 := by
  unfold narrow
  generalize roundTo precision x = y at h
  cases y with
  | zero => simp [ilog2] at h
  | ofOdd n k hn =>
    rw [ilog2] at h
    have hlog := log2_le_log2 (Nat.sub_le n.natAbs (quarterPlace n.natAbs k))
    simp only
    generalize n.natAbs - quarterPlace n.natAbs k = m at hlog ⊢
    have hcode : nearestCode m 1 (-k) ≤ 2 ^ 52 := nearestCode_of_small (by omega)
    generalize nearestCode m 1 (-k) = c at hcode ⊢
    obtain ⟨hfinite, hvalue⟩ := toRat_value_ofCode (decide (n < 0))
      (by omega : c < 2 ^ 53) (by decide : 0 < 2046) (.inl rfl)
    rw [Nat.zero_shiftLeft, add_zero] at hfinite hvalue
    refine ⟨hfinite, ?_⟩
    have hpow : (0 : Rat) < 2 ^ (leastPlace : Int) := zpow_pos two_pos _
    rw [hvalue, Nat.cast_zero, zero_add, abs_mul, abs_signed, abs_of_pos hpow]
    calc (c : Rat) * 2 ^ leastPlace ≤ (2 ^ 52 : Nat) * 2 ^ leastPlace := by gcongr
      _ = 2 ^ (52 + leastPlace) := by
          rw [zpow_add₀ two_ne_zero]
          norm_num
      _ < 2 ^ (0 : Int) := zpow_lt_zpow_right₀ one_lt_two (by decide)
      _ = 1 := zpow_zero 2

end narrow

end Double

end SymCalc
