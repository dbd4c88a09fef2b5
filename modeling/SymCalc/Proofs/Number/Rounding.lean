import Mathlib.Data.Rat.Floor
import Mathlib.Data.Sign.Basic
import SymCalc.Proofs.Number.RealArith

/-!
# SymCalc.Proofs.Number.Rounding

Rounding and splitting are exact, whatever the representation.

1. One algorithm serves the four directions: away from whole numbers the step from
   the whole part toward zero leads to the rounding (`RoundMode.roundRat_eq_add_step`);
2. the whole part toward zero is that of the value, also where it is cut off bit by
   bit (`Binary.truncate_eq_roundRat`);
3. both parts of a real have no more bits than the real (`Binary.exists_parts`), so
   that neither the conversion of the whole part nor the difference is rounded
   (`Real256.toRat_ofInt_truncate`, `Real256.toRat_sub_truncate`).

Main statement: `Number.round_and_split_exact`.
-/

namespace SymCalc

namespace RoundMode

/-! ## directions -/

/-- The integer next to a rational in a direction, or the rational itself if it is one. -/
def roundRat (mode : RoundMode) (q : Rat) : Int :=
  match mode with
  | ceil => ⌈q⌉
  | floor => ⌊q⌋
  | inward => if 0 ≤ q then ⌊q⌋ else ⌈q⌉
  | outward => if 0 ≤ q then ⌈q⌉ else ⌊q⌋

@[simp] theorem roundRat_intCast (mode : RoundMode) (n : Int) : mode.roundRat n = n := by
  cases mode <;> simp [roundRat]

/-- Away from whole numbers a direction is one step from the whole part toward zero, or
none. -/
theorem roundRat_eq_add_step (mode : RoundMode) {q : Rat} (h : ¬∃ n : Int, q = n) :
    mode.roundRat q = inward.roundRat q + mode.step (decide (q < 0)) := by
  have hceil : ⌈q⌉ = ⌊q⌋ + 1 := by
    rw [Int.ceil_eq_floor_add_one_iff_notMem]
    rintro ⟨n, hn⟩
    exact h ⟨n, hn.symm⟩
  by_cases hq : 0 ≤ q
  · cases mode <;> simp [roundRat, step, hq, hq.not_gt, hceil]
  · cases mode <;> simp [roundRat, step, hq, not_le.mp hq, hceil]

/-- Rounding towards zero keeps the sign apart. -/
theorem roundRat_inward_neg (q : Rat) : inward.roundRat (-q) = -inward.roundRat q := by
  obtain hq | rfl | hq := lt_trichotomy q 0
  · simp [roundRat, hq.le, hq.not_ge, Int.floor_neg]
  · simp [roundRat]
  · simp [roundRat, hq.le, hq.not_ge, Int.ceil_neg]

/-- Division of integers that rounds toward zero does so. -/
theorem roundRat_inward_div (n : Int) (d : Nat) : inward.roundRat (n / d) = n.tdiv d := by
  have hnonneg : ∀ m : Nat, inward.roundRat ((m : Int) / d) = (m : Int).tdiv d := by
    intro m
    have hle : (0 : Rat) ≤ ((m : Int) : Rat) / d := by positivity
    rw [Int.tdiv_eq_ediv_of_nonneg (Int.natCast_nonneg m), roundRat, if_pos hle,
      Rat.floor_intCast_div_natCast]
  obtain ⟨m, rfl | rfl⟩ := Int.eq_nat_or_neg n
  · exact hnonneg m
  · rw [Int.cast_neg, neg_div, roundRat_inward_neg, hnonneg, Int.neg_tdiv]

/-- Rounding towards zero is the truncating division of integers. -/
theorem roundRat_inward_eq_tdiv (q : Rat) : inward.roundRat q = q.num.tdiv q.den := by
  rw [← roundRat_inward_div, Rat.num_div_den]

/-- What the whole part toward zero leaves of a number is less than one. -/
theorem abs_sub_roundRat_inward_lt (q : Rat) : |q - inward.roundRat q| < 1 := by
  by_cases hq : 0 ≤ q
  · rw [roundRat, if_pos hq, Int.self_sub_floor, Int.abs_fract]
    exact Int.fract_lt_one q
  · rw [roundRat, if_neg hq, abs_sub_lt_iff]
    have hle := Int.le_ceil q
    have hlt := Int.ceil_lt_add_one q
    constructor <;> linarith

/-- What the whole part toward zero leaves of a number is on its side of zero. -/
theorem sign_sub_roundRat_inward (q : Rat) :
    q - inward.roundRat q = 0 ∨
      SignType.sign (q - inward.roundRat q) = SignType.sign q := by
  refine or_iff_not_imp_left.mpr fun hrest => ?_
  by_cases hq : 0 ≤ q
  · have hne : q ≠ 0 := by
      rintro rfl
      simp [roundRat] at hrest
    rw [roundRat, if_pos hq] at hrest ⊢
    rw [sign_pos (lt_of_le_of_ne hq hne.symm),
      sign_pos (lt_of_le_of_ne (sub_nonneg.mpr (Int.floor_le q)) (Ne.symm hrest))]
  · rw [roundRat, if_neg hq] at hrest ⊢
    rw [sign_neg (not_le.mp hq),
      sign_neg (lt_of_le_of_ne (sub_nonpos.mpr (Int.le_ceil q)) hrest)]

end RoundMode

namespace Binary

/-! ## parts of a dyadic number -/

/-- A dyadic number is whole, or an odd number over a power of two. -/
theorem toRat_cases (x : Dyadic) :
    IsWhole x ∨ ∃ (n : Int) (j : Nat) (hn : n % 2 = 1), x = .ofOdd n j hn ∧
      x.toRat = n / (2 ^ j : Nat) := by
  cases x with
  | zero => exact .inl trivial
  | ofOdd n k hn =>
    by_cases hk : k ≤ 0
    · exact .inl hk
    · obtain ⟨j, rfl⟩ := Int.eq_ofNat_of_zero_le (not_le.mp hk).le
      refine .inr ⟨n, j, hn, rfl, ?_⟩
      rw [toRat_ofOdd, zpow_neg, zpow_natCast, Nat.cast_pow, Nat.cast_ofNat, div_eq_mul_inv]

/-- Truncated division, of the magnitude with the sign put back. -/
theorem sign_mul_natAbs_div (n : Int) (d : Nat) : n.sign * (n.natAbs / d : Nat) = n.tdiv d := by
  obtain ⟨m, rfl | rfl⟩ := Int.eq_nat_or_neg n
  · cases m with
    | zero => simp
    | succ m => exact Int.one_mul _
  · cases m with
    | zero => simp
    | succ m => exact Int.neg_one_mul _

/-- Cutting off the bits below the point rounds toward zero. -/
theorem truncate_eq_roundRat (x : Dyadic) : truncate x = RoundMode.inward.roundRat x.toRat := by
  obtain hwhole | ⟨n, j, hn, rfl, hx⟩ := toRat_cases x
  · cases x with
    | zero => simp [truncate, Dyadic.toRat, RoundMode.roundRat]
    | ofOdd n k hn =>
      obtain ⟨j, hj⟩ := Int.eq_ofNat_of_zero_le (Int.neg_nonneg_of_nonpos hwhole)
      obtain rfl : k = -j := by omega
      have hshift : (n.natAbs <<< (- -(j : Int)).toNat >>> (-(j : Int)).toNat : Nat) =
          n.natAbs * 2 ^ j := by
        rw [neg_neg, Int.toNat_natCast, Int.toNat_neg_natCast, Nat.shiftRight_zero,
          Nat.shiftLeft_eq]
      rw [toRat_ofOdd_neg, RoundMode.roundRat_intCast, truncate, hshift, Nat.cast_mul,
        ← mul_assoc, Int.sign_mul_natAbs, Nat.cast_pow, Nat.cast_ofNat]
  · rw [hx, RoundMode.roundRat_inward_div, ← sign_mul_natAbs_div, truncate,
      Int.toNat_neg_natCast, Int.toNat_natCast, Nat.shiftLeft_zero, Nat.shiftRight_eq_div_pow]

/-- Neither the whole part of a number nor what it leaves takes more bits than the
number. -/
theorem exists_parts {bits : Nat} (hbits : 0 < bits) {x : Dyadic} (h : Fits bits x) :
    ∃ y z : Dyadic, Fits bits y ∧ Fits bits z ∧ y.toRat = truncate x ∧
      z.toRat = x.toRat - truncate x := by
  rw [truncate_eq_roundRat]
  obtain hwhole | ⟨n, j, hn, rfl, hx⟩ := toRat_cases x
  · obtain ⟨m, hm⟩ := isWhole_iff.mp hwhole
    refine ⟨x, 0, h, fits_zero bits, ?_, ?_⟩
    · rw [hm, RoundMode.roundRat_intCast]
    · rw [hm, RoundMode.roundRat_intCast, Dyadic.toRat_zero, sub_self]
  · have hn : n.natAbs < 2 ^ bits := h
    have hscale : ((2 ^ j : Nat) : Rat) ≠ 0 := Nat.cast_ne_zero.mpr (by positivity)
    refine ⟨.ofIntWithPrec (n.tdiv (2 ^ j : Nat)) 0, .ofIntWithPrec (n.tmod (2 ^ j : Nat)) j,
      fits_ofIntWithPrec hbits 0 ?_, fits_ofIntWithPrec hbits j ?_, ?_, ?_⟩
    · exact (Int.natAbs_tdiv_le_natAbs _ _).trans hn.le
    · rw [Int.natAbs_tmod]
      exact (Nat.mod_le _ _).trans hn.le
    · rw [Dyadic.toRat_ofIntWithPrec_eq_mul_two_pow, neg_zero, zpow_zero, mul_one, hx,
        RoundMode.roundRat_inward_div]
    · have hmod : (n.tmod (2 ^ j : Nat) : Rat) = n - (2 ^ j : Nat) * n.tdiv (2 ^ j : Nat) := by
        rw [eq_sub_iff_add_eq]
        exact_mod_cast Int.tmod_add_mul_tdiv n (2 ^ j : Nat)
      rw [Dyadic.toRat_ofIntWithPrec_eq_mul_two_pow, hx, RoundMode.roundRat_inward_div, hmod,
        zpow_neg, zpow_natCast, ← Nat.cast_ofNat (R := Rat), ← Nat.cast_pow, ← div_eq_mul_inv,
        sub_div, mul_div_cancel_left₀ _ hscale]

end Binary

namespace Real256

/-! ## parts of a real -/

/-- The whole part of a real is converted to a real without loss. -/
theorem toRat_ofInt_truncate (x : Real256) :
    (ofInt x.truncate).value.toRat = x.truncate := by
  -- the nearest real to a number of so few bits is the number
  obtain ⟨y, -, hy, -, hvalue, -⟩ := Binary.exists_parts (by decide) x.fits
  rw [ofInt_eq_nearest, truncate, ← hvalue]
  exact congrArg (fun z : Real256 => z.value.toRat) (nearest_toRat ⟨y, hy⟩)

/-- What the whole part leaves of a real is not rounded. -/
theorem toRat_sub_truncate (x : Real256) :
    (x - ofInt x.truncate).value.toRat = x.value.toRat - x.truncate := by
  obtain ⟨-, z, -, hz, -, hvalue⟩ := Binary.exists_parts (by decide) x.fits
  change (x + -ofInt x.truncate).value.toRat = _
  rw [add_eq_nearest, toRat_neg, toRat_ofInt_truncate, ← sub_eq_add_neg, truncate, ← hvalue]
  exact congrArg (fun z : Real256 => z.value.toRat) (nearest_toRat ⟨z, hz⟩)

end Real256

namespace Number

/-! ## numbers -/

/-- The exact value of a finite number. -/
def value? : Number → Option Rat
  | .integer n => some n
  | .rational q => some q
  | .real (.finite x) => some x.value.toRat
  | .real (.infinite _) => none

variable {x : Number} {q : Rat}

/-- The whole part is the value rounded towards zero. -/
theorem truncate_of_value (h : x.value? = some q) :
    x.truncate = .ok (RoundMode.inward.roundRat q) := by
  rcases x with n | p | r | s
  · cases h
    rw [RoundMode.roundRat_intCast]
    rfl
  · cases h
    rw [RoundMode.roundRat_inward_eq_tdiv]
    rfl
  · cases h
    exact congrArg Except.ok (Binary.truncate_eq_roundRat r.value)
  · cases h

/-- A number is integral if and only if its value is an integer. -/
theorem isIntegral_iff_of_value (h : x.value? = some q) :
    x.isIntegral = true ↔ ∃ n : Int, q = n := by
  rcases x with n | p | r | s
  · cases h
    exact iff_of_true rfl ⟨n, rfl⟩
  · cases h
    rw [isIntegral, decide_eq_true_iff]
    constructor
    · intro hden
      exact ⟨q.num, ((Rat.den_eq_one_iff q).mp hden).symm⟩
    · rintro ⟨n, rfl⟩
      exact Rat.den_intCast n
  · cases h
    exact decide_eq_true_iff.trans Binary.isWhole_iff
  · cases h

/-- A number is negative if and only if its value is. -/
theorem isNegative_of_value (h : x.value? = some q) : x.isNegative = decide (q < 0) := by
  rw [Bool.eq_iff_iff, decide_eq_true_iff]
  rcases x with n | p | r | s
  · cases h
    simp [isNegative]
  · cases h
    exact decide_eq_true_iff.trans Rat.num_neg
  · cases h
    exact Real256.isNegative_iff
  · cases h

/-- Rounding leads to the integer next to the value in the given direction. -/
theorem round_of_value (h : x.value? = some q) (mode : RoundMode) :
    x.round mode = .ok (.integer (mode.roundRat q)) := by
  rw [round, truncate_of_value h, isNegative_of_value h]
  by_cases hwhole : x.isIntegral = true
  · obtain ⟨n, rfl⟩ := (isIntegral_iff_of_value h).mp hwhole
    simp [hwhole, bind, Except.bind]
  · rw [RoundMode.roundRat_eq_add_step mode (mt (isIntegral_iff_of_value h).mpr hwhole)]
    simp [hwhole, bind, Except.bind]

/-- Taking the whole part from a number leaves the exact rest, in the representation of
the number. -/
theorem sub_whole_of_value (h : x.value? = some q) :
    ∃ f, sub x [.integer (RoundMode.inward.roundRat q)] = .ok f ∧
      f.value? = some (q - RoundMode.inward.roundRat q) ∧ f.isExact = x.isExact := by
  have hsum : ∀ n : Int, sum [.integer n] = .ok (.integer n) := fun n => sum_singleton rfl
  rcases x with n | p | r | s
  · cases h
    refine ⟨.integer (n - RoundMode.inward.roundRat n), ?_, ?_, rfl⟩
    · simp [sub, hsum, OperandPair.unify, bind, Except.bind]
    · rw [value?, Int.cast_sub]
  · cases h
    refine ⟨.rational (q - RoundMode.inward.roundRat q), ?_, rfl, rfl⟩
    simp [sub, hsum, OperandPair.unify, bind, Except.bind]
  · cases h
    refine ⟨.real (.finite (r - Real256.ofInt r.truncate)), ?_, ?_, rfl⟩
    · simp [sub, hsum, OperandPair.unify, finiteReal, Real256.truncate,
        Binary.truncate_eq_roundRat, bind, Except.bind]
    · rw [value?, Real256.toRat_sub_truncate, Real256.truncate, Binary.truncate_eq_roundRat]
  · cases h

/-- **Rounding and splitting are exact.**  A finite number rounds to the integer next to
its value in each of the four directions.  It splits without error into the one toward
zero and a rest below one, which is zero or has the sign of the number and is real if
and only if the number is. -/
theorem round_and_split_exact {x : Number} {q : Rat} (h : x.value? = some q) :
    (∀ mode : RoundMode, x.round mode = .ok (.integer (mode.roundRat q))) ∧
      ∃ (f : Number) (r : Rat),
        x.frac = .ok f ∧ x.split = .ok (.integer (RoundMode.inward.roundRat q), f) ∧
        f.value? = some r ∧ RoundMode.inward.roundRat q + r = q ∧
        |r| < 1 ∧ (r = 0 ∨ SignType.sign r = SignType.sign q) ∧ f.isExact = x.isExact := by
  obtain ⟨f, hsub, hvalue, hexact⟩ := sub_whole_of_value h
  refine ⟨round_of_value h, f, _, ?_, ?_, hvalue, add_sub_cancel _ q,
    RoundMode.abs_sub_roundRat_inward_lt q, RoundMode.sign_sub_roundRat_inward q, hexact⟩
  · rw [frac, round_of_value h]
    exact hsub
  · rw [split, round_of_value h]
    change (sub x [.integer (RoundMode.inward.roundRat q)]).bind _ = _
    rw [hsub]
    rfl

/-- An odd number of 256 bits over two: rounding and splitting see its last bit, the only
one behind the point. -/
theorem round_and_split_exact_half :
    (Number.real (.finite (.ofQuotient (1 - 2 ^ 256) 1 (-1)))).value? =
        some ((1 - 2 ^ 256) / 2) ∧
      (Number.real (.finite (.ofQuotient (1 - 2 ^ 256) 1 (-1)))).round .outward =
        .ok (.integer (-2 ^ 255)) ∧
      ∃ f, (Number.real (.finite (.ofQuotient (1 - 2 ^ 256) 1 (-1)))).split =
          .ok (.integer (1 - 2 ^ 255), f) ∧ f.value? = some (-1 / 2) := by
  have hvalue : (Number.real (.finite (.ofQuotient (1 - 2 ^ 256) 1 (-1)))).value? =
      some ((1 - 2 ^ 256) / 2) := by decide +kernel
  have hout : RoundMode.outward.roundRat ((1 - 2 ^ 256) / 2) = -2 ^ 255 := by
    norm_num [RoundMode.roundRat]
  have hin : RoundMode.inward.roundRat ((1 - 2 ^ 256) / 2) = 1 - 2 ^ 255 := by
    norm_num [RoundMode.roundRat]
  obtain ⟨hround, f, r, -, hsplit, hf, hadd, -⟩ := round_and_split_exact hvalue
  rw [hin] at hsplit hadd
  have hr : r = -1 / 2 := by
    rw [eq_sub_of_add_eq' hadd]
    norm_num
  exact ⟨hvalue, hout ▸ hround .outward, f, hsplit, hr ▸ hf⟩

end Number

end SymCalc
