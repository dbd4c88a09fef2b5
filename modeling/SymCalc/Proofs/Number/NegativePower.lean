import Mathlib.Algebra.Order.Ring.Int
import Mathlib.Algebra.Order.Field.Power
import SymCalc.Proofs.Number.Arith
import SymCalc.Proofs.Number.IntegerPower
import SymCalc.Real256.Series

/-!
# SymCalc.Proofs.Number.NegativePower

Powers of a base below zero, whose sign is decided by the parity of the exponent.

1. Among integers the exponent is taken as it stands, and its parity decides the sign of the
   exact power (`isNegative_powInt_iff`);
2. any other exponent is converted to a real first.  Integers of more bits than a real has
   become even (`exists_even_ofInt`); below that the parity is kept, and what is not whole
   stays so (`isWhole_realOfRat_eq_false`).

Main statement: `pow_negative_base`.
-/

namespace SymCalc.Number

/-! ## converted integers -/

/-- The integers up to `2 ^ 256` are reals as they are. -/
theorem fits_ofInt_of_le {n : Int} (h : n.natAbs ≤ 2 ^ workingPrecision) :
    Binary.Fits workingPrecision (.ofInt n) :=
  Binary.fits_ofIntWithPrec (by decide) 0 h

/-- A converted integer has no fewer bits than a real if the integer has not. -/
theorem le_abs_ofInt {n : Int} (h : 2 ^ workingPrecision ≤ n.natAbs) :
    (2 ^ workingPrecision : Nat) ≤ |(Real256.ofInt n).value.toRat| := by
  have hlimit : Binary.Fits workingPrecision (.ofInt (2 ^ workingPrecision : Nat)) :=
    fits_ofInt_of_le le_rfl
  have hnat : ∀ k : Nat, 2 ^ workingPrecision ≤ k →
      (2 ^ workingPrecision : Nat) ≤ |(Real256.ofInt k).value.toRat| := by
    intro k hk
    calc ((2 ^ workingPrecision : Nat) : Rat)
        = (Real256.ofInt (2 ^ workingPrecision : Nat)).value.toRat := by
          rw [toRat_ofInt_of_fits hlimit, Int.cast_natCast]
      _ ≤ (Real256.ofInt k).value.toRat := by
          rw [Real256.ofInt_eq_nearest, Real256.ofInt_eq_nearest]
          exact Real256.nearest_mono (by exact_mod_cast hk)
      _ ≤ |(Real256.ofInt k).value.toRat| := le_abs_self _
  obtain ⟨k, rfl | rfl⟩ := n.eq_nat_or_neg
  · exact hnat k (by simpa using h)
  · rw [Real256.ofInt_neg, Real256.toRat_neg, abs_neg]
    exact hnat k (by simpa using h)

/-- Integers of more bits than a real has are rounded to even ones of no fewer bits. -/
theorem exists_even_ofInt {n : Int} (h : 2 ^ workingPrecision ≤ n.natAbs) :
    ∃ m : Int, (Real256.ofInt n).value.toRat = m ∧ m % 2 = 0 ∧
      2 ^ workingPrecision ≤ m.natAbs := by
  have habs := le_abs_ofInt h
  have hzpow : (2 : Rat) ^ (256 : Int) ≤ |(Real256.ofInt n).value.toRat| := by
    refine le_trans (le_of_eq ?_) habs
    norm_cast
  -- the unit that is the last bit of a real at `2 ^ 256` is two
  obtain ⟨m, hm⟩ := Real256.exists_scaled_eq hzpow
  have hunit : (2 : Rat) ^ (255 - 256 : Int) = 2⁻¹ := by norm_num
  have hvalue : (Real256.ofInt n).value.toRat = (2 * m : Int) := by
    rw [Int.cast_mul, ← hm, hunit, Int.cast_ofNat, mul_left_comm, mul_inv_cancel₀ two_ne_zero,
      mul_one]
  refine ⟨2 * m, hvalue, Int.mul_emod_right 2 m, ?_⟩
  rw [hvalue, ← Int.cast_abs, ← Nat.cast_natAbs] at habs
  exact_mod_cast habs

/-- A converted integer is an integer: the same one, or one of more bits than a real has. -/
theorem exists_eq_ofInt (n : Int) :
    ∃ m : Int, (Real256.ofInt n).value.toRat = m ∧ (m = n ∨ 2 ^ workingPrecision ≤ m.natAbs) := by
  rcases lt_or_ge n.natAbs (2 ^ workingPrecision) with h | h
  · exact ⟨n, toRat_ofInt_of_fits (fits_ofInt_of_le h.le), .inl rfl⟩
  · obtain ⟨m, hm, -, hlarge⟩ := exists_even_ofInt h
    exact ⟨m, hm, .inr hlarge⟩

/-- A converted integer is odd if the integer is, and has no more bits than a real. -/
theorem isOdd_ofInt_iff (n : Int) :
    (Real256.ofInt n).isOdd = true ↔ Odd n ∧ n.natAbs < 2 ^ workingPrecision := by
  rw [Real256.isOdd, decide_eq_true_iff, Binary.isOdd_iff, Int.odd_iff]
  rcases lt_or_ge n.natAbs (2 ^ workingPrecision) with h | h
  · rw [toRat_ofInt_of_fits (fits_ofInt_of_le h.le), and_iff_left h]
    constructor
    · rintro ⟨m, hm, hodd⟩
      rwa [Int.cast_injective hm]
    · exact fun hodd => ⟨n, rfl, hodd⟩
  · obtain ⟨m, hm, heven, -⟩ := exists_even_ofInt h
    refine iff_of_false ?_ fun hodd => absurd h (not_le.mpr hodd.2)
    rintro ⟨k, hk, hodd⟩
    obtain rfl : m = k := Int.cast_injective (hm.symm.trans hk)
    omega

/-! ## converted rationals -/

/-- A rational is converted with three roundings, of its numerator, its denominator and
their quotient. -/
theorem realOfRat_eq_nearest (q : Rat) : realOfRat q =
    .nearest ((Real256.ofInt q.num).value.toRat / (Real256.ofInt q.den).value.toRat) :=
  Real256.div_eq_nearest _ _

/-- A quotient that is close enough to a whole number, for the size of its numerator, is
that number. -/
theorem eq_mul_of_error_le {a d m : Int} {limit : Nat} (hd : d ≠ 0) (ha : a.natAbs < limit)
    (h : |(a : Rat) / d - m| * limit ≤ |(a : Rat) / d|) : a = m * d := by
  have hd' : (d : Rat) ≠ 0 := Int.cast_ne_zero.mpr hd
  have hscaled : |(a : Rat) - m * d| * limit ≤ |(a : Rat)| := by
    calc |(a : Rat) - m * d| * limit = |(a : Rat) / d - m| * limit * |(d : Rat)| := by
          rw [mul_right_comm, ← abs_mul, sub_mul, div_mul_cancel₀ _ hd']
      _ ≤ |(a : Rat) / d| * |(d : Rat)| := by gcongr
      _ = |(a : Rat)| := by rw [← abs_mul, div_mul_cancel₀ _ hd']
  have hscaled' : |a - m * d| * limit ≤ |a| := by exact_mod_cast hscaled
  by_contra hne
  have hone : 1 ≤ |a - m * d| := Int.one_le_abs (sub_ne_zero.mpr hne)
  have hlimit : (limit : Int) ≤ |a| := by
    calc (limit : Int) = 1 * limit := (one_mul _).symm
      _ ≤ |a - m * d| * limit := by gcongr
      _ ≤ |a| := hscaled'
  rw [Int.abs_eq_natAbs, Nat.cast_le] at hlimit
  exact absurd ha (not_lt.mpr hlimit)

/-- A rational that is not whole is not rounded to a whole number, unless its numerator
has more bits than a real. -/
theorem isWhole_realOfRat_eq_false {q : Rat} (hden : q.den ≠ 1)
    (hnum : q.num.natAbs < 2 ^ workingPrecision) : (realOfRat q).isWhole = false := by
  obtain ⟨d, hd, hdcases⟩ := exists_eq_ofInt q.den
  by_contra hwhole
  obtain ⟨m, hm⟩ : ∃ m : Int, (realOfRat q).value.toRat = m := by
    rw [← Binary.isWhole_iff]
    simpa [Real256.isWhole] using hwhole
  have hd0 : d ≠ 0 := by
    rintro rfl
    rcases hdcases with h | h
    · exact q.den_nz (Int.natCast_eq_zero.mp h.symm)
    · exact absurd h (by decide)
  -- the numerator is less than one away from a multiple of the denominator
  have heq : q.num = m * d := by
    have herror := Real256.error_nearest_le ((q.num : Rat) / d)
    rw [realOfRat_eq_nearest, toRat_ofInt_of_fits (fits_ofInt_of_le hnum.le), hd] at hm
    rw [hm] at herror
    exact eq_mul_of_error_le hd0 hnum herror
  have hdvd : (q.den : Int) ∣ q.num := by
    rcases hdcases with rfl | hlarge
    · exact ⟨m, by rw [heq, mul_comm]⟩
    · have hm0 : m = 0 := by
        by_contra hm0
        rw [heq, Int.natAbs_mul] at hnum
        have hle := Nat.le_mul_of_pos_left d.natAbs (Int.natAbs_pos.mpr hm0)
        exact absurd hnum (not_lt.mpr (hlarge.trans hle))
      rw [heq, hm0, zero_mul]
      exact dvd_zero _
  exact hden (q.reduced.symm.eq_one_of_dvd (Int.natCast_dvd.mp hdvd))

/-- A rational below zero is converted to a real below zero. -/
theorem isNegative_realOfRat {q : Rat} (h : q < 0) : (realOfRat q).isNegative = true := by
  have hnum : (Real256.ofInt q.num).value.toRat < 0 := by
    rw [← Real256.isNegative_iff, Real256.ofInt_eq_nearest, Real256.isNegative_nearest_iff]
    exact Int.cast_lt_zero.mpr (Rat.num_neg.mpr h)
  have hden : 0 < (Real256.ofInt q.den).value.toRat := by
    rw [← neg_lt_zero, ← Real256.toRat_neg, ← Real256.ofInt_neg, ← Real256.isNegative_iff,
      Real256.ofInt_eq_nearest, Real256.isNegative_nearest_iff]
    simpa using q.den_pos
  rw [realOfRat_eq_nearest, Real256.isNegative_nearest_iff]
  exact div_neg_of_neg_of_pos hnum hden

/-! ## powers of reals -/

section

variable [Elementary] {b e y : Real256}

/-- A power of a real below zero is defined if the exponent is whole, and its sign is
that of the parity of the exponent. -/
theorem powReal_of_isNegative (hb : b.isNegative = true) :
    powReal b e =
      if e.isWhole then .ok (if e.isOdd then -(-b).pow e else (-b).pow e)
      else .error .invalidPower := by
  have hsign : b.sign < 0 := of_decide_eq_true hb
  have hzero : b.isZero = false := by
    refine decide_eq_false fun h => ?_
    rw [Real256.sign, Binary.sign_eq_zero_iff.mpr h] at hsign
    exact absurd hsign (lt_irrefl 0)
  have hpositive : b.isPositive = false := decide_eq_false (not_lt.mpr hsign.le)
  rw [powReal, hzero, hpositive]
  rfl

/-- A negative base is refused if and only if the exponent is not whole as a real. -/
theorem powReal_eq_invalidPower_iff (hb : b.isNegative = true) :
    powReal b e = .error .invalidPower ↔ e.isWhole = false := by
  rw [powReal_of_isNegative hb]
  cases e.isWhole <;> simp

/-- The power of a negative base is negative if and only if the exponent is odd as a real. -/
theorem isNegative_powReal_iff (hb : b.isNegative = true) (h : powReal b e = .ok y) :
    y.isNegative = true ↔ e.isOdd = true := by
  have hpositive : ∀ x : Real256, 0 < (x.pow e).sign := fun x =>
    of_decide_eq_true (Real256.isPositive_pow x e)
  rw [powReal_of_isNegative hb] at h
  split at h
  · cases h
    rw [Real256.isNegative, decide_eq_true_iff]
    split
    · rename_i hodd
      rw [Real256.sign_neg, neg_lt_zero]
      exact iff_of_true (hpositive _) hodd
    · rename_i hodd
      exact iff_of_false (hpositive _).not_gt hodd
  · cases h

/-- Of the exponents of minus one only the parity counts. -/
theorem powReal_neg_one (e : Real256) :
    powReal (-1) e =
      if e.isWhole then .ok (if e.isOdd then -1 else 1) else .error .invalidPower := by
  rw [powReal_of_isNegative (by decide), show (- -1 : Real256) = 1 by decide, Real256.one_pow]

end

/-! ## powers of exact numbers -/

section

variable {b q y : Number}

/-- An exact number is converted like the rational of its value. -/
theorem toReal_of_isExact {x : Number} (h : x.isExact = true) :
    x.toReal = .finite (realOfRat x.exactValue) :=
  toReal_eq_of_exactValue_eq (b := .rational x.exactValue) h rfl rfl

/-- The power of exact numbers is found among the integers if both of them are, and
otherwise among the reals. -/
theorem pow_of_isExact [Elementary] (hb : b.isExact = true) (hq : q.isExact = true) :
    (∃ m n, b = .integer m ∧ q = .integer n ∧ b.pow q = powInt m n) ∨
    ((b.isInteger && q.isInteger) = false ∧
      b.pow q = (powReal (realOfRat b.exactValue) (realOfRat q.exactValue)).map
        fun p => .real (.finite p)) := by
  unfold pow
  rcases unifyPair_cases b q with ⟨m, n, rfl, rfl, hpair⟩ | ⟨-, hint, hpair⟩ | ⟨hreal, -⟩
  · exact .inl ⟨m, n, rfl, rfl, rfl⟩
  · refine .inr ⟨hint, ?_⟩
    rw [hpair]
    simp only [bind, Except.bind]
    cases powReal (realOfRat b.exactValue) (realOfRat q.exactValue) <;> rfl
  · exact absurd ⟨hb, hq⟩ hreal

/-- A power of the rational `-1` is known without any logarithm. -/
theorem pow_rational_neg_one [Elementary] (hq : q.isExact = true) :
    (rational (-1)).pow q = (if (realOfRat q.exactValue).isWhole then
      .ok (.real (.finite (if (realOfRat q.exactValue).isOdd then -1 else 1)))
      else .error .invalidPower) := by
  have hbase : realOfRat (exactValue (rational (-1))) = -1 := by decide +kernel
  rcases pow_of_isExact (b := rational (-1)) rfl hq with ⟨_, _, h, -⟩ | ⟨-, hpow⟩
  · cases h
  · rw [hpow, hbase, powReal_neg_one]
    split <;> rfl

/-- A power of an integer below zero has the sign of the parity of the exponent. -/
theorem isNegative_powInt_iff {m n : Int} (hm : m < 0) (h : powInt m n = .ok y) :
    y.isNegative = true ↔ Odd n := by
  rw [isNegative_iff_of_isExact (isExact_powInt h), Rat.num_neg, (exactValue_powInt h).1]
  have hm' : (m : Rat) < 0 := Int.cast_lt_zero.mpr hm
  rcases Int.even_or_odd n with hn | hn
  · exact iff_of_false (hn.zpow_nonneg _).not_gt (Int.not_odd_iff_even.mpr hn)
  · exact iff_of_true (hn.zpow_neg_iff.mpr hm') hn

/-- Whether an exponent that is not whole is accepted depends on the real it becomes. -/
theorem pow_eq_invalidPower_iff [Elementary] (hb : b.isExact = true) (hq : q.isExact = true)
    (hneg : b.exactValue < 0) (hden : q.exactValue.den ≠ 1) :
    b.pow q = .error .invalidPower ↔ q.toReal.isWhole = false := by
  rw [toReal_of_isExact hq]
  rcases pow_of_isExact hb hq with ⟨m, n, rfl, rfl, -⟩ | ⟨-, hpow⟩
  · exact absurd rfl hden
  · rw [hpow, ExtReal.isWhole, ← powReal_eq_invalidPower_iff (isNegative_realOfRat hneg)]
    cases powReal (realOfRat b.exactValue) (realOfRat q.exactValue) <;> simp [Except.map]

/-- The power to a whole exponent has the sign of its parity, as long as the exponent is
not rounded. -/
theorem isNegative_pow_iff [Elementary] (hb : b.isExact = true) (hq : q.isExact = true)
    (hneg : b.exactValue < 0) (hden : q.exactValue.den = 1) (h : b.pow q = .ok y) :
    y.isNegative = true ↔ Odd q.exactValue.num ∧
      (b.isInteger = true ∧ q.isInteger = true ∨
        q.exactValue.num.natAbs < 2 ^ workingPrecision) := by
  rcases pow_of_isExact hb hq with ⟨m, n, rfl, rfl, hpow⟩ | ⟨hint, hpow⟩
  · rw [hpow] at h
    rw [isNegative_powInt_iff (Int.cast_lt_zero.mp hneg) h]
    exact (and_iff_left (.inl ⟨rfl, rfl⟩)).symm
  · have hvalue : realOfRat q.exactValue = .ofInt q.exactValue.num := by
      rw [← realOfRat_intCast, Rat.coe_int_num_of_den_eq_one hden]
    rw [hpow, hvalue] at h
    have hboth : ¬(b.isInteger = true ∧ q.isInteger = true) := fun hboth => by
      rw [hboth.1, hboth.2] at hint
      cases hint
    rw [or_iff_right hboth, ← isOdd_ofInt_iff]
    cases hp : powReal (realOfRat b.exactValue) (.ofInt q.exactValue.num) with
    | error err => rw [hp] at h; cases h
    | ok p =>
      rw [hp] at h
      cases h
      exact isNegative_powReal_iff (isNegative_realOfRat hneg) hp

/-- **Powers of an exact number below zero.**

1. Where the exponent is not whole the power is undefined if and only if the real it is
   converted to is not whole, either, and so it is for every numerator of at most as many
   bits as a real has;
2. where it is whole the power has the sign of its parity, unless it is converted and has
   more bits than a real: then the power is above zero. -/
theorem pow_negative_base [Elementary] (hb : b.isExact = true) (hq : q.isExact = true)
    (hneg : b.exactValue < 0) :
    (q.exactValue.den ≠ 1 →
      (b.pow q = .error .invalidPower ↔ q.toReal.isWhole = false) ∧
      (q.exactValue.num.natAbs < 2 ^ workingPrecision → b.pow q = .error .invalidPower)) ∧
    (q.exactValue.den = 1 → ∀ y, b.pow q = .ok y →
      (y.isNegative = true ↔ Odd q.exactValue.num ∧
        (b.isInteger = true ∧ q.isInteger = true ∨
          q.exactValue.num.natAbs < 2 ^ workingPrecision))) := by
  refine ⟨fun hden => ?_, fun hden y => isNegative_pow_iff hb hq hneg hden⟩
  have hiff := pow_eq_invalidPower_iff hb hq hneg hden
  refine ⟨hiff, fun hnum => hiff.mpr ?_⟩
  rw [toReal_of_isExact hq]
  exact isWhole_realOfRat_eq_false hden hnum

end

/-- Powers of the rational `-1`: the cube root is undefined and the third power below zero,
but an odd exponent of 257 bits gives a power above zero, and a half of that length is taken
for a whole exponent. -/
theorem pow_negative_base_minus_one :
    (rational (-1)).pow (rational (1 / 3)) = .error .invalidPower ∧
    (∃ y, (rational (-1)).pow (integer 3) = .ok y ∧ y.isNegative = true) ∧
    (∃ y, (rational (-1)).pow (integer (2 ^ 256 + 1)) = .ok y ∧ y.isNegative = false) ∧
    (rational (-1)).pow (rational ((2 ^ 257 + 1) / 2)) ≠ .error .invalidPower := by
  have hpow : ∀ q : Number, q.isExact = true → _ := fun q hq =>
    pow_negative_base (b := rational (-1)) (q := q) rfl hq (by decide +kernel)
  refine ⟨?_, ?_, ?_, ?_⟩
  · exact ((hpow (rational (1 / 3)) rfl).1 (by decide +kernel)).2 (by decide +kernel)
  · have hy : (rational (-1)).pow (integer 3) = .ok (.real (.finite (-1))) := by
      rw [pow_rational_neg_one rfl]
      decide +kernel
    refine ⟨_, hy, ((hpow (integer 3) rfl).2 rfl _ hy).mpr ⟨by decide, .inr (by decide +kernel)⟩⟩
  · have hy : (rational (-1)).pow (integer (2 ^ 256 + 1)) = .ok (.real (.finite 1)) := by
      rw [pow_rational_neg_one rfl]
      decide +kernel
    refine ⟨_, hy, ?_⟩
    rw [← Bool.not_eq_true, (hpow (integer (2 ^ 256 + 1)) rfl).2 rfl _ hy]
    decide +kernel
  · rw [Ne, ((hpow (rational ((2 ^ 257 + 1) / 2)) rfl).1 (by decide +kernel)).1]
    decide +kernel

end SymCalc.Number
