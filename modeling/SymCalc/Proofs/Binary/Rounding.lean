import Mathlib.Algebra.Order.Field.Basic
import Mathlib.Tactic.FieldSimp
import Mathlib.Tactic.Linarith
import Mathlib.Tactic.Ring
import SymCalc.Binary.Nearest
import SymCalc.Proofs.Binary.Order

/-!
# SymCalc.Proofs.Binary.Rounding

Rounding to a number of significant bits, seen as a function of the value.

1. `IsNearestEven x n` says that `n` is the natural number nearest to `x`, of
   two the even one; there is at most one, and it grows with `x`;
2. `RoundsAt bits x e n` says that `x * 2 ^ e` has `bits` bits before the point
   and that `n` is nearest to it; the rounded number `n * 2 ^ (-e)` grows with
   `x`, also where the exponent changes, and no number that fits is nearer;
3. `roundQuotient` finds the exponent and the number nearest
   (`roundsAt_roundQuotient`).  Its result is therefore a number nearest to the
   quotient (`abs_sub_roundQuotient_le`), off by half the last bit at most
   (`error_roundQuotient_le`), monotone in it
   (`toRat_roundQuotient_mono`), dependent on nothing but its value
   (`roundQuotient_congr`), and that value where it fits (`roundQuotient_of_fits`).
   `roundTo` leads to a nearest number, too (`abs_sub_roundTo_le`).
-/

namespace SymCalc.Binary

/-! ## natural numbers nearest to a rational -/

/-- `n` is a natural number nearest to `x`, and even if there are two. -/
structure IsNearestEven (x : Rat) (n : Nat) : Prop where
  below : n - 1 / 2 ≤ x
  above : x ≤ n + 1 / 2
  even : x = n - 1 / 2 ∨ x = n + 1 / 2 → n % 2 = 0

/-- A natural number is nearest to itself. -/
theorem isNearestEven_natCast (n : Nat) : IsNearestEven n n where
  below := by linarith
  above := by linarith
  even := by
    rintro (h | h) <;> linarith

/-- A larger number has no smaller nearest one.  If it had, both numbers would
lie halfway between two neighbours, of which only one is even. -/
theorem IsNearestEven.mono {x y : Rat} {m n : Nat} (hx : IsNearestEven x m)
    (hy : IsNearestEven y n) (h : x ≤ y) : m ≤ n := by
  by_contra hlt
  have hcast : (n : Rat) + 1 ≤ m := by exact_mod_cast Nat.not_le.mp hlt
  have hbelow := hx.below
  have habove := hy.above
  have hm : m % 2 = 0 := hx.even (.inl (by linarith))
  have hn : n % 2 = 0 := hy.even (.inr (by linarith))
  have hsucc : (m : Rat) = n + 1 := by linarith
  have : m = n + 1 := by exact_mod_cast hsucc
  omega

/-- The nearest number is off by half a unit at most. -/
theorem IsNearestEven.abs_sub_le_half {x : Rat} {n : Nat} (h : IsNearestEven x n) :
    |x - n| ≤ 1 / 2 := by
  have hbelow := h.below
  have habove := h.above
  exact abs_le.mpr ⟨by linarith, by linarith⟩

/-- No whole number is nearer. -/
theorem IsNearestEven.abs_sub_le {x : Rat} {n : Nat} (h : IsNearestEven x n) (m : Int) :
    |x - n| ≤ |x - m| := by
  have hbelow := h.below
  have habove := h.above
  have hhalf := h.abs_sub_le_half
  obtain hlt | heq | hgt := lt_trichotomy m n
  · have hcast : (m : Rat) + 1 ≤ n := by exact_mod_cast hlt
    exact hhalf.trans (le_abs.mpr (.inl (by linarith)))
  · rw [heq, Int.cast_natCast]
  · have hcast : (n : Rat) + 1 ≤ m := by exact_mod_cast hgt
    exact hhalf.trans (le_abs.mpr (.inr (by linarith)))

/-- A quotient is its whole part and what the remainder adds to it. -/
theorem cast_div_eq_add (a : Nat) {b : Nat} (hb : b ≠ 0) :
    (a : Rat) / b = (a / b : Nat) + (a % b : Nat) / b := by
  have hb' : (b : Rat) ≠ 0 := Nat.cast_ne_zero.mpr hb
  have hdiv : (b : Rat) * (a / b : Nat) + (a % b : Nat) = a := by
    exact_mod_cast Nat.div_add_mod a b
  rw [← hdiv]
  field_simp

/-- The part of the remainder is compared with one half. -/
theorem isNearestEven_nearestEven (a : Nat) {b : Nat} (hb : b ≠ 0) :
    IsNearestEven (a / b) (nearestEven a b) := by
  have hpos : (0 : Rat) < b := Nat.cast_pos.mpr (Nat.pos_of_ne_zero hb)
  have hnonneg : (0 : Rat) ≤ (a % b : Nat) / b :=
    div_nonneg (Nat.cast_nonneg _) hpos.le
  have hlt : ((a % b : Nat) : Rat) / b < 1 := by
    rw [div_lt_one hpos]
    exact_mod_cast Nat.mod_lt a (Nat.pos_of_ne_zero hb)
  rw [cast_div_eq_add a hb]
  unfold nearestEven
  simp only
  split
  · rename_i h
    have hhalf : ((a % b : Nat) : Rat) / b < 1 / 2 := by
      rw [div_lt_div_iff₀ hpos two_pos]
      exact_mod_cast (by omega : a % b * 2 < 1 * b)
    exact ⟨by linarith, by linarith, by rintro (h | h) <;> linarith⟩
  · split
    · rename_i h
      have hhalf : (1 : Rat) / 2 < (a % b : Nat) / b := by
        rw [div_lt_div_iff₀ two_pos hpos]
        exact_mod_cast (by omega : 1 * b < a % b * 2)
      refine ⟨?_, ?_, ?_⟩ <;> push_cast
      · linarith
      · linarith
      · rintro (h | h) <;> linarith
    · have hhalf : ((a % b : Nat) : Rat) / b = 1 / 2 := by
        rw [div_eq_div_iff hpos.ne' two_ne_zero]
        exact_mod_cast (by omega : a % b * 2 = 1 * b)
      rw [hhalf]
      split
      · rename_i heven
        exact ⟨by linarith, by linarith, fun _ => heven⟩
      · refine ⟨?_, ?_, fun _ => by omega⟩ <;> push_cast <;> linarith

/-! ## significant bits -/

/-- The powers of two that bound a number of `bits` bits, one twice the other. -/
theorem cast_two_pow {bits : Nat} (hbits : 0 < bits) :
    ((2 ^ bits : Nat) : Rat) = 2 * (2 ^ (bits - 1) : Nat) := by
  have h : 2 ^ bits = 2 * 2 ^ (bits - 1) := by rw [← pow_succ', Nat.sub_add_cancel hbits]
  exact_mod_cast h

/-- Scaled down, a number of `bits` bits loses at least one of them. -/
theorem mul_zpow_lt_of_neg {bits : Nat} (hbits : 0 < bits) {a : Nat} (ha : a < 2 ^ bits) {s : Int}
    (hs : s < 0) : (a : Rat) * 2 ^ s < (2 ^ (bits - 1) : Nat) := by
  have hpow : (2 : Rat) ^ s ≤ 2 ^ (-1 : Int) := zpow_le_zpow_right₀ one_le_two (by omega)
  have hcast : (a : Rat) < (2 ^ bits : Nat) := by exact_mod_cast ha
  calc (a : Rat) * 2 ^ s ≤ a * 2 ^ (-1 : Int) := by gcongr
    _ < (2 ^ bits : Nat) * 2 ^ (-1 : Int) := by gcongr
    _ = (2 ^ (bits - 1) : Nat) := by
        rw [cast_two_pow hbits, zpow_neg_one]
        ring

/-- Scaled like a number of `bits` bits, a number that fits is whole, or else it has
fewer bits before the point. -/
theorem scaled_of_fits {bits : Nat} (hbits : 0 < bits) {y : Dyadic} (hy : Fits bits y) (e : Int) :
    (∃ m : Int, y.toRat * 2 ^ e = m) ∨ y.toRat * 2 ^ e < (2 ^ (bits - 1) : Nat) := by
  cases y with
  | zero => exact .inl ⟨0, by simp [Dyadic.toRat]⟩
  | ofOdd m k hm =>
    have hvalue : (Dyadic.ofOdd m k hm).toRat * 2 ^ e = m * 2 ^ (e - k) := by
      rw [toRat_ofOdd, mul_assoc, ← zpow_add₀ two_ne_zero, neg_add_eq_sub]
    rw [hvalue]
    obtain hle | hlt := le_or_gt k e
    · obtain ⟨j, hj⟩ := Int.eq_ofNat_of_zero_le (Int.sub_nonneg_of_le hle)
      refine .inl ⟨m * 2 ^ j, ?_⟩
      rw [hj, zpow_natCast]
      push_cast
      rfl
    · right
      calc (m : Rat) * 2 ^ (e - k) ≤ m.natAbs * 2 ^ (e - k) := by
            rw [Nat.cast_natAbs, Int.cast_abs]
            gcongr
            exact le_abs_self _
        _ < (2 ^ (bits - 1) : Nat) := mul_zpow_lt_of_neg hbits hy (by omega)

/-- `x * 2 ^ e` has `bits` bits before the point, and `n` is nearest to it: the
number of that many bits nearest to `x` is `n * 2 ^ (-e)`. -/
structure RoundsAt (bits : Nat) (x : Rat) (e : Int) (n : Nat) : Prop where
  low : (2 ^ (bits - 1) : Nat) ≤ x * 2 ^ e
  high : x * 2 ^ e < (2 ^ bits : Nat)
  nearest : IsNearestEven (x * 2 ^ e) n

namespace RoundsAt

variable {bits : Nat} {x y : Rat} {e f : Int} {m n : Nat}

/-- The number found has all its bits. -/
theorem low_le (h : RoundsAt bits x e n) : 2 ^ (bits - 1) ≤ n :=
  (isNearestEven_natCast _).mono h.nearest h.low

/-- Rounded up, it may be the next power of two. -/
theorem le_high (h : RoundsAt bits x e n) : n ≤ 2 ^ bits :=
  h.nearest.mono (isNearestEven_natCast _) h.high.le

/-- Only positive numbers are rounded this way. -/
theorem pos (h : RoundsAt bits x e n) : 0 < x := by
  have hlow : (0 : Rat) < (2 ^ (bits - 1) : Nat) := Nat.cast_pos.mpr (Nat.two_pow_pos _)
  exact (mul_pos_iff_of_pos_right (zpow_pos two_pos e)).mp (hlow.trans_le h.low)

/-- The larger the number, the smaller the exponent: one more for the larger
number would give it a bit too many. -/
theorem exponent_le (hbits : 0 < bits) (hx : RoundsAt bits x e m) (hy : RoundsAt bits y f n)
    (h : x ≤ y) : f ≤ e := by
  by_contra hlt
  have hpow : (2 : Rat) ^ (e + 1) ≤ 2 ^ f := zpow_le_zpow_right₀ one_le_two (by omega)
  refine hy.high.not_ge ?_
  calc ((2 ^ bits : Nat) : Rat) = 2 * (2 ^ (bits - 1) : Nat) := cast_two_pow hbits
    _ ≤ 2 * (x * 2 ^ e) := by linarith [hx.low]
    _ = x * 2 ^ (e + 1) := by rw [zpow_add_one₀ two_ne_zero]; ring
    _ ≤ y * 2 ^ f := mul_le_mul h hpow (zpow_pos two_pos _).le hy.pos.le

/-- A larger number has no smaller rounding.  With one exponent for both this is
so of the natural numbers nearest to them, and with two exponents the power of
two between them separates the roundings. -/
theorem mono (hbits : 0 < bits) (hx : RoundsAt bits x e m) (hy : RoundsAt bits y f n)
    (h : x ≤ y) : (m : Rat) * 2 ^ (-e) ≤ n * 2 ^ (-f) := by
  obtain hlt | rfl := (exponent_le hbits hx hy h).lt_or_eq
  · have hpow : (2 : Rat) ^ (1 - e) ≤ 2 ^ (-f) := zpow_le_zpow_right₀ one_le_two (by omega)
    calc (m : Rat) * 2 ^ (-e) ≤ (2 ^ bits : Nat) * 2 ^ (-e) := by
          gcongr
          exact hx.le_high
      _ = (2 ^ (bits - 1) : Nat) * 2 ^ (1 - e) := by
          rw [cast_two_pow hbits, sub_eq_add_neg, zpow_add₀ two_ne_zero, zpow_one]
          ring
      _ ≤ n * 2 ^ (-f) := by
          gcongr
          exact hy.low_le
  · gcongr
    exact hx.nearest.mono hy.nearest (by gcongr)

/-- No number that fits is nearer. -/
theorem abs_sub_le (hbits : 0 < bits) (h : RoundsAt bits x e n) {y : Dyadic}
    (hy : Fits bits y) : |x - n * 2 ^ (-e)| ≤ |x - y.toRat| := by
  have hscale : (0 : Rat) < 2 ^ e := zpow_pos two_pos e
  have hscaled : |x * 2 ^ e - n| ≤ |x * 2 ^ e - y.toRat * 2 ^ e| := by
    obtain ⟨m, hm⟩ | hlt := scaled_of_fits hbits hy e
    · rw [hm]
      exact h.nearest.abs_sub_le m
    · calc |x * 2 ^ e - n| ≤ |x * 2 ^ e - ((2 ^ (bits - 1) : Nat) : Int)| :=
            h.nearest.abs_sub_le _
        _ = x * 2 ^ e - (2 ^ (bits - 1) : Nat) := by
            rw [Int.cast_natCast, abs_of_nonneg (sub_nonneg.mpr h.low)]
        _ ≤ x * 2 ^ e - y.toRat * 2 ^ e := by linarith
        _ ≤ |x * 2 ^ e - y.toRat * 2 ^ e| := le_abs_self _
  have hn : (n : Rat) = n * 2 ^ (-e) * 2 ^ e := by
    rw [mul_assoc, ← zpow_add₀ two_ne_zero, neg_add_cancel, zpow_zero, mul_one]
  rw [hn, ← sub_mul, ← sub_mul, abs_mul, abs_mul] at hscaled
  exact le_of_mul_le_mul_right hscaled (abs_pos.mpr hscale.ne')

/-- The rounding error is at most half the last of the bits. -/
theorem error_le (hbits : 0 < bits) (h : RoundsAt bits x e n) :
    |x - n * 2 ^ (-e)| * (2 ^ bits : Nat) ≤ x := by
  have hscale : (0 : Rat) < 2 ^ e := zpow_pos two_pos e
  have hn : x * 2 ^ e - n = (x - n * 2 ^ (-e)) * 2 ^ e := by
    rw [sub_mul, mul_assoc, ← zpow_add₀ two_ne_zero, neg_add_cancel, zpow_zero, mul_one]
  have hhalf := h.nearest.abs_sub_le_half
  rw [hn, abs_mul, abs_of_pos hscale] at hhalf
  refine le_of_mul_le_mul_right ?_ hscale
  calc |x - n * 2 ^ (-e)| * (2 ^ bits : Nat) * 2 ^ e
      = |x - n * 2 ^ (-e)| * 2 ^ e * (2 ^ bits : Nat) := mul_right_comm _ _ _
    _ ≤ 1 / 2 * (2 ^ bits : Nat) := by gcongr
    _ = (2 ^ (bits - 1) : Nat) := by
        rw [cast_two_pow hbits]
        ring
    _ ≤ x * 2 ^ e := h.low

end RoundsAt

/-! ## rounded quotients -/

/-- Shifting one part or the other scales the quotient. -/
theorem cast_shiftLeft_div (a b : Nat) (s : Int) :
    ((a <<< s.toNat : Nat) : Rat) / (b <<< (-s).toNat : Nat) = a / b * 2 ^ s := by
  rw [Nat.shiftLeft_eq, Nat.shiftLeft_eq]
  push_cast
  obtain ⟨k, rfl | rfl⟩ := s.eq_nat_or_neg
  · simp only [Int.toNat_natCast, Int.toNat_neg_natCast, pow_zero, zpow_natCast]
    ring
  · simp only [neg_neg, Int.toNat_natCast, Int.toNat_neg_natCast, pow_zero, zpow_neg, zpow_natCast]
    ring

/-- The shift leaves `bits` bits before the point. -/
theorem quotientShift_bounds {bits : Nat} (hbits : 0 < bits) {a b : Nat} (ha : a ≠ 0)
    (hb : b ≠ 0) :
    (2 ^ (bits - 1) : Nat) ≤ (a : Rat) / b * 2 ^ quotientShift bits a b ∧
      (a : Rat) / b * 2 ^ quotientShift bits a b < (2 ^ bits : Nat) := by
  have hlow := le_scaled bits a b hbits ha
  have hhigh := scaled_lt bits a b hbits hb
  rw [← cast_shiftLeft_div]
  generalize quotientShift bits a b = s at hlow hhigh ⊢
  have hpos : (0 : Rat) < (b <<< (-s).toNat : Nat) := by
    rw [Nat.shiftLeft_eq]
    exact_mod_cast Nat.mul_pos (Nat.pos_of_ne_zero hb) (Nat.two_pow_pos _)
  rw [le_div_iff₀ hpos, div_lt_iff₀ hpos]
  exact ⟨by exact_mod_cast (Nat.mul_comm .. ▸ hlow), by exact_mod_cast (Nat.mul_comm .. ▸ hhigh)⟩

/-- Below zero the same holds of the opposites (`roundQuotient_neg`). -/
theorem roundsAt_roundQuotient {bits : Nat} (hbits : 0 < bits) {num : Int} (hnum : 0 < num)
    {den : Nat} (hden : den ≠ 0) (scale : Int) :
    ∃ e n, RoundsAt bits (num / den * 2 ^ scale) e n ∧
      (roundQuotient bits num den scale).toRat = n * 2 ^ (-e) := by
  obtain ⟨a, rfl⟩ := Int.eq_ofNat_of_zero_le hnum.le
  obtain ⟨hlow, hhigh⟩ := quotientShift_bounds hbits (by omega : a ≠ 0) hden
  simp only [roundQuotient, Int.natAbs_natCast, Int.sign_eq_one_of_pos hnum, Int.one_mul,
    Int.cast_natCast]
  generalize quotientShift bits a den = s at hlow hhigh ⊢
  have hscaled : (a : Rat) / den * 2 ^ scale * 2 ^ (s - scale) = a / den * 2 ^ s := by
    rw [mul_assoc, ← zpow_add₀ two_ne_zero, add_sub_cancel]
  have hden' : den <<< (-s).toNat ≠ 0 := by
    rw [Nat.shiftLeft_eq]
    exact Nat.mul_ne_zero hden (Nat.two_pow_pos _).ne'
  have hnearest := isNearestEven_nearestEven (a <<< s.toNat) hden'
  rw [cast_shiftLeft_div] at hnearest
  refine ⟨s - scale, _, ⟨hscaled ▸ hlow, hscaled ▸ hhigh, hscaled ▸ hnearest⟩, ?_⟩
  rw [Dyadic.toRat_ofIntWithPrec_eq_mul_two_pow, Int.cast_natCast]

/-- The opposite is rounded to the opposite. -/
theorem roundQuotient_neg (bits : Nat) (num : Int) (den : Nat) (scale : Int) :
    roundQuotient bits (-num) den scale = -roundQuotient bits num den scale := by
  simp only [roundQuotient, Int.natAbs_neg, Int.sign_neg, Int.neg_mul, Dyadic.neg_ofIntWithPrec]

/-- Zero is rounded to zero. -/
theorem roundQuotient_zero {bits : Nat} (hbits : 0 < bits) {den : Nat} (hden : den ≠ 0)
    (scale : Int) : roundQuotient bits 0 den scale = 0 := by
  apply sign_eq_zero_iff.mp
  rw [sign_roundQuotient hbits _ _ _ hden, Int.sign_zero]

section quotients

variable {bits : Nat} {a b : Int} {c d : Nat} {s t : Int}

/-- The sign of a scaled quotient is that of its numerator. -/
theorem scaled_pos_iff (hc : c ≠ 0) : 0 < (a : Rat) / c * 2 ^ s ↔ 0 < a := by
  have hpos : (0 : Rat) < c := Nat.cast_pos.mpr (Nat.pos_of_ne_zero hc)
  rw [mul_pos_iff_of_pos_right (zpow_pos two_pos _), div_pos_iff_of_pos_right hpos, Int.cast_pos]

/-- No negative quotient is rounded up beyond zero. -/
theorem toRat_roundQuotient_nonpos (hbits : 0 < bits) (hc : c ≠ 0) (ha : a ≤ 0) :
    (roundQuotient bits a c s).toRat ≤ 0 := by
  rw [← not_lt, ← sign_eq_one_iff, sign_roundQuotient hbits _ _ _ hc, Int.sign_eq_one_iff_pos]
  exact not_lt.mpr ha

/-- Of two positive quotients the larger one is not rounded to less. -/
theorem toRat_roundQuotient_le_of_pos (hbits : 0 < bits) (hc : c ≠ 0) (hd : d ≠ 0) (ha : 0 < a)
    (h : (a : Rat) / c * 2 ^ s ≤ b / d * 2 ^ t) :
    (roundQuotient bits a c s).toRat ≤ (roundQuotient bits b d t).toRat := by
  have hb : 0 < b := (scaled_pos_iff hd).mp (((scaled_pos_iff hc).mpr ha).trans_le h)
  obtain ⟨e, m, hm, hmx⟩ := roundsAt_roundQuotient hbits ha hc s
  obtain ⟨f, n, hn, hnx⟩ := roundsAt_roundQuotient hbits hb hd t
  rw [hmx, hnx]
  exact hm.mono hbits hn h

/-- Rounding is monotone in the quotient: of two numbers above zero by their
exponents, of two below zero by their opposites, and across zero by the sign. -/
theorem toRat_roundQuotient_mono (hbits : 0 < bits) (hc : c ≠ 0) (hd : d ≠ 0)
    (h : (a : Rat) / c * 2 ^ s ≤ b / d * 2 ^ t) :
    (roundQuotient bits a c s).toRat ≤ (roundQuotient bits b d t).toRat := by
  obtain ha | ha := lt_or_ge 0 a
  · exact toRat_roundQuotient_le_of_pos hbits hc hd ha h
  rw [← neg_le_neg_iff, ← Dyadic.toRat_neg, ← Dyadic.toRat_neg, ← roundQuotient_neg,
    ← roundQuotient_neg]
  obtain hb | hb := lt_or_ge b 0
  · refine toRat_roundQuotient_le_of_pos hbits hd hc (Int.neg_pos_of_neg hb) ?_
    rwa [Int.cast_neg, Int.cast_neg, neg_div, neg_div, neg_mul, neg_mul, neg_le_neg_iff]
  · calc (roundQuotient bits (-b) d t).toRat
        ≤ 0 := toRat_roundQuotient_nonpos hbits hd (Int.neg_nonpos_of_nonneg hb)
      _ ≤ -(roundQuotient bits a c s).toRat :=
          neg_nonneg.mpr (toRat_roundQuotient_nonpos hbits hc ha)
      _ = (roundQuotient bits (-a) c s).toRat := by rw [roundQuotient_neg, Dyadic.toRat_neg]

/-- No number that fits is nearer to a positive quotient than the rounded one. -/
theorem abs_sub_roundQuotient_le_of_pos (hbits : 0 < bits) (hc : c ≠ 0) (ha : 0 < a)
    {y : Dyadic} (hy : Fits bits y) :
    |(a : Rat) / c * 2 ^ s - (roundQuotient bits a c s).toRat| ≤ |a / c * 2 ^ s - y.toRat| := by
  obtain ⟨e, m, hm, hmx⟩ := roundsAt_roundQuotient hbits ha hc s
  rw [hmx]
  exact hm.abs_sub_le hbits hy

/-- The error of a rounded quotient is at most half the last of its bits. -/
theorem error_roundQuotient_le (hbits : 0 < bits) (hc : c ≠ 0) :
    |(a : Rat) / c * 2 ^ s - (roundQuotient bits a c s).toRat| * (2 ^ bits : Nat) ≤
      |(a : Rat) / c * 2 ^ s| := by
  have hpositive : ∀ a : Int, 0 < a →
      |(a : Rat) / c * 2 ^ s - (roundQuotient bits a c s).toRat| * (2 ^ bits : Nat) ≤
        |(a : Rat) / c * 2 ^ s| := by
    intro a ha
    obtain ⟨e, m, hm, hmx⟩ := roundsAt_roundQuotient hbits ha hc s
    rw [hmx]
    exact (hm.error_le hbits).trans (le_abs_self _)
  obtain ha | rfl | ha := lt_trichotomy 0 a
  · exact hpositive a ha
  · rw [roundQuotient_zero hbits hc, Dyadic.toRat_zero, Int.cast_zero, zero_div, zero_mul,
      sub_zero, abs_zero, zero_mul]
  · have h := hpositive (-a) (Int.neg_pos_of_neg ha)
    rw [roundQuotient_neg, Dyadic.toRat_neg, Int.cast_neg, neg_div, neg_mul, neg_sub_neg,
      abs_neg] at h
    rwa [abs_sub_comm]

/-- No number that fits is nearer to the quotient than its rounding. -/
theorem abs_sub_roundQuotient_le (hbits : 0 < bits) (hc : c ≠ 0) {y : Dyadic}
    (hy : Fits bits y) :
    |(a : Rat) / c * 2 ^ s - (roundQuotient bits a c s).toRat| ≤ |a / c * 2 ^ s - y.toRat| := by
  obtain ha | rfl | ha := lt_trichotomy 0 a
  · exact abs_sub_roundQuotient_le_of_pos hbits hc ha hy
  · rw [roundQuotient_zero hbits hc, Dyadic.toRat_zero, Int.cast_zero, zero_div, zero_mul,
      sub_zero, abs_zero]
    exact abs_nonneg _
  · have h : |((-a : Int) : Rat) / c * 2 ^ s - (roundQuotient bits (-a) c s).toRat| ≤
        |((-a : Int) : Rat) / c * 2 ^ s - (-y).toRat| :=
      abs_sub_roundQuotient_le_of_pos hbits hc (Int.neg_pos_of_neg ha) (fits_neg hy)
    rw [roundQuotient_neg, Dyadic.toRat_neg, Dyadic.toRat_neg, Int.cast_neg, neg_div, neg_mul,
      neg_sub_neg, neg_sub_neg] at h
    rwa [abs_sub_comm, abs_sub_comm _ y.toRat]

/-- Rounding depends on nothing but the value of the quotient. -/
theorem roundQuotient_congr (hbits : 0 < bits) (hc : c ≠ 0) (hd : d ≠ 0)
    (h : (a : Rat) / c * 2 ^ s = b / d * 2 ^ t) :
    roundQuotient bits a c s = roundQuotient bits b d t :=
  Dyadic.toRat_inj.mp <| le_antisymm (toRat_roundQuotient_mono hbits hc hd h.le)
    (toRat_roundQuotient_mono hbits hd hc h.ge)

end quotients

/-! ## numbers that fit -/

/-- A natural number of at most `bits` bits is brought to them by a shift to the
left. -/
theorem quotientShift_nonneg {bits : Nat} (hbits : 0 < bits) {a : Nat} (ha : a ≠ 0)
    (h : a < 2 ^ bits) : 0 ≤ quotientShift bits a 1 := by
  obtain ⟨hlow, -⟩ := quotientShift_bounds hbits ha one_ne_zero
  rw [Nat.cast_one, div_one] at hlow
  by_contra hneg
  exact hlow.not_gt (mul_zpow_lt_of_neg hbits h (not_le.mp hneg))

/-- An odd number of no more than `bits` bits, at any place, is not rounded. -/
theorem roundQuotient_ofOdd {bits : Nat} (hbits : 0 < bits) {n k : Int} {hn : n % 2 = 1}
    (h : n.natAbs < 2 ^ bits) : roundQuotient bits n 1 (-k) = .ofOdd n k hn := by
  have hs := quotientShift_nonneg hbits (by omega : n.natAbs ≠ 0) h
  rw [← Dyadic.toRat_inj, toRat_ofOdd]
  unfold roundQuotient
  obtain ⟨s, hs⟩ := Int.eq_ofNat_of_zero_le hs
  simp only [hs, Int.toNat_natCast, Int.toNat_neg_natCast, Nat.shiftLeft_zero, nearestEven_one]
  have hint : n.sign * (n.natAbs <<< s : Nat) = n * 2 ^ s := by
    rw [Nat.shiftLeft_eq, Int.natCast_mul, ← Int.mul_assoc, Int.sign_mul_natAbs, Nat.cast_pow,
      Nat.cast_ofNat]
  rw [hint, Dyadic.toRat_ofIntWithPrec_eq_mul_two_pow]
  push_cast
  rw [mul_assoc, ← zpow_natCast, ← zpow_add₀ two_ne_zero]
  congr 2
  omega

/-- The value of a quotient that fits is its own rounding. -/
theorem roundQuotient_of_fits {bits : Nat} (hbits : 0 < bits) {x : Dyadic} (hx : Fits bits x)
    {num : Int} {den : Nat} (hden : den ≠ 0) {scale : Int}
    (h : (num : Rat) / den * 2 ^ scale = x.toRat) : roundQuotient bits num den scale = x := by
  cases x with
  | zero =>
    have hnum : num = 0 := by
      have hscale : (2 : Rat) ^ scale ≠ 0 := zpow_ne_zero _ two_ne_zero
      simpa [Dyadic.toRat, hden, hscale] using h
    rw [hnum]
    exact roundQuotient_zero hbits hden scale
  | ofOdd n k hn =>
    rw [← roundQuotient_ofOdd hbits hx]
    apply roundQuotient_congr hbits hden one_ne_zero
    rw [h, toRat_ofOdd, Nat.cast_one, div_one]

/-- No number that fits is nearer to a dyadic number than its rounding. -/
theorem abs_sub_roundTo_le {bits : Nat} (hbits : 0 < bits) (x : Dyadic) {y : Dyadic}
    (hy : Fits bits y) : |x.toRat - (roundTo bits x).toRat| ≤ |x.toRat - y.toRat| := by
  by_cases hx : Fits bits x
  · rw [roundTo_of_fits hx, sub_self, abs_zero]
    exact abs_nonneg _
  · cases x with
    | zero => exact absurd trivial hx
    | ofOdd n k hn =>
      have h : |(n : Rat) / (1 : Nat) * 2 ^ (-k) - (roundQuotient bits n 1 (-k)).toRat| ≤
          |(n : Rat) / (1 : Nat) * 2 ^ (-k) - y.toRat| :=
        abs_sub_roundQuotient_le hbits one_ne_zero hy
      rw [fits_ofOdd] at hx
      rw [Nat.cast_one, div_one, ← toRat_ofOdd n k hn] at h
      rwa [roundTo, if_neg hx]

end SymCalc.Binary
