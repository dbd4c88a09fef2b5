/-!
# SymCalc.Binary.Scale

What can be read off the significand and exponent of a dyadic number without
writing it out, however far its exponent lies from zero:

1. `sign`, `ilog2` (the exponent of the leading bit);
2. `order`, which compares signs and leading exponents before any shift;
3. `IsWhole`, `IsOdd`, and `truncate`, the whole part toward zero.
-/

namespace SymCalc.Binary

/-- Powers as the core library has them.  The modules that write powers make it
a local instance, so that they mean the same whatever else is imported. -/
@[reducible] def corePow {α : Type} [NatPow α] : Pow α Nat := instPowNat

/-- The sign of `x` as `-1`, `0` or `1`. -/
def sign : Dyadic → Int
  | .zero => 0
  | .ofOdd n _ _ => n.sign

/-- The exponent of the leading bit, `⌊log₂ |x|⌋`; `0` for zero. -/
def ilog2 : Dyadic → Int
  | .zero => 0
  | .ofOdd n k _ => n.natAbs.log2 - k

/-- The order of two positive numbers.  Different leading exponents settle it;
equal ones leave numbers that a shift by at most their own length aligns. -/
def orderPositive (x y : Dyadic) : Ordering :=
  match compare (ilog2 x) (ilog2 y) with
  | .eq => if x < y then .lt else if y < x then .gt else .eq
  | o => o

/-- The numeric order of two dyadic numbers. -/
def order (x y : Dyadic) : Ordering :=
  match compare (sign x) (sign y) with
  | .eq =>
    if sign x = 1 then orderPositive x y
    else if sign x = -1 then orderPositive (-y) (-x)
    else .eq
  | o => o

/-- `x` has no fractional part: its lowest bit is not below the point. -/
def IsWhole : Dyadic → Prop
  | .zero => True
  | .ofOdd _ k _ => k ≤ 0

instance : (x : Dyadic) → Decidable (IsWhole x)
  | .zero => inferInstanceAs (Decidable True)
  | .ofOdd _ k _ => inferInstanceAs (Decidable (k ≤ 0))

/-- `x` is an odd integer: its lowest bit is the one just before the point. -/
def IsOdd : Dyadic → Prop
  | .zero => False
  | .ofOdd _ k _ => k = 0

instance : (x : Dyadic) → Decidable (IsOdd x)
  | .zero => inferInstanceAs (Decidable False)
  | .ofOdd _ k _ => inferInstanceAs (Decidable (k = 0))

/-- The whole part of `x`, toward zero. -/
def truncate : Dyadic → Int
  | .zero => 0
  | .ofOdd n k _ => n.sign * (n.natAbs <<< (-k).toNat >>> k.toNat : Nat)

/-! ## signs and order -/

/-- The sign is `0` for zero alone. -/
theorem sign_eq_zero_iff {x : Dyadic} : sign x = 0 ↔ x = 0 := by
  cases x with
  | zero => simp [sign]
  | ofOdd n k hn =>
    simp only [sign, Int.sign_eq_zero_iff_zero, Dyadic.of_ne_zero, iff_false]
    omega

@[simp] theorem sign_neg (x : Dyadic) : sign (-x) = -sign x := by
  cases x with
  | zero => rfl
  | ofOdd n k hn => exact Int.sign_neg n

/-- The scale does not matter for the sign. -/
@[simp] theorem sign_ofIntWithPrec (i k : Int) : sign (.ofIntWithPrec i k) = i.sign := by
  unfold Dyadic.ofIntWithPrec
  split
  · rename_i h
    simp [h, sign]
  · rename_i h
    obtain ⟨m, hm⟩ := Int.two_pow_trailingZeros_dvd h
    have hpos : (0 : Int) < 2 ^ i.trailingZeros := Int.pow_pos (by decide)
    have hshift : i >>> i.trailingZeros = m := by
      rw [Int.shiftRight_eq_div_pow, Int.natCast_pow, Int.cast_ofNat_Int]
      exact Int.ediv_eq_of_eq_mul_right (Int.ne_of_gt hpos) hm
    simp only [sign]
    rw [hshift]
    calc m.sign = (2 ^ i.trailingZeros * m).sign := by
          rw [Int.sign_mul, Int.sign_eq_one_of_pos hpos, Int.one_mul]
      _ = i.sign := by rw [← hm]

end SymCalc.Binary
