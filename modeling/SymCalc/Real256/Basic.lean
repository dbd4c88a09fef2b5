import SymCalc.Binary.Nearest
import SymCalc.Binary.Scale

/-!
# SymCalc.Real256.Basic

Reals at working precision: dyadic numbers of at most 256 significant bits
with an exponent of any size.

1. `Real256` holds the finite values; the bound on the significand is part of
   the type, so every operation ends in one rounding to nearest, ties to even;
2. `ExtReal` adds the two infinities.  Arithmetic is defined on `Real256`
   only: an infinity is turned away before any operation.

Main statements: a number that fits in 256 bits is not rounded
(`value_ofDyadic_of_fits`), and so a product that fits is exact
(`value_mul_of_fits`).
-/

namespace SymCalc

attribute [local instance] Binary.corePow

/-- Significant bits of every real. -/
def workingPrecision : Nat := 256

/-- A dyadic number of at most 256 significant bits. -/
structure Real256 where
  value : Dyadic
  fits : Binary.Fits workingPrecision value
deriving DecidableEq

namespace Real256

open Binary

/-- A real is its value. -/
theorem ext {x y : Real256} (h : x.value = y.value) : x = y := by
  cases x; cases y; cases h; rfl

/-- The nearest real to a dyadic number. -/
def ofDyadic (x : Dyadic) : Real256 :=
  ⟨roundTo workingPrecision x, fits_roundTo (by decide) x⟩

/-- The nearest real to `num / den * 2 ^ scale`; a zero denominator gives `0`. -/
def ofQuotient (num : Int) (den : Nat) (scale : Int) : Real256 :=
  if h : den = 0 then ⟨0, fits_zero _⟩
  else ⟨roundQuotient workingPrecision num den scale,
    fits_roundQuotient (by decide) num den scale h⟩

/-- The nearest real to an integer.  A long integer is rounded as it stands,
so that only its leading bits are ever taken apart. -/
def ofInt (n : Int) : Real256 :=
  if n.natAbs < 2 ^ workingPrecision then ofDyadic (.ofInt n) else ofQuotient n 1 0

instance : OfNat Real256 0 := ⟨ofInt 0⟩
instance : OfNat Real256 1 := ⟨ofInt 1⟩

@[simp] theorem value_ofDyadic_of_fits {x : Dyadic} (h : Fits workingPrecision x) :
    (ofDyadic x).value = x := roundTo_of_fits h

/-! ## arithmetic -/

/-- The opposite, which needs no rounding. -/
def neg (x : Real256) : Real256 := ⟨-x.value, fits_neg x.fits⟩

instance : Neg Real256 := ⟨neg⟩

@[simp] theorem value_neg (x : Real256) : (-x).value = -x.value := rfl

/-- `y` lies below half the last place of any number next to `x`, so that `x`
is the nearest real to `x + y`. -/
def Dwarfs (x y : Dyadic) : Prop :=
  x ≠ 0 ∧ ilog2 y + (workingPrecision + 2) < ilog2 x

instance (x y : Dyadic) : Decidable (Dwarfs x y) :=
  inferInstanceAs (Decidable (_ ∧ _))

/-- The nearest real to the sum.  Operands far apart are never aligned: the
larger one is the answer. -/
def add (x y : Real256) : Real256 :=
  if y.value = 0 ∨ Dwarfs x.value y.value then x
  else if x.value = 0 ∨ Dwarfs y.value x.value then y
  else ofDyadic (x.value + y.value)

instance : Add Real256 := ⟨add⟩

/-- The nearest real to the difference. -/
def sub (x y : Real256) : Real256 := x + -y

instance : Sub Real256 := ⟨sub⟩

/-- The nearest real to the product. -/
def mul (x y : Real256) : Real256 := ofDyadic (x.value * y.value)

instance : Mul Real256 := ⟨mul⟩

/-- The nearest real to the quotient; a quotient by zero is `0`. -/
def div (x y : Real256) : Real256 :=
  match x.value, y.value with
  | .ofOdd n j _, .ofOdd m k _ => ofQuotient (n * m.sign) m.natAbs (k - j)
  | _, _ => 0

instance : Div Real256 := ⟨div⟩

/-- A product with zero is zero. -/
theorem mul_zero (x : Real256) : x * 0 = 0 := by
  change ofDyadic (x.value * 0) = 0
  rw [Dyadic.mul_zero]
  decide

/-- A product that fits is not rounded. -/
theorem value_mul_of_fits {x y : Real256} (h : Fits workingPrecision (x.value * y.value)) :
    (x * y).value = x.value * y.value := roundTo_of_fits h

/-! ## order and whole parts -/

/-- The numeric order. -/
def order (x y : Real256) : Ordering := Binary.order x.value y.value

/-- `-1`, `0` or `1`. -/
def sign (x : Real256) : Int := Binary.sign x.value

/-- The value is zero. -/
def isZero (x : Real256) : Bool := x.value = 0

/-- The value lies below zero. -/
def isNegative (x : Real256) : Bool := x.sign < 0

/-- The value lies above zero. -/
def isPositive (x : Real256) : Bool := 0 < x.sign

/-- No fractional part. -/
def isWhole (x : Real256) : Bool := IsWhole x.value

/-- An odd integer. -/
def isOdd (x : Real256) : Bool := IsOdd x.value

/-- The whole part, toward zero. -/
def truncate (x : Real256) : Int := Binary.truncate x.value

/-- The magnitude, which needs no rounding. -/
def abs (x : Real256) : Real256 := if x.isNegative then -x else x

/-- Rounding to a real keeps the sign. -/
theorem sign_ofQuotient (num : Int) {den : Nat} (scale : Int) (hden : den ≠ 0) :
    (ofQuotient num den scale).sign = num.sign := by
  unfold ofQuotient sign
  rw [dif_neg hden]
  exact sign_roundQuotient (by decide) num den scale hden

@[simp] theorem sign_neg (x : Real256) : (-x).sign = -x.sign := Binary.sign_neg x.value

end Real256

/-! ## infinities -/

/-- A real at working precision or one of the two infinities. -/
inductive ExtReal where
  | finite (x : Real256)
  | infinite (negative : Bool)
deriving DecidableEq

namespace ExtReal

/-- The order that puts the infinities at the two ends. -/
def order : ExtReal → ExtReal → Ordering
  | .finite x, .finite y => x.order y
  | .infinite s, .finite _ => if s then .lt else .gt
  | .finite _, .infinite s => if s then .gt else .lt
  | .infinite s, .infinite t => if s = t then .eq else if s then .lt else .gt

/-- The opposite of a finite real.  An infinity stands for a value that left
the range and keeps its sign. -/
def neg : ExtReal → ExtReal
  | .finite x => .finite (-x)
  | .infinite s => .infinite s

instance : Neg ExtReal := ⟨neg⟩

/-- The magnitude; that of either infinity is the positive one. -/
def abs : ExtReal → ExtReal
  | .finite x => .finite x.abs
  | .infinite _ => .infinite false

/-- Not an infinity. -/
def isFinite : ExtReal → Bool
  | .finite _ => true
  | .infinite _ => false

/-- The value is zero. -/
def isZero : ExtReal → Bool
  | .finite x => x.isZero
  | .infinite _ => false

/-- The value lies below zero. -/
def isNegative : ExtReal → Bool
  | .finite x => x.isNegative
  | .infinite s => s

/-- The value lies above zero. -/
def isPositive : ExtReal → Bool
  | .finite x => x.isPositive
  | .infinite s => !s

/-- No fractional part; an infinity has no whole part to compare with. -/
def isWhole : ExtReal → Bool
  | .finite x => x.isWhole
  | .infinite _ => false

end ExtReal

end SymCalc
