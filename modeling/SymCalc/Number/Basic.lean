import SymCalc.Binary.Double
import SymCalc.Number.Domain
import SymCalc.Number.Error
import SymCalc.Real256.Basic

/-!
# SymCalc.Number.Basic

Numbers in three representations: integers and rationals of any size, kept
exactly, and reals at working precision.

1. The representation is part of a number: `4` the rational is not narrowed to
   `4` the integer, and a real stays a real;
2. values are compared across representations: exactly between exact numbers,
   after conversion to a real as soon as one side is real.
-/

namespace SymCalc

/-- An integer, a rational, or a real. -/
inductive Number where
  | integer (n : Int)
  | rational (q : Rat)
  | real (x : ExtReal)
deriving DecidableEq

namespace Number

/-- The integer `0`. -/
def zero : Number := .integer 0

/-- The integer `1`. -/
def one : Number := .integer 1

/-- The rational `n / d`, which is rational also where `d` divides `n`. -/
def fraction (n d : Int) : Except NumericError Number :=
  if d = 0 then .error .divisionByZero else .ok (.rational (Rat.divInt n d))

/-- The real with the value of a double.  Infinities are kept; the two zeros
are one. -/
def ofDouble (d : Double) : Except NumericError Number :=
  if d.isNaN then .error .notANumber
  else if d.isInfinite then .ok (.real (.infinite d.isNegative))
  else .ok (.real (.finite (.ofDyadic d.value)))

/-! ## classification -/

/-- The narrowest domain of a number, read off its representation. -/
def domain : Number → Domain
  | .integer n => if 0 < n then .positive else if n = 0 then .natural else .integer
  | .rational _ => .rational
  | .real _ => .real

/-- Membership in a domain: the narrowest domain is part of it. -/
def belongsTo (x : Number) (d : Domain) : Bool := x.domain ≤ d

/-- Not an infinity; exact numbers never are. -/
def isFinite : Number → Bool
  | .real x => x.isFinite
  | _ => true

/-- No fractional part; false for the infinities. -/
def isIntegral : Number → Bool
  | .integer _ => true
  | .rational q => q.den = 1
  | .real x => x.isWhole

/-- The value is `0`, in whatever representation. -/
def isZero : Number → Bool
  | .integer n => n = 0
  | .rational q => q = 0
  | .real x => x.isZero

/-- The value is `1`, in whatever representation. -/
def isOne : Number → Bool
  | .integer n => n = 1
  | .rational q => q = 1
  | .real x => x = .finite 1

/-- The value lies below zero. -/
def isNegative : Number → Bool
  | .integer n => n < 0
  | .rational q => q.num < 0
  | .real x => x.isNegative

/-- The value lies above zero. -/
def isPositive : Number → Bool
  | .integer n => 0 < n
  | .rational q => 0 < q.num
  | .real x => x.isPositive

/-- The two numbers lie strictly on different sides of zero. -/
def oppositeSigns (a b : Number) : Bool :=
  a.isNegative && b.isPositive || a.isPositive && b.isNegative

/-! ## conversion -/

/-- The nearest real to a rational, from the nearest reals to its two parts. -/
def realOfRat (q : Rat) : Real256 := Real256.ofInt q.num / Real256.ofInt q.den

/-- The number as a real. -/
def toReal : Number → ExtReal
  | .integer n => .finite (.ofInt n)
  | .rational q => .finite (realOfRat q)
  | .real x => x

/-- The number as a real on which arithmetic is defined. -/
def finiteReal : Number → Except NumericError Real256
  | .integer n => .ok (.ofInt n)
  | .rational q => .ok (realOfRat q)
  | .real (.finite x) => .ok x
  | .real (.infinite _) => .error .nonFiniteOperand

/-- The integer of a number in that representation. -/
def toInt? : Number → Option Int
  | .integer n => some n
  | _ => none

/-- The value of an exact number. -/
def toRat? : Number → Option Rat
  | .integer n => some n
  | .rational q => some q
  | .real _ => none

/-! ## order -/

/-- The order of two rationals. -/
def orderRat (a b : Rat) : Ordering := if a < b then .lt else if b < a then .gt else .eq

/-- The numeric order across representations. -/
def order : Number → Number → Ordering
  | .integer a, .integer b => compare a b
  | .integer a, .rational b => orderRat a b
  | .rational a, .integer b => orderRat a b
  | .rational a, .rational b => orderRat a b
  | a, b => a.toReal.order b.toReal

/-- Numbers are equal when their values are, whatever their representations. -/
instance : BEq Number := ⟨fun a b => a.order b = .eq⟩

instance : LE Number := ⟨fun a b => a.order b ≠ .gt⟩

instance : LT Number := ⟨fun a b => a.order b = .lt⟩

instance (a b : Number) : Decidable (a ≤ b) := inferInstanceAs (Decidable (_ ≠ _))

instance (a b : Number) : Decidable (a < b) := inferInstanceAs (Decidable (_ = _))

/-! ## sign -/

/-- The opposite number, in the same representation. -/
def neg : Number → Number
  | .integer n => .integer (-n)
  | .rational q => .rational (-q)
  | .real x => .real (-x)

instance : Neg Number := ⟨neg⟩

/-- The magnitude, in the same representation. -/
def abs : Number → Number
  | .integer n => .integer n.natAbs
  | .rational q => .rational (if q.num < 0 then -q else q)
  | .real x => .real x.abs

@[simp] theorem neg_integer (n : Int) : -integer n = integer (-n) := rfl
@[simp] theorem neg_rational (q : Rat) : -rational q = rational (-q) := rfl
@[simp] theorem neg_real (x : ExtReal) : -real x = real (-x) := rfl

end Number

end SymCalc
