import SymCalc.Binary.Nearest
import SymCalc.Binary.Scale

/-!
# SymCalc.Binary.Double

The double-precision interchange format: 64 bits that hold a sign, an exponent
field of 11 bits and a fraction field of 52 bits.

1. `Double.ofDyadic` rounds to nearest, ties to even, through the subnormal
   range down to zero and up to infinity;
2. `Double.narrow` rounds in two steps, which makes a difference in the
   subnormal range only: to the bits of a double first, then to its places;
3. `Double.value` reads a finite number back, exactly;
4. `Double.mul` and `Double.inv` are the operations on positive numbers that
   powers of ten need.

All of it is integer arithmetic on the two fields.
-/

namespace SymCalc

attribute [local instance] Binary.corePow

/-- A double-precision number, by its bits. -/
structure Double where
  bits : UInt64
deriving DecidableEq

namespace Double

open Binary

/-! ## fields -/

/-- The number of fraction bits. -/
def fractionBits : Nat := 52

/-- The exponent of the last place of subnormal numbers. -/
def leastPlace : Int := -1074

/-- The sign bit. -/
def isNegative (d : Double) : Bool := 2 ^ (63 : Nat) ≤ d.bits.toNat

/-- The exponent and fraction fields, read as one number.  It grows with the
magnitude. -/
def code (d : Double) : Nat := d.bits.toNat % 2 ^ (63 : Nat)

/-- The code of the infinities; larger codes are not numbers. -/
def infiniteCode : Nat := 2047 <<< fractionBits

/-- The bits stand for no number. -/
def isNaN (d : Double) : Bool := infiniteCode < d.code

/-- One of the two infinities. -/
def isInfinite (d : Double) : Bool := d.code = infiniteCode

/-- A number with a value. -/
def isFinite (d : Double) : Bool := d.code < infiniteCode

/-- The double with the given sign and code. -/
def ofCode (negative : Bool) (code : Nat) : Double :=
  ⟨.ofNat ((if negative then 2 ^ (63 : Nat) else 0) + code)⟩

/-- The significand of a finite number, the leading bit included. -/
def significand (d : Double) : Nat :=
  if d.code < 2 ^ fractionBits then d.code
  else d.code % 2 ^ fractionBits + 2 ^ fractionBits

/-- The exponent of the last place of a finite number. -/
def place (d : Double) : Int :=
  if d.code < 2 ^ fractionBits then leastPlace
  else (d.code >>> fractionBits : Nat) - 1 + leastPlace

/-- The value of a finite number; both zeros have the value `0`. -/
def value (d : Double) : Dyadic :=
  .ofIntWithPrec (if d.isNegative then -(d.significand : Int) else d.significand) (-d.place)

/-! ## rounding -/

/-- The code of the double nearest to `a / b * 2 ^ scale`, for positive `a` and
`b`.

The last place lies 52 bits below the leading one, but not below that of
subnormal numbers; the significand there is one quotient.  A significand that
rounds up to the next power of two carries into the exponent field by itself. -/
def nearestCode (a b : Nat) (scale : Int) : Nat :=
  let top : Int := scale - quotientShift 1 a b
  if 1024 ≤ top then infiniteCode
  else if top < leastPlace - 1 then 0
  else
    let place := max (top - fractionBits) leastPlace
    let shift := scale - place
    let m := nearestEven (a <<< shift.toNat) (b <<< (-shift).toNat)
    min (m + ((place - leastPlace).toNat <<< fractionBits)) infiniteCode

/-- The double nearest to `x`; what is too large becomes infinite, and a
negative number too small to hold becomes the negative zero. -/
def ofDyadic : Dyadic → Double
  | .zero => ofCode false 0
  | .ofOdd n k _ => ofCode (n < 0) (nearestCode n.natAbs 1 (-k))

/-- The double nearest to `a / b`, for positive `a` and `b`. -/
def ofRatio (a b : Nat) : Double := ofCode false (nearestCode a b 0)

/-- The significant bits of a normal number, the leading bit included. -/
def precision : Nat := fractionBits + 1

/-- What the magnitude `m * 2 ^ (-k)` holds at a quarter of the last place of
subnormal numbers, as a part of `m`. -/
def quarterPlace (m : Nat) (k : Int) : Nat :=
  let i := k + leastPlace - 2
  if 0 ≤ i ∧ m.testBit i.toNat then 1 <<< i.toNat else 0

/-- The double for `x`, rounded to the bits of a double first and to its places
after that, both times to nearest with ties to even.

The second step looks at the first bit that has no place and at those from the
third on, but passes over the one between them: three quarters of the last
place count as a half.  A normal number has all its bits in place, so that only
the first step rounds it. -/
def narrow (x : Dyadic) : Double :=
  match roundTo precision x with
  | .zero => ofCode false 0
  | .ofOdd n k _ => ofCode (n < 0) (nearestCode (n.natAbs - quarterPlace n.natAbs k) 1 (-k))

/-- The infinity of the given sign. -/
def infinity (negative : Bool) : Double := ofCode negative infiniteCode

/-! ## operations -/

/-- The double nearest to the product of two positive numbers. -/
def mul (x y : Double) : Double :=
  if x.isInfinite || y.isInfinite then infinity false
  else ofDyadic (x.value * y.value)

/-- The double nearest to the reciprocal of a positive number. -/
def inv (x : Double) : Double :=
  if x.isInfinite then ofCode false 0
  else ofCode false (nearestCode 1 x.significand (-x.place))

/-- `r * a ^ n` by repeated squaring, with one rounding for each product. -/
def mulPow (r a : Double) (n : Nat) : Double :=
  let r := if n % 2 = 1 then r.mul a else r
  if n / 2 = 0 then r else mulPow r (a.mul a) (n / 2)
termination_by n

end Double

end SymCalc
