import SymCalc.Number.Arith
import SymCalc.Real256.Elementary

/-!
# SymCalc.Number.Power

Powers, roots, exponentials and logarithms of numbers.

1. An integer power of an integer is exact: an integer for exponents from zero
   on, a rational for negative ones, and refused where it would be too long to
   write down;
2. every other power is `exp (e * ln b)` in the reals, with the sign of a
   negative base decided by the parity of the exponent;
3. exponentials and logarithms are real.

The exponential and the logarithm of reals are those of any `Elementary`.
-/

namespace SymCalc

attribute [local instance] Binary.corePow

/-- The most bits an exact power may take. -/
def maxExactPowerBits : Nat := 2 ^ (24 : Nat)

/-- The bits of a machine word, in which exponents and sizes are counted. -/
def wordBits : Nat := 64

namespace Number

/-! ## integer powers -/

/-- The bit length of a magnitude; `0` for zero. -/
def bitLength (n : Nat) : Nat := if n = 0 then 0 else n.log2 + 1

/-- The power of `0`, `1` or `-1` to an exponent above zero, of which only the parity
counts. -/
def trivialPower? (b : Int) (e : Nat) : Option Int :=
  if b = 0 ∨ b = 1 then some b
  else if b = -1 then some (if e % 2 = 1 then -1 else 1)
  else none

/-- `a * b`, where it can be counted in a word. -/
def wordMul? (a b : Nat) : Option Nat :=
  if a * b < 2 ^ wordBits then some (a * b) else none

/-- `result * factor ^ e` by squaring, in one round for each binary digit of `e` from
the lowest on.  Nothing is squared after the last digit that is set. -/
def squareMultiply : Nat → Int → Int → Nat → Int
  | 0, result, _, _ => result
  | digits + 1, result, factor, e =>
    squareMultiply digits (if e % 2 = 1 then result * factor else result)
      (if e / 2 = 0 then factor else factor * factor) (e / 2)

/-- `b ^ e` for an exponent above zero.  It is refused before anything is multiplied
if the exponent or the size of the power cannot be counted in a word, or the size is
over the limit. -/
def exactPower (b : Int) (e : Nat) : Except NumericError Int :=
  match trivialPower? b e with
  | some p => .ok p
  | none =>
    if 2 ^ wordBits ≤ e then .error .precisionLimitExceeded
    else
      match wordMul? (bitLength b.natAbs) e with
      | none => .error .precisionLimitExceeded
      | some bits =>
        if maxExactPowerBits < bits then .error .precisionLimitExceeded
        else .ok (squareMultiply (bitLength e) 1 b e)

/-- `b ^ e` for integers.  A zero exponent is looked at before a zero base. -/
def powInt (b e : Int) : Except NumericError Number :=
  if e = 0 then
    if b = 0 then .error .invalidPower else .ok one
  else if e < 0 ∧ b = 0 then .error .divisionByZero
  else do
    let p ← exactPower b e.natAbs
    .ok (if e < 0 then .rational (Rat.divInt 1 p) else .integer p)

/-! ## real powers -/

variable [Elementary]

/-- `b ^ e` for reals. -/
def powReal (b e : Real256) : Except NumericError Real256 :=
  if b.isZero then
    if e.isPositive then .ok b
    else if e.isZero then .error .invalidPower
    else .error .divisionByZero
  else if b.isPositive then .ok (b.pow e)
  else if e.isWhole then
    let magnitude := (-b).pow e
    .ok (if e.isOdd then -magnitude else magnitude)
  else .error .invalidPower

/-- `b ^ e`.  Outside the integers the power is real. -/
def pow (b e : Number) : Except NumericError Number := do
  match ← OperandPair.unify b e with
  | .integers b e => powInt b e
  | .rationals b e =>
    let p ← powReal (realOfRat b) (realOfRat e)
    .ok (.real (.finite p))
  | .reals b e =>
    let p ← powReal b e
    .ok (.real (.finite p))

/-- The root of the given degree, as the power with the reciprocal exponent. -/
def root (b degree : Number) : Except NumericError Number := do
  let e ← degree.inv
  b.pow e

/-! ## exponentials and logarithms -/

/-- The natural logarithm of a positive real. -/
def lnReal (x : Real256) : Except NumericError Real256 :=
  if x.isPositive then .ok (Elementary.ln x) else .error .logarithmOfNegative

/-- The natural logarithm. -/
def ln (x : Number) : Except NumericError Number := do
  let x ← x.finiteReal
  let y ← lnReal x
  .ok (.real (.finite y))

/-- The logarithm of `power` to a base, as a quotient of natural logarithms.
The power is looked at before the base. -/
def log (base power : Number) : Except NumericError Number := do
  let power ← power.finiteReal
  let numerator ← lnReal power
  let base ← base.finiteReal
  let denominator ← lnReal base
  if denominator.isZero then .error .divisionByZero
  else .ok (.real (.finite (numerator / denominator)))

/-- The exponential. -/
def exp (x : Number) : Except NumericError Number := do
  let x ← x.finiteReal
  .ok (.real (.finite (Elementary.exp x)))

end Number

end SymCalc
