/-!
# SymCalc.Number.Error

The causes for which a numeric operation has no answer.
-/

namespace SymCalc

/-- The largest argument of the factorial: `12!` is the last factorial below
`2 ^ 31`. -/
def factorialLimit : Nat := 12

/-- Why a numeric operation has no answer. -/
inductive NumericError where
  /-- A divisor, or the base of a negative power, is zero. -/
  | divisionByZero
  /-- A logarithm of a number that is not positive. -/
  | logarithmOfNegative
  /-- `0 ^ 0`, or a negative base under an exponent that is not an integer. -/
  | invalidPower
  /-- A tangent where the cosine vanishes. -/
  | tangentOfVertical
  /-- A factorial of anything but a small natural number. -/
  | invalidFactorialArgument
  /-- An infinity has no nearest integer. -/
  | infiniteCannotBeRounded
  /-- The answer, or an operand on the way, is too large to write down. -/
  | precisionLimitExceeded
  /-- An operand is infinite. -/
  | nonFiniteOperand
  /-- The bits of a double that stand for no number. -/
  | notANumber
deriving DecidableEq

/-- The wording of each cause. -/
def NumericError.message : NumericError → String
  | .divisionByZero => "attempted to calculate a division by 0"
  | .logarithmOfNegative => "attempted to calculate the logarithm of a non-positive number"
  | .invalidPower => "attempted to calculate an invalid power (e.g. 0^0, x^y where x < 0)"
  | .tangentOfVertical => "attempted to calculate the tangent of a vertical angle"
  | .invalidFactorialArgument =>
    "factorial argument must be an integer between 0 and " ++ Nat.repr factorialLimit
  | .infiniteCannotBeRounded => "infinite numbers cannot be rounded"
  | .precisionLimitExceeded => "value exceeds the precision supported by this operation"
  | .nonFiniteOperand => "arithmetic on a non-finite value"
  | .notANumber => "not a number"

end SymCalc
