import SymCalc.Number.Arith

/-!
# SymCalc.Number.Rounding

Rounding to an integer in four directions, and the fractional part.

A number is first cut off toward zero; unless it was whole, a direction that
leads away from zero on its side then moves the result by one.
-/

namespace SymCalc

/-- The direction in which a number is rounded to an integer. -/
inductive RoundMode where
  /-- Toward positive infinity. -/
  | ceil
  /-- Toward negative infinity. -/
  | floor
  /-- Toward zero. -/
  | inward
  /-- Away from zero. -/
  | outward
deriving DecidableEq

namespace RoundMode

/-- The name of a direction. -/
def name : RoundMode → String
  | ceil => "ceil"
  | floor => "floor"
  | inward => "inward"
  | outward => "outward"

/-- The direction with a given name. -/
def ofName? (s : String) : Option RoundMode :=
  [ceil, floor, inward, outward].find? (·.name = s)

/-- The step from the whole part toward zero of a number that is not whole to
its rounding. -/
def step (mode : RoundMode) (negative : Bool) : Int :=
  match mode, negative with
  | inward, _ | ceil, true | floor, false => 0
  | outward, true | floor, true => -1
  | outward, false | ceil, false => 1

end RoundMode

namespace Number

/-- The whole part toward zero. -/
def truncate : Number → Except NumericError Int
  | .integer n => .ok n
  | .rational q => .ok (q.num.tdiv q.den)
  | .real (.finite x) => .ok x.truncate
  | .real (.infinite _) => .error .infiniteCannotBeRounded

/-- The number rounded to an integer. -/
def round (x : Number) (mode : RoundMode) : Except NumericError Number := do
  let n ← x.truncate
  .ok (.integer (if x.isIntegral then n else n + mode.step x.isNegative))

/-- The whole part toward zero and the rest, which keeps the sign and the
representation of the number. -/
def split (x : Number) : Except NumericError (Number × Number) := do
  let whole ← x.round .inward
  let rest ← sub x [whole]
  .ok (whole, rest)

/-- The fractional part: what lies between the number and its rounding toward
zero. -/
def frac (x : Number) : Except NumericError Number := do
  let whole ← x.round .inward
  sub x [whole]

end Number

end SymCalc
