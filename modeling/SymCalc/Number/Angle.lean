import SymCalc.Number.Machine

/-!
# SymCalc.Number.Angle

Sine, cosine and tangent, evaluated on doubles and returned as reals.

The angle is narrowed to a double; an angle beyond the range of doubles is
refused, and so is a tangent at which the cosine vanishes up to the
spacing of doubles next to one.
-/

namespace SymCalc

namespace Double

/-- A function on machine numbers, seen through their bits. -/
def lift (f : Float → Float) (d : Double) : Double := ⟨(f (Float.ofBits d.bits)).toBits⟩

/-- The code of `2 ^ -52`, the spacing of doubles above one. -/
def spacingCode : Nat := 971 <<< fractionBits

end Double

namespace Number

/-- The angle as a double. -/
def angle (x : Number) : Except NumericError Double := do
  let x ← x.finiteReal
  let d := Double.narrow x.value
  if d.isFinite then .ok d else .error .precisionLimitExceeded

/-- The sine of an angle in radians. -/
def sin (x : Number) : Except NumericError Number := do
  let d ← x.angle
  ofDouble (d.lift Float.sin)

/-- The cosine of an angle in radians. -/
def cos (x : Number) : Except NumericError Number := do
  let d ← x.angle
  ofDouble (d.lift Float.cos)

/-- The tangent of an angle in radians. -/
def tan (x : Number) : Except NumericError Number := do
  let d ← x.angle
  if (d.lift Float.cos).code ≤ Double.spacingCode then .error .tangentOfVertical
  else ofDouble (d.lift Float.tan)

end Number

end SymCalc
