import SymCalc.Expr.Basic
import SymCalc.Real256.Series

/-!
# SymCalc.Models

Expressions of finance and kinematics, built with the operators on expressions.
They are run with the elementary functions of `SymCalc.Real256.Series`.
-/

namespace SymCalc.Models

open SymCalc.Expr (ofName ofInt)

/-- The value of a principal after years of compound interest:
`principal * (1 + rate) ^ years`. -/
def futureValue : Expr :=
  ofName "principal" * .pow (ofInt 1 + ofName "rate") (ofName "years")

/-- The present value of a payment per period:
`payment * (1 - (1 + rate) ^ -periods) / rate`. -/
def annuityPresentValue : Expr :=
  let growth := Expr.pow (ofInt 1 + ofName "rate") (-ofName "periods")
  ofName "payment" * (ofInt 1 - growth) / ofName "rate"

/-- The height of a projectile: `h0 + v0 * t - g * t ^ 2 / 2`. -/
def height : Expr :=
  ofName "h0" + ofName "v0" * ofName "t" -
    ofName "g" * .pow (ofName "t") (ofInt 2) / ofInt 2

end SymCalc.Models
