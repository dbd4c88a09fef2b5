import SymCalc.Real256.Basic

/-!
# SymCalc.Real256.Elementary

The elementary functions of the library of reals, of which nothing is known but
what is relied on: a logarithm and an exponential, exact at `1` and at `0`, and
an exponential that is positive.

The power `pow b e` of a positive base is `exp (e * ln b)`.  It is positive, and a
power of one is one (`isPositive_pow`, `one_pow`).
-/

namespace SymCalc

/-- The elementary functions of reals. -/
class Elementary where
  /-- The natural logarithm of a positive real. -/
  ln : Real256 → Real256
  /-- The exponential. -/
  exp : Real256 → Real256
  ln_one : ln 1 = 0
  exp_zero : exp 0 = 1
  isPositive_exp : ∀ x, (exp x).isPositive = true

namespace Real256

variable [Elementary]

/-- `base ^ exponent` for a positive base. -/
def pow (base exponent : Real256) : Real256 :=
  Elementary.exp (exponent * Elementary.ln base)

/-- Powers of one are one. -/
theorem one_pow (exponent : Real256) : pow 1 exponent = 1 := by
  rw [pow, Elementary.ln_one, mul_zero, Elementary.exp_zero]

/-- Powers of positive bases are positive. -/
theorem isPositive_pow (base exponent : Real256) : (base.pow exponent).isPositive = true :=
  Elementary.isPositive_exp _

end Real256

end SymCalc
