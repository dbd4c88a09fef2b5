import SymCalc.Expr.Weight

/-!
# SymCalc.Expr.Derivative

Symbolic differentiation.

1. An expression in which the variable does not occur has the derivative `0`,
   whatever it contains;
2. roundings and fractional parts are differentiated between their jumps, as
   `UnaryFn.offIntegers`;
3. a factorial or a goal-seek that depends on the variable has no derivative;
4. a logarithm to a base is differentiated as the quotient of natural
   logarithms, and a power after its base and exponent have been simplified.

The last rule leaves the tree, but not for anything heavier: `derive` ends as
every call is on a tree of less weight (`weight_quotientOfLogs`,
`weight_simplifyWith`).
-/

namespace SymCalc

/-- A function whose derivative does not need that of its argument: it is
constant between its jumps. -/
def UnaryFn.isStep : UnaryFn → Bool
  | .round _ | .offIntegers _ => true
  | _ => false

namespace Expr

/-- The constant `0`. -/
abbrev zero : Expr := .const .zero

/-- The constant `1`. -/
abbrev one : Expr := .const .one

/-- The rule for a function of one argument, from the argument and its
derivative; no rule for the factorial. -/
def applyRule (f : UnaryFn) (e : Expr) : Option (Expr → Expr) :=
  match f with
  | .ln => some fun d => product [d, invert e]
  | .exp => some fun d => product [.apply .exp e, d]
  | .sin => some fun d => product [.apply .cos e, d]
  | .cos => some fun d => negate (product [.apply .sin e, d])
  | .tan => some fun d => product [.pow (.apply .cos e) (.ofInt (-2)), d]
  | .frac => some fun d => product [.apply (.offIntegers .one) e, d]
  | .factorial | .round _ | .offIntegers _ => none

/-- `base ^ (exponent - 1)`. -/
def lowerPower (base exponent : Expr) : Expr := .pow base (sub exponent one)

variable [Elementary]

mutual

/-- The derivative before it is simplified. -/
def derive (solve : GoalSolver) (v : Variable) (e : Expr) : Logged Error Expr :=
  if e.isConstant v then pure zero
  else
    match e with
    | .var _ => pure one
    | .const _ => pure zero
    | .add terms => do
      let ds ← deriveTerms solve v terms
      pure (sum ds)
    | .mul factors => do
      let ds ← deriveFactors solve v [] factors
      pure (sum ds)
    | .neg e => do
      let d ← derive solve v e
      pure (negate d)
    | .inv e => do
      let d ← derive solve v e
      pure (negate (product [d, .pow e (.ofInt (-2))]))
    | .pow base exponent =>
      (simplifyWith solve base).andThenOk fun b _ =>
      (simplifyWith solve exponent).andThenOk fun p _ =>
      match b.isConstant v, p.isConstant v with
      | true, true => pure zero
      | true, false => do
        let dp ← derive solve v p
        pure (product [.pow b p, ln b, dp])
      | false, true => do
        let db ← derive solve v b
        pure (product [p, lowerPower b p, db])
      | false, false => do
        let db ← derive solve v b
        let dp ← derive solve v p
        pure (product [lowerPower b p, sum [product [p, db], product [b, ln b, dp]]])
    | .log base power => derive solve v (quotientOfLogs base power)
    | .apply f e =>
      if f.isStep then pure (.apply (.offIntegers .zero) e)
      else
        match applyRule f e with
        | some rule => do
          let d ← derive solve v e
          pure (rule d)
        | none => .fail .notDerivable
    | .goalSeek _ _ _ => .fail .notDerivable
termination_by 2 * e.weight
decreasing_by
  case _ => simp only [weight]; omega
  case _ => simp only [weight]; omega
  case _ => simp only [weight]; omega
  case _ => simp only [weight]; omega
  case _ => rename_i hp; have := weight_exponent_lt hp base; omega
  case _ => rename_i hb _; have := weight_base_lt hb exponent; omega
  case _ => rename_i hb _; have := weight_base_lt hb exponent; omega
  case _ => rename_i hp; have := weight_exponent_lt hp base; omega
  case _ => have := weight_quotientOfLogs base power; omega
  case _ => simp only [weight]; omega

/-- The derivatives of the terms of a sum. -/
def deriveTerms (solve : GoalSolver) (v : Variable) (es : List Expr) :
    Logged Error (List Expr) :=
  match es with
  | [] => pure []
  | e :: es => do
    let d ← derive solve v e
    let ds ← deriveTerms solve v es
    pure (d :: ds)
termination_by 2 * weightAll es + 1
decreasing_by
  case _ => simp only [weightAll]; omega
  case _ => have := one_le_weight e; simp only [weightAll]; omega

/-- The terms of the product rule for the factors after those `before`: each
factor that depends on the variable gives one, its derivative times all other
factors in their order. -/
def deriveFactors (solve : GoalSolver) (v : Variable) (before es : List Expr) :
    Logged Error (List Expr) :=
  match es with
  | [] => pure []
  | e :: es =>
    if e.isConstant v then deriveFactors solve v (before ++ [e]) es
    else do
      let d ← derive solve v e
      let ds ← deriveFactors solve v (before ++ [e]) es
      pure (product (d :: (before ++ es)) :: ds)
termination_by 2 * weightAll es + 1
decreasing_by
  case _ => have := one_le_weight e; simp only [weightAll]; omega
  case _ => simp only [weightAll]; omega
  case _ => have := one_le_weight e; simp only [weightAll]; omega

end

/-- The simplified derivative, with a given way to evaluate goal-seeks. -/
def derivativeWith (solve : GoalSolver) (v : Variable) (e : Expr) : Logged Error Expr := do
  let d ← derive solve v e
  simplifyWith solve d

/-- A derivative that is found is simplified. -/
theorem derivativeWith_of_derive_eq_ok {solve : GoalSolver} {v : Variable} {e d : Expr}
    (h : (derive solve v e).result = .ok d) :
    (derivativeWith solve v e).result = (simplifyWith solve d).result := by
  rw [derivativeWith, Logged.result_bind, h]
  rfl

end Expr

end SymCalc
