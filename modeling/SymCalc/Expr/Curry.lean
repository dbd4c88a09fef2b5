import SymCalc.Expr.Simplify

/-!
# SymCalc.Expr.Curry

Partial evaluation: variables with a binding are replaced by their values, and
every node on the way up is rebuilt and simplified.

The variable of a goal-seek is bound by the node: its target is curried without
a binding of that name, its goal with all of them.
-/

namespace SymCalc.Expr

variable [Elementary]

mutual

/-- The tree with bound variables replaced, with a given way to evaluate
goal-seeks. -/
def curryWith (solve : GoalSolver) (args : Arguments) : Expr → Logged Error Expr
  | .var v =>
    match args.get? v with
    | some x => pure (.const x)
    | none => pure (.var v)
  | .const x => pure (.const x)
  | .add terms => do
    let terms ← curryAllWith solve args terms
    simplifyWith solve (sum terms)
  | .mul factors => do
    let factors ← curryAllWith solve args factors
    simplifyWith solve (product factors)
  | .neg e => do
    let e ← curryWith solve args e
    simplifyWith solve (negate e)
  | .inv e => do
    let e ← curryWith solve args e
    simplifyWith solve (invert e)
  | .pow base exponent => do
    let base ← curryWith solve args base
    let exponent ← curryWith solve args exponent
    simplifyWith solve (.pow base exponent)
  | .log base power => do
    let base ← curryWith solve args base
    let power ← curryWith solve args power
    simplifyWith solve (.log base power)
  | .apply f e => do
    let e ← curryWith solve args e
    simplifyWith solve (.apply f e)
  | .goalSeek goal target inversion => do
    let goal ← curryWith solve args goal
    let target ← curryWith solve (args.erase inversion.unknown) target
    simplifyWith solve (.goalSeek goal target inversion)

/-- The curried members of a list. -/
def curryAllWith (solve : GoalSolver) (args : Arguments) :
    List Expr → Logged Error (List Expr)
  | [] => pure []
  | e :: es => do
    let e ← curryWith solve args e
    let es ← curryAllWith solve args es
    pure (e :: es)

end

end SymCalc.Expr
