import SymCalc.Log
import SymCalc.Number.Angle
import SymCalc.Number.Factorial
import SymCalc.Number.Power

/-!
# SymCalc.Expr.Evaluate

The value of an expression under bindings of its variables.

Operands are evaluated from left to right, and the first error ends the
evaluation.  How a goal-seek node gets its value is a parameter, a
`GoalSolver`: the rest of the tree is evaluated by recursion on its shape.
-/

namespace SymCalc

/-- How a goal-seek node is evaluated, from its goal, its target and its
inversion, under bindings. -/
abbrev GoalSolver := Expr → Expr → Inversion → Arguments → Logged Error Number

/-- The solver for trees without goal-seek nodes, which is never asked. -/
def GoalSolver.none : GoalSolver := fun _ _ inversion _ =>
  .fail (.unknownNotInDomain inversion.unknown)

/-- The value of a function at a number. -/
def UnaryFn.eval [Elementary] (f : UnaryFn) (x : Number) : Except Error Number :=
  match f with
  | .ln => x.ln.mapError .numeric
  | .exp => x.exp.mapError .numeric
  | .sin => x.sin.mapError .numeric
  | .cos => x.cos.mapError .numeric
  | .tan => x.tan.mapError .numeric
  | .factorial => x.factorial.mapError .numeric
  | .frac => x.frac.mapError .numeric
  | .round mode => (x.round mode).mapError .numeric
  | .offIntegers value =>
    if x.isFinite then
      if x.isIntegral then .error .undefinedOnInteger else .ok value
    else .error (.numeric .infiniteCannotBeRounded)

/-- A numeric result as a step of a computation on expressions. -/
def Logged.numeric {α : Type} (r : Except NumericError α) : Logged Error α :=
  .ofExcept (r.mapError .numeric)

/-- A numeric step succeeds when the operation does. -/
theorem Logged.result_numeric_eq_ok {α : Type} {r : Except NumericError α} {a : α} :
    (Logged.numeric r).result = .ok a ↔ r = .ok a := by
  cases r with
  | error e => exact iff_of_false nofun nofun
  | ok x => constructor <;> (rintro ⟨⟩; rfl)

/-- A numeric step fails with the error of the operation. -/
theorem Logged.result_numeric_eq_error {α : Type} {r : Except NumericError α} {e : Error} :
    (Logged.numeric r).result = .error e ↔ ∃ cause, r = .error cause ∧ .numeric cause = e := by
  cases r <;> simp [Logged.numeric, mapError_ok, mapError_error]

namespace Expr

variable [Elementary]

mutual

/-- The value of an expression, with a given way to evaluate goal-seeks. -/
def evaluateWith (solve : GoalSolver) (args : Arguments) : Expr → Logged Error Number
  | .var v =>
    match args.get? v with
    | some x => pure x
    | none => .fail (.undefinedValue v)
  | .const x => pure x
  | .add terms => do
    let xs ← evaluateAllWith solve args terms
    .numeric (Number.sum xs)
  | .mul factors => do
    let xs ← evaluateAllWith solve args factors
    .numeric (Number.product xs)
  | .neg e => do
    let x ← evaluateWith solve args e
    pure (-x)
  | .inv e => do
    let x ← evaluateWith solve args e
    .numeric x.inv
  | .pow base exponent => do
    let b ← evaluateWith solve args base
    let e ← evaluateWith solve args exponent
    .numeric (b.pow e)
  | .log base power => do
    let b ← evaluateWith solve args base
    let p ← evaluateWith solve args power
    .numeric (b.log p)
  | .apply f e => do
    let x ← evaluateWith solve args e
    .ofExcept (f.eval x)
  | .goalSeek goal target inversion => solve goal target inversion args

/-- The values of a list of expressions. -/
def evaluateAllWith (solve : GoalSolver) (args : Arguments) :
    List Expr → Logged Error (List Number)
  | [] => pure []
  | e :: es => do
    let x ← evaluateWith solve args e
    let xs ← evaluateAllWith solve args es
    pure (x :: xs)

end

end Expr

end SymCalc
