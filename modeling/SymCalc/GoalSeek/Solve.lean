import SymCalc.GoalSeek.Factory

/-!
# SymCalc.GoalSeek.Solve

Goal-seek nodes solved, and with them the operations on all expressions:
`Expr.evaluate`, `Expr.simplify`, `Expr.curry` and `Expr.derivative`, each under
a catalogue of factories.

A goal-seek poses the equation `target - goal = 0`, whose expression may hold
the goal-seeks nested in its target, but not the node itself.  So goal-seeks
are solved in levels: at level `n + 1` by means of level `n`, and the level of
an operation is the depth to which goal-seeks are nested in its operand.
-/

namespace SymCalc

variable [Elementary]

/-- The value of a goal-seek node by means of a solver for the goal-seeks nested
in it.

The goal is evaluated, the algorithm built from all bindings, and the target
curried by those of the other variables; what is left must be an equation in
the unknown alone. -/
def solveSeek (catalogue : Catalogue) (nested : GoalSolver) : GoalSolver :=
  fun goal target inversion args => do
    let unknown := inversion.unknown
    if unknown ∈ inversion.domain then
      let goalValue ← goal.evaluateWith nested args
      let algorithm ← (catalogue inversion.factory args unknown inversion.domain).mapError
        Error.algorithm
      let target ← target.curryWith nested (args.erase unknown)
      let expr := Expr.sub target (.const goalValue)
      if expr.freeVars.size = 1 ∧ unknown ∈ expr.freeVars then
        .report (.seeking unknown expr)
        let root ← (algorithm (.ofExpr nested unknown expr)).mapError Error.algorithm
        .report (.found unknown root)
        pure root
      else .fail (.notSingleVariable expr.freeVars.size)
    else .fail (.unknownNotInDomain unknown)

/-- The solver for goal-seeks nested at most so deep. -/
def solveAt (catalogue : Catalogue) : Nat → GoalSolver
  | 0 => .none
  | level + 1 => solveSeek catalogue (solveAt catalogue level)

namespace Expr

variable (catalogue : Catalogue)

/-- The solver for the goal-seeks in an expression. -/
def solver (e : Expr) : GoalSolver := solveAt catalogue e.seekDepth

/-- The value of an expression under bindings of its free variables. -/
def evaluate (e : Expr) (args : Arguments) : Logged Error Number :=
  e.evaluateWith (e.solver catalogue) args

/-- The expression with constants folded and neutral elements removed. -/
def simplify (e : Expr) : Logged Error Expr := e.simplifyWith (e.solver catalogue)

/-- The expression with bound variables replaced by their values, simplified. -/
def curry (e : Expr) (args : Arguments) : Logged Error Expr :=
  e.curryWith (e.solver catalogue) args

/-- The simplified derivative by a variable. -/
def derivative (e : Expr) (v : Variable) : Logged Error Expr :=
  e.derivativeWith (e.solver catalogue) v

/-- The equation `e = 0` in one variable. -/
def equation (e : Expr) (v : Variable) : Equation := .ofExpr (e.solver catalogue) v e

end Expr

end SymCalc
