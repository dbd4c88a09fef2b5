import SymCalc.Expr.Depth

/-!
# SymCalc.GoalSeek.Factory

What a goal-seek node needs from outside: a factory that builds an algorithm,
and an algorithm that finds a root.

1. An `Equation` is what an algorithm is given: an expression to bring to zero,
   the variable it depends on, its values at points, and its derivative on
   demand;
2. a `Factory` builds an `Algorithm` from the bindings of one evaluation;
3. a `Catalogue` tells which factory each name stands for.

Algorithms see the values of the one expression at hand, and nothing else of
the evaluation that runs them.
-/

namespace SymCalc

/-- An expression in one variable together with its values. -/
structure Curve where
  expr : Expr
  valueAt : Number → Logged Error Number

/-- An expression to bring to zero by the choice of one variable. -/
structure Equation where
  unknown : Variable
  curve : Curve
  /-- The derivative by the unknown. -/
  slope : Logged Error Curve

/-- Finds a value of the unknown at which the expression vanishes. -/
abbrev Algorithm := Equation → Logged Failure Number

/-- Builds an algorithm from the bindings of an evaluation, the variable to
solve for, and the variables of the target as it was declared. -/
abbrev Factory := Arguments → Variable → Variables → Logged Failure Algorithm

/-- The factories by their names. -/
abbrev Catalogue := FactoryId → Factory

/-- The factory that always fails, for a cause known by its text. -/
def Factory.failing (message : String) : Factory := fun _ _ _ => .fail (.other message)

/-- The factory of the algorithm that always answers `x`. -/
def Factory.constant (x : Number) : Factory := fun _ _ _ => pure fun _ => pure x

/-- The factories of a list, named by their places in it. -/
def Catalogue.ofList (factories : List Factory) : Catalogue := fun id =>
  factories.getD id.index (Factory.failing "no such factory")

/-- The catalogue without factories. -/
def Catalogue.empty : Catalogue := Catalogue.ofList []

variable [Elementary]

/-- The expression as a curve over one variable, with a given way to evaluate
goal-seeks. -/
def Curve.ofExpr (solve : GoalSolver) (v : Variable) (e : Expr) : Curve where
  expr := e
  valueAt x := e.evaluateWith solve (.single v x)

/-- The equation `e = 0` in one variable, with a given way to evaluate
goal-seeks. -/
def Equation.ofExpr (solve : GoalSolver) (v : Variable) (e : Expr) : Equation where
  unknown := v
  curve := .ofExpr solve v e
  slope := do
    let d ← e.derivativeWith solve v
    pure (.ofExpr solve v d)

end SymCalc
