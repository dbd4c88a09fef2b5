import SymCalc.Expr.Variable
import SymCalc.Newton.Config
import SymCalc.Number.Machine

/-!
# SymCalc.Error

Why an expression has no value, no normal form or no derivative, and why a
search finds no root.

The two are entangled: a goal-seek node runs a search while an expression is
evaluated, and a search evaluates expressions.  A failure of an algorithm or of
its factory is kept whole inside the error of the expression.
-/

namespace SymCalc

mutual

/-- Why an expression could not be evaluated or transformed. -/
inductive Error where
  /-- A free variable has no value. -/
  | undefinedValue (v : Variable)
  /-- A factorial or a goal-seek depends on the variable of differentiation. -/
  | notDerivable
  /-- A derivative of a rounding is asked for at one of its jumps. -/
  | undefinedOnInteger
  | numeric (e : NumericError)
  /-- The target of a goal-seek was declared without the variable to solve
  for. -/
  | unknownNotInDomain (v : Variable)
  /-- The equation of a goal-seek is not one in its variable alone. -/
  | notSingleVariable (count : Nat)
  | algorithm (cause : Failure)

/-- Why a search found no root. -/
inductive SolveError where
  | invalidConfig (e : Newton.ConfigError)
  | notSingleVariable (count : Nat)
  | expression (e : Error)
  /-- The derivative vanished at every point that was tried, the last of them
  `x`. -/
  | maxCorrectionsExceeded (x : Number) (iter : Nat)
  | iterationsExhausted (maxIters : Nat)

/-- Why an algorithm, or the factory that was to build it, gave up. -/
inductive Failure where
  | search (e : SolveError)
  | config (e : Newton.ConfigError)
  /-- A cause known by its text only. -/
  | other (message : String)

end

/-- The wording of an error; an algorithm's own words are not repeated. -/
def Error.message : Error → String
  | .undefinedValue v => "no value bound to variable `" ++ v.name ++ "`"
  | .notDerivable => "expression is not derivable"
  | .undefinedOnInteger => "derivative is undefined on integer values"
  | .numeric e => "numeric error: " ++ e.message
  | .unknownNotInDomain v =>
    "inverted variable `" ++ v.name ++ "` does not occur in the target expression"
  | .notSingleVariable count =>
    "expected exactly one free variable, found " ++ Nat.repr count
  | .algorithm _ => "goal-seek algorithm failed"

/-- The wording of a search error. -/
def SolveError.message : SolveError → String
  | .invalidConfig e => "invalid config: " ++ e.message
  | .notSingleVariable count =>
    "expected exactly one free variable, found " ++ Nat.repr count
  | .expression e => "expression error: " ++ e.message
  | .maxCorrectionsExceeded x iter =>
    "derivative stayed zero after every correction at x = " ++ x.text ++
      " (iteration " ++ Nat.repr iter ++ ")"
  | .iterationsExhausted maxIters =>
    "no root found within " ++ Nat.repr maxIters ++ " iterations"

/-- The wording of a failure. -/
def Failure.message : Failure → String
  | .search e => e.message
  | .config e => e.message
  | .other message => message

end SymCalc
