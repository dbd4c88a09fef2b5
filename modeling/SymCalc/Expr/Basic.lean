import SymCalc.Expr.Variable
import SymCalc.Number.Rounding

/-!
# SymCalc.Expr.Basic

Expression trees and the constructors that normalise as they build.

1. A node of `Expr` can be written down as it is; `sum`, `product`, `negate`
   and `invert` build the same nodes and keep them flat: no sum directly in a
   sum, no product in a product, no double negation or double reciprocal, no
   reciprocal of a negation, no negation of a negative constant;
2. functions of one argument share a node and are told apart by `UnaryFn`;
3. a goal-seek node stands for the value of one variable of its target at which
   the target meets the goal.  It names the factory of its algorithm; what the
   name stands for is settled when the tree is evaluated, and two nodes agree
   only if they name the same factory.
-/

namespace SymCalc

/-! ## trees -/

/-- A function of one argument. -/
inductive UnaryFn where
  | ln
  | exp
  | sin
  | cos
  | tan
  | factorial
  | frac
  | round (mode : RoundMode)
  /-- The constant `value`, undefined where the argument is an integer: the
  derivative of a function that jumps there. -/
  | offIntegers (value : Number)
deriving DecidableEq

/-- Two functions agree; the values they carry are compared as numbers. -/
def UnaryFn.agrees : UnaryFn → UnaryFn → Bool
  | .offIntegers x, .offIntegers y => x == y
  | f, g => f = g

/-- The name under which a factory of root-finding algorithms is known. -/
structure FactoryId where
  index : Nat
deriving DecidableEq

/-- What a goal-seek node says beside its two expressions: the variable it
solves for, the variables of the target as it was declared, and the factory of
its algorithm. -/
structure Inversion where
  unknown : Variable
  domain : Variables
  factory : FactoryId
deriving DecidableEq

/-- An expression. -/
inductive Expr where
  | var (v : Variable)
  | const (x : Number)
  | add (terms : List Expr)
  | mul (factors : List Expr)
  | neg (e : Expr)
  | inv (e : Expr)
  | pow (base exponent : Expr)
  | log (base power : Expr)
  | apply (f : UnaryFn) (e : Expr)
  | goalSeek (goal target : Expr) (inversion : Inversion)

namespace Expr

instance : Inhabited Expr := ⟨.const .zero⟩

/-! ## free variables -/

mutual

/-- The free variables.  The variable of a goal-seek is bound in its target. -/
def freeVars : Expr → Variables
  | .var v => .singleton v
  | .const _ => .empty
  | .add terms => freeVarsAll terms
  | .mul factors => freeVarsAll factors
  | .neg e => freeVars e
  | .inv e => freeVars e
  | .pow base exponent => (freeVars base).union (freeVars exponent)
  | .log base power => (freeVars base).union (freeVars power)
  | .apply _ e => freeVars e
  | .goalSeek goal target inversion =>
    ((freeVars target).erase inversion.unknown).union (freeVars goal)

/-- The free variables of a list of expressions. -/
def freeVarsAll : List Expr → Variables
  | [] => .empty
  | e :: es => (freeVars e).union (freeVarsAll es)

end

mutual

/-- `v` does not occur free. -/
def isConstant (v : Variable) : Expr → Bool
  | .var w => w ≠ v
  | .const _ => true
  | .add terms => allConstant v terms
  | .mul factors => allConstant v factors
  | .neg e => isConstant v e
  | .inv e => isConstant v e
  | .pow base exponent => isConstant v base && isConstant v exponent
  | .log base power => isConstant v base && isConstant v power
  | .apply _ e => isConstant v e
  | .goalSeek goal target inversion =>
    isConstant v goal && (v = inversion.unknown || isConstant v target)

/-- `v` does not occur free in a list of expressions. -/
def allConstant (v : Variable) : List Expr → Bool
  | [] => true
  | e :: es => isConstant v e && allConstant v es

end

/-! ## normalising constructors -/

/-- The terms of a sum; any other expression is its own only term. -/
def addends : Expr → List Expr
  | .add terms => terms
  | e => [e]

/-- The factors of a product; any other expression is its own only factor. -/
def factorsOf : Expr → List Expr
  | .mul factors => factors
  | e => [e]

/-- The sum of a list, with the sums among its members taken apart. -/
def sum (terms : List Expr) : Expr := .add (terms.flatMap addends)

/-- The product of a list, with the products among its members taken apart. -/
def product (factors : List Expr) : Expr := .mul (factors.flatMap factorsOf)

/-- The opposite.  Two negations cancel, and a negative constant changes its
sign. -/
def negate : Expr → Expr
  | .neg e => e
  | .const x => if x.isNegative then .const (-x) else .neg (.const x)
  | e => .neg e

/-- The reciprocal.  Two reciprocals cancel, and a negation is taken outside. -/
def invert : Expr → Expr
  | .inv e => e
  | .neg e => negate (invert e)
  | e => .inv e

/-- `a - b`. -/
def sub (a b : Expr) : Expr := sum [a, negate b]

/-- `a / b`. -/
def div (a b : Expr) : Expr := product [a, invert b]

/-- The root of the given degree. -/
def root (base degree : Expr) : Expr := .pow base (invert degree)

/-- The natural logarithm. -/
abbrev ln (e : Expr) : Expr := .apply .ln e

/-- The variable with a given name. -/
abbrev ofName (name : String) : Expr := .var ⟨name⟩

/-- An integer constant. -/
abbrev ofInt (n : Int) : Expr := .const (.integer n)

/-- The value of `v` at which `target` equals `goal`, found by an algorithm of
`factory`.  The variables of the target are noted now. -/
def seek (goal target : Expr) (v : Variable) (factory : FactoryId) : Expr :=
  .goalSeek goal target ⟨v, target.freeVars, factory⟩

instance : Add Expr := ⟨fun a b => sum [a, b]⟩
instance : Sub Expr := ⟨sub⟩
instance : Mul Expr := ⟨fun a b => product [a, b]⟩
instance : Div Expr := ⟨div⟩
instance : Neg Expr := ⟨negate⟩

/-! ## equality -/

mutual

/-- Trees of one shape with equal constants, compared as numbers across their
representations. -/
def agrees : Expr → Expr → Bool
  | .var v, .var w => v = w
  | .const x, .const y => x == y
  | .add ts, .add us => agreesAll ts us
  | .mul ts, .mul us => agreesAll ts us
  | .neg e, .neg e' => agrees e e'
  | .inv e, .inv e' => agrees e e'
  | .pow b e, .pow b' e' => agrees b b' && agrees e e'
  | .log b e, .log b' e' => agrees b b' && agrees e e'
  | .apply f e, .apply g e' => f.agrees g && agrees e e'
  | .goalSeek g t i, .goalSeek g' t' i' => agrees g g' && agrees t t' && i = i'
  | _, _ => false

/-- Lists of trees that agree one by one. -/
def agreesAll : List Expr → List Expr → Bool
  | [], [] => true
  | e :: es, e' :: es' => agrees e e' && agreesAll es es'
  | _, _ => false

end

instance : BEq Expr := ⟨agrees⟩

end Expr

end SymCalc
