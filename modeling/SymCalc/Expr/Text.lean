import SymCalc.Expr.Basic
import SymCalc.Number.Machine

/-!
# SymCalc.Expr.Text

Expressions as text, with parentheses only where the usual precedence asks for
them.

1. A negated term of a sum is written as a difference, an inverted factor of a
   product as a quotient; the first term and the first factor are written as
   they are;
2. the operands of powers, reciprocals and factorials are enclosed unless they
   are self-contained; the operands of products and negations are enclosed only
   if they are sums.
-/

namespace SymCalc.Expr

/-- The text of the expression reads the same wherever it is put. -/
def isSelfContained : Expr → Bool
  | .var _ => true
  | .const (.rational q) => q.den = 1 && !(Number.rational q).isNegative
  | .const x => !x.isNegative
  | .add _ | .mul _ | .neg _ | .inv _ | .pow _ _ => false
  | .log _ _ | .apply _ _ | .goalSeek _ _ _ => true

/-- The expression is a sum. -/
def isSum : Expr → Bool
  | .add _ => true
  | _ => false

/-- The expression is a sum or a product. -/
def isSumOrProduct : Expr → Bool
  | .add _ | .mul _ => true
  | _ => false

/-- A text in parentheses, where `wanted`. -/
def enclose (wanted : Bool) (text : String) : String :=
  if wanted then "(" ++ text ++ ")" else text

/-- A function written around the text of its argument; `enclosed` is the
argument fit to stand before a factorial sign. -/
def applied (f : UnaryFn) (argument enclosed : String) : String :=
  match f with
  | .ln => "ln(" ++ argument ++ ")"
  | .exp => "exp(" ++ argument ++ ")"
  | .sin => "sin(" ++ argument ++ ")"
  | .cos => "cos(" ++ argument ++ ")"
  | .tan => "tan(" ++ argument ++ ")"
  | .factorial => enclosed ++ "!"
  | .frac => "frac(" ++ argument ++ ")"
  | .round mode => "round(" ++ argument ++ ", " ++ mode.name ++ ")"
  | .offIntegers value => "doi(" ++ argument ++ ", " ++ value.text ++ ")"

mutual

/-- The text of an expression. -/
def text : Expr → String
  | .var v => v.name
  | .const x => x.text
  | .add [] => ""
  | .add (t :: ts) => text t ++ sumTail ts
  | .mul [] => ""
  | .mul (f :: fs) => enclose f.isSum (text f) ++ productTail fs
  | .neg e => "-" ++ enclose e.isSum (text e)
  | .inv e => enclose (!e.isSelfContained) (text e) ++ "^-1"
  | .pow base exponent =>
    enclose (!base.isSelfContained) (text base) ++ "^" ++
      enclose (!exponent.isSelfContained) (text exponent)
  | .log base power => "log(" ++ text base ++ ", " ++ text power ++ ")"
  | .apply f e => applied f (text e) (enclose (!e.isSelfContained) (text e))
  | .goalSeek goal target inversion =>
    "goal_seek(" ++ inversion.unknown.name ++ " : " ++ text target ++ " == " ++ text goal ++ ")"

/-- The terms of a sum after the first. -/
def sumTail : List Expr → String
  | [] => ""
  | .neg e :: ts => " - " ++ enclose e.isSum (text e) ++ sumTail ts
  | t :: ts => " + " ++ text t ++ sumTail ts

/-- The factors of a product after the first. -/
def productTail : List Expr → String
  | [] => ""
  | .inv e :: fs => " / " ++ enclose e.isSumOrProduct (text e) ++ productTail fs
  | f :: fs => " * " ++ enclose f.isSum (text f) ++ productTail fs

end

end SymCalc.Expr
