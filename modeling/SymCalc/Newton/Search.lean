import SymCalc.GoalSeek.Solve
import SymCalc.Random.Drawing

/-!
# SymCalc.Newton.Search

Newton's method on an equation.

1. From a point `x` with `|f x| > epsilon` a step leads to `x - f x / f' x`; a
   point with `|f x| ≤ epsilon` is the answer;
2. where the derivative vanishes the point is shifted by a random part of
   `epsilon`, at most half of it to either side, until it does not; a step
   allows `maxCorrections` shifts;
3. `maxIters` points are looked at, the guess included.  Points are reals.

The only use of the generator is one draw for each shift.
-/

namespace SymCalc.Newton

attribute [local instance] Binary.corePow

variable {G : Type}

/-- A root, and how it was found. -/
structure Solution where
  x : Number
  /-- The value of the expression at the root. -/
  residual : Number
  /-- The steps taken. -/
  iters : Nat
  /-- The shifts taken, over all steps. -/
  corrections : Nat
deriving DecidableEq

/-- A point with the values of a function and its derivative. -/
structure Sample where
  x : Number
  fx : Number
  slope : Number

/-! ## shifts -/

/-- A double drawn uniformly from `[-1/2, 1/2]`: 52 bits of the draw as a
fraction of one, stretched so that both ends can be met, and moved down. -/
def offset (draw : UInt64) : Double :=
  let fraction := Dyadic.ofIntWithPrec (draw >>> 12).toNat 52
  let stretched := Double.ofDyadic (fraction * .ofIntWithPrec (2 ^ (52 : Nat) + 1) 52)
  Double.ofDyadic (stretched.value - .ofIntWithPrec 1 1)

/-- The offset of a draw in units of `epsilon`. -/
def shift (epsilon : Double) (draw : UInt64) : Double :=
  Double.ofDyadic (epsilon.value * (offset draw).value)

/-! ## steps -/

/-- A step of a search that evaluates an expression. -/
def expression {α : Type} (m : Logged Error α) : Drawing G SolveError α :=
  .lift (m.mapError .expression)

/-- A step of a search that computes with numbers. -/
def numeric {α : Type} (r : Except NumericError α) : Drawing G SolveError α :=
  expression (.numeric r)

section ends

variable {α : Type} {g g' : G}

@[simp] theorem ends_expression_ok {m : Logged Error α} {a : α} :
    (expression m : Drawing G SolveError α).Ends g (.ok a) g' ↔ m.result = .ok a ∧ g = g' := by
  cases h : m.result <;> simp [expression, h, mapError_ok, mapError_error]

/-- The step fails with the error of the evaluation. -/
@[simp] theorem ends_expression_error {m : Logged Error α} {e : SolveError} :
    (expression m : Drawing G SolveError α).Ends g (.error e) g' ↔
      (∃ cause, m.result = .error cause ∧ .expression cause = e) ∧ g = g' := by
  cases h : m.result <;> simp [expression, h, mapError_ok, mapError_error]

@[simp] theorem ends_numeric_ok {r : Except NumericError α} {a : α} :
    (numeric r : Drawing G SolveError α).Ends g (.ok a) g' ↔ r = .ok a ∧ g = g' := by
  simp [numeric, Logged.result_numeric_eq_ok]

/-- The step fails with the error of the operation. -/
@[simp] theorem ends_numeric_error {r : Except NumericError α} {e : SolveError} :
    (numeric r : Drawing G SolveError α).Ends g (.error e) g' ↔
      (∃ cause, r = .error cause ∧ .expression (.numeric cause) = e) ∧ g = g' := by
  cases r <;> simp [numeric, Logged.numeric, mapError_ok, mapError_error]

/-- An evaluation fails, or the steps after it go on with its value. -/
theorem ends_expression_bind {β : Type} {m : Logged Error α} {f : α → Drawing G SolveError β}
    {r : Except SolveError β} :
    (expression m >>= f).Ends g r g' ↔
      (∃ cause, m.result = .error cause ∧ .error (.expression cause) = r ∧ g = g') ∨
        ∃ a, m.result = .ok a ∧ (f a).Ends g r g' := by
  rw [Drawing.ends_bind]
  simp only [ends_expression_error, ends_expression_ok]
  grind

/-- A numeric step fails with its cause, and otherwise hands on its result without a draw. -/
theorem ends_numeric_bind {β : Type} {m : Except NumericError α}
    {f : α → Drawing G SolveError β} {r : Except SolveError β} :
    (numeric m >>= f).Ends g r g' ↔
      (∃ cause, m = .error cause ∧ .error (.expression (.numeric cause)) = r ∧ g = g') ∨
        ∃ a, m = .ok a ∧ (f a).Ends g r g' := by
  rw [Drawing.ends_bind]
  simp only [ends_numeric_error, ends_numeric_ok]
  grind

end ends

/-- The functions and limits of one search. -/
structure Problem where
  unknown : Variable
  f : Curve
  derivative : Curve
  config : Config
  /-- The tolerance as a number. -/
  epsilon : Number

/-- The sample at the first point from `s` on where the derivative does not
vanish, and the number of shifts that lead to it: `attempts` so far and at most
`left` more. -/
def settle [DrawSource G] (p : Problem) (iter : Nat) :
    (left attempts : Nat) → Sample → Drawing G SolveError (Sample × Nat)
  | left, attempts, s =>
    if s.slope.isZero then
      match left with
      | 0 => do
        .report (.stuck p.unknown s.x)
        .fail (.maxCorrectionsExceeded s.x iter)
      | left + 1 => do
        let draw ← Drawing.draw
        let step ← numeric (Number.ofDouble (shift p.config.epsilon draw))
        let x ← numeric (Number.sum [s.x, step])
        .report (.corrected (attempts + 1) p.unknown x)
        let fx ← expression (p.f.valueAt x)
        let slope ← expression (p.derivative.valueAt x)
        settle p iter left (attempts + 1) ⟨x, fx, slope⟩
    else pure (s, attempts)

/-- The point that Newton's step leads to. -/
def next (s : Sample) : Except NumericError Number := do
  let step ← Number.div s.fx [s.slope]
  Number.sub s.x [step]

/-- The search from a point on, with `left` points to look at, after `iter` of
them and so many shifts. -/
def iterate [DrawSource G] (p : Problem) :
    (left iter corrections : Nat) → Number → Drawing G SolveError Solution
  | 0, _, _, _ => do
    .report (.exhausted p.config.maxIters)
    .fail (.iterationsExhausted p.config.maxIters)
  | left + 1, iter, corrections, x => do
    let fx ← expression (p.f.valueAt x)
    if fx.abs ≤ p.epsilon then
      .report (.converged p.unknown x iter)
      pure ⟨x, fx, iter, corrections⟩
    else
      let slope ← expression (p.derivative.valueAt x)
      let (s, shifts) ← settle p iter p.config.maxCorrections 0 ⟨x, fx, slope⟩
      let x ← numeric (next s)
      .report (.stepped iter s.fx p.unknown x)
      iterate p left (iter + 1) (corrections + shifts) x

/-- The search for a root of an equation, from a guess on. -/
def search [DrawSource G] (equation : Equation) (guess : Number) (config : Config) :
    Drawing G SolveError Solution := do
  let derivative ← expression equation.slope
  let epsilon ← numeric (Number.ofDouble config.epsilon)
  .report (.searchStarted equation.curve.expr equation.unknown guess derivative.expr)
  iterate ⟨equation.unknown, equation.curve, derivative, config, epsilon⟩
    config.maxIters 0 0 (.real guess.toReal)

/-! ## expressions -/

variable [Elementary]

/-- A root of an expression with exactly one free variable. -/
def solve [DrawSource G] (catalogue : Catalogue) (e : Expr) (guess : Number)
    (config : Config) : Drawing G SolveError Solution :=
  match e.freeVars.toList with
  | [v] => search (e.equation catalogue v) guess config
  | vs => .fail (.notSingleVariable vs.length)

/-- A root of an expression in `v`, which may have no other free variable. -/
def findRoot [DrawSource G] (catalogue : Catalogue) (e : Expr) (v : Variable)
    (guess : Number) (config : Config) : Drawing G SolveError Solution :=
  if e.freeVars.toList.any (· ≠ v) then .fail (.notSingleVariable e.freeVars.size)
  else search (e.equation catalogue v) guess config

end SymCalc.Newton
