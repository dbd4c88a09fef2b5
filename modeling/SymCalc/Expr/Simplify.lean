import SymCalc.Expr.Evaluate

/-!
# SymCalc.Expr.Simplify

Folding of constants and removal of neutral elements.

1. A node whose operands all become constants becomes the constant it stands
   for;
2. a sum drops a zero and a product a one among their constants, and either
   keeps at most one constant, in the last place; what is left of a single term
   or factor stands alone;
3. a product with a factor zero is that zero, and the factors after it are not
   looked at;
4. a goal-seek without free variables is solved.
-/

namespace SymCalc.Expr

/-! ## sums and products of simplified operands -/

/-- The constants in a list, as numbers. -/
def constants : List Expr → List Number
  | [] => []
  | .const x :: es => x :: constants es
  | _ :: es => constants es

/-- The members of a list that are not constants. -/
def nonConstants : List Expr → List Expr
  | [] => []
  | .const _ :: es => nonConstants es
  | e :: es => e :: nonConstants es

/-- The node over `rest` and the constant `x`, which is left out where it is
neutral.  Without any rest it is the constant, and a single operand stands
alone. -/
def assemble (node : List Expr → Expr) (rest : List Expr) (x : Number) (neutral : Bool) : Expr :=
  match rest with
  | [] => .const x
  | e :: es =>
    if neutral then
      match es with
      | [] => e
      | _ => node rest
    else node (rest ++ [.const x])

/-- A property of the operands and the constant that passes on to nodes over such
operands is one of what is put together. -/
theorem assemble_of_forall {P : Expr → Prop} {node : List Expr → Expr} {rest : List Expr}
    {x : Number} {neutral : Bool} (hnode : ∀ {es}, (∀ e ∈ es, P e) → P (node es))
    (hrest : ∀ e ∈ rest, P e) (hx : P (.const x)) : P (assemble node rest x neutral) := by
  match rest, neutral with
  | [], _ => exact hx
  | [e], true => exact hrest e List.mem_cons_self
  | e :: e' :: es, true => exact hnode hrest
  | e :: es, false =>
    refine hnode fun u hu => ?_
    rcases List.mem_append.mp hu with hu | hu
    · exact hrest u hu
    · exact List.mem_singleton.mp hu ▸ hx

/-- The sum of simplified terms. -/
def combineSum (terms : List Expr) : Except NumericError Expr := do
  let x ← Number.sum (constants terms)
  .ok (assemble .add (nonConstants terms) x x.isZero)

/-- The product of simplified factors. -/
def combineProduct (factors : List Expr) : Except NumericError Expr := do
  let x ← Number.product (constants factors)
  .ok (if x.isZero then .const x else assemble .mul (nonConstants factors) x x.isOne)

/-- Simplified terms combine when their constants have a sum. -/
theorem combineSum_eq_ok_iff {terms : List Expr} {e : Expr} :
    combineSum terms = .ok e ↔ ∃ x, Number.sum (constants terms) = .ok x ∧
      assemble .add (nonConstants terms) x x.isZero = e := by
  unfold combineSum
  cases Number.sum (constants terms) <;> simp [bind, Except.bind]

/-- Simplified factors combine when their constants have a product. -/
theorem combineProduct_eq_ok_iff {factors : List Expr} {e : Expr} :
    combineProduct factors = .ok e ↔ ∃ x, Number.product (constants factors) = .ok x ∧
      (if x.isZero then .const x else assemble .mul (nonConstants factors) x x.isOne) = e := by
  unfold combineProduct
  cases Number.product (constants factors) <;> simp [bind, Except.bind]

/-- A simplified factor is a zero, or not. -/
theorem eq_zero_const_or (e : Expr) :
    (∃ x, e = .const x ∧ x.isZero = true) ∨ ∀ x, e = .const x → x.isZero = false := by
  by_cases h : ∃ x, e = .const x ∧ x.isZero = true
  · exact .inl h
  · exact .inr fun x hx => eq_false_of_ne_true fun hzero => h ⟨x, hx, hzero⟩

/-- The factors of a product after simplification, or the zero among them. -/
inductive Factors where
  | zero (x : Number)
  | all (factors : List Expr)

/-- Further factors in front. -/
def Factors.prepend (es : List Expr) : Factors → Factors
  | .zero x => .zero x
  | .all factors => .all (es ++ factors)

/-! ## single nodes -/

variable [Elementary]

/-- The opposite of a simplified expression. -/
def foldNeg : Expr → Expr
  | .const x => .const (-x)
  | e => negate e

/-- The reciprocal of a simplified expression. -/
def foldInv : Expr → Except NumericError Expr
  | .const x => x.inv.map .const
  | e => .ok (invert e)

/-- The power of simplified expressions. -/
def foldPow : Expr → Expr → Except NumericError Expr
  | .const b, .const e => (b.pow e).map .const
  | base, .const e => .ok (if e.isOne then base else .pow base (.const e))
  | base, exponent => .ok (.pow base exponent)

/-- The logarithm of simplified expressions. -/
def foldLog : Expr → Expr → Except NumericError Expr
  | .const b, .const p => (b.log p).map .const
  | base, power => .ok (.log base power)

/-- A function of a simplified expression. -/
def foldApply (f : UnaryFn) : Expr → Except Error Expr
  | .const x => (f.eval x).map .const
  | e => .ok (.apply f e)

/-- A goal-seek with simplified parts: solved where nothing is left free. -/
def foldSeek (solve : GoalSolver) (goal target : Expr) (inversion : Inversion) :
    Logged Error Expr :=
  if (freeVars (.goalSeek goal target inversion)).isEmpty then do
    let x ← solve goal target inversion .empty
    pure (.const x)
  else pure (.goalSeek goal target inversion)

/-! ## trees -/

mutual

/-- The simplified tree, with a given way to evaluate goal-seeks. -/
def simplifyWith (solve : GoalSolver) : Expr → Logged Error Expr
  | .var v => pure (.var v)
  | .const x => pure (.const x)
  | .add terms => do
    let terms ← simplifyTerms solve terms
    .numeric (combineSum terms)
  | .mul factors => do
    match ← simplifyFactors solve factors with
    | .zero x => pure (.const x)
    | .all factors => .numeric (combineProduct factors)
  | .neg e => do
    let e ← simplifyWith solve e
    pure (foldNeg e)
  | .inv e => do
    let e ← simplifyWith solve e
    .numeric (foldInv e)
  | .pow base exponent => do
    let base ← simplifyWith solve base
    let exponent ← simplifyWith solve exponent
    .numeric (foldPow base exponent)
  | .log base power => do
    let base ← simplifyWith solve base
    let power ← simplifyWith solve power
    .numeric (foldLog base power)
  | .apply f e => do
    let e ← simplifyWith solve e
    .ofExcept (foldApply f e)
  | .goalSeek goal target inversion => do
    let goal ← simplifyWith solve goal
    let target ← simplifyWith solve target
    foldSeek solve goal target inversion

/-- The simplified terms of a sum, sums among them taken apart. -/
def simplifyTerms (solve : GoalSolver) : List Expr → Logged Error (List Expr)
  | [] => pure []
  | e :: es => do
    let e ← simplifyWith solve e
    let es ← simplifyTerms solve es
    pure (addends e ++ es)

/-- The simplified factors of a product, products among them taken apart, up to
the first zero. -/
def simplifyFactors (solve : GoalSolver) : List Expr → Logged Error Factors
  | [] => pure (.all [])
  | e :: es => do
    match ← simplifyWith solve e with
    | .const x =>
      if x.isZero then pure (.zero x)
      else do
        let rest ← simplifyFactors solve es
        pure (rest.prepend [.const x])
    | e => do
      let rest ← simplifyFactors solve es
      pure (rest.prepend (factorsOf e))

end

/-- A factor that simplifies to zero ends the product. -/
theorem simplifyFactors_cons_of_isZero {solve : GoalSolver} {e : Expr} {es : List Expr}
    {x : Number} (h : (simplifyWith solve e).result = .ok (.const x)) (hx : x.isZero = true) :
    (simplifyFactors solve (e :: es)).result = .ok (.zero x) := by
  rw [simplifyFactors, Logged.result_bind, h]
  simp [bind, Except.bind, hx]

/-- Any other factor goes in front of what is left of the later ones. -/
theorem simplifyFactors_cons_of_not_isZero {solve : GoalSolver} {e e' : Expr} {es : List Expr}
    (h : (simplifyWith solve e).result = .ok e') (he : ∀ x, e' = .const x → x.isZero = false) :
    (simplifyFactors solve (e :: es)).result =
      (simplifyFactors solve es).result.map (Factors.prepend (factorsOf e')) := by
  have hrest : ∀ fs, (simplifyFactors solve es >>= fun rest => pure (rest.prepend fs)).result =
      (simplifyFactors solve es).result.map (Factors.prepend fs) := by
    intro fs
    rw [Logged.result_bind]
    cases (simplifyFactors solve es).result <;> rfl
  rw [simplifyFactors, Logged.result_bind, h]
  cases e' with
  | const x =>
    simp only [bind, Except.bind, he x rfl, Bool.false_eq_true, if_false]
    exact hrest [.const x]
  | _ => exact hrest _

/-- What the first of several factors leaves. -/
theorem simplifyFactors_cons_eq_ok {solve : GoalSolver} {e : Expr} {es : List Expr}
    {fs : Factors} (h : (simplifyFactors solve (e :: es)).result = .ok fs) :
    (∃ x, (simplifyWith solve e).result = .ok (.const x) ∧ x.isZero = true ∧ fs = .zero x) ∨
      ∃ e' rest, (simplifyWith solve e).result = .ok e' ∧
        (simplifyFactors solve es).result = .ok rest ∧ fs = rest.prepend (factorsOf e') := by
  obtain ⟨e', he', _⟩ := Logged.result_bind_eq_ok.mp h
  rcases eq_zero_const_or e' with ⟨x, rfl, hx⟩ | hkeep
  · rw [simplifyFactors_cons_of_isZero he' hx] at h
    cases h
    exact .inl ⟨x, he', hx, rfl⟩
  · rw [simplifyFactors_cons_of_not_isZero he' hkeep] at h
    cases hrest : (simplifyFactors solve es).result with
    | error err => rw [hrest] at h; cases h
    | ok rest =>
      rw [hrest] at h
      cases h
      exact .inr ⟨e', rest, he', rfl, rfl⟩

/-- Factors fail as the first of them does, or as the later ones do. -/
theorem simplifyFactors_cons_eq_error {solve : GoalSolver} {e : Expr} {es : List Expr}
    {err : Error} (h : (simplifyFactors solve (e :: es)).result = .error err) :
    (simplifyWith solve e).result = .error err ∨
      (simplifyFactors solve es).result = .error err := by
  cases he : (simplifyWith solve e).result with
  | error err' =>
    rw [simplifyFactors, Logged.result_bind, he] at h
    cases h
    exact .inl rfl
  | ok e' =>
    rcases eq_zero_const_or e' with ⟨x, rfl, hx⟩ | hkeep
    · rw [simplifyFactors_cons_of_isZero he hx] at h
      cases h
    · rw [simplifyFactors_cons_of_not_isZero he hkeep] at h
      cases hrest : (simplifyFactors solve es).result with
      | error err' =>
        rw [hrest] at h
        cases h
        exact .inr rfl
      | ok rest =>
        rw [hrest] at h
        cases h

/-- The polynomial in `v` with the given coefficients, from the highest power
down to the constant term, simplified. -/
def polynomial (v : Variable) (coefficients : List Number) : Logged Error Expr :=
  simplifyWith .none (sum (terms coefficients))
where
  /-- The terms of the polynomial; the degree of the first is the number of
  coefficients after it. -/
  terms : List Number → List Expr
    | [] => []
    | c :: cs =>
      (match cs.length with
        | 0 => .const c
        | 1 => product [.const c, .var v]
        | n => product [.const c, .pow (.var v) (.ofInt n)]) :: terms cs

end SymCalc.Expr
