import SymCalc.Expr.Derivative
import SymCalc.Proofs.Expr.Value
import SymCalc.Real256.Series

/-!
# SymCalc.Proofs.Expr.Recursion

Why differentiation ends.

The recursion is not one on the shape of the tree: the derivative of a logarithm to a
base is that of a quotient built for it, and a power is differentiated after its base
and exponent have been simplified.

1. `deriveStep` is one level of differentiation, with the derivatives of other trees as
   a parameter, and `derive` is a fixed point of it (`deriveStep_derive`);
2. `Calls` lists the trees whose derivatives a level may ask for; it asks for no others
   (`deriveStep_congr`), and all of them weigh less (`weight_lt_of_calls`);
3. `deriveWithin` nests levels up to a limit and fails beyond it.

Main statement: no run gets to a limit that is the weight of the tree
(`derive_terminates`).
-/

namespace SymCalc

namespace Logged

variable {ε ε' α β : Type}

/-- Errors may be translated in each part of a run. -/
theorem mapError_bind (f : ε → ε') (m : Logged ε α) (g : α → Logged ε β) :
    (m >>= g).mapError f = m.mapError f >>= fun a => (g a).mapError f := by
  obtain ⟨events, result⟩ := m
  cases result <;> rfl

theorem mapError_pure (f : ε → ε') (a : α) :
    (pure a : Logged ε α).mapError f = pure a := rfl

end Logged

namespace Expr

/-! ## one level -/

section step

variable (solve : GoalSolver) (v : Variable) (call : Expr → Logged (Option Error) Expr)

/-- The derivatives of the terms of a sum. -/
def stepTerms : List Expr → Logged (Option Error) (List Expr)
  | [] => pure []
  | e :: es => do
    let d ← call e
    let ds ← stepTerms es
    pure (d :: ds)

/-- The terms of the product rule for the factors after those `before`. -/
def stepFactors : List Expr → List Expr → Logged (Option Error) (List Expr)
  | _, [] => pure []
  | before, e :: es =>
    if e.isConstant v then stepFactors (before ++ [e]) es
    else do
      let d ← call e
      let ds ← stepFactors (before ++ [e]) es
      pure (product (d :: (before ++ es)) :: ds)

/-- The derivative of a tree, where `call` gives those of others.  The error `none`
stands for a call that does not return. -/
def deriveStep [Elementary] (e : Expr) : Logged (Option Error) Expr :=
  if e.isConstant v then pure zero
  else
    match e with
    | .var _ => pure one
    | .const _ => pure zero
    | .add terms => do
      let ds ← stepTerms call terms
      pure (sum ds)
    | .mul factors => do
      let ds ← stepFactors v call [] factors
      pure (sum ds)
    | .neg e => do
      let d ← call e
      pure (negate d)
    | .inv e => do
      let d ← call e
      pure (negate (product [d, .pow e (.ofInt (-2))]))
    | .pow base exponent => do
      let b ← (simplifyWith solve base).mapError some
      let p ← (simplifyWith solve exponent).mapError some
      match b.isConstant v, p.isConstant v with
      | true, true => pure zero
      | true, false => do
        let dp ← call p
        pure (product [.pow b p, ln b, dp])
      | false, true => do
        let db ← call b
        pure (product [p, lowerPower b p, db])
      | false, false => do
        let db ← call b
        let dp ← call p
        pure (product [lowerPower b p, sum [product [p, db], product [b, ln b, dp]]])
    | .log base power => call (quotientOfLogs base power)
    | .apply f e =>
      if f.isStep then pure (.apply (.offIntegers .zero) e)
      else
        match applyRule f e with
        | some rule => do
          let d ← call e
          pure (rule d)
        | none => .fail (some .notDerivable)
    | .goalSeek _ _ _ => .fail (some .notDerivable)

/-- Differentiation with at most so many levels: the call that would start one more
does not return. -/
def deriveWithin [Elementary] : Nat → Expr → Logged (Option Error) Expr
  | 0 => fun _ => .fail none
  | n + 1 => deriveStep solve v (deriveWithin n)

end step

variable {solve : GoalSolver} {v : Variable} {call call' : Expr → Logged (Option Error) Expr}

/-- What is called for the addends alone decides about a sum. -/
theorem stepTerms_congr {es : List Expr} (h : ∀ e ∈ es, call e = call' e) :
    stepTerms call es = stepTerms call' es := by
  induction es with
  | nil => rfl
  | cons e es ih =>
    rw [List.forall_mem_cons] at h
    rw [stepTerms, stepTerms, h.1, ih h.2]

/-- What is called for the factors alone decides about a product. -/
theorem stepFactors_congr {before es : List Expr} (h : ∀ e ∈ es, call e = call' e) :
    stepFactors v call before es = stepFactors v call' before es := by
  induction es generalizing before with
  | nil => rfl
  | cons e es ih =>
    rw [List.forall_mem_cons] at h
    rw [stepFactors, stepFactors, h.1, ih h.2]

/-! ## the levels of a run -/

section

variable [Elementary]

/-- With `derive` for the calls, a sum is derived by its rule. -/
theorem stepTerms_derive (es : List Expr) :
    stepTerms (fun e => (derive solve v e).mapError some) es =
      (deriveTerms solve v es).mapError some := by
  induction es with
  | nil => rw [deriveTerms]; rfl
  | cons e es ih =>
    rw [stepTerms, deriveTerms, ih]
    simp only [Logged.mapError_bind, Logged.mapError_pure]

/-- With `derive` for the calls, a product is derived by its rule. -/
theorem stepFactors_derive (before es : List Expr) :
    stepFactors v (fun e => (derive solve v e).mapError some) before es =
      (deriveFactors solve v before es).mapError some := by
  induction es generalizing before with
  | nil => rw [deriveFactors]; rfl
  | cons e es ih =>
    rw [stepFactors, deriveFactors, ih]
    split
    · rfl
    · simp only [Logged.mapError_bind, Logged.mapError_pure]

/-- Differentiation is made of such levels. -/
theorem deriveStep_derive (e : Expr) :
    deriveStep solve v (fun e => (derive solve v e).mapError some) e =
      (derive solve v e).mapError some := by
  rw [derive.eq_def, deriveStep.eq_def]
  split
  · rfl
  · cases e with
    | var _ => rfl
    | const _ => rfl
    | add terms => simp only [stepTerms_derive, Logged.mapError_bind, Logged.mapError_pure]
    | mul factors => simp only [stepFactors_derive, Logged.mapError_bind, Logged.mapError_pure]
    | neg e => simp only [Logged.mapError_bind, Logged.mapError_pure]
    | inv e => simp only [Logged.mapError_bind, Logged.mapError_pure]
    | pow base exponent =>
      simp only [Logged.andThenOk_eq_bind, Logged.mapError_bind]
      congr 1
      funext b
      congr 1
      funext p
      cases b.isConstant v <;> cases p.isConstant v <;>
        simp only [Logged.mapError_bind, Logged.mapError_pure]
    | log base power => rfl
    | apply f e =>
      simp only
      split
      · rfl
      · cases applyRule f e with
        | none => rfl
        | some rule => simp only [Logged.mapError_bind, Logged.mapError_pure]
    | goalSeek goal target inversion => rfl

/-! ## calls -/

/-- The derivative of the first tree may ask for that of the second. -/
inductive Calls (solve : GoalSolver) (v : Variable) : Expr → Expr → Prop
  | term {terms e} (h : e ∈ terms) : Calls solve v (.add terms) e
  | factor {factors e} (h : e ∈ factors) : Calls solve v (.mul factors) e
  | neg {e} : Calls solve v (.neg e) e
  | inv {e} : Calls solve v (.inv e) e
  | base {base exponent b} (h : (simplifyWith solve base).result = .ok b) :
    Calls solve v (.pow base exponent) b
  | exponent {base exponent p} (h : (simplifyWith solve exponent).result = .ok p) :
    Calls solve v (.pow base exponent) p
  | quotient {base power} : Calls solve v (.log base power) (quotientOfLogs base power)
  | argument {f e} : Calls solve v (.apply f e) e

/-- A level asks for no other derivatives. -/
theorem deriveStep_congr {e : Expr} (h : ∀ e', Calls solve v e e' → call e' = call' e') :
    deriveStep solve v call e = deriveStep solve v call' e := by
  rw [deriveStep.eq_def, deriveStep.eq_def]
  split
  · rfl
  · cases e with
    | var _ => rfl
    | const _ => rfl
    | add terms => simp only [stepTerms_congr fun e he => h e (.term he)]
    | mul factors => simp only [stepFactors_congr fun e he => h e (.factor he)]
    | neg e => simp only [h e .neg]
    | inv e => simp only [h e .inv]
    | pow base exponent =>
      refine Logged.bind_congr_of_ok fun b hb => Logged.bind_congr_of_ok fun p hp => ?_
      simp only [h b (.base (mapError_eq_ok_iff.mp hb)), h p (.exponent (mapError_eq_ok_iff.mp hp))]
    | log base power => exact h _ .quotient
    | apply f e => simp only [h e .argument]
    | goalSeek goal target inversion => rfl

/-- **Every call is on a tree of less weight.** -/
theorem weight_lt_of_calls {e e' : Expr} (h : Calls solve v e e') : weight e' < weight e := by
  cases h with
  | term he => exact weight_lt_add he
  | factor he => exact weight_lt_mul he
  | neg => simp only [weight]; omega
  | inv => simp only [weight]; omega
  | base hb => exact weight_base_lt hb _
  | exponent hp => exact weight_exponent_lt hp _
  | quotient => exact weight_quotientOfLogs _ _
  | argument => simp only [weight]; omega

/-! ## runs -/

/-- As many levels as the tree weighs are enough: by induction on the limit, every call
has one of its own that is large enough. -/
theorem deriveWithin_of_weight_le {n : Nat} {e : Expr} (h : weight e ≤ n) :
    deriveWithin solve v n e = (derive solve v e).mapError some := by
  induction n generalizing e with
  | zero =>
    have := one_le_weight e
    omega
  | succ n ih =>
    rw [deriveWithin, ← deriveStep_derive]
    refine deriveStep_congr fun e' he' => ih ?_
    have := weight_lt_of_calls he'
    omega

/-- A size of trees along which differentiation descends. -/
structure Descends (size : Expr → Nat) : Prop where
  quotient_lt : ∀ base power, size (quotientOfLogs base power) < size (.log base power)
  negate_le : ∀ e, size (negate e) ≤ size (.neg e)
  invert_le : ∀ e, size (invert e) ≤ size (.inv e)
  simplify_le : ∀ solve e e', (simplifyWith solve e).result = .ok e' → size e' ≤ size e
  call_lt : ∀ solve v e e', Calls solve v e e' → size e' < size e

/-- The weight descends at every call of the derivation. -/
theorem descends_weight : Descends weight where
  quotient_lt := weight_quotientOfLogs
  negate_le e := by simpa only [weight] using weight_negate e
  invert_le e := by simpa only [weight] using weight_invert e
  simplify_le solve e _ := weight_simplifyWith solve e
  call_lt _ _ _ _ := weight_lt_of_calls

/-- **Differentiation ends**, for every tree and variable and every solver of goal-seeks.

1. The weight is a size of trees that no simplification increases and that is less for
   every tree that differentiation calls itself on;
2. a level of differentiation depends on nothing but the derivatives it may call for;
3. levels nested up to the weight of the tree, or to any higher limit, give the
   derivative: the call beyond the limit is not made. -/
theorem derive_terminates :
    Descends weight ∧ ∀ (solve : GoalSolver) (v : Variable) (e : Expr),
      (∀ call call' : Expr → Logged (Option Error) Expr,
        (∀ e', Calls solve v e e' → call e' = call' e') →
          deriveStep solve v call e = deriveStep solve v call' e) ∧
      ∀ n, weight e ≤ n → deriveWithin solve v n e = (derive solve v e).mapError some :=
  ⟨descends_weight, fun _ _ _ => ⟨fun _ _ => deriveStep_congr, fun _ => deriveWithin_of_weight_le⟩⟩

end

/-- The logarithm of a power whose exponent is a logarithm, all to the base `x`.  Its level
asks for the derivative of the quotient only, and nine of the fifteen levels of its weight
are needed, as a second quotient is built on the way. -/
theorem derive_terminates_logs :
    let power := Expr.pow (ofName "x") (.log (ofName "x") (ofName "y"))
    let e := Expr.log (ofName "x") power
    deriveStep .none ⟨"x"⟩
        (fun e' => if e' == quotientOfLogs (ofName "x") power then pure zero else .fail none) e =
      deriveStep .none ⟨"x"⟩ (fun _ => pure zero) e ∧
    weight e = 15 ∧
      deriveWithin .none ⟨"x"⟩ 15 e = (derive .none ⟨"x"⟩ e).mapError some ∧
      (deriveWithin .none ⟨"x"⟩ 8 e).result = .error none := by
  intro power e
  obtain ⟨hcalls, hlevels⟩ := derive_terminates.2 .none ⟨"x"⟩ e
  refine ⟨hcalls _ _ fun e' he' => ?_, rfl, hlevels 15 (by decide), rfl⟩
  change Calls .none ⟨"x"⟩ (.log (ofName "x") power) e' at he'
  cases he' with
  | quotient => rfl

end Expr

end SymCalc
