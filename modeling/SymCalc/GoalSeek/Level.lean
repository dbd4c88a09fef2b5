import SymCalc.GoalSeek.Solve

/-!
# SymCalc.GoalSeek.Level

The level at which goal-seeks are solved does not matter, as long as it is not
below the depth to which they are nested.

An operation asks its solver only about goal-seeks nested no deeper than its
operand (`evaluateWith_congr` and its companions), and the solvers of two
levels agree on what both of them reach (`agreeTo_solveAt`).

Main statements: the levels agree (`agreeTo_solveAt`), so that any level which
is high enough evaluates and curries (`evaluateWith_solveAt`,
`curryWith_solveAt`), and the rule for one node (`evaluate_goalSeek`).
-/

namespace SymCalc

/-- Two solvers give the same for every goal-seek nested less than `depth` deep
in its parts. -/
def AgreeTo (depth : Nat) (solve solve' : GoalSolver) : Prop :=
  ∀ goal target inversion args, max goal.seekDepth target.seekDepth < depth →
    solve goal target inversion args = solve' goal target inversion args

namespace Expr

variable {depth : Nat} {solve solve' : GoalSolver}

/-! ## solvers that agree -/

/-- Folding a node asks the solver about this node only. -/
theorem foldSeek_congr (h : AgreeTo depth solve solve') {goal target : Expr}
    {inversion : Inversion} (hd : max goal.seekDepth target.seekDepth < depth) :
    foldSeek solve goal target inversion = foldSeek solve' goal target inversion := by
  unfold foldSeek
  rw [h goal target inversion .empty hd]

variable [Elementary]

mutual

/-- **Evaluation asks its solver only about goal-seeks no deeper than the tree.** -/
theorem evaluateWith_congr (h : AgreeTo depth solve solve') (args : Arguments) :
    (e : Expr) → e.seekDepth ≤ depth →
    evaluateWith solve args e = evaluateWith solve' args e
  | .var _, _ => rfl
  | .const _, _ => rfl
  | .add terms, hd => by
    rw [evaluateWith, evaluateWith, evaluateAllWith_congr h args terms hd]
  | .mul factors, hd => by
    rw [evaluateWith, evaluateWith, evaluateAllWith_congr h args factors hd]
  | .neg e, hd => by
    rw [evaluateWith, evaluateWith, evaluateWith_congr h args e hd]
  | .inv e, hd => by
    rw [evaluateWith, evaluateWith, evaluateWith_congr h args e hd]
  | .pow base exponent, hd => by
    simp only [seekDepth] at hd
    rw [evaluateWith, evaluateWith, evaluateWith_congr h args base (by omega),
      evaluateWith_congr h args exponent (by omega)]
  | .log base power, hd => by
    simp only [seekDepth] at hd
    rw [evaluateWith, evaluateWith, evaluateWith_congr h args base (by omega),
      evaluateWith_congr h args power (by omega)]
  | .apply f e, hd => by
    rw [evaluateWith, evaluateWith, evaluateWith_congr h args e hd]
  | .goalSeek goal target inversion, hd => by
    rw [evaluateWith, evaluateWith]
    exact h goal target inversion args hd

/-- The same for the values of a list. -/
theorem evaluateAllWith_congr (h : AgreeTo depth solve solve') (args : Arguments) :
    (es : List Expr) → seekDepthAll es ≤ depth →
    evaluateAllWith solve args es = evaluateAllWith solve' args es
  | [], _ => rfl
  | e :: es, hd => by
    simp only [seekDepthAll] at hd
    rw [evaluateAllWith, evaluateAllWith, evaluateWith_congr h args e (by omega),
      evaluateAllWith_congr h args es (by omega)]

end

mutual

/-- **Simplification asks its solver only about goal-seeks no deeper than the tree.** -/
theorem simplifyWith_congr (h : AgreeTo depth solve solve') :
    (e : Expr) → e.seekDepth ≤ depth → simplifyWith solve e = simplifyWith solve' e
  | .var _, _ => rfl
  | .const _, _ => rfl
  | .add terms, hd => by
    rw [simplifyWith, simplifyWith, simplifyTerms_congr h terms hd]
  | .mul factors, hd => by
    rw [simplifyWith, simplifyWith, simplifyFactors_congr h factors hd]
  | .neg e, hd => by
    rw [simplifyWith, simplifyWith, simplifyWith_congr h e hd]
  | .inv e, hd => by
    rw [simplifyWith, simplifyWith, simplifyWith_congr h e hd]
  | .pow base exponent, hd => by
    simp only [seekDepth] at hd
    rw [simplifyWith, simplifyWith, simplifyWith_congr h base (by omega),
      simplifyWith_congr h exponent (by omega)]
  | .log base power, hd => by
    simp only [seekDepth] at hd
    rw [simplifyWith, simplifyWith, simplifyWith_congr h base (by omega),
      simplifyWith_congr h power (by omega)]
  | .apply f e, hd => by
    rw [simplifyWith, simplifyWith, simplifyWith_congr h e hd]
  | .goalSeek goal target inversion, hd => by
    simp only [seekDepth] at hd
    rw [simplifyWith, simplifyWith, simplifyWith_congr h goal (by omega),
      simplifyWith_congr h target (by omega)]
    refine Logged.bind_congr_of_ok fun g hg => Logged.bind_congr_of_ok fun t ht => ?_
    have := seekDepth_simplifyWith solve' goal hg
    have := seekDepth_simplifyWith solve' target ht
    exact foldSeek_congr h (by omega)

/-- The same for the terms of a sum. -/
theorem simplifyTerms_congr (h : AgreeTo depth solve solve') :
    (es : List Expr) → seekDepthAll es ≤ depth →
    simplifyTerms solve es = simplifyTerms solve' es
  | [], _ => rfl
  | e :: es, hd => by
    simp only [seekDepthAll] at hd
    rw [simplifyTerms, simplifyTerms, simplifyWith_congr h e (by omega),
      simplifyTerms_congr h es (by omega)]

/-- The same for the factors of a product. -/
theorem simplifyFactors_congr (h : AgreeTo depth solve solve') :
    (es : List Expr) → seekDepthAll es ≤ depth →
    simplifyFactors solve es = simplifyFactors solve' es
  | [], _ => rfl
  | e :: es, hd => by
    simp only [seekDepthAll] at hd
    rw [simplifyFactors, simplifyFactors, simplifyWith_congr h e (by omega),
      simplifyFactors_congr h es (by omega)]

end

mutual

/-- **Currying asks its solver only about goal-seeks no deeper than the tree.** -/
theorem curryWith_congr (h : AgreeTo depth solve solve') (args : Arguments) :
    (e : Expr) → e.seekDepth ≤ depth → curryWith solve args e = curryWith solve' args e
  | .var _, _ => rfl
  | .const _, _ => rfl
  | .add terms, hd => by
    rw [curryWith, curryWith, curryAllWith_congr h args terms hd]
    refine Logged.bind_congr_of_ok fun ts hts => simplifyWith_congr h _ ?_
    have := seekDepth_curryAllWith solve' args terms hts
    rw [seekDepth_sum]
    exact Nat.le_trans this hd
  | .mul factors, hd => by
    rw [curryWith, curryWith, curryAllWith_congr h args factors hd]
    refine Logged.bind_congr_of_ok fun fs hfs => simplifyWith_congr h _ ?_
    have := seekDepth_curryAllWith solve' args factors hfs
    rw [seekDepth_product]
    exact Nat.le_trans this hd
  | .neg e, hd => by
    rw [curryWith, curryWith, curryWith_congr h args e hd]
    refine Logged.bind_congr_of_ok fun e₁ h₁ => simplifyWith_congr h _ ?_
    rw [seekDepth_negate]
    exact Nat.le_trans (seekDepth_curryWith solve' args e h₁) hd
  | .inv e, hd => by
    rw [curryWith, curryWith, curryWith_congr h args e hd]
    refine Logged.bind_congr_of_ok fun e₁ h₁ => simplifyWith_congr h _ ?_
    rw [seekDepth_invert]
    exact Nat.le_trans (seekDepth_curryWith solve' args e h₁) hd
  | .pow base exponent, hd => by
    simp only [seekDepth] at hd
    rw [curryWith, curryWith, curryWith_congr h args base (by omega),
      curryWith_congr h args exponent (by omega)]
    refine Logged.bind_congr_of_ok fun b hb => Logged.bind_congr_of_ok fun p hp =>
      simplifyWith_congr h _ ?_
    have := seekDepth_curryWith solve' args base hb
    have := seekDepth_curryWith solve' args exponent hp
    simp only [seekDepth]
    omega
  | .log base power, hd => by
    simp only [seekDepth] at hd
    rw [curryWith, curryWith, curryWith_congr h args base (by omega),
      curryWith_congr h args power (by omega)]
    refine Logged.bind_congr_of_ok fun b hb => Logged.bind_congr_of_ok fun p hp =>
      simplifyWith_congr h _ ?_
    have := seekDepth_curryWith solve' args base hb
    have := seekDepth_curryWith solve' args power hp
    simp only [seekDepth]
    omega
  | .apply f e, hd => by
    rw [curryWith, curryWith, curryWith_congr h args e hd]
    refine Logged.bind_congr_of_ok fun e₁ h₁ => simplifyWith_congr h _ ?_
    have := seekDepth_curryWith solve' args e h₁
    simp only [seekDepth] at hd ⊢
    omega
  | .goalSeek goal target inversion, hd => by
    simp only [seekDepth] at hd
    rw [curryWith, curryWith, curryWith_congr h args goal (by omega),
      curryWith_congr h (args.erase inversion.unknown) target (by omega)]
    refine Logged.bind_congr_of_ok fun g hg => Logged.bind_congr_of_ok fun t ht =>
      simplifyWith_congr h _ ?_
    have := seekDepth_curryWith solve' args goal hg
    have := seekDepth_curryWith solve' (args.erase inversion.unknown) target ht
    simp only [seekDepth]
    omega

/-- The same for the members of a list. -/
theorem curryAllWith_congr (h : AgreeTo depth solve solve') (args : Arguments) :
    (es : List Expr) → seekDepthAll es ≤ depth →
    curryAllWith solve args es = curryAllWith solve' args es
  | [], _ => rfl
  | e :: es, hd => by
    simp only [seekDepthAll] at hd
    rw [curryAllWith, curryAllWith, curryWith_congr h args e (by omega),
      curryAllWith_congr h args es (by omega)]

end

/-- Derivatives of terms agree where each of them does. -/
theorem deriveTerms_congr {v : Variable} {es : List Expr}
    (ih : ∀ e ∈ es, derive solve v e = derive solve' v e) :
    deriveTerms solve v es = deriveTerms solve' v es := by
  induction es with
  | nil => rw [deriveTerms, deriveTerms]
  | cons e es ihs =>
    rw [deriveTerms, deriveTerms, ih e List.mem_cons_self,
      ihs fun e he => ih e (List.mem_cons_of_mem _ he)]

/-- Terms of the product rule agree where the derivatives of the factors do. -/
theorem deriveFactors_congr {v : Variable} {before es : List Expr}
    (ih : ∀ e ∈ es, derive solve v e = derive solve' v e) :
    deriveFactors solve v before es = deriveFactors solve' v before es := by
  induction es generalizing before with
  | nil => rw [deriveFactors, deriveFactors]
  | cons e es ihs =>
    have hrest : ∀ before, deriveFactors solve v before es = deriveFactors solve' v before es :=
      fun _ => ihs fun e he => ih e (List.mem_cons_of_mem _ he)
    rw [deriveFactors, deriveFactors, ih e List.mem_cons_self, hrest]

/-- **Differentiation asks its solver only about goal-seeks no deeper than the tree.** The
calls follow the weight, as not all of them are on subtrees. -/
theorem derive_congr (h : AgreeTo depth solve solve') {v : Variable} {e : Expr}
    (hd : e.seekDepth ≤ depth) : derive solve v e = derive solve' v e := by
  induction hn : weight e using Nat.strongRecOn generalizing e with | ind n ih
  have ih : ∀ {e'}, weight e' < n → seekDepth e' ≤ depth →
      derive solve v e' = derive solve' v e' := fun hlt h' => ih _ hlt h' rfl
  rw [derive.eq_def, derive.eq_def solve']
  split
  · rfl
  · cases e with
    | var w => rfl
    | const x => rfl
    | add terms =>
      simp only
      rw [deriveTerms_congr fun e he => ih (hn ▸ weight_lt_add he)
        (Nat.le_trans (seekDepth_le_of_mem he) hd)]
    | mul factors =>
      simp only
      rw [deriveFactors_congr fun e he => ih (hn ▸ weight_lt_mul he)
        (Nat.le_trans (seekDepth_le_of_mem he) hd)]
    | neg e =>
      simp only [weight, seekDepth] at hn hd
      simp only
      rw [ih (by omega) hd]
    | inv e =>
      simp only [weight, seekDepth] at hn hd
      simp only
      rw [ih (by omega) hd]
    | pow base exponent =>
      simp only [seekDepth] at hd
      simp only [Logged.andThenOk_eq_bind]
      rw [simplifyWith_congr h base (by omega), simplifyWith_congr h exponent (by omega)]
      refine Logged.bind_congr_of_ok fun b hb => Logged.bind_congr_of_ok fun p hp => ?_
      have := seekDepth_simplifyWith solve' base hb
      have := seekDepth_simplifyWith solve' exponent hp
      rw [ih (hn ▸ weight_exponent_lt hp base) (by omega),
        ih (hn ▸ weight_base_lt hb exponent) (by omega)]
    | log base power =>
      have := weight_quotientOfLogs base power
      refine ih (by omega) ?_
      simp only [quotientOfLogs_eq, seekDepth, seekDepthAll] at hd ⊢
      omega
    | apply f e =>
      simp only [weight, seekDepth] at hn hd
      simp only
      rw [ih (by omega) hd]
    | goalSeek goal target inversion => rfl

/-- The same for the simplified derivative. -/
theorem derivativeWith_congr (h : AgreeTo depth solve solve') {v : Variable} {e : Expr}
    (hd : e.seekDepth ≤ depth) : derivativeWith solve v e = derivativeWith solve' v e := by
  unfold derivativeWith
  rw [derive_congr h hd]
  refine Logged.bind_congr_of_ok fun d hder => simplifyWith_congr h d ?_
  exact Nat.le_trans (seekDepth_derive hder) hd

/-- Solvers that agree to the depth of a tree pose the same equation over it: the same
values, and the same derivative with the same values. -/
theorem equationOfExpr_congr (h : AgreeTo depth solve solve') {v : Variable} {e : Expr}
    (hd : e.seekDepth ≤ depth) :
    Equation.ofExpr solve v e = Equation.ofExpr solve' v e := by
  have hcurve : ∀ {e : Expr}, e.seekDepth ≤ depth →
      Curve.ofExpr solve v e = Curve.ofExpr solve' v e := fun hd => by
    unfold Curve.ofExpr
    simp only [evaluateWith_congr h _ _ hd]
  unfold Equation.ofExpr
  rw [hcurve hd, derivativeWith_congr h hd]
  congr 1
  refine Logged.bind_congr_of_ok fun d hder => ?_
  rw [hcurve (Nat.le_trans (seekDepth_derivativeWith hder) hd)]

end Expr

/-! ## solvers of different levels -/

variable [Elementary]

/-- Solving a node asks the nested solver only about what lies below the node. -/
theorem solveSeek_congr (catalogue : Catalogue) {depth : Nat} {solve solve' : GoalSolver}
    (h : AgreeTo depth solve solve') {goal target : Expr} (inversion : Inversion)
    (args : Arguments) (hd : max goal.seekDepth target.seekDepth ≤ depth) :
    solveSeek catalogue solve goal target inversion args =
      solveSeek catalogue solve' goal target inversion args := by
  unfold solveSeek
  simp only
  split
  · rw [Expr.evaluateWith_congr h args goal (by omega),
      Expr.curryWith_congr h (args.erase inversion.unknown) target (by omega)]
    refine Logged.bind_congr_of_ok fun x _ => Logged.bind_congr_of_ok fun algorithm _ =>
      Logged.bind_congr_of_ok fun t ht => ?_
    have hexpr : (Expr.sub t (.const x)).seekDepth ≤ depth := by
      have := Expr.seekDepth_curryWith solve' (args.erase inversion.unknown) target ht
      simp only [Expr.sub, Expr.seekDepth_sum, Expr.seekDepth_negate, Expr.seekDepthAll,
        Expr.seekDepth]
      omega
    rw [Expr.equationOfExpr_congr h hexpr]
  · rfl

/-- **Two levels agree on every goal-seek that both of them reach.** -/
theorem agreeTo_solveAt (catalogue : Catalogue) {depth n m : Nat} (hn : depth ≤ n)
    (hm : depth ≤ m) : AgreeTo depth (solveAt catalogue n) (solveAt catalogue m) := by
  induction depth generalizing n m with
  | zero => exact fun _ _ _ _ h => absurd h (Nat.not_lt_zero _)
  | succ depth ih =>
    intro goal target inversion args h
    obtain ⟨n, rfl⟩ := Nat.exists_eq_succ_of_ne_zero (Nat.ne_of_gt (Nat.lt_of_lt_of_le
      (Nat.succ_pos depth) hn))
    obtain ⟨m, rfl⟩ := Nat.exists_eq_succ_of_ne_zero (Nat.ne_of_gt (Nat.lt_of_lt_of_le
      (Nat.succ_pos depth) hm))
    exact solveSeek_congr catalogue (ih (by omega) (by omega)) inversion args (by omega)

namespace Expr

variable (catalogue : Catalogue) {e : Expr} {level : Nat}

/-- Any level that reaches the goal-seeks of an expression evaluates it. -/
theorem evaluateWith_solveAt (h : e.seekDepth ≤ level) (args : Arguments) :
    evaluateWith (solveAt catalogue level) args e = e.evaluate catalogue args :=
  evaluateWith_congr (agreeTo_solveAt catalogue h (Nat.le_refl _)) args e (Nat.le_refl _)

/-- Any level that reaches the goal-seeks of an expression curries it. -/
theorem curryWith_solveAt (h : e.seekDepth ≤ level) (args : Arguments) :
    curryWith (solveAt catalogue level) args e = e.curry catalogue args :=
  curryWith_congr (agreeTo_solveAt catalogue h (Nat.le_refl _)) args e (Nat.le_refl _)

/-- Any level that reaches the goal-seeks of an expression poses its equation. -/
theorem equation_solveAt (h : e.seekDepth ≤ level) (v : Variable) :
    Equation.ofExpr (solveAt catalogue level) v e = e.equation catalogue v :=
  equationOfExpr_congr (agreeTo_solveAt catalogue h (Nat.le_refl _)) (Nat.le_refl _)

/-- The value of a goal-seek node, in terms of the operations on its parts. -/
theorem evaluate_goalSeek (goal target : Expr) (inversion : Inversion) (args : Arguments) :
    (Expr.goalSeek goal target inversion).evaluate catalogue args =
      (do
        let unknown := inversion.unknown
        if unknown ∈ inversion.domain then
          let goalValue ← goal.evaluate catalogue args
          let algorithm ← (catalogue inversion.factory args unknown inversion.domain).mapError
            Error.algorithm
          let target ← target.curry catalogue (args.erase unknown)
          let expr := Expr.sub target (.const goalValue)
          if expr.freeVars.size = 1 ∧ unknown ∈ expr.freeVars then
            .report (.seeking unknown expr)
            let root ← (algorithm (expr.equation catalogue unknown)).mapError Error.algorithm
            .report (.found unknown root)
            pure root
          else .fail (.notSingleVariable expr.freeVars.size)
        else .fail (.unknownNotInDomain unknown) : Logged Error Number) := by
  change solveSeek catalogue (solveAt catalogue (max goal.seekDepth target.seekDepth))
    goal target inversion args = _
  unfold solveSeek
  simp only
  split
  · rw [evaluateWith_solveAt catalogue (by omega), curryWith_solveAt catalogue (by omega)]
    refine Logged.bind_congr_of_ok fun x _ => Logged.bind_congr_of_ok fun algorithm _ =>
      Logged.bind_congr_of_ok fun t ht => ?_
    rw [← curryWith_solveAt catalogue (Nat.le_refl _)] at ht
    rw [equation_solveAt]
    have := seekDepth_curryWith _ (args.erase inversion.unknown) target ht
    simp only [sub, seekDepth_sum, seekDepth_negate, seekDepthAll, seekDepth]
    omega
  · rfl

end Expr

end SymCalc
