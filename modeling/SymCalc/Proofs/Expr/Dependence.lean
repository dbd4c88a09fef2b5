import SymCalc.GoalSeek.Solve
import SymCalc.Proofs.Expr.FreeVars
import SymCalc.Real256.Series

/-!
# SymCalc.Proofs.Expr.Dependence

Whether an expression depends on a variable, read in two ways.

1. `freeVars` collects the variables of a tree, and takes the unknown of a
   goal-seek out of those of its target;
2. `isConstant` asks for one variable, and does not look into the target of a
   goal-seek for its unknown.

Main statement: the two agree on every tree, and differentiation by a variable
that is not free ends at once (`isConstant_iff_derivative_zero`).
-/

namespace SymCalc.Expr

variable {v : Variable}

/-- The unknown of a goal-seek is never free in it, and any other variable is not
free in the target as it stands. -/
theorem varsIn_ne_outside_iff {unknown : Variable} {target : Expr} :
    VarsIn (fun w => w ≠ unknown → w ≠ v) target ↔ v = unknown ∨ VarsIn (· ≠ v) target := by
  by_cases hv : v = unknown
  · subst hv
    exact iff_of_true (fun _ _ hne => hne) (.inl rfl)
  · rw [or_iff_right hv]
    constructor
    · rintro h w hw rfl
      exact h w hw hv rfl
    · exact fun h w hw _ => h w hw

mutual

/-- **A tree is constant in a variable exactly if all its free variables are
others.** -/
theorem isConstant_iff_varsIn : (e : Expr) → (e.isConstant v = true ↔ VarsIn (· ≠ v) e)
  | .var w => by rw [isConstant, decide_eq_true_iff, varsIn_var]
  | .const x => iff_of_true rfl (varsIn_const x)
  | .add terms => (allConstant_iff_varsIn terms).trans varsIn_add.symm
  | .mul factors => (allConstant_iff_varsIn factors).trans varsIn_mul.symm
  | .neg e => isConstant_iff_varsIn e
  | .inv e => isConstant_iff_varsIn e
  | .apply _ e => isConstant_iff_varsIn e
  | .pow base exponent => by
    rw [isConstant, Bool.and_eq_true, isConstant_iff_varsIn base, isConstant_iff_varsIn exponent,
      varsIn_pow]
  | .log base power => by
    rw [isConstant, Bool.and_eq_true, isConstant_iff_varsIn base, isConstant_iff_varsIn power,
      varsIn_log]
  | .goalSeek goal target inversion => by
    rw [isConstant, Bool.and_eq_true, Bool.or_eq_true, decide_eq_true_iff,
      isConstant_iff_varsIn goal, isConstant_iff_varsIn target, varsIn_goalSeek,
      varsIn_ne_outside_iff]

/-- The same for lists. -/
theorem allConstant_iff_varsIn : (es : List Expr) →
    (allConstant v es = true ↔ ∀ e ∈ es, VarsIn (· ≠ v) e)
  | [] => iff_of_true rfl (fun _ he => absurd he List.not_mem_nil)
  | e :: es => by
    rw [allConstant, Bool.and_eq_true, isConstant_iff_varsIn e, allConstant_iff_varsIn es,
      List.forall_mem_cons]

end

/-- The derivative by a variable that does not occur is zero without a look into
the tree: nothing is simplified, and nothing reported. -/
theorem derivative_of_isConstant [Elementary] (catalogue : Catalogue) {e : Expr}
    (h : e.isConstant v = true) :
    e.derivative catalogue v = pure zero := by
  rw [derivative, derivativeWith, derive.eq_def, if_pos h]
  rfl

/-- The two readings of dependence agree, at every depth of goal-seeks with any
unknowns, and a tree that does not depend on a variable has the derivative zero,
whether it can be simplified or not. -/
theorem isConstant_iff_derivative_zero [Elementary] (catalogue : Catalogue) (e : Expr)
    (w : Variable) :
    (e.isConstant w = true ↔ w ∉ e.freeVars) ∧
      (w ∉ e.freeVars → e.derivative catalogue w = pure zero) := by
  have hagree : e.isConstant w = true ↔ w ∉ e.freeVars :=
    (isConstant_iff_varsIn e).trans not_mem_freeVars_iff.symm
  exact ⟨hagree, fun h => derivative_of_isConstant catalogue (hagree.mpr h)⟩

/-- `x` is the unknown of a goal-seek that stands in the goal of another one with the
same unknown, whose target holds a third with the unknown `z` and the goal `x`.  The
logarithm beside them cannot be simplified. -/
theorem isConstant_iff_derivative_zero_nested :
    let inGoal := seek (ofName "y") (ofName "x" * ofName "x") ⟨"x"⟩ ⟨0⟩
    let inTarget := seek (ofName "x") (ofName "z" * ofName "y") ⟨"z"⟩ ⟨0⟩
    let e := ln (ofInt (-1)) + seek inGoal (ofName "x" + inTarget) ⟨"x"⟩ ⟨0⟩
    (⟨"x"⟩ : Variable) ∉ e.freeVars ∧ (⟨"y"⟩ : Variable) ∈ e.freeVars ∧
      (e.simplify .empty).result = .error (.numeric .logarithmOfNegative) ∧
      e.derivative .empty ⟨"x"⟩ = pure zero := by
  intro inGoal inTarget e
  have hfree : (⟨"x"⟩ : Variable) ∉ e.freeVars := by decide +kernel
  refine ⟨hfree, by decide +kernel, by with_unfolding_all rfl, ?_⟩
  exact (isConstant_iff_derivative_zero .empty e ⟨"x"⟩).2 hfree

end SymCalc.Expr
