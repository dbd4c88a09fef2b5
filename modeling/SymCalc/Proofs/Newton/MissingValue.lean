import SymCalc.Proofs.Expr.MissingValue
import SymCalc.Proofs.Newton.Course
import SymCalc.Real256.Series

/-!
# SymCalc.Proofs.Newton.MissingValue

Searches do not fail for want of a value.

1. A search that fails in an evaluation fails as the function or its derivative does
   at some point, or in the arithmetic of its steps (`Problem.Fails`): a shift and an
   iteration can fail in no other way (`fails_of_settle`, `fails_of_iterate`);
2. the derivative of an expression in one variable is an expression in that
   variable, and a search evaluates both with the variable bound
   (`search_ne_undefinedValue`).

Main statement: `missing_only_open`, for evaluation, simplification, currying,
differentiation and the searches for roots at once.
-/

namespace SymCalc.Newton

open Drawing SymCalc.Expr

variable {G : Type} {g g' : G} {cause : Error}

/-! ## errors of a search -/

/-- The function or its derivative fails so at some point, or an operation on numbers
does. -/
def Problem.Fails (p : Problem) (cause : Error) : Prop :=
  (∃ x, (p.f.valueAt x).result = .error cause) ∨
    (∃ x, (p.derivative.valueAt x).result = .error cause) ∨ ∃ e, .numeric e = cause

section errors

variable {α : Type} {p : Problem} {left iter attempts corrections : Nat} {s : Sample}
  {x : Number}

/-- A step without draws ends as its expression does. -/
theorem result_of_ends_expression {m : Logged Error α}
    (h : (expression m : Drawing G SolveError α).Ends g (.error (.expression cause)) g') :
    m.result = .error cause := by
  obtain ⟨⟨cause', hm, hcause⟩, -⟩ := ends_expression_error.mp h
  rw [hm, SolveError.expression.inj hcause]

/-- A numeric step fails for a numeric reason. -/
theorem fails_of_ends_numeric {r : Except NumericError α}
    (h : (numeric r : Drawing G SolveError α).Ends g (.error (.expression cause)) g') :
    p.Fails cause := by
  obtain ⟨⟨e, -, hcause⟩, -⟩ := ends_numeric_error.mp h
  exact .inr (.inr ⟨e, SolveError.expression.inj hcause⟩)

variable [DrawSource G]

/-- A search that settles fails as an evaluation at a shifted point does. -/
theorem fails_of_settle
    (h : (settle p iter left attempts s).Ends g (.error (.expression cause)) g') :
    p.Fails cause := by
  induction left generalizing g attempts s with
  | zero =>
    rw [settle, ends_ite] at h
    simp at h
  | succ left ih =>
    rw [settle, ends_ite] at h
    rcases h with ⟨-, h⟩ | ⟨-, h⟩
    · rcases ends_bind_error.mp h with h | ⟨draw, g₁, -, h⟩
      · simp at h
      rcases ends_bind_error.mp h with h | ⟨step, g₂, -, h⟩
      · exact fails_of_ends_numeric h
      rcases ends_bind_error.mp h with h | ⟨x, g₃, -, h⟩
      · exact fails_of_ends_numeric h
      rcases ends_bind_error.mp h with h | ⟨_, g₄, -, h⟩
      · simp at h
      rcases ends_bind_error.mp h with h | ⟨fx, g₅, -, h⟩
      · exact .inl ⟨x, result_of_ends_expression h⟩
      rcases ends_bind_error.mp h with h | ⟨slope, g₆, -, h⟩
      · exact .inr (.inl ⟨x, result_of_ends_expression h⟩)
      · exact ih h
    · simp at h

/-- **Iterations fail as an evaluation does at one of the points they look at.** -/
theorem fails_of_iterate
    (h : (iterate p left iter corrections x).Ends g (.error (.expression cause)) g') :
    p.Fails cause := by
  induction left generalizing g iter corrections x with
  | zero => simp [iterate] at h
  | succ left ih =>
    rw [iterate] at h
    rcases ends_bind_error.mp h with h | ⟨fx, g₁, -, h⟩
    · exact .inl ⟨x, result_of_ends_expression h⟩
    rcases ends_ite.mp h with ⟨-, h⟩ | ⟨-, h⟩
    · simp at h
    rcases ends_bind_error.mp h with h | ⟨slope, g₂, -, h⟩
    · exact .inr (.inl ⟨x, result_of_ends_expression h⟩)
    rcases ends_bind_error.mp h with h | ⟨⟨s, shifts⟩, g₃, -, h⟩
    · exact fails_of_settle h
    rcases ends_bind_error.mp h with h | ⟨y, g₄, -, h⟩
    · exact fails_of_ends_numeric h
    rcases ends_bind_error.mp h with h | ⟨_, g₅, -, h⟩
    · simp at h
    · exact ih h

variable {catalogue : Catalogue} {e : Expr} {v : Variable} {guess : Number} {config : Config}

/-- A search fails as differentiation does, or as its iterations do. -/
theorem fails_of_search [Elementary]
    (h : (search (e.equation catalogue v) guess config).Ends g (.error (.expression cause)) g') :
    (e.derivative catalogue v).result = .error cause ∨
      ∃ d, (e.derivative catalogue v).result = .ok d ∧
        (problem catalogue e d v config).Fails cause := by
  rcases ends_bind_error.mp h with h | ⟨c, g₁, hc, h⟩
  · rcases Logged.result_bind_eq_error.mp (result_of_ends_expression h) with h | ⟨d, -, h⟩
    · exact .inl h
    · cases h
  obtain ⟨d, hd, rfl⟩ := result_slope_equation.mp (ends_expression_ok.mp hc).1
  refine .inr ⟨d, hd, ?_⟩
  rcases ends_bind_error.mp h with h | ⟨epsilon, g₂, hepsilon, h⟩
  · exact fails_of_ends_numeric h
  rw [Config.ofDouble_epsilon, ends_numeric_ok] at hepsilon
  cases hepsilon.1
  rcases ends_bind_error.mp h with h | ⟨_, g₃, -, h⟩
  · simp at h
  · exact fails_of_iterate h

end errors

/-! ## missing values -/

section missing

variable [Elementary] [DrawSource G] {catalogue : Catalogue} {e : Expr} {v w : Variable}

/-- An expression in one variable has all it needs where the variable is bound. -/
theorem evaluate_single_ne_undefinedValue (hvars : VarsIn (· = v) e) {x : Number} :
    (e.evaluate catalogue (.single v x)).result ≠ .error (.undefinedValue w) := by
  intro h
  obtain ⟨hfree, hopen⟩ := missing_of_evaluate h
  obtain rfl : w = v := hvars w hfree
  simp at hopen

/-- **A search in the only variable of an expression misses no value.** -/
theorem search_ne_undefinedValue (hvars : VarsIn (· = v) e) {guess : Number} {config : Config} :
    ¬(search (e.equation catalogue v) guess config).Ends g
      (.error (.expression (.undefinedValue w))) g' := by
  intro h
  rcases fails_of_search h with h | ⟨d, hd, ⟨x, h⟩ | ⟨x, h⟩ | ⟨_, ⟨⟩⟩⟩
  · exact keepsScope_derivative.complete w h
  · exact evaluate_single_ne_undefinedValue hvars h
  · exact evaluate_single_ne_undefinedValue (hvars.derivativeWith hd) h

/-- Solving in the only variable never misses a value. -/
theorem solve_ne_undefinedValue {guess : Number} {config : Config} :
    ¬(solve catalogue e guess config).Ends g (.error (.expression (.undefinedValue w))) g' := by
  intro h
  unfold solve at h
  split at h
  · rename_i v hv
    have hvars : VarsIn (· = v) e := by
      intro u hu
      rw [← Variables.mem_toList, hv] at hu
      exact List.mem_singleton.mp hu
    exact search_ne_undefinedValue hvars h
  · simp at h

/-- A variable that is not open is never missed. -/
theorem findRoot_ne_undefinedValue {guess : Number} {config : Config} :
    ¬(findRoot catalogue e v guess config).Ends g
      (.error (.expression (.undefinedValue w))) g' := by
  intro h
  rcases ends_ite.mp h with ⟨-, h⟩ | ⟨hvars, h⟩
  · simp at h
  · have hvars : VarsIn (· = v) e := by
      intro u hu
      by_contra hne
      exact hvars (List.any_eq_true.mpr ⟨u, hu, decide_eq_true hne⟩)
    exact search_ne_undefinedValue hvars h

end missing

/-- **Only evaluation misses values, and only those of free variables without a
binding.**  So a search, which binds the one variable there is, misses none. -/
theorem missing_only_open [Elementary] (catalogue : Catalogue) (e : Expr) :
    (∀ args w, (e.evaluate catalogue args).result = .error (.undefinedValue w) →
      w ∈ e.freeVars ∧ args.get? w = none) ∧
    KeepsScope e (e.simplify catalogue) ∧
    (∀ args, KeepsScope e (e.curry catalogue args)) ∧
    (∀ v, KeepsScope e (e.derivative catalogue v)) ∧
    ∀ (G : Type) [DrawSource G] (g : G) guess config w,
      (solve catalogue e guess config g).1.result ≠ .error (.expression (.undefinedValue w)) ∧
      ∀ v, (findRoot catalogue e v guess config g).1.result ≠
        .error (.expression (.undefinedValue w)) := by
  refine ⟨fun args w => missing_of_evaluate, keepsScope_simplify, fun args => keepsScope_curry,
    fun v => keepsScope_derivative, fun G _ g guess config w => ⟨fun h => ?_, fun v h => ?_⟩⟩
  · exact solve_ne_undefinedValue ⟨h, rfl⟩
  · exact findRoot_ne_undefinedValue ⟨h, rfl⟩

/-- The goal of a goal-seek for `x` is to be met by `x` itself: the `x` of the goal is
free, and its value is missed. -/
theorem missing_only_open_goal :
    let e := seek (ofName "x")
      (.add [ofName "x", seek (ofName "y") (ofName "u") ⟨"u"⟩ ⟨0⟩]) ⟨"x"⟩ ⟨0⟩
    let args : Arguments := .single ⟨"y"⟩ (.integer 2)
    (e.evaluate .empty args).result = .error (.undefinedValue ⟨"x"⟩) ∧
      ⟨"x"⟩ ∈ e.freeVars ∧ args.get? ⟨"x"⟩ = none := by
  intro e args
  have hmissing : (e.evaluate .empty args).result = .error (.undefinedValue ⟨"x"⟩) := rfl
  exact ⟨hmissing, (missing_only_open .empty e).1 args _ hmissing⟩

end SymCalc.Newton
