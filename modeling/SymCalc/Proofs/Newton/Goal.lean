import SymCalc.Newton.Method
import SymCalc.Proofs.GoalSeek.Posed
import SymCalc.Proofs.Newton.Outcome
import SymCalc.Real256.Series

/-!
# SymCalc.Proofs.Newton.Goal

Goal-seeks that Newton's method solves meet their goals.

1. A factory builds an algorithm exactly when the parameters allow a search
   (`result_factory_eq_ok`), and the algorithm answers with the point at which its
   search has converged (`converged_of_algorithm`);
2. a root of the posed equation is a real at which the target, curried by the
   other bindings, is within the tolerance of the goal (`MeetsGoal`).

Nothing is assumed about the goal and the target: they may hold further goal-seeks,
solved by whatever the catalogue names.

Main statement: `meetsGoal_of_evaluate`.
-/

namespace SymCalc.Newton

open SymCalc.Expr

variable {catalogue : Catalogue} {provider : Arguments → Parameters} {seed : UInt64}
  {goal target : Expr} {inversion : Inversion} {args : Arguments} {r : Number}

/-! ## the factory and its algorithm -/

/-- The factory makes an algorithm if and only if the settings provided are a configuration. -/
theorem result_factory_eq_ok {unknown : Variable} {domain : Variables} {algorithm : Algorithm} :
    (factory provider seed args unknown domain).result = .ok algorithm ↔
      ∃ config, Config.make (provider args).epsilon (provider args).maxIters
          (provider args).maxCorrections = .ok config ∧
        Method.algorithm ⟨(provider args).guess, config, seed⟩ = algorithm := by
  simp only [factory, Logged.result_bind_eq_ok, Logged.result_ofExcept, mapError_eq_ok_iff,
    Logged.result_report, Logged.result_pure, Except.ok.injEq, exists_const, true_and]

/-- The answer of the method is where its search has converged. -/
theorem converged_of_algorithm [Elementary] {m : Method} {e : Expr} {v : Variable}
    (h : (m.algorithm (e.equation catalogue v)).result = .ok r) :
    ∃ s g', Converged catalogue e v m.guess m.config (ChaCha.ofSeed m.seed) s g' ∧ s.x = r := by
  rw [Method.algorithm, Logged.result_mapError, mapError_eq_ok_iff, Method.findRoot,
    Logged.result_bind_eq_ok] at h
  obtain ⟨s, hs, hx⟩ := h
  exact ⟨s, _, converged_of_ends ⟨hs, rfl⟩, Except.ok.inj hx⟩

/-! ## the goal -/

/-- The unknown is declared, the parameters allow a search, and `r` is a real at
which the curried target, in which the unknown alone is left, differs from the
value of the goal by the tolerance at most. -/
structure MeetsGoal [Elementary] (catalogue : Catalogue) (p : Parameters) (goal target : Expr)
    (inversion : Inversion) (args : Arguments) (r : Number) : Prop where
  declared : inversion.unknown ∈ inversion.domain
  limits : ∃ config, Config.make p.epsilon p.maxIters p.maxCorrections = .ok config
  real : ∃ x, r = .real x
  near : ∃ g t, (goal.evaluate catalogue args).result = .ok g ∧
    (target.curry catalogue (args.erase inversion.unknown)).result = .ok t ∧
    (sub t (.const g)).freeVars.toList = [inversion.unknown] ∧
    ∃ y tolerance,
      ((sub t (.const g)).evaluate catalogue (.single inversion.unknown r)).result = .ok y ∧
        Number.ofDouble p.epsilon = .ok tolerance ∧ y.abs ≤ tolerance

/-- **A goal-seek solved by Newton's method meets its goal.** -/
theorem meetsGoal_of_evaluate [Elementary]
    (hfactory : catalogue inversion.factory = factory provider seed)
    (hr : (evaluate catalogue (.goalSeek goal target inversion) args).result = .ok r) :
    MeetsGoal catalogue (provider args) goal target inversion args r := by
  obtain ⟨⟨algorithm, e⟩, hposed, hroot⟩ := result_evaluate_goalSeek.mp hr
  obtain ⟨hdeclared, g, hg, halgorithm, t, ht, hposes, rfl⟩ := result_pose_eq_ok.mp hposed
  rw [hfactory] at halgorithm
  obtain ⟨config, hconfig, rfl⟩ := result_factory_eq_ok.mp halgorithm
  obtain ⟨s, g', hconverged, rfl⟩ := converged_of_algorithm hroot
  have htolerance : Number.ofDouble (provider args).epsilon = .ok config.residualBound := by
    rw [← (Config.make_eq_ok_iff.mp hconfig).1]
    exact config.ofDouble_epsilon
  constructor
  · exact hdeclared
  · exact ⟨config, hconfig⟩
  · exact hconverged.real
  · exact ⟨g, t, hg, ht, hposes.toList_freeVars, s.residual, _, hconverged.residual, htolerance,
      hconverged.near⟩

/-- The goal `y + y` and the target `x * x + z * w + u`, where `u` is the root of
`u = y`. -/
def nestedSeek : Expr :=
  seek (ofName "y" + ofName "y")
    (.add [.mul [ofName "x", ofName "x"], .mul [ofName "z", ofName "w"],
      seek (ofName "y") (ofName "u") ⟨"u"⟩ ⟨0⟩]) ⟨"x"⟩ ⟨0⟩

/-- A target that holds a goal-seek and, with `z = 0`, loses the variable `w`: its
root is found, and meets the goal. -/
theorem meetsGoal_of_evaluate_nested :
    let args : Arguments := ⟨[(⟨"y"⟩, .integer 2), (⟨"z"⟩, .integer 0)]⟩
    ∃ goal target inversion r, nestedSeek = .goalSeek goal target inversion ∧
      (evaluate guessing nestedSeek args).result = .ok r ∧
      MeetsGoal guessing { Parameters.standard with guess := .integer 2 } goal target inversion
        args r := by
  intro args
  have hsolved : (evaluate guessing nestedSeek args).result.toOption.isSome = true := by
    decide +kernel
  cases hr : (evaluate guessing nestedSeek args).result with
  | error cause => rw [hr] at hsolved; cases hsolved
  | ok r => exact ⟨_, _, _, r, rfl, rfl, meetsGoal_of_evaluate rfl hr⟩

end SymCalc.Newton
