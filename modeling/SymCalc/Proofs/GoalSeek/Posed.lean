import SymCalc.GoalSeek.Level
import SymCalc.Proofs.GoalSeek.Curried

/-!
# SymCalc.Proofs.GoalSeek.Posed

The two parts of solving a goal-seek node: an equation is posed, and its root is
sought.

1. `pose` is the first part.  It ends with what the second one needs, the
   algorithm and the expression to bring to zero (`Posed`), or with the error that
   keeps the node from being solved;
2. the value of a node is what the algorithm makes of the posed equation
   (`evaluate_goalSeek_eq_pose`).

Main statements: `result_pose_eq_ok`, `result_evaluate_goalSeek`.
-/

namespace SymCalc

/-- What a node hands over to be solved. -/
structure Posed where
  algorithm : Algorithm
  /-- The expression to bring to zero. -/
  expr : Expr

namespace Expr

variable [Elementary] (catalogue : Catalogue)

/-- The equation that a node poses under bindings, and the algorithm that is to
solve it. -/
def pose (goal target : Expr) (inversion : Inversion) (args : Arguments) :
    Logged Error Posed := do
  let unknown := inversion.unknown
  if unknown ∈ inversion.domain then
    let goalValue ← goal.evaluate catalogue args
    let algorithm ← (catalogue inversion.factory args unknown inversion.domain).mapError
      Error.algorithm
    let target ← target.curry catalogue (args.erase unknown)
    let expr := sub target (.const goalValue)
    if expr.freeVars.size = 1 ∧ unknown ∈ expr.freeVars then pure ⟨algorithm, expr⟩
    else .fail (.notSingleVariable expr.freeVars.size)
  else .fail (.unknownNotInDomain unknown)

/-- **A node is evaluated by posing its equation and handing it to the
algorithm**, with a report before and after. -/
theorem evaluate_goalSeek_eq_pose (goal target : Expr) (inversion : Inversion)
    (args : Arguments) :
    evaluate catalogue (.goalSeek goal target inversion) args =
      (do
        let posed ← pose catalogue goal target inversion args
        .report (.seeking inversion.unknown posed.expr)
        let root ← (posed.algorithm (posed.expr.equation catalogue inversion.unknown)).mapError
          Error.algorithm
        .report (.found inversion.unknown root)
        pure root) := by
  have hfail : ∀ {α β : Type} (e : Error) (f : α → Logged Error β),
      (Logged.fail e >>= f) = .fail e := fun _ _ => rfl
  rw [evaluate_goalSeek]
  unfold pose
  by_cases hdomain : inversion.unknown ∈ inversion.domain
  · simp only [hdomain, if_true, bind_assoc]
    refine bind_congr fun g => bind_congr fun algorithm => bind_congr fun t => ?_
    split
    · rw [pure_bind]
    · rw [hfail]
  · simp only [hdomain, if_false, hfail]

variable {catalogue} {goal target : Expr} {inversion : Inversion} {args : Arguments}

/-- An equation is posed when the unknown is in the domain, the goal has a value,
the factory builds an algorithm, and the target is curried to a tree that leaves
the unknown as the only variable. -/
theorem result_pose_eq_ok {posed : Posed} :
    (pose catalogue goal target inversion args).result = .ok posed ↔
      inversion.unknown ∈ inversion.domain ∧
        ∃ g, (goal.evaluate catalogue args).result = .ok g ∧
        (catalogue inversion.factory args inversion.unknown inversion.domain).result =
          .ok posed.algorithm ∧
        ∃ t, (target.curry catalogue (args.erase inversion.unknown)).result = .ok t ∧
          PosesEquation inversion g t ∧ posed.expr = sub t (.const g) := by
  obtain ⟨algorithm, expr⟩ := posed
  unfold pose
  by_cases hdomain : inversion.unknown ∈ inversion.domain
  · simp only [hdomain, if_true, true_and, Logged.result_bind_eq_ok,
      Logged.result_mapError, mapError_eq_ok_iff]
    constructor
    · rintro ⟨g, hg, a, ha, t, ht, h⟩
      split at h
      · rename_i hposes
        cases h
        exact ⟨g, hg, ha, t, ht, hposes, rfl⟩
      · cases h
    · rintro ⟨g, hg, ha, t, ht, hposes, rfl⟩
      refine ⟨g, hg, algorithm, ha, t, ht, ?_⟩
      unfold PosesEquation at hposes
      rw [if_pos hposes]
      rfl
  · simp [hdomain]

/-- A node has the root of the equation it poses as its value. -/
theorem result_evaluate_goalSeek {r : Number} :
    (evaluate catalogue (.goalSeek goal target inversion) args).result = .ok r ↔
      ∃ posed, (pose catalogue goal target inversion args).result = .ok posed ∧
        (posed.algorithm (posed.expr.equation catalogue inversion.unknown)).result = .ok r := by
  rw [evaluate_goalSeek_eq_pose]
  simp only [Logged.result_bind_eq_ok, Logged.result_mapError, mapError_eq_ok_iff,
    Logged.result_report, Logged.result_pure, Except.ok.injEq, exists_const, exists_eq_right,
    true_and]

end Expr

/-- The unknown is the only variable of an equation that is posed. -/
theorem PosesEquation.toList_freeVars {inversion : Inversion} {g : Number} {t : Expr}
    (h : PosesEquation inversion g t) :
    (Expr.sub t (.const g)).freeVars.toList = [inversion.unknown] := by
  obtain ⟨hsize, hunknown⟩ := h
  obtain ⟨v, hv⟩ := List.length_eq_one_iff.mp hsize
  rw [← Variables.mem_toList, hv, List.mem_singleton] at hunknown
  rw [hv, hunknown]

end SymCalc
