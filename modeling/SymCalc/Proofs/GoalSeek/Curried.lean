import SymCalc.Newton.Method
import SymCalc.Proofs.Expr.Folded
import SymCalc.Proofs.Expr.FreeVars
import SymCalc.Proofs.Expr.Normal
import SymCalc.Real256.Series

/-!
# SymCalc.Proofs.GoalSeek.Curried

What becomes of a goal-seek when all its variables are bound.

Evaluation builds the algorithm from the bindings it is given.  Currying puts the
bindings into the goal and the target, and leaves the closed node to
simplification, which solves it without any bindings: the algorithm sees none.

1. `seekRoot` is the last part of solving a node, from the value of its goal and
   its curried target on;
2. solving a node with its goal and target is `seekRoot` for the bindings at hand
   (`solveSeek_eq_ok_iff`), folding the curried node is `seekRoot` for none
   (`result_foldSeek_curried`).

Main statement: `curry_goalSeek_of_covers`.
-/

namespace SymCalc

/-- The root of `target = goal` by the algorithm that is built from `args`. -/
def seekRoot [Elementary] (catalogue : Catalogue) (nested : GoalSolver) (inversion : Inversion)
    (args : Arguments) (goal : Number) (target : Expr) : Logged Error Number := do
  let algorithm ← (catalogue inversion.factory args inversion.unknown
    inversion.domain).mapError Error.algorithm
  (algorithm (.ofExpr nested inversion.unknown (Expr.sub target (.const goal)))).mapError
    Error.algorithm

/-- The equation of a node is one in its unknown alone. -/
def PosesEquation (inversion : Inversion) (goal : Number) (target : Expr) : Prop :=
  (Expr.sub target (.const goal)).freeVars.size = 1 ∧
    inversion.unknown ∈ (Expr.sub target (.const goal)).freeVars

namespace Expr

/-! ## free variables of the equation -/

/-- The opposite of a constant has no free variables. -/
theorem freeVars_negate_const (x : Number) : (negate (.const x)).freeVars = .empty := by
  unfold negate
  by_cases h : x.isNegative = true
  · simp only [h, if_true]
    rfl
  · simp only [h]
    rfl

/-- The opposite of a constant is a single addend. -/
theorem addends_negate_const (x : Number) :
    addends (negate (.const x)) = [negate (.const x)] := by
  unfold negate
  by_cases h : x.isNegative = true
  · simp only [h, if_true]
    rfl
  · simp only [h]
    rfl

/-- A difference with a constant is a sum with its opposite at the end. -/
theorem sub_const (t : Expr) (x : Number) :
    sub t (.const x) = .add (addends t ++ [negate (.const x)]) := by
  simp only [sub, sum, List.flatMap_cons, List.flatMap_nil, List.append_nil,
    addends_negate_const]

/-- The last tree of a list counts by its free variables alone. -/
theorem freeVarsAll_concat {a b : Expr} (h : a.freeVars = b.freeVars) (es : List Expr) :
    freeVarsAll (es ++ [a]) = freeVarsAll (es ++ [b]) := by
  induction es with
  | nil => simp only [List.nil_append, freeVarsAll, h]
  | cons e es ih => simp only [List.cons_append, freeVarsAll, ih]

/-- The variables of an equation do not depend on the value of the goal. -/
theorem freeVars_sub_const (t : Expr) (x y : Number) :
    (sub t (.const x)).freeVars = (sub t (.const y)).freeVars := by
  rw [sub_const, sub_const, freeVars, freeVars]
  exact freeVarsAll_concat (by rw [freeVars_negate_const, freeVars_negate_const]) _

/-- Subtracting a constant leaves the free variables alone. -/
theorem mem_freeVars_sub_const {v : Variable} {t : Expr} {x : Number} :
    v ∈ (sub t (.const x)).freeVars ↔ v ∈ t.freeVars := by
  rw [← not_iff_not, not_mem_freeVars_iff, not_mem_freeVars_iff]
  simp

end Expr

section solving

variable {catalogue : Catalogue} {nested : GoalSolver} {inversion : Inversion}
  {args : Arguments} {goal target t : Expr} {g r : Number}

/-! ## solving a node -/

/-- A solved node has a goal with a value and a target that can be curried, and
poses an equation. -/
theorem parts_of_solveSeek_eq_ok [Elementary]
    (h : (solveSeek catalogue nested goal target inversion args).result = .ok r) :
    inversion.unknown ∈ inversion.domain ∧ ∃ g, Expr.HasValue nested args goal g ∧
      ∃ t, (target.curryWith nested (args.erase inversion.unknown)).result = .ok t ∧
        PosesEquation inversion g t := by
  unfold solveSeek at h
  by_cases hdomain : inversion.unknown ∈ inversion.domain
  · simp only [hdomain, if_true] at h
    obtain ⟨g, hg, h⟩ := Logged.result_bind_eq_ok.mp h
    obtain ⟨algorithm, _, h⟩ := Logged.result_bind_eq_ok.mp h
    obtain ⟨t, ht, h⟩ := Logged.result_bind_eq_ok.mp h
    refine ⟨hdomain, g, hg, t, ht, ?_⟩
    split at h
    · assumption
    · cases h
  · simp only [hdomain, if_false] at h
    cases h

/-- From the value of the goal and the curried target on, a node is solved by
its root alone. -/
theorem result_solveSeek [Elementary] (hdomain : inversion.unknown ∈ inversion.domain)
    (hg : Expr.HasValue nested args goal g)
    (ht : (target.curryWith nested (args.erase inversion.unknown)).result = .ok t)
    (hposes : PosesEquation inversion g t) :
    (solveSeek catalogue nested goal target inversion args).result =
      (seekRoot catalogue nested inversion args g t).result := by
  unfold PosesEquation at hposes
  unfold Expr.HasValue at hg
  unfold solveSeek seekRoot
  have hok : ∀ {α β : Type} (a : α) (f : α → Except Error β), (Except.ok a >>= f) = f a :=
    fun _ _ => rfl
  simp only [hdomain, if_true, Logged.result_bind, hg, hok]
  congr 1
  funext algorithm
  simp only [ht, hok]
  rw [if_pos hposes]
  simp only [Logged.result_bind, Logged.result_report, Logged.result_pure, hok]
  cases (Logged.mapError Error.algorithm (algorithm (.ofExpr nested inversion.unknown
    (Expr.sub t (.const g))))).result <;> rfl

/-- Whether an equation is posed does not depend on the value of the goal. -/
theorem PosesEquation.of_goal {g' : Number} (h : PosesEquation inversion g t) :
    PosesEquation inversion g' t := by
  unfold PosesEquation at h ⊢
  rwa [Expr.freeVars_sub_const t g' g]

/-- The target of an equation depends on the unknown alone. -/
theorem PosesEquation.eq_unknown {v : Variable} (h : PosesEquation inversion g t)
    (hv : v ∈ t.freeVars) : v = inversion.unknown := by
  obtain ⟨hsize, hunknown⟩ := h
  obtain ⟨w, hw⟩ := List.length_eq_one_iff.mp hsize
  rw [← Variables.mem_toList, hw, List.mem_singleton] at hunknown
  have hmem := Expr.mem_freeVars_sub_const (x := g).mpr hv
  rw [← Variables.mem_toList, hw, List.mem_singleton] at hmem
  rw [hmem, hunknown]

/-! ## folding a node -/

/-- A closed node is folded to its root by the algorithm that is built from no
bindings. -/
theorem result_foldSeek [Elementary] (hdomain : inversion.unknown ∈ inversion.domain)
    (ht : Expr.Normal t) (hposes : PosesEquation inversion g t) :
    (Expr.foldSeek (solveSeek catalogue nested) (.const g) t inversion).result =
      (seekRoot catalogue nested inversion .empty g t).result.map .const := by
  have hclosed : (Expr.freeVars (.goalSeek (.const g) t inversion)).isEmpty = true := by
    rw [Variables.isEmpty_iff]
    intro v hv
    rw [Expr.freeVars, Expr.freeVars, Variables.mem_union, Variables.mem_erase] at hv
    rcases hv with ⟨hmem, hne⟩ | hv
    · exact hne (hposes.eq_unknown hmem)
    · exact Variables.not_mem_empty v hv
  have hroot : (solveSeek catalogue nested (.const g) t inversion .empty).result =
      (seekRoot catalogue nested inversion .empty g t).result :=
    result_solveSeek hdomain (Expr.hasValue_const.mpr rfl) (Expr.curryWith_empty_of_normal t ht)
      hposes
  rw [Expr.foldSeek, if_pos hclosed, Logged.result_bind, hroot]
  cases (seekRoot catalogue nested inversion .empty g t).result <;> rfl

end solving

namespace Expr

section

variable [Elementary] {args : Arguments} {goal target : Expr} {inversion : Inversion} {r : Number}

/-- The goal-seek that has none inside is solved at the first level. -/
theorem solver_goalSeek (catalogue : Catalogue) (hgs : goal.seekDepth = 0)
    (hts : target.seekDepth = 0) :
    solver catalogue (.goalSeek goal target inversion) = solveSeek catalogue .none := by
  rw [solver, seekDepth, hgs, hts]
  rfl

/-- A node whose goal is folded to a number and whose target is curried to a
normal tree is simplified to its root. -/
theorem result_simplifyWith_goalSeek {catalogue : Catalogue} {nested : GoalSolver} {t : Expr}
    {g x : Number} (hdomain : inversion.unknown ∈ inversion.domain) (ht : Normal t)
    (hposes : PosesEquation inversion g t) :
    (simplifyWith (solveSeek catalogue nested) (.goalSeek (.const x) t inversion)).result =
      (seekRoot catalogue nested inversion .empty x t).result.map .const := by
  have hconst : (simplifyWith (solveSeek catalogue nested) (.const x)).result = .ok (.const x) :=
    rfl
  rw [simplifyWith, Logged.result_bind, hconst]
  change (simplifyWith (solveSeek catalogue nested) t >>= fun t =>
    foldSeek (solveSeek catalogue nested) (.const x) t inversion).result = _
  rw [Logged.result_bind, simplifyWith_of_normal t ht]
  exact result_foldSeek hdomain ht hposes.of_goal

/-- A goal-seek left with an equation in its unknown is solved when it is curried. -/
theorem result_curry_goalSeek {catalogue : Catalogue} {t : Expr} {g : Number}
    (hgs : goal.seekDepth = 0) (hts : target.seekDepth = 0) (hc : args.Covers goal.freeVars)
    (hdomain : inversion.unknown ∈ inversion.domain)
    (ht : (target.curry catalogue (args.erase inversion.unknown)).result = .ok t)
    (hposes : PosesEquation inversion g t) :
    (curry catalogue (.goalSeek goal target inversion) args).result =
      ((foldedValue args goal).bind fun x =>
        (seekRoot catalogue .none inversion .empty x t).result).map .const := by
  have hlevel : target.seekDepth ≤ 1 := by omega
  have hcurried : (curryWith (solveSeek catalogue .none) (args.erase inversion.unknown)
      target).result = .ok t := by
    rw [← ht, ← curryWith_solveAt catalogue hlevel]
    rfl
  rw [curry, solver_goalSeek catalogue hgs hts, curryWith, Logged.result_bind,
    curryWith_eq_foldedValue goal hgs hc]
  cases foldedValue args goal with
  | error err => rfl
  | ok x =>
    change (curryWith (solveSeek catalogue .none) (args.erase inversion.unknown) target >>=
      fun t => simplifyWith (solveSeek catalogue .none) (.goalSeek (.const x) t inversion)).result
        = _
    rw [Logged.result_bind, hcurried]
    exact result_simplifyWith_goalSeek hdomain (normal_curryWith ht) hposes

/-- **What currying a goal-seek has to do with evaluating it.**  Let goal and
target hold no goal-seeks, let all variables of the node be bound, and let the
node have the value `r`.  With `g` the value of the goal and `t` the curried
target,

1. `r` is the root of `t = g` by the algorithm that is built from the bindings;
2. currying arrives at the root by the algorithm that is built from no bindings,
   of `t` against the folded goal, or fails as this does;
3. so it agrees with evaluation exactly where that root equals `r`;
4. it does agree where the factory builds one algorithm from both, and the
   products of the goal keep their zeros. -/
theorem curry_goalSeek_of_covers (catalogue : Catalogue) (hgs : goal.seekDepth = 0)
    (hts : target.seekDepth = 0) (hc : args.Covers (freeVars (.goalSeek goal target inversion)))
    (hr : (evaluate catalogue (.goalSeek goal target inversion) args).result = .ok r) :
    ∃ g t, (goal.evaluate catalogue args).result = .ok g ∧
      (target.curry catalogue (args.erase inversion.unknown)).result = .ok t ∧
      (seekRoot catalogue .none inversion args g t).result = .ok r ∧
      (curry catalogue (.goalSeek goal target inversion) args).result =
        ((foldedValue args goal).bind fun x =>
          (seekRoot catalogue .none inversion .empty x t).result).map .const ∧
      ((∃ c, (curry catalogue (.goalSeek goal target inversion) args).result = .ok (.const c) ∧
          (c == r) = true) ↔
        ∃ x w, foldedValue args goal = .ok x ∧
          (seekRoot catalogue .none inversion .empty x t).result = .ok w ∧ (w == r) = true) ∧
      (catalogue inversion.factory .empty inversion.unknown inversion.domain =
          catalogue inversion.factory args inversion.unknown inversion.domain →
        ZerosKept (goal.solver catalogue) args goal →
        (curry catalogue (.goalSeek goal target inversion) args).result = .ok (.const r)) := by
  have hsolved := hr
  rw [evaluate, solver_goalSeek catalogue hgs hts, evaluateWith] at hsolved
  obtain ⟨hdomain, g, hg, t, ht, hposes⟩ := parts_of_solveSeek_eq_ok hsolved
  have hgoal : (goal.evaluate catalogue args).result = .ok g := by
    rw [← evaluateWith_solveAt catalogue (Nat.le_of_eq hgs)]
    exact hg
  have htarget : (target.curry catalogue (args.erase inversion.unknown)).result = .ok t := by
    rw [← curryWith_solveAt catalogue (Nat.le_of_eq hts)]
    exact ht
  have hroot : (seekRoot catalogue .none inversion args g t).result = .ok r := by
    rw [← result_solveSeek hdomain hg ht hposes]
    exact hsolved
  have hcurry := result_curry_goalSeek hgs hts (Arguments.covers_union.mp hc).2 hdomain htarget
    hposes
  refine ⟨g, t, hgoal, htarget, hroot, hcurry, ?_, ?_⟩
  · rw [hcurry]
    cases foldedValue args goal with
    | error err => simp [Except.map, Except.bind]
    | ok x =>
      cases hx : (seekRoot catalogue .none inversion .empty x t).result <;>
        simp [Except.map, Except.bind, hx]
  · intro hfactory hzeros
    have hfolded : foldedValue args goal = .ok g := by
      rw [foldedValue_eq_evaluateWith goal hgs hzeros]
      exact hgoal
    have hempty : seekRoot catalogue .none inversion .empty g t =
        seekRoot catalogue .none inversion args g t := by
      rw [seekRoot, hfactory]
      rfl
    rw [hcurry, hfolded]
    simp only [Except.bind, hempty, hroot]
    rfl

end

/-- Newton's method from `2`, or from the value that is bound to `g`. -/
def guessing : Catalogue :=
  .ofList [Newton.factory (fun args =>
    { Newton.Parameters.standard with guess := (args.get? ⟨"g"⟩).getD (.integer 2) }) 0]

/-- With no guess among the bindings, currying the positive root of `x ^ 2 = y`
agrees with evaluating it. -/
theorem curry_goalSeek_of_covers_square :
    let node := seek (ofName "y") (.pow (ofName "x") (ofInt 2)) ⟨"x"⟩ ⟨0⟩
    let args := Arguments.single ⟨"y"⟩ (.integer 4)
    let root := Number.real (.finite (.ofInt 2))
    (node.evaluate guessing args).result = .ok root ∧
      (node.curry guessing args).result = .ok (.const root) := by
  intro node args root
  have hcovers : args.Covers node.freeVars := by
    intro v hv
    have hy : v = ⟨"y"⟩ := by
      simp only [node, seek, freeVars, Variables.mem_union, Variables.mem_erase,
        Variables.mem_singleton, Variables.not_mem_empty] at hv
      grind
    exact ⟨.integer 4, by simp [args, hy]⟩
  have hroot : (node.evaluate guessing args).result = .ok root := by
    have hoption : (node.evaluate guessing args).result.toOption = some root := by
      decide +kernel
    cases hresult : (node.evaluate guessing args).result with
    | error err => rw [hresult] at hoption; cases hoption
    | ok x => rw [hresult] at hoption; cases hoption; rfl
  obtain ⟨g, t, _, _, _, _, _, hagree⟩ :=
    curry_goalSeek_of_covers guessing (by rfl) (by rfl) hcovers hroot
  exact ⟨hroot, hagree rfl trivial⟩

/-- A guess among the bindings is lost on the way: the negative root is found
from `-2`, but currying starts from `2`. -/
example :
    let node := seek (ofInt 4) (.pow (ofName "x") (ofInt 2)) ⟨"x"⟩ ⟨0⟩
    let args := Arguments.single ⟨"g"⟩ (.integer (-2))
    (node.evaluate guessing args).result.toOption = some (.real (.finite (.ofInt (-2)))) ∧
      (node.curry guessing args).result.toOption.map text = some "2" := by
  decide +kernel

end Expr

end SymCalc
