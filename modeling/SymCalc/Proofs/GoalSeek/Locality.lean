import SymCalc.Newton.Method
import SymCalc.Proofs.Expr.FreeVars
import SymCalc.Proofs.Expr.Substitute
import SymCalc.Real256.Series

/-!
# SymCalc.Proofs.GoalSeek.Locality

Evaluation depends on the values of the free variables alone.

1. Two sets of bindings agree on an expression if they bind its free variables alike
   (`AgreeOn`).  They need not bind the unknown of a goal-seek alike for its target,
   which is curried without it (`AgreeOn.target`);
2. currying under sets of bindings that agree is the same computation, whatever
   solves the goal-seeks: these are solved without bindings (`curryWith_of_agreeOn`);
3. evaluation hands its bindings to the goals of goal-seeks and to their factories.
   It has the same result if the factories build the same algorithms
   (`HasFixedFactories`, `result_evaluateWith_of_agreeOn`).

Main statement: `evaluate_depends_on_freeVars`.
-/

namespace SymCalc

/-- What the factory builds does not depend on the bindings. -/
def Factory.IgnoresBindings (factory : Factory) : Prop :=
  ∀ args args' unknown domain,
    (factory args unknown domain).result = (factory args' unknown domain).result

namespace Expr

variable {args args' : Arguments} {catalogue : Catalogue}

/-! ## agreement -/

/-- The two sets of bindings agree on the free variables of the expression. -/
abbrev AgreeOn (args args' : Arguments) (e : Expr) : Prop :=
  VarsIn (fun v => args.get? v = args'.get? v) e

/-- Bindings that agree on the other variables of a target agree on the target once
the unknown is not bound. -/
theorem AgreeOn.target {unknown : Variable} {e : Expr}
    (h : VarsIn (fun v => v ≠ unknown → args.get? v = args'.get? v) e) :
    AgreeOn (args.erase unknown) (args'.erase unknown) e := by
  intro v hv
  rw [Arguments.get?_erase, Arguments.get?_erase]
  split
  · rfl
  · exact h v hv ‹_›

/-- All goal-seeks in the expression have factories that ignore the bindings. -/
def HasFixedFactories (catalogue : Catalogue) (e : Expr) : Prop :=
  ∀ ⦃goal target : Expr⦄ ⦃inversion : Inversion⦄,
    Subtree (.goalSeek goal target inversion) e → (catalogue inversion.factory).IgnoresBindings

/-- The factories of an operand are among those of the tree. -/
theorem HasFixedFactories.child {c e : Expr} (h : HasFixedFactories catalogue e)
    (hc : c ∈ children e) : HasFixedFactories catalogue c :=
  fun _ _ _ hs => h (.child hc hs)

/-! ## currying -/

mutual

/-- **Currying under bindings that agree is one computation.** -/
theorem curryWith_of_agreeOn [Elementary] {solve : GoalSolver} : {args args' : Arguments} →
    (e : Expr) → AgreeOn args args' e → curryWith solve args e = curryWith solve args' e
  | _, _, .var v, h => by rw [curryWith, curryWith, varsIn_var.mp h]
  | _, _, .const _, _ => rfl
  | _, _, .add terms, h => by
    rw [curryWith, curryWith, curryAllWith_of_agreeOn terms (varsIn_add.mp h)]
  | _, _, .mul factors, h => by
    rw [curryWith, curryWith, curryAllWith_of_agreeOn factors (varsIn_mul.mp h)]
  | _, _, .neg e, h => by
    rw [curryWith, curryWith, curryWith_of_agreeOn e (varsIn_neg.mp h)]
  | _, _, .inv e, h => by
    rw [curryWith, curryWith, curryWith_of_agreeOn e (varsIn_inv.mp h)]
  | _, _, .pow base exponent, h => by
    obtain ⟨hbase, hexponent⟩ := varsIn_pow.mp h
    rw [curryWith, curryWith, curryWith_of_agreeOn base hbase,
      curryWith_of_agreeOn exponent hexponent]
  | _, _, .log base power, h => by
    obtain ⟨hbase, hpower⟩ := varsIn_log.mp h
    rw [curryWith, curryWith, curryWith_of_agreeOn base hbase, curryWith_of_agreeOn power hpower]
  | _, _, .apply f e, h => by
    rw [curryWith, curryWith, curryWith_of_agreeOn e (varsIn_apply.mp h)]
  | _, _, .goalSeek goal target inversion, h => by
    obtain ⟨hgoal, htarget⟩ := varsIn_goalSeek.mp h
    rw [curryWith, curryWith, curryWith_of_agreeOn goal hgoal,
      curryWith_of_agreeOn target (AgreeOn.target htarget)]

/-- The same for lists. -/
theorem curryAllWith_of_agreeOn [Elementary] {solve : GoalSolver} : {args args' : Arguments} →
    (es : List Expr) → (∀ e ∈ es, AgreeOn args args' e) →
    curryAllWith solve args es = curryAllWith solve args' es
  | _, _, [], _ => rfl
  | _, _, e :: es, h => by
    rw [List.forall_mem_cons] at h
    rw [curryAllWith, curryAllWith, curryWith_of_agreeOn e h.1, curryAllWith_of_agreeOn es h.2]

end

/-! ## evaluation -/

end Expr

/-- A solver whose answers depend on the free variables of the node alone, if the
factories in it ignore the bindings. -/
def GoalSolver.ReadsFree (catalogue : Catalogue) (solve : GoalSolver) : Prop :=
  ∀ ⦃goal target : Expr⦄ ⦃inversion : Inversion⦄ ⦃args args' : Arguments⦄,
    Expr.HasFixedFactories catalogue (.goalSeek goal target inversion) →
    Expr.AgreeOn args args' (.goalSeek goal target inversion) →
    (solve goal target inversion args).result = (solve goal target inversion args').result

namespace Expr

variable [Elementary] {catalogue : Catalogue} {solve : GoalSolver} {args args' : Arguments}

mutual

/-- **Evaluation under bindings that agree has one result.** -/
theorem result_evaluateWith_of_agreeOn (hsolve : solve.ReadsFree catalogue) : (e : Expr) →
    HasFixedFactories catalogue e → AgreeOn args args' e →
    (evaluateWith solve args e).result = (evaluateWith solve args' e).result
  | .var v, _, h => by rw [evaluateWith, evaluateWith, varsIn_var.mp h]
  | .const _, _, _ => rfl
  | .add terms, hf, h => by
    have hterms := result_evaluateAllWith_of_agreeOn hsolve terms (fun _ => hf.child)
      (varsIn_add.mp h)
    rw [evaluateWith, evaluateWith, Logged.result_bind, Logged.result_bind, hterms]
  | .mul factors, hf, h => by
    have hfactors := result_evaluateAllWith_of_agreeOn hsolve factors (fun _ => hf.child)
      (varsIn_mul.mp h)
    rw [evaluateWith, evaluateWith, Logged.result_bind, Logged.result_bind, hfactors]
  | .neg e, hf, h => by
    have he := result_evaluateWith_of_agreeOn hsolve e (hf.child (.head _)) (varsIn_neg.mp h)
    rw [evaluateWith, evaluateWith, Logged.result_bind, Logged.result_bind, he]
  | .inv e, hf, h => by
    have he := result_evaluateWith_of_agreeOn hsolve e (hf.child (.head _)) (varsIn_inv.mp h)
    rw [evaluateWith, evaluateWith, Logged.result_bind, Logged.result_bind, he]
  | .pow base exponent, hf, h => by
    obtain ⟨hbase, hexponent⟩ := varsIn_pow.mp h
    have hb := result_evaluateWith_of_agreeOn hsolve base (hf.child (.head _)) hbase
    have hp := result_evaluateWith_of_agreeOn hsolve exponent (hf.child (.tail _ (.head _)))
      hexponent
    simp only [evaluateWith, Logged.result_bind, hb, hp]
  | .log base power, hf, h => by
    obtain ⟨hbase, hpower⟩ := varsIn_log.mp h
    have hb := result_evaluateWith_of_agreeOn hsolve base (hf.child (.head _)) hbase
    have hp := result_evaluateWith_of_agreeOn hsolve power (hf.child (.tail _ (.head _)))
      hpower
    simp only [evaluateWith, Logged.result_bind, hb, hp]
  | .apply f e, hf, h => by
    have he := result_evaluateWith_of_agreeOn hsolve e (hf.child (.head _)) (varsIn_apply.mp h)
    rw [evaluateWith, evaluateWith, Logged.result_bind, Logged.result_bind, he]
  | .goalSeek _ _ _, hf, h => hsolve hf h

/-- The same for lists. -/
theorem result_evaluateAllWith_of_agreeOn (hsolve : solve.ReadsFree catalogue) :
    (es : List Expr) → (∀ e ∈ es, HasFixedFactories catalogue e) →
    (∀ e ∈ es, AgreeOn args args' e) →
    (evaluateAllWith solve args es).result = (evaluateAllWith solve args' es).result
  | [], _, _ => rfl
  | e :: es, hf, h => by
    rw [List.forall_mem_cons] at hf h
    have he := result_evaluateWith_of_agreeOn hsolve e hf.1 h.1
    have hes := result_evaluateAllWith_of_agreeOn hsolve es hf.2 h.2
    simp only [evaluateAllWith, Logged.result_bind, he, hes]

end

end Expr

/-! ## solvers -/

section solvers

variable {catalogue : Catalogue}

/-- The goal has one value, the factory builds one algorithm, and the curried target
is one tree. -/
theorem readsFree_solveSeek [Elementary] {nested : GoalSolver}
    (hnested : nested.ReadsFree catalogue) :
    (solveSeek catalogue nested).ReadsFree catalogue := by
  intro goal target inversion args args' hfactories hagree
  obtain ⟨hgoal, htarget⟩ := Expr.varsIn_goalSeek.mp hagree
  have hvalue := Expr.result_evaluateWith_of_agreeOn hnested goal
    (hfactories.child (.head _)) hgoal
  have halgorithm := hfactories (.refl _) args args' inversion.unknown inversion.domain
  have hcurried : target.curryWith nested (args.erase inversion.unknown) =
      target.curryWith nested (args'.erase inversion.unknown) :=
    Expr.curryWith_of_agreeOn target (Expr.AgreeOn.target htarget)
  unfold solveSeek
  simp only
  split
  · simp only [Logged.result_bind, Logged.result_mapError, hvalue, halgorithm, hcurried]
  · rfl

/-- **The solvers of all levels read free variables alone.** -/
theorem readsFree_solveAt [Elementary] (catalogue : Catalogue) (level : Nat) :
    (solveAt catalogue level).ReadsFree catalogue := by
  induction level with
  | zero =>
    intro goal target inversion args args' _ _
    rfl
  | succ level ih => exact readsFree_solveSeek ih

/-- Newton's method with the same parameters for all bindings. -/
theorem Newton.ignoresBindings_factory {provider : Arguments → Newton.Parameters}
    (h : ∀ args args', provider args = provider args') (seed : UInt64) :
    (Newton.factory provider seed).IgnoresBindings := by
  intro args args' unknown domain
  simp only [Newton.factory, h args args']

/-- All factories of the catalogue that lists such factories ignore the bindings. -/
theorem ignoresBindings_ofList {factories : List Factory}
    (h : ∀ f ∈ factories, f.IgnoresBindings) (id : FactoryId) :
    (Catalogue.ofList factories id).IgnoresBindings := by
  intro args args' unknown domain
  rw [Catalogue.ofList, List.getD_eq_getElem?_getD]
  cases hf : factories[id.index]? with
  | none => rfl
  | some f => exact h f (List.mem_of_getElem? hf) args args' unknown domain

end solvers

namespace Expr

/-- **Evaluation depends on the values of the free variables alone**, if the
factories ignore the bindings.  So it does not matter whether, and to what, another
variable is bound, as the unknown of a goal-seek that is not free elsewhere. -/
theorem evaluate_depends_on_freeVars [Elementary] {catalogue : Catalogue} {e : Expr}
    (hfactories : e.HasFixedFactories catalogue) :
    (∀ args args', (∀ v ∈ e.freeVars, args.get? v = args'.get? v) →
      (e.evaluate catalogue args).result = (e.evaluate catalogue args').result) ∧
    ∀ args args' v, v ∉ e.freeVars → (∀ w, w ≠ v → args.get? w = args'.get? w) →
      (e.evaluate catalogue args).result = (e.evaluate catalogue args').result := by
  have hagree : ∀ args args', (∀ v ∈ e.freeVars, args.get? v = args'.get? v) →
      (e.evaluate catalogue args).result = (e.evaluate catalogue args').result :=
    fun args args' h =>
      result_evaluateWith_of_agreeOn (readsFree_solveAt catalogue e.seekDepth) e hfactories h
  refine ⟨hagree, fun args args' v hv hothers => hagree args args' fun w hw => ?_⟩
  exact hothers w fun h => hv (h ▸ hw)

/-- The `x` of `x * x + u = 2 * y`, where `u` is the `x` of `x + x = 2 * y`, is the same
whether `x` is bound or not. -/
theorem evaluate_depends_on_freeVars_nested :
    let catalogue := Catalogue.ofList
      [Newton.factory (fun _ => { Newton.Parameters.standard with guess := .integer 2 }) 0]
    let inner := seek (ofInt 2 * ofName "y") (ofName "x" + ofName "x") ⟨"x"⟩ ⟨0⟩
    let e := seek (ofInt 2 * ofName "y") (ofName "x" * ofName "x" + inner) ⟨"x"⟩ ⟨0⟩
    ∃ r, (e.evaluate catalogue ⟨[(⟨"y"⟩, .integer 4)]⟩).result = .ok r ∧
      (e.evaluate catalogue ⟨[(⟨"x"⟩, .integer 7), (⟨"y"⟩, .integer 4)]⟩).result = .ok r := by
  intro catalogue inner e
  have hfactories : e.HasFixedFactories catalogue := by
    intro goal target inversion _
    apply ignoresBindings_ofList
    exact List.forall_mem_singleton.mpr
      (Newton.ignoresBindings_factory (fun _ _ => rfl) 0)
  obtain ⟨r, hr⟩ : ∃ r, (e.evaluate catalogue ⟨[(⟨"y"⟩, .integer 4)]⟩).result = .ok r :=
    exists_eq_ok (by decide +kernel)
  refine ⟨r, hr, ?_⟩
  rw [← hr]
  apply (evaluate_depends_on_freeVars hfactories).2 _ _ ⟨"x"⟩ (by decide)
  intro w hw
  simp [Arguments.get?, List.lookup_cons, beq_false_of_ne hw]

end Expr

end SymCalc
