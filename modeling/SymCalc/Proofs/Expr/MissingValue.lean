import SymCalc.Proofs.Expr.FreeVars
import SymCalc.Proofs.Expr.Substitute

/-!
# SymCalc.Proofs.Expr.MissingValue

Which operations fail for want of a value, and of which variable.

`Logged.MissesOnly p m` says that `m` misses values of variables in `p` at most.  There
is one rule for each way to build a computation, and two steps miss what each of them
does (`Logged.MissesOnly.bind`).

1. Evaluation reads its bindings at variables only: what it misses is the value of a
   variable that is free and not bound (`missesOnly_evaluateWith`);
2. simplification evaluates closed goal-seeks only, and misses nothing
   (`missesNothing_simplifyWith`).  Currying fails as some simplification does, and
   differentiation runs simplifications and nothing else that could, so they miss
   nothing either.

Both hold if the solver for goal-seeks is scoped: it misses the value of a free
variable of the node at most.  The solvers of all levels are (`isScoped_solveAt`), so
the operations under a catalogue stay within the scope of their operand
(`missing_of_evaluate`, `KeepsScope`).
-/

namespace SymCalc

/-! ## computations -/

/-- The computation misses values of variables in `p` only. -/
def Logged.MissesOnly {α : Type} (p : Variable → Prop) (m : Logged Error α) : Prop :=
  ∀ v, m.result = .error (.undefinedValue v) → p v

/-- The computation misses no value. -/
abbrev Logged.MissesNothing {α : Type} (m : Logged Error α) : Prop := m.MissesOnly fun _ => False

namespace Logged.MissesOnly

variable {α β : Type} {p q : Variable → Prop}

/-- A computation that succeeds misses nothing. -/
theorem pure (a : α) : MissesOnly p (pure a) := by
  rintro v ⟨⟩

/-- A computation that fails at once misses what its error says. -/
theorem fail {e : Error} (h : ∀ v, e = .undefinedValue v → p v) :
    MissesOnly p (Logged.fail e : Logged Error α) :=
  fun v hv => h v (Except.error.inj hv)

/-- A report misses nothing. -/
theorem report (event : Event) : MissesOnly p (Logged.report event) := by
  rintro v ⟨⟩

/-- A numeric step misses nothing, whatever its error. -/
theorem numeric (r : Except NumericError α) : MissesOnly p (Logged.numeric r) := by
  intro v h
  obtain ⟨_, _, ⟨⟩⟩ := Logged.result_numeric_eq_error.mp h

/-- A failure of an algorithm or its factory is reported as theirs. -/
theorem algorithm (m : Logged Failure α) : MissesOnly p (m.mapError Error.algorithm) := by
  intro v h
  rw [Logged.result_mapError] at h
  cases hm : m.result <;> rw [hm] at h <;> cases h

/-- Two steps miss what either of them does. -/
theorem bind {m : Logged Error α} {f : α → Logged Error β} (h : m.MissesOnly p)
    (hf : ∀ a, m.result = .ok a → (f a).MissesOnly p) : (m >>= f).MissesOnly p := by
  intro v hv
  rcases Logged.result_bind_eq_error.mp hv with hv | ⟨a, ha, hv⟩
  · exact h v hv
  · exact hf a ha v hv

/-- What is missed may be said less precisely. -/
theorem mono {m : Logged Error α} (h : m.MissesOnly p) (hpq : ∀ v, p v → q v) : m.MissesOnly q :=
  fun v hv => hpq v (h v hv)

end Logged.MissesOnly

/-- The value of a function at a number needs no other. -/
theorem UnaryFn.missesOnly_eval [Elementary] {p : Variable → Prop} (f : UnaryFn) (x : Number) :
    (Logged.ofExcept (f.eval x)).MissesOnly p := by
  cases f with
  | offIntegers value =>
    intro v h
    simp only [Logged.result_ofExcept, eval] at h
    split at h
    · split at h <;> cases h
    · cases h
  | _ => exact .numeric _

/-- A solver that misses the value of a variable only where the variable is free in
the node and not bound. -/
def GoalSolver.IsScoped (solve : GoalSolver) : Prop :=
  ∀ goal target inversion args, (solve goal target inversion args).MissesOnly fun v =>
    v ∈ Expr.freeVars (.goalSeek goal target inversion) ∧ args.get? v = .none

namespace Expr

variable {solve : GoalSolver} {args : Arguments} {v : Variable}

/-- A node is solved only when it is closed, so that no value can be missing. -/
theorem missesNothing_foldSeek (hsolve : solve.IsScoped) (goal target : Expr)
    (inversion : Inversion) : (foldSeek solve goal target inversion).MissesNothing := by
  unfold foldSeek
  split
  · rename_i hclosed
    have hnothing : (solve goal target inversion .empty).MissesNothing :=
      (hsolve goal target inversion .empty).mono fun v hv =>
        Variables.isEmpty_iff.mp hclosed v hv.1
    exact hnothing.bind fun _ _ => .pure _
  · exact .pure _

/-! ## evaluation -/

variable [Elementary]

mutual

/-- **Evaluation misses the value of a variable only if it is free and not bound.** -/
theorem missesOnly_evaluateWith (hsolve : solve.IsScoped) {p : Variable → Prop} : (e : Expr) →
    VarsIn p e → (evaluateWith solve args e).MissesOnly fun v => p v ∧ args.get? v = none
  | .var w, hp => by
    rw [evaluateWith]
    cases hw : args.get? w with
    | some x => exact .pure x
    | none =>
      refine .fail fun v hv => ?_
      cases hv
      exact ⟨varsIn_var.mp hp, hw⟩
  | .const x, _ => .pure x
  | .add terms, hp => by
    rw [evaluateWith]
    exact (missesOnly_evaluateAllWith hsolve terms (varsIn_add.mp hp)).bind
      fun _ _ => .numeric _
  | .mul factors, hp => by
    rw [evaluateWith]
    exact (missesOnly_evaluateAllWith hsolve factors (varsIn_mul.mp hp)).bind
      fun _ _ => .numeric _
  | .neg e, hp => by
    rw [evaluateWith]
    exact (missesOnly_evaluateWith hsolve e (varsIn_neg.mp hp)).bind fun _ _ => .pure _
  | .inv e, hp => by
    rw [evaluateWith]
    exact (missesOnly_evaluateWith hsolve e (varsIn_inv.mp hp)).bind fun _ _ => .numeric _
  | .pow base exponent, hp => by
    obtain ⟨hbase, hexponent⟩ := varsIn_pow.mp hp
    rw [evaluateWith]
    exact (missesOnly_evaluateWith hsolve base hbase).bind fun _ _ =>
      (missesOnly_evaluateWith hsolve exponent hexponent).bind fun _ _ => .numeric _
  | .log base power, hp => by
    obtain ⟨hbase, hpower⟩ := varsIn_log.mp hp
    rw [evaluateWith]
    exact (missesOnly_evaluateWith hsolve base hbase).bind fun _ _ =>
      (missesOnly_evaluateWith hsolve power hpower).bind fun _ _ => .numeric _
  | .apply f e, hp => by
    rw [evaluateWith]
    exact (missesOnly_evaluateWith hsolve e (varsIn_apply.mp hp)).bind
      fun x _ => f.missesOnly_eval x
  | .goalSeek goal target inversion, hp =>
    (hsolve goal target inversion args).mono fun v ⟨hfree, hopen⟩ => ⟨hp v hfree, hopen⟩

/-- The same for the values of a list. -/
theorem missesOnly_evaluateAllWith (hsolve : solve.IsScoped) {p : Variable → Prop} :
    (es : List Expr) → (∀ e ∈ es, VarsIn p e) →
    (evaluateAllWith solve args es).MissesOnly fun v => p v ∧ args.get? v = none
  | [], _ => .pure []
  | e :: es, hp => by
    rw [List.forall_mem_cons] at hp
    rw [evaluateAllWith]
    exact (missesOnly_evaluateWith hsolve e hp.1).bind fun _ _ =>
      (missesOnly_evaluateAllWith hsolve es hp.2).bind fun _ _ => .pure _

end

/-! ## simplification -/

/-- Folding a function misses nothing. -/
theorem missesNothing_foldApply (f : UnaryFn) (e : Expr) :
    (Logged.ofExcept (foldApply f e)).MissesNothing := by
  cases e with
  | const x =>
    have heval : (Logged.ofExcept (f.eval x)).MissesNothing := f.missesOnly_eval x
    intro v h
    simp only [Logged.result_ofExcept, foldApply] at h
    cases hx : f.eval x with
    | error err =>
      rw [hx] at h
      cases h
      exact heval v hx
    | ok y =>
      rw [hx] at h
      cases h
  | _ => exact .pure _

mutual

/-- **Simplification misses no value.** -/
theorem missesNothing_simplifyWith (hsolve : solve.IsScoped) : (e : Expr) →
    (simplifyWith solve e).MissesNothing
  | .var _ => .pure _
  | .const _ => .pure _
  | .add terms => by
    rw [simplifyWith]
    exact (missesNothing_simplifyTerms hsolve terms).bind fun _ _ => .numeric _
  | .mul factors => by
    rw [simplifyWith]
    refine (missesNothing_simplifyFactors hsolve factors).bind fun fs _ => ?_
    cases fs with
    | zero x => exact .pure _
    | all fs => exact .numeric _
  | .neg e => by
    rw [simplifyWith]
    exact (missesNothing_simplifyWith hsolve e).bind fun _ _ => .pure _
  | .inv e => by
    rw [simplifyWith]
    exact (missesNothing_simplifyWith hsolve e).bind fun _ _ => .numeric _
  | .pow base exponent => by
    rw [simplifyWith]
    exact (missesNothing_simplifyWith hsolve base).bind fun _ _ =>
      (missesNothing_simplifyWith hsolve exponent).bind fun _ _ => .numeric _
  | .log base power => by
    rw [simplifyWith]
    exact (missesNothing_simplifyWith hsolve base).bind fun _ _ =>
      (missesNothing_simplifyWith hsolve power).bind fun _ _ => .numeric _
  | .apply f e => by
    rw [simplifyWith]
    exact (missesNothing_simplifyWith hsolve e).bind fun s _ => missesNothing_foldApply f s
  | .goalSeek goal target inversion => by
    rw [simplifyWith]
    exact (missesNothing_simplifyWith hsolve goal).bind fun g _ =>
      (missesNothing_simplifyWith hsolve target).bind fun t _ =>
        missesNothing_foldSeek hsolve g t inversion

/-- The same for the terms of a sum. -/
theorem missesNothing_simplifyTerms (hsolve : solve.IsScoped) : (es : List Expr) →
    (simplifyTerms solve es).MissesNothing
  | [] => .pure _
  | e :: es => by
    rw [simplifyTerms]
    exact (missesNothing_simplifyWith hsolve e).bind fun _ _ =>
      (missesNothing_simplifyTerms hsolve es).bind fun _ _ => .pure _

/-- The same for the factors of a product. -/
theorem missesNothing_simplifyFactors (hsolve : solve.IsScoped) : (es : List Expr) →
    (simplifyFactors solve es).MissesNothing
  | [] => .pure _
  | e :: es => by
    intro v h
    rcases simplifyFactors_cons_eq_error h with h | h
    · exact missesNothing_simplifyWith hsolve e v h
    · exact missesNothing_simplifyFactors hsolve es v h

end

/-! ## currying -/

/-- Currying misses no value: it fails as the simplification of some tree does. -/
theorem missesNothing_curryWith (hsolve : solve.IsScoped) (e : Expr) :
    (curryWith solve args e).MissesNothing := by
  intro v h
  obtain ⟨_, -, s, -, hs⟩ := (strictRun_curryWith args e).error _ h
  exact missesNothing_simplifyWith hsolve s v hs

/-! ## differentiation -/

/-- The derivatives of terms miss nothing if none of them does. -/
theorem missesNothing_deriveTerms {es : List Expr}
    (ih : ∀ e ∈ es, (derive solve v e).MissesNothing) :
    (deriveTerms solve v es).MissesNothing := by
  induction es with
  | nil =>
    rw [deriveTerms]
    exact .pure _
  | cons e es ihs =>
    rw [List.forall_mem_cons] at ih
    rw [deriveTerms]
    exact ih.1.bind fun _ _ => (ihs ih.2).bind fun _ _ => .pure _

/-- The terms of the product rule miss nothing if no derivative does. -/
theorem missesNothing_deriveFactors {before es : List Expr}
    (ih : ∀ e ∈ es, (derive solve v e).MissesNothing) :
    (deriveFactors solve v before es).MissesNothing := by
  induction es generalizing before with
  | nil =>
    rw [deriveFactors]
    exact .pure _
  | cons e es ihs =>
    rw [List.forall_mem_cons] at ih
    rw [deriveFactors]
    split
    · exact ihs ih.2
    · exact ih.1.bind fun _ _ => (ihs ih.2).bind fun _ _ => .pure _

/-- The rules of differentiation miss no value: they fail for want of a rule, or as a
simplification of the base or the exponent of a power does. -/
theorem missesNothing_derive (hsolve : solve.IsScoped) (e : Expr) :
    (derive solve v e).MissesNothing := by
  induction hn : weight e using Nat.strongRecOn generalizing e with | ind n ih
  have ih : ∀ {e'}, weight e' < n → (derive solve v e').MissesNothing :=
    fun hlt => ih _ hlt _ rfl
  have hnotDerivable : (Logged.fail .notDerivable : Logged Error Expr).MissesNothing := by
    rintro v ⟨⟩
  rw [derive.eq_def]
  split
  · exact .pure _
  · cases e with
    | var w => exact .pure _
    | const x => exact .pure _
    | add terms =>
      exact (missesNothing_deriveTerms fun e he => ih (hn ▸ weight_lt_add he)).bind
        fun _ _ => .pure _
    | mul factors =>
      exact (missesNothing_deriveFactors fun e he => ih (hn ▸ weight_lt_mul he)).bind
        fun _ _ => .pure _
    | neg e => exact (ih (by simp only [weight] at hn; omega)).bind fun _ _ => .pure _
    | inv e => exact (ih (by simp only [weight] at hn; omega)).bind fun _ _ => .pure _
    | pow base exponent =>
      simp only [Logged.andThenOk_eq_bind]
      refine (missesNothing_simplifyWith hsolve base).bind fun b hb =>
        (missesNothing_simplifyWith hsolve exponent).bind fun p hp => ?_
      -- the rules for a power differentiate what its base and exponent simplify to
      have hbase : (derive solve v b).MissesNothing := ih (hn ▸ weight_base_lt hb exponent)
      have hexponent : (derive solve v p).MissesNothing := ih (hn ▸ weight_exponent_lt hp base)
      split
      · exact .pure _
      · exact hexponent.bind fun _ _ => .pure _
      · exact hbase.bind fun _ _ => .pure _
      · exact hbase.bind fun _ _ => hexponent.bind fun _ _ => .pure _
    | log base power =>
      have := weight_quotientOfLogs base power
      exact ih (by omega)
    | apply f e =>
      have he : (derive solve v e).MissesNothing := ih (by simp only [weight] at hn; omega)
      simp only
      split
      · exact .pure _
      · split
        · exact he.bind fun _ _ => .pure _
        · exact hnotDerivable
    | goalSeek goal target inversion => exact hnotDerivable

/-- Differentiation misses no value. -/
theorem missesNothing_derivativeWith (hsolve : solve.IsScoped) (e : Expr) :
    (derivativeWith solve v e).MissesNothing :=
  (missesNothing_derive hsolve e).bind fun d _ => missesNothing_simplifyWith hsolve d

end Expr

/-! ## solvers -/

variable [Elementary]

/-- Solving a node misses the value of a variable of its goal at most: the target is
curried, and the algorithm answers for its own failures. -/
theorem isScoped_solveSeek (catalogue : Catalogue) {nested : GoalSolver}
    (hnested : nested.IsScoped) : (solveSeek catalogue nested).IsScoped := by
  intro goal target inversion args
  have hgoal : (goal.evaluateWith nested args).MissesOnly fun v =>
      v ∈ goal.freeVars ∧ args.get? v = none :=
    Expr.missesOnly_evaluateWith hnested goal fun _ => id
  have htarget : (target.curryWith nested (args.erase inversion.unknown)).MissesNothing :=
    Expr.missesNothing_curryWith hnested target
  unfold solveSeek
  simp only
  split
  · refine (hgoal.mono fun v hv => ⟨Variables.mem_union.mpr (.inr hv.1), hv.2⟩).bind
      fun g _ => ?_
    refine .bind (.algorithm _) fun algorithm _ => ?_
    refine (htarget.mono fun _ => False.elim).bind fun t _ => ?_
    split
    · exact .bind (.report _) fun _ _ => .bind (.algorithm _) fun root _ =>
        .bind (.report _) fun _ _ => .pure root
    · exact .fail (by simp)
  · exact .fail (by simp)

/-- **The solvers of all levels are scoped.** -/
theorem isScoped_solveAt (catalogue : Catalogue) (level : Nat) :
    (solveAt catalogue level).IsScoped := by
  induction level with
  | zero => exact fun goal target inversion args => .fail (by simp)
  | succ level ih => exact isScoped_solveSeek catalogue ih

/-! ## the operations under a catalogue -/

namespace Expr

variable {catalogue : Catalogue} {e : Expr} {args : Arguments} {v : Variable}

/-- The solver for an expression misses free variables of its nodes at most. -/
theorem isScoped_solver : (e.solver catalogue).IsScoped := isScoped_solveAt catalogue e.seekDepth

/-- The value that an evaluation misses is that of a free variable without a
binding. -/
theorem missing_of_evaluate (h : (e.evaluate catalogue args).result = .error (.undefinedValue v)) :
    v ∈ e.freeVars ∧ args.get? v = none :=
  missesOnly_evaluateWith isScoped_solver e (fun _ => id) v h

/-- The transformation of `e` misses no value, and what it makes of `e` has no free
variables but those of `e`. -/
structure KeepsScope (e : Expr) (transformation : Logged Error Expr) : Prop where
  complete : ∀ v, transformation.result ≠ .error (.undefinedValue v)
  free : ∀ r, transformation.result = .ok r → ∀ v ∈ r.freeVars, v ∈ e.freeVars

/-- **Simplification misses no value and brings in no variable.** -/
theorem keepsScope_simplify : KeepsScope e (e.simplify catalogue) where
  complete := missesNothing_simplifyWith isScoped_solver e
  free _ := VarsIn.simplifyWith e fun _ => id

/-- **Currying misses no value and brings in no variable.** -/
theorem keepsScope_curry : KeepsScope e (e.curry catalogue args) where
  complete := missesNothing_curryWith isScoped_solver e
  free _ := VarsIn.curryWith e fun _ hv _ => hv

/-- **Differentiation misses no value and brings in no variable.** -/
theorem keepsScope_derivative : KeepsScope e (e.derivative catalogue v) where
  complete := missesNothing_derivativeWith isScoped_solver e
  free _ := VarsIn.derivativeWith fun _ => id

end Expr

end SymCalc
