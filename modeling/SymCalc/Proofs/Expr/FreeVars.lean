import SymCalc.Expr.Curry
import SymCalc.Proofs.Expr.Derives

/-!
# SymCalc.Proofs.Expr.FreeVars

Free variables of simplified and curried trees and of derivatives.

`VarsIn p e` says that all free variables of `e` satisfy `p`.  The variable of a
goal-seek is free in the target, so `p` has to admit it there.

Main statements: simplification and differentiation introduce no variables
(`VarsIn.simplifyWith`, `VarsIn.derive`, `VarsIn.derivativeWith`), and currying
leaves none that is bound (`VarsIn.curryWith`).
-/

namespace SymCalc.Expr

/-- All free variables of the expression satisfy `p`. -/
def VarsIn (p : Variable → Prop) (e : Expr) : Prop := ∀ v ∈ e.freeVars, p v

variable {p : Variable → Prop}

/-- A variable is not free if all free variables differ from it. -/
theorem not_mem_freeVars_iff {v : Variable} {e : Expr} :
    v ∉ e.freeVars ↔ VarsIn (· ≠ v) e :=
  ⟨fun h _ hw heq => h (heq ▸ hw), fun h hv => h v hv rfl⟩

/-- The free variables of a list are those of its members. -/
theorem mem_freeVarsAll_iff {v : Variable} {es : List Expr} :
    v ∈ freeVarsAll es ↔ ∃ e ∈ es, v ∈ e.freeVars := by
  induction es with
  | nil => simp [freeVarsAll]
  | cons e es ih => simp [freeVarsAll, ih]

/-! ## nodes -/

@[simp] theorem varsIn_var {v : Variable} : VarsIn p (.var v) ↔ p v := by
  simp [VarsIn, freeVars]

@[simp] theorem varsIn_const (x : Number) : VarsIn p (.const x) := by
  simp [VarsIn, freeVars]

@[simp] theorem varsIn_add {es : List Expr} : VarsIn p (.add es) ↔ ∀ e ∈ es, VarsIn p e := by
  simp only [VarsIn, freeVars, mem_freeVarsAll_iff]
  exact ⟨fun h e he v hv => h v ⟨e, he, hv⟩, fun h v ⟨e, he, hv⟩ => h e he v hv⟩

@[simp] theorem varsIn_mul {es : List Expr} : VarsIn p (.mul es) ↔ ∀ e ∈ es, VarsIn p e :=
  varsIn_add

@[simp] theorem varsIn_neg {e : Expr} : VarsIn p (.neg e) ↔ VarsIn p e := Iff.rfl

@[simp] theorem varsIn_inv {e : Expr} : VarsIn p (.inv e) ↔ VarsIn p e := Iff.rfl

@[simp] theorem varsIn_apply {f : UnaryFn} {e : Expr} : VarsIn p (.apply f e) ↔ VarsIn p e :=
  Iff.rfl

@[simp] theorem varsIn_pow {b e : Expr} : VarsIn p (.pow b e) ↔ VarsIn p b ∧ VarsIn p e := by
  simp [VarsIn, freeVars, or_imp, forall_and]

@[simp] theorem varsIn_log {b e : Expr} : VarsIn p (.log b e) ↔ VarsIn p b ∧ VarsIn p e :=
  varsIn_pow

@[simp] theorem varsIn_goalSeek {goal target : Expr} {inversion : Inversion} :
    VarsIn p (.goalSeek goal target inversion) ↔
      VarsIn p goal ∧ VarsIn (fun v => v ≠ inversion.unknown → p v) target := by
  simp only [VarsIn, freeVars, Variables.mem_union, Variables.mem_erase]
  grind

/-- What holds of the variables that a set of bindings leaves open in the target of
a goal-seek holds of those that are left once the unknown is not bound. -/
theorem VarsIn.target {args : Arguments} {unknown : Variable} {e : Expr}
    (h : VarsIn (fun v => v ≠ unknown → args.get? v = none → p v) e) :
    VarsIn (fun v => (args.erase unknown).get? v = none → v ≠ unknown → p v) e := by
  intro v hv hopen hne
  rw [Arguments.get?_erase, if_neg hne] at hopen
  exact h v hv hne hopen

/-! ## constructors -/

@[simp] theorem forall_varsIn_addends {e : Expr} :
    (∀ t ∈ addends e, VarsIn p t) ↔ VarsIn p e := by
  cases e <;> simp [addends]

@[simp] theorem forall_varsIn_factorsOf {e : Expr} :
    (∀ t ∈ factorsOf e, VarsIn p t) ↔ VarsIn p e := by
  cases e <;> simp [factorsOf]

@[simp] theorem varsIn_sum {es : List Expr} : VarsIn p (sum es) ↔ ∀ e ∈ es, VarsIn p e := by
  simp only [sum, varsIn_add, List.forall_mem_flatMap, forall_varsIn_addends]

@[simp] theorem varsIn_product {es : List Expr} :
    VarsIn p (product es) ↔ ∀ e ∈ es, VarsIn p e := by
  simp only [product, varsIn_mul, List.forall_mem_flatMap, forall_varsIn_factorsOf]

@[simp] theorem varsIn_negate {e : Expr} : VarsIn p (negate e) ↔ VarsIn p e := by
  cases e with
  | const x =>
    rw [negate]
    split <;> simp
  | _ => simp [negate]

@[simp] theorem varsIn_sub {a b : Expr} : VarsIn p (sub a b) ↔ VarsIn p a ∧ VarsIn p b := by
  simp [sub]

@[simp] theorem varsIn_invert : {e : Expr} → (VarsIn p (invert e) ↔ VarsIn p e)
  | .neg e => by rw [invert, varsIn_negate, varsIn_invert, varsIn_neg]
  | .inv _ | .var _ | .const _ | .add _ | .mul _ | .pow _ _ | .log _ _ | .apply _ _
  | .goalSeek _ _ _ => Iff.rfl

@[simp] theorem varsIn_quotientOfLogs {base power : Expr} :
    VarsIn p (quotientOfLogs base power) ↔ VarsIn p base ∧ VarsIn p power := by
  simp [quotientOfLogs_eq, and_comm]

/-- The rule for a function brings in no variables. -/
theorem VarsIn.applyRule {f : UnaryFn} {e d : Expr} {rule : Expr → Expr}
    (hrule : applyRule f e = some rule) (he : VarsIn p e) (hd : VarsIn p d) :
    VarsIn p (rule d) := by
  unfold Expr.applyRule at hrule
  split at hrule <;> cases hrule <;> simp [he, hd]

/-! ## simplification -/

namespace VarsIn

/-- What is left without constants has no other variables. -/
theorem nonConstants {es : List Expr} (h : ∀ e ∈ es, VarsIn p e) :
    ∀ e ∈ nonConstants es, VarsIn p e := by
  induction es with
  | nil => exact h
  | cons e es ih =>
    rw [List.forall_mem_cons] at h
    cases e with
    | const x => exact ih h.2
    | _ => exact List.forall_mem_cons.mpr ⟨h.1, ih h.2⟩

/-- A combined sum has no variables but those of its terms. -/
theorem combineSum {es : List Expr} {e : Expr} (h : ∀ e ∈ es, VarsIn p e)
    (he : combineSum es = .ok e) : VarsIn p e := by
  obtain ⟨x, -, rfl⟩ := combineSum_eq_ok_iff.mp he
  exact assemble_of_forall varsIn_add.mpr (nonConstants h) (varsIn_const x)

/-- A combined product has no variables but those of its factors. -/
theorem combineProduct {es : List Expr} {e : Expr} (h : ∀ e ∈ es, VarsIn p e)
    (he : combineProduct es = .ok e) : VarsIn p e := by
  obtain ⟨x, -, rfl⟩ := combineProduct_eq_ok_iff.mp he
  split
  · exact varsIn_const x
  · exact assemble_of_forall varsIn_mul.mpr (nonConstants h) (varsIn_const x)

/-- A folded opposite has no other variables. -/
theorem foldNeg {e : Expr} (h : VarsIn p e) : VarsIn p (foldNeg e) := by
  cases e with
  | const x => exact varsIn_const _
  | _ => exact varsIn_negate.mpr h

/-- A folded reciprocal has no other variables. -/
theorem foldInv {e r : Expr} (h : VarsIn p e) (hr : foldInv e = .ok r) : VarsIn p r := by
  cases e with
  | const x =>
    simp only [Expr.foldInv] at hr
    cases hx : x.inv <;> rw [hx] at hr <;> cases hr
    exact varsIn_const _
  | _ =>
    cases hr
    exact varsIn_invert.mpr h

/-- A folded power has no variables but those of its parts. -/
theorem foldPow [Elementary] {b e r : Expr} (hb : VarsIn p b) (he : VarsIn p e)
    (hr : foldPow b e = .ok r) :
    VarsIn p r := by
  unfold Expr.foldPow at hr
  split at hr
  · rename_i x y
    cases hx : x.pow y <;> rw [hx] at hr <;> cases hr
    exact varsIn_const _
  · split at hr
    · cases hr
      exact hb
    · cases hr
      exact varsIn_pow.mpr ⟨hb, he⟩
  · cases hr
    exact varsIn_pow.mpr ⟨hb, he⟩

/-- A folded logarithm has no variables but those of its parts. -/
theorem foldLog [Elementary] {b e r : Expr} (hb : VarsIn p b) (he : VarsIn p e)
    (hr : foldLog b e = .ok r) :
    VarsIn p r := by
  unfold Expr.foldLog at hr
  split at hr
  · rename_i x y
    cases hx : x.log y <;> rw [hx] at hr <;> cases hr
    exact varsIn_const _
  · cases hr
    exact varsIn_log.mpr ⟨hb, he⟩

/-- A folded function has no other variables. -/
theorem foldApply [Elementary] {f : UnaryFn} {e r : Expr} (h : VarsIn p e)
    (hr : foldApply f e = .ok r) :
    VarsIn p r := by
  cases e with
  | const x =>
    simp only [Expr.foldApply] at hr
    cases hx : f.eval x <;> rw [hx] at hr <;> cases hr
    exact varsIn_const _
  | _ =>
    cases hr
    exact h

/-- A folded goal-seek has no other variables, and none if it is solved. -/
theorem foldSeek {solve : GoalSolver} {goal target r : Expr} {inversion : Inversion}
    (h : VarsIn p (.goalSeek goal target inversion))
    (hr : (foldSeek solve goal target inversion).result = .ok r) : VarsIn p r := by
  unfold Expr.foldSeek at hr
  split at hr
  · obtain ⟨x, -, hr⟩ := Logged.result_bind_eq_ok.mp hr
    cases hr
    exact varsIn_const x
  · cases hr
    exact h

end VarsIn

/-- What is left of factors has variables in `p` only. -/
def Factors.VarsIn (p : Variable → Prop) : Factors → Prop
  | .zero _ => True
  | .all factors => ∀ f ∈ factors, Expr.VarsIn p f

/-- Further factors in front of what is left of the others. -/
theorem Factors.VarsIn.prepend {es : List Expr} {fs : Factors}
    (hes : ∀ e ∈ es, Expr.VarsIn p e) (h : fs.VarsIn p) : (fs.prepend es).VarsIn p := by
  cases fs with
  | zero x => trivial
  | all fs =>
    intro f hf
    rcases List.mem_append.mp hf with hf | hf
    · exact hes f hf
    · exact h f hf

variable [Elementary] {solve : GoalSolver}

mutual

/-- **Simplification introduces no variables.** -/
theorem VarsIn.simplifyWith : {p : Variable → Prop} → (e : Expr) → VarsIn p e → {r : Expr} →
    (simplifyWith solve e).result = .ok r → VarsIn p r
  | _, .var _, h, _, hr => by cases hr; exact h
  | _, .const _, h, _, hr => by cases hr; exact h
  | _, .add terms, h, _, hr => by
    obtain ⟨ts, hts, hr⟩ := Logged.result_bind_eq_ok.mp hr
    exact combineSum (VarsIn.simplifyTerms terms (varsIn_add.mp h) hts)
      (Logged.result_numeric_eq_ok.mp hr)
  | _, .mul factors, h, _, hr => by
    obtain ⟨fs, hfs, hr⟩ := Logged.result_bind_eq_ok.mp hr
    have hin := VarsIn.simplifyFactors factors (varsIn_mul.mp h) hfs
    cases fs with
    | zero x => cases hr; exact varsIn_const x
    | all fs => exact combineProduct hin (Logged.result_numeric_eq_ok.mp hr)
  | _, .neg e, h, _, hr => by
    obtain ⟨s, hs, hr⟩ := Logged.result_bind_eq_ok.mp hr
    cases hr
    exact (VarsIn.simplifyWith e h hs).foldNeg
  | _, .inv e, h, _, hr => by
    obtain ⟨s, hs, hr⟩ := Logged.result_bind_eq_ok.mp hr
    exact (VarsIn.simplifyWith e h hs).foldInv (Logged.result_numeric_eq_ok.mp hr)
  | _, .pow b e, h, _, hr => by
    obtain ⟨s, hs, hr⟩ := Logged.result_bind_eq_ok.mp hr
    obtain ⟨t, ht, hr⟩ := Logged.result_bind_eq_ok.mp hr
    obtain ⟨hb, he⟩ := varsIn_pow.mp h
    exact foldPow (VarsIn.simplifyWith b hb hs) (VarsIn.simplifyWith e he ht)
      (Logged.result_numeric_eq_ok.mp hr)
  | _, .log b e, h, _, hr => by
    obtain ⟨s, hs, hr⟩ := Logged.result_bind_eq_ok.mp hr
    obtain ⟨t, ht, hr⟩ := Logged.result_bind_eq_ok.mp hr
    obtain ⟨hb, he⟩ := varsIn_log.mp h
    exact foldLog (VarsIn.simplifyWith b hb hs) (VarsIn.simplifyWith e he ht)
      (Logged.result_numeric_eq_ok.mp hr)
  | _, .apply f e, h, _, hr => by
    obtain ⟨s, hs, hr⟩ := Logged.result_bind_eq_ok.mp hr
    exact (VarsIn.simplifyWith e h hs).foldApply hr
  | _, .goalSeek goal target inversion, h, _, hr => by
    obtain ⟨g, hg, hr⟩ := Logged.result_bind_eq_ok.mp hr
    obtain ⟨t, ht, hr⟩ := Logged.result_bind_eq_ok.mp hr
    obtain ⟨hgoal, htarget⟩ := varsIn_goalSeek.mp h
    exact foldSeek (varsIn_goalSeek.mpr
      ⟨VarsIn.simplifyWith goal hgoal hg, VarsIn.simplifyWith target htarget ht⟩) hr

/-- The same for the terms of a sum. -/
theorem VarsIn.simplifyTerms : {p : Variable → Prop} → (es : List Expr) →
    (∀ e ∈ es, VarsIn p e) → {ts : List Expr} →
    (simplifyTerms solve es).result = .ok ts → ∀ t ∈ ts, VarsIn p t
  | _, [], _, _, hr => by
    cases hr
    exact fun t ht => absurd ht List.not_mem_nil
  | _, e :: es, h, _, hr => by
    rw [List.forall_mem_cons] at h
    obtain ⟨s, hs, hr⟩ := Logged.result_bind_eq_ok.mp hr
    obtain ⟨ts, hts, hr⟩ := Logged.result_bind_eq_ok.mp hr
    cases hr
    intro t ht
    rcases List.mem_append.mp ht with ht | ht
    · exact forall_varsIn_addends.mpr (VarsIn.simplifyWith e h.1 hs) t ht
    · exact VarsIn.simplifyTerms es h.2 hts t ht

/-- The same for the factors of a product. -/
theorem VarsIn.simplifyFactors : {p : Variable → Prop} → (es : List Expr) →
    (∀ e ∈ es, VarsIn p e) → {fs : Factors} →
    (simplifyFactors solve es).result = .ok fs → fs.VarsIn p
  | _, [], _, _, hr => by
    cases hr
    exact fun f hf => absurd hf List.not_mem_nil
  | _, e :: es, h, _, hr => by
    rw [List.forall_mem_cons] at h
    rcases simplifyFactors_cons_eq_ok hr with ⟨x, -, -, rfl⟩ | ⟨s, rest, hs, hrest, rfl⟩
    · trivial
    · exact (VarsIn.simplifyFactors es h.2 hrest).prepend
        (forall_varsIn_factorsOf.mpr (VarsIn.simplifyWith e h.1 hs))

end

/-! ## currying -/

mutual

/-- **Currying introduces no variables, and leaves none that is bound.** -/
theorem VarsIn.curryWith : {p : Variable → Prop} → {args : Arguments} → (e : Expr) →
    VarsIn (fun v => args.get? v = none → p v) e → {r : Expr} →
    (curryWith solve args e).result = .ok r → VarsIn p r
  | _, args, .var v, h, _, hr => by
    rw [Expr.curryWith] at hr
    cases hv : args.get? v with
    | some x =>
      rw [hv] at hr
      cases hr
      exact varsIn_const x
    | none =>
      rw [hv] at hr
      cases hr
      exact varsIn_var.mpr (varsIn_var.mp h hv)
  | _, _, .const _, _, _, hr => by
    cases hr
    exact varsIn_const _
  | _, _, .add terms, h, _, hr => by
    obtain ⟨ts, hts, hr⟩ := Logged.result_bind_eq_ok.mp hr
    have hin := VarsIn.curryAllWith terms (varsIn_add.mp h) hts
    exact VarsIn.simplifyWith _ (varsIn_sum.mpr hin) hr
  | _, _, .mul factors, h, _, hr => by
    obtain ⟨fs, hfs, hr⟩ := Logged.result_bind_eq_ok.mp hr
    have hin := VarsIn.curryAllWith factors (varsIn_mul.mp h) hfs
    exact VarsIn.simplifyWith _ (varsIn_product.mpr hin) hr
  | _, _, .neg e, h, _, hr => by
    obtain ⟨s, hs, hr⟩ := Logged.result_bind_eq_ok.mp hr
    have hin := VarsIn.curryWith e (varsIn_neg.mp h) hs
    exact VarsIn.simplifyWith _ (varsIn_negate.mpr hin) hr
  | _, _, .inv e, h, _, hr => by
    obtain ⟨s, hs, hr⟩ := Logged.result_bind_eq_ok.mp hr
    have hin := VarsIn.curryWith e (varsIn_inv.mp h) hs
    exact VarsIn.simplifyWith _ (varsIn_invert.mpr hin) hr
  | _, _, .pow b e, h, _, hr => by
    obtain ⟨s, hs, hr⟩ := Logged.result_bind_eq_ok.mp hr
    obtain ⟨t, ht, hr⟩ := Logged.result_bind_eq_ok.mp hr
    obtain ⟨hb, he⟩ := varsIn_pow.mp h
    have hin := varsIn_pow.mpr ⟨VarsIn.curryWith b hb hs, VarsIn.curryWith e he ht⟩
    exact VarsIn.simplifyWith _ hin hr
  | _, _, .log b e, h, _, hr => by
    obtain ⟨s, hs, hr⟩ := Logged.result_bind_eq_ok.mp hr
    obtain ⟨t, ht, hr⟩ := Logged.result_bind_eq_ok.mp hr
    obtain ⟨hb, he⟩ := varsIn_log.mp h
    have hin := varsIn_log.mpr ⟨VarsIn.curryWith b hb hs, VarsIn.curryWith e he ht⟩
    exact VarsIn.simplifyWith _ hin hr
  | _, _, .apply f e, h, _, hr => by
    obtain ⟨s, hs, hr⟩ := Logged.result_bind_eq_ok.mp hr
    have hin := VarsIn.curryWith e (varsIn_apply.mp h) hs
    exact VarsIn.simplifyWith _ (varsIn_apply.mpr hin) hr
  | _, _, .goalSeek goal target inversion, h, _, hr => by
    obtain ⟨g, hg, hr⟩ := Logged.result_bind_eq_ok.mp hr
    obtain ⟨t, ht, hr⟩ := Logged.result_bind_eq_ok.mp hr
    obtain ⟨hgoal, htarget⟩ := varsIn_goalSeek.mp h
    have hin := varsIn_goalSeek.mpr
      ⟨VarsIn.curryWith goal hgoal hg, VarsIn.curryWith target htarget.target ht⟩
    exact VarsIn.simplifyWith _ hin hr

/-- The same for the members of a list. -/
theorem VarsIn.curryAllWith : {p : Variable → Prop} → {args : Arguments} → (es : List Expr) →
    (∀ e ∈ es, VarsIn (fun v => args.get? v = none → p v) e) → {ts : List Expr} →
    (curryAllWith solve args es).result = .ok ts → ∀ t ∈ ts, VarsIn p t
  | _, _, [], _, _, hr => by
    cases hr
    exact fun t ht => absurd ht List.not_mem_nil
  | _, _, e :: es, h, _, hr => by
    rw [List.forall_mem_cons] at h
    obtain ⟨s, hs, hr⟩ := Logged.result_bind_eq_ok.mp hr
    obtain ⟨ts, hts, hr⟩ := Logged.result_bind_eq_ok.mp hr
    cases hr
    exact List.forall_mem_cons.mpr
      ⟨VarsIn.curryWith e h.1 hs, VarsIn.curryAllWith es h.2 hts⟩

end

/-! ## differentiation -/

variable {v : Variable}

mutual

/-- The rules of differentiation bring in no variables. -/
theorem VarsIn.derives {e d : Expr} : Derives solve v e d → VarsIn p e → VarsIn p d
  | .constant _, _ => varsIn_const _
  | .var, _ => varsIn_const _
  | .add _ h, hp => varsIn_sum.mpr (VarsIn.derivesTerms h (varsIn_add.mp hp))
  | .mul _ h, hp => varsIn_sum.mpr (VarsIn.derivesFactors h (by simp) (varsIn_mul.mp hp))
  | .neg _ h, hp => varsIn_negate.mpr (VarsIn.derives h (varsIn_neg.mp hp))
  | .inv _ h, hp => by
    rw [varsIn_inv] at hp
    have hd := VarsIn.derives h hp
    simp [hd, hp]
  | .pow_constant _ _ _ _ _, _ => varsIn_const _
  | .pow_exponent _ hb hq _ _ h, hp => by
    obtain ⟨hbase, hexponent⟩ := varsIn_pow.mp hp
    have hbin := VarsIn.simplifyWith _ hbase hb
    have hqin := VarsIn.simplifyWith _ hexponent hq
    have hdq := VarsIn.derives h hqin
    simp [hbin, hqin, hdq]
  | .pow_base _ hb hq _ _ h, hp => by
    obtain ⟨hbase, hexponent⟩ := varsIn_pow.mp hp
    have hbin := VarsIn.simplifyWith _ hbase hb
    have hqin := VarsIn.simplifyWith _ hexponent hq
    have hdb := VarsIn.derives h hbin
    simp [lowerPower, hbin, hqin, hdb]
  | .pow_both _ hb hq _ _ h h', hp => by
    obtain ⟨hbase, hexponent⟩ := varsIn_pow.mp hp
    have hbin := VarsIn.simplifyWith _ hbase hb
    have hqin := VarsIn.simplifyWith _ hexponent hq
    have hdb := VarsIn.derives h hbin
    have hdq := VarsIn.derives h' hqin
    simp [lowerPower, hbin, hqin, hdb, hdq]
  | .log _ h, hp => VarsIn.derives h (varsIn_quotientOfLogs.mpr (varsIn_log.mp hp))
  | .step _ _, hp => varsIn_apply.mpr (varsIn_apply.mp hp)
  | @Derives.apply _ _ _ _ _ _ _ _ _ hrule h, hp =>
    VarsIn.applyRule hrule (varsIn_apply.mp hp) (VarsIn.derives h (varsIn_apply.mp hp))

/-- The same for the derivatives of terms. -/
theorem VarsIn.derivesTerms {es ds : List Expr} : DerivesTerms solve v es ds →
    (∀ e ∈ es, VarsIn p e) → ∀ d ∈ ds, VarsIn p d
  | .nil, _ => by simp
  | .cons h hs, hp => by
    rw [List.forall_mem_cons] at hp ⊢
    exact ⟨VarsIn.derives h hp.1, VarsIn.derivesTerms hs hp.2⟩

/-- The same for the terms of the product rule. -/
theorem VarsIn.derivesFactors {before es ds : List Expr} : DerivesFactors solve v before es ds →
    (∀ e ∈ before, VarsIn p e) → (∀ e ∈ es, VarsIn p e) → ∀ d ∈ ds, VarsIn p d
  | .nil, _, _ => by simp
  | .skip _ hs, hbefore, hp => by
    rw [List.forall_mem_cons] at hp
    have hbefore' := List.forall_mem_append.mpr ⟨hbefore, List.forall_mem_singleton.mpr hp.1⟩
    exact VarsIn.derivesFactors hs hbefore' hp.2
  | .cons _ h hs, hbefore, hp => by
    rw [List.forall_mem_cons] at hp
    have hbefore' := List.forall_mem_append.mpr ⟨hbefore, List.forall_mem_singleton.mpr hp.1⟩
    have hd := VarsIn.derives h hp.1
    rw [List.forall_mem_cons, varsIn_product, List.forall_mem_cons, List.forall_mem_append]
    exact ⟨⟨hd, hbefore, hp.2⟩, VarsIn.derivesFactors hs hbefore' hp.2⟩

end

/-- **Differentiation introduces no variables.** -/
theorem VarsIn.derive {e d : Expr} (hp : VarsIn p e) (h : (derive solve v e).result = .ok d) :
    VarsIn p d :=
  VarsIn.derives (derives_of_derive h) hp

/-- The simplified derivative has no variables that the expression has not. -/
theorem VarsIn.derivativeWith {e d : Expr} (hp : VarsIn p e)
    (h : (derivativeWith solve v e).result = .ok d) : VarsIn p d := by
  obtain ⟨d₁, h₁, h⟩ := Logged.result_bind_eq_ok.mp h
  exact VarsIn.simplifyWith d₁ (hp.derive h₁) h

end SymCalc.Expr
