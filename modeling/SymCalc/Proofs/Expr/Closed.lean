import SymCalc.Newton.Method
import SymCalc.Proofs.Expr.Folded
import SymCalc.Proofs.Expr.FreeVars
import SymCalc.Proofs.Expr.Normal
import SymCalc.Real256.Series

/-!
# SymCalc.Proofs.Expr.Closed

Closed trees that simplification and currying leave are constants.

A normal tree that is no constant keeps a free variable: a normal sum or product has
an operand that is no constant, every other node one as well, and a goal-seek without
free variables would have been solved.  So the induction goes down to a variable
(`isConst_of_isClosed`).

Main statement: `curry_eliminates`.
-/

namespace SymCalc.Expr

/-- The expression has no free variables. -/
abbrev IsClosed (e : Expr) : Prop := VarsIn (fun _ => False) e

/-- A tree is closed if and only if it has no free variables. -/
theorem isClosed_iff {e : Expr} : IsClosed e ↔ e.freeVars.isEmpty = true :=
  Variables.isEmpty_iff.symm

/-- A normal sum or product has an operand that is no constant. -/
theorem NormalOperands.exists_isConst_eq_false {sameKind : Expr → Bool}
    {dropped : Number → Bool} {es : List Expr} (h : NormalOperands sameKind dropped es) :
    ∃ e ∈ es, e.isConst = false := by
  obtain ⟨rest, hrest, hes⟩ := h.constLast
  have htwo := h.two_le
  -- the constant, if there is one, is the last of two operands at least
  cases rest with
  | nil => rcases hes with rfl | ⟨x, rfl, -⟩ <;> simp at htwo
  | cons e rest =>
    have hmem : e ∈ es := by rcases hes with rfl | ⟨x, rfl, -⟩ <;> simp
    exact ⟨e, hmem, hrest e List.mem_cons_self⟩

mutual

/-- **Closed normal trees are constants.** -/
theorem isConst_of_isClosed : (e : Expr) → Normal e → IsClosed e → e.isConst = true
  | .var _, _, hc => (varsIn_var.mp hc).elim
  | .const _, _, _ => rfl
  | .add terms, hn, hc => by
    obtain ⟨t, ht, hconst⟩ := hn.2.exists_isConst_eq_false
    exact absurd (allConst_of_isClosed terms hn.1 (varsIn_add.mp hc) t ht)
      (Bool.eq_false_iff.mp hconst)
  | .mul factors, hn, hc => by
    obtain ⟨f, hf, hconst⟩ := hn.2.exists_isConst_eq_false
    exact absurd (allConst_of_isClosed factors hn.1 (varsIn_mul.mp hc) f hf)
      (Bool.eq_false_iff.mp hconst)
  | .neg e, hn, hc =>
    absurd (isConst_of_isClosed e hn.1 (varsIn_neg.mp hc)) (Bool.eq_false_iff.mp hn.2.1)
  | .inv e, hn, hc =>
    absurd (isConst_of_isClosed e hn.1 (varsIn_inv.mp hc)) (Bool.eq_false_iff.mp hn.2.1)
  | .pow base exponent, hn, hc => by
    obtain ⟨hbase, hexponent⟩ := varsIn_pow.mp hc
    have hopen := hn.2.1
    rw [isConst_of_isClosed base hn.1.1 hbase, isConst_of_isClosed exponent hn.1.2 hexponent]
      at hopen
    cases hopen
  | .log base power, hn, hc => by
    obtain ⟨hbase, hpower⟩ := varsIn_log.mp hc
    have hopen := hn.2
    rw [isConst_of_isClosed base hn.1.1 hbase, isConst_of_isClosed power hn.1.2 hpower] at hopen
    cases hopen
  | .apply _ e, hn, hc =>
    absurd (isConst_of_isClosed e hn.1 (varsIn_apply.mp hc)) (Bool.eq_false_iff.mp hn.2)
  | .goalSeek _ _ _, hn, hc => absurd (isClosed_iff.mp hc) (Bool.eq_false_iff.mp hn.2)

/-- The same for lists. -/
theorem allConst_of_isClosed : (es : List Expr) → AllNormal es → (∀ e ∈ es, IsClosed e) →
    ∀ e ∈ es, e.isConst = true
  | [], _, _ => fun _ he => absurd he List.not_mem_nil
  | e :: es, hn, hc => by
    rw [List.forall_mem_cons] at hc ⊢
    exact ⟨isConst_of_isClosed e hn.1 hc.1, allConst_of_isClosed es hn.2 hc.2⟩

end

variable {catalogue : Catalogue} {e r : Expr} {args : Arguments}

/-- The variables that currying leaves are those without a binding. -/
theorem varsIn_of_curry [Elementary] (h : (e.curry catalogue args).result = .ok r) :
    VarsIn (fun v => v ∈ e.freeVars ∧ args.get? v = none) r :=
  VarsIn.curryWith e (fun _ hv hopen => ⟨hv, hopen⟩) h

/-- A closed tree in normal form is a constant. -/
theorem exists_const_of_isClosed (hn : Normal r) (hc : IsClosed r) : ∃ x, r = .const x :=
  isConst_eq_true_iff.mp (isConst_of_isClosed r hn hc)

/-- **Currying eliminates what it binds**, and what simplification or currying leaves
without free variables is a constant.  So currying with a value for every variable
leaves a constant. -/
theorem curry_eliminates [Elementary] (catalogue : Catalogue) (e : Expr) :
    (∀ args r, (e.curry catalogue args).result = .ok r →
      (∀ v ∈ r.freeVars, v ∈ e.freeVars ∧ args.get? v = none) ∧
        (args.Covers e.freeVars → ∃ x, r = .const x)) ∧
    ∀ r, ((e.simplify catalogue).result = .ok r ∨
        ∃ args, (e.curry catalogue args).result = .ok r) →
      r.freeVars.isEmpty = true → ∃ x, r = .const x := by
  constructor
  · intro args r hr
    refine ⟨varsIn_of_curry hr, fun hcovers => ?_⟩
    apply exists_const_of_isClosed (normal_curryWith hr)
    intro v hv
    obtain ⟨hfree, hopen⟩ := varsIn_of_curry hr v hv
    obtain ⟨x, hx⟩ := hcovers v hfree
    rw [hopen] at hx
    cases hx
  · intro r hr hclosed
    have hnormal : Normal r := by
      rcases hr with hr | ⟨args, hr⟩
      · exact normal_simplifyWith e hr
      · exact normal_curryWith hr
    exact exists_const_of_isClosed hnormal (isClosed_iff.mpr hclosed)

/-- An empty sum, the raw product `3 * z`, and the `x` of `x * x + u = 2 * y`, where `u`
is the `x` of `x = y`: with `y` bound no variable but `z` is left, and with `z` bound,
too, a constant is. -/
theorem curry_eliminates_nested :
    let catalogue := Catalogue.ofList
      [Newton.factory (fun _ => { Newton.Parameters.standard with guess := .integer 2 }) 0]
    let inner := seek (ofName "y") (ofName "x") ⟨"x"⟩ ⟨0⟩
    let outer := seek (ofInt 2 * ofName "y") (ofName "x" * ofName "x" + inner) ⟨"x"⟩ ⟨0⟩
    let e := Expr.add [.add [], .mul [.mul [ofInt 3], ofName "z"], outer]
    let args : Arguments := .single ⟨"y"⟩ (.integer 4)
    let all : Arguments := ⟨[(⟨"y"⟩, .integer 4), (⟨"z"⟩, .integer 1)]⟩
    (∃ r, (e.curry catalogue args).result = .ok r ∧
      ∀ v ∈ r.freeVars, v ∈ e.freeVars ∧ args.get? v = none) ∧
    ∃ x, (e.curry catalogue all).result = .ok (.const x) := by
  intro catalogue inner outer e args all
  obtain ⟨r, hr⟩ : ∃ r, (e.curry catalogue args).result = .ok r := exists_eq_ok (by decide +kernel)
  obtain ⟨c, hc⟩ : ∃ c, (e.curry catalogue all).result = .ok c := exists_eq_ok (by decide +kernel)
  have hcovers : all.Covers e.freeVars := by
    have hvars : ∀ v ∈ e.freeVars.toList, (all.get? v).isSome = true := by decide
    exact fun v hv => Option.isSome_iff_exists.mp (hvars v hv)
  obtain ⟨x, rfl⟩ := ((curry_eliminates catalogue e).1 all c hc).2 hcovers
  exact ⟨⟨r, hr, ((curry_eliminates catalogue e).1 args r hr).1⟩, x, hc⟩

end SymCalc.Expr
