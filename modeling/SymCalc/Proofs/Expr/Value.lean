import Mathlib.Data.List.Forall2
import SymCalc.Expr.Simplify

/-!
# SymCalc.Proofs.Expr.Value

The value of an expression as a relation between trees and numbers.

`HasValue solve args e x` says that `e` evaluates to `x`.  There is one rule for
each kind of node (`hasValue_add`, `hasValue_pow` and so on); the operands of a
sum or product have their values one by one (`List.Forall₂`).

`Visits solve args e s` says that the evaluation of `e` comes to the expression
`s` within it: operands are evaluated from left to right, up to the first one
without a value.
-/

namespace SymCalc

/-- An error seen as one of another kind is no success. -/
theorem mapError_eq_ok_iff {ε ε' α : Type} {f : ε → ε'} {r : Except ε α} {a : α} :
    r.mapError f = .ok a ↔ r = .ok a := by
  cases r with
  | error e => exact iff_of_false nofun nofun
  | ok x => constructor <;> (rintro ⟨⟩; rfl)

namespace Expr

/-- A member of the first list is related to one of the second. -/
theorem exists_mem_of_forall₂ {α β : Type} {R : α → β → Prop} {l : List α} {l' : List β}
    (h : List.Forall₂ R l l') {a : α} (ha : a ∈ l) : ∃ b ∈ l', R a b := by
  induction h with
  | nil => cases ha
  | cons hb _ ih =>
    rcases List.mem_cons.mp ha with rfl | ha
    · exact ⟨_, List.mem_cons_self, hb⟩
    · obtain ⟨b, hmem, hb⟩ := ih ha
      exact ⟨b, List.mem_cons_of_mem _ hmem, hb⟩

variable [Elementary]

/-- The value of `e` is `x`, whatever is reported while it is computed. -/
def HasValue (solve : GoalSolver) (args : Arguments) (e : Expr) (x : Number) : Prop :=
  (evaluateWith solve args e).result = .ok x

variable {solve : GoalSolver} {args : Arguments}

/-- A tree has one value at most. -/
theorem HasValue.unique {e : Expr} {x y : Number} (hx : HasValue solve args e x)
    (hy : HasValue solve args e y) : x = y :=
  Except.ok.inj (hx.symm.trans hy)

/-- The members of a list are evaluated one by one. -/
theorem evaluateAllWith_eq_ok_iff {es : List Expr} {xs : List Number} :
    (evaluateAllWith solve args es).result = .ok xs ↔
      List.Forall₂ (HasValue solve args) es xs := by
  induction es generalizing xs with
  | nil =>
    rw [evaluateAllWith, List.forall₂_nil_left_iff]
    simp [eq_comm]
  | cons e es ih =>
    simp only [evaluateAllWith, Logged.result_bind_eq_ok, Logged.result_pure, Except.ok.injEq,
      List.forall₂_cons_left_iff, ih]
    constructor
    · rintro ⟨x, hx, ys, hys, rfl⟩
      exact ⟨x, ys, hx, hys, rfl⟩
    · rintro ⟨x, ys, hx, hys, rfl⟩
      exact ⟨x, hx, ys, hys, rfl⟩

/-! ## one rule for each node -/

section rules

variable {x : Number}

@[simp] theorem hasValue_var {v : Variable} :
    HasValue solve args (.var v) x ↔ args.get? v = some x := by
  unfold HasValue
  rw [evaluateWith]
  split <;> simp_all

@[simp] theorem hasValue_const {y : Number} : HasValue solve args (.const y) x ↔ y = x := by
  simp [HasValue, evaluateWith]

@[simp] theorem hasValue_add {terms : List Expr} :
    HasValue solve args (.add terms) x ↔
      ∃ xs, List.Forall₂ (HasValue solve args) terms xs ∧ Number.sum xs = .ok x := by
  simp only [HasValue, evaluateWith, Logged.result_bind_eq_ok, Logged.result_numeric_eq_ok,
    evaluateAllWith_eq_ok_iff]

@[simp] theorem hasValue_mul {factors : List Expr} :
    HasValue solve args (.mul factors) x ↔
      ∃ xs, List.Forall₂ (HasValue solve args) factors xs ∧ Number.product xs = .ok x := by
  simp only [HasValue, evaluateWith, Logged.result_bind_eq_ok, Logged.result_numeric_eq_ok,
    evaluateAllWith_eq_ok_iff]

@[simp] theorem hasValue_neg {e : Expr} :
    HasValue solve args (.neg e) x ↔ ∃ y, HasValue solve args e y ∧ -y = x := by
  simp only [HasValue, evaluateWith, Logged.result_bind_eq_ok, Logged.result_pure,
    Except.ok.injEq]

@[simp] theorem hasValue_inv {e : Expr} :
    HasValue solve args (.inv e) x ↔ ∃ y, HasValue solve args e y ∧ y.inv = .ok x := by
  simp only [HasValue, evaluateWith, Logged.result_bind_eq_ok, Logged.result_numeric_eq_ok]

@[simp] theorem hasValue_pow {base exponent : Expr} :
    HasValue solve args (.pow base exponent) x ↔
      ∃ b, HasValue solve args base b ∧ ∃ p, HasValue solve args exponent p ∧
        b.pow p = .ok x := by
  simp only [HasValue, evaluateWith, Logged.result_bind_eq_ok, Logged.result_numeric_eq_ok]

@[simp] theorem hasValue_log {base power : Expr} :
    HasValue solve args (.log base power) x ↔
      ∃ b, HasValue solve args base b ∧ ∃ p, HasValue solve args power p ∧
        b.log p = .ok x := by
  simp only [HasValue, evaluateWith, Logged.result_bind_eq_ok, Logged.result_numeric_eq_ok]

@[simp] theorem hasValue_apply {f : UnaryFn} {e : Expr} :
    HasValue solve args (.apply f e) x ↔
      ∃ y, HasValue solve args e y ∧ f.eval y = .ok x := by
  simp only [HasValue, evaluateWith, Logged.result_bind_eq_ok, Logged.result_ofExcept]

end rules

/-! ## what evaluation comes to -/

/-- The operands of a node, in the order of their evaluation.  Those of a
goal-seek are left to its solver. -/
def operands : Expr → List Expr
  | .add terms => terms
  | .mul factors => factors
  | .neg e => [e]
  | .inv e => [e]
  | .pow base exponent => [base, exponent]
  | .log base power => [base, power]
  | .apply _ e => [e]
  | _ => []

/-- The evaluation of a list comes to its member: those before have values. -/
inductive VisitsMember (solve : GoalSolver) (args : Arguments) : List Expr → Expr → Prop
  | head {e es} : VisitsMember solve args (e :: es) e
  | tail {e es c x} : HasValue solve args e x → VisitsMember solve args es c →
    VisitsMember solve args (e :: es) c

/-- The evaluation of an expression comes to itself, and to what that of its
operands comes to. -/
inductive Visits (solve : GoalSolver) (args : Arguments) : Expr → Expr → Prop
  | refl (e) : Visits solve args e e
  | operand {e c s} : VisitsMember solve args (operands e) c → Visits solve args c s →
    Visits solve args e s

/-- What is visited in a list is one of its trees. -/
theorem VisitsMember.mem {es : List Expr} {c : Expr} (h : VisitsMember solve args es c) :
    c ∈ es := by
  induction h with
  | head => exact List.mem_cons_self
  | tail _ _ ih => exact List.mem_cons_of_mem _ ih

/-- There is nothing to come to within a leaf. -/
theorem Visits.eq_of_leaf {e s : Expr} (h : Visits solve args e s) (he : operands e = []) :
    s = e := by
  cases h with
  | refl => rfl
  | operand hc _ =>
    rw [he] at hc
    cases hc

/-- Where a list has values, each of them is that of a member evaluation comes
to. -/
theorem exists_visitsMember_of_mem {es : List Expr} {xs : List Number} {x : Number}
    (h : List.Forall₂ (HasValue solve args) es xs) (hx : x ∈ xs) :
    ∃ e, VisitsMember solve args es e ∧ HasValue solve args e x := by
  induction h with
  | nil => cases hx
  | @cons e y es ys hy _ ih =>
    rcases List.mem_cons.mp hx with rfl | hx
    · exact ⟨e, .head, hy⟩
    · obtain ⟨c, hc, hcx⟩ := ih hx
      exact ⟨c, .tail hy hc, hcx⟩

/-- Where a list has values, so has each member. -/
theorem exists_hasValue_of_mem {es : List Expr} {xs : List Number} {e : Expr}
    (h : List.Forall₂ (HasValue solve args) es xs) (he : e ∈ es) :
    ∃ x, HasValue solve args e x := by
  obtain ⟨x, -, hx⟩ := exists_mem_of_forall₂ h he
  exact ⟨x, hx⟩

end Expr

end SymCalc
