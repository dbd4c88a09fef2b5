import SymCalc.Proofs.Expr.ExactRun
import SymCalc.Proofs.Expr.Normal
import SymCalc.Proofs.Number.Order

/-!
# SymCalc.Proofs.Expr.Arithmetic

Arithmetic trees, which hold exact numbers and stay among them.

1. `isArithmetic` admits variables, exact constants, sums, products, opposites,
   reciprocals, and the functions that take exact numbers to exact numbers;
2. `widened` takes every number of a tree to the rational of its value.

Main statement: arithmetic trees that are the same once widened are equal
(`beq_of_widened_eq`).
-/

namespace SymCalc

/-! ## exact numbers as rationals -/

/-- The rational with the value of an exact number. -/
def Number.widened (x : Number) : Number := .rational x.exactValue

namespace Number

variable {x : Number}

@[simp] theorem exactValue_widened (x : Number) : x.widened.exactValue = x.exactValue := rfl

@[simp] theorem widened_widened (x : Number) : x.widened.widened = x.widened := rfl

@[simp] theorem widened_rational (q : Rat) : (rational q).widened = rational q := rfl

/-- An exact number narrows its rational form. -/
theorem narrows_widened (h : x.isExact = true) : Narrows x x.widened := ⟨h, rfl, rfl, nofun⟩

theorem widened_neg (x : Number) : (-x).widened = -x.widened := by
  simp [widened]

/-- Exact numbers of one value are equal. -/
theorem beq_of_widened_eq {y : Number} (hx : x.isExact = true) (hy : y.isExact = true)
    (h : x.widened = y.widened) : (x == y) = true := by
  have hv : x.exactValue = y.exactValue := by simpa [widened] using h
  exact (beq_iff_of_isExact hx hy).mpr hv

/-- The reciprocal is found from the value alone. -/
theorem inv_widened (h : x.isExact = true) : x.widened.inv = x.inv :=
  (narrows_widened h).inv_eq.symm

end Number

namespace UnaryFn

/-- The function with its value as a rational. -/
def widened : UnaryFn → UnaryFn
  | .offIntegers x => .offIntegers x.widened
  | f => f

/-- The function takes exact numbers to exact numbers only. -/
def isArithmetic : UnaryFn → Bool
  | .frac | .round _ => true
  | .offIntegers x => x.isExact
  | _ => false

@[simp] theorem widened_widened (f : UnaryFn) : f.widened.widened = f.widened := by
  cases f <;> rfl

/-- Such a function leads from an exact number to an exact number that depends
on its value alone. -/
theorem eval_widened [Elementary] {f : UnaryFn} (hf : f.isArithmetic = true) {x : Number}
    (hx : x.isExact = true) :
    (∀ y, f.eval x = .ok y → y.isExact = true) ∧
      (f.eval x.widened).toOption.map Number.widened = (f.eval x).toOption.map Number.widened := by
  have hn := Number.narrows_widened hx
  cases f with
  | frac =>
    obtain ⟨y, hy, hye, -, hyv⟩ := Number.frac_of_isExact hx
    obtain ⟨z, hz, hze, -, hzv⟩ := Number.frac_of_isExact hn.exact_right
    simp only [eval, hy, hz]
    refine ⟨?_, ?_⟩
    · rintro y' ⟨⟩
      exact hye
    · have hyz : z.widened = y.widened := by
        rw [Number.widened, Number.widened, hyv, hzv, Number.exactValue_widened]
      exact congrArg some hyz
  | round mode =>
    simp only [eval, hn.round_eq mode]
    refine ⟨fun y hy => ?_, trivial⟩
    cases h : x.widened.round mode with
    | error err => rw [h] at hy; cases hy
    | ok z =>
      rw [h] at hy
      cases hy
      exact Number.isExact_of_round h
  | offIntegers v =>
    simp only [eval, Number.isFinite_of_isExact hx, Number.isFinite_of_isExact hn.exact_right,
      hn.isIntegral_eq]
    refine ⟨fun y hy => ?_, trivial⟩
    cases hi : x.widened.isIntegral with
    | true => simp [hi] at hy
    | false =>
      simp only [hi, Bool.false_eq_true, if_false, if_true] at hy
      cases hy
      exact hf
  | _ => cases hf

/-- Widening the value of the function only widens its results. -/
theorem widened_eval [Elementary] (f : UnaryFn) (x : Number) :
    (f.widened.eval x).toOption.map Number.widened = (f.eval x).toOption.map Number.widened := by
  cases f with
  | offIntegers v =>
    simp only [widened, eval]
    cases x.isFinite <;> cases x.isIntegral <;> rfl
  | _ => rfl

/-- Such functions agree when they are the same once widened. -/
theorem agrees_of_widened_eq {f g : UnaryFn} (hf : f.isArithmetic = true)
    (hg : g.isArithmetic = true) (h : f.widened = g.widened) : f.agrees g = true := by
  cases f with
  | offIntegers x =>
    cases g with
    | offIntegers y => exact Number.beq_of_widened_eq hf hg (offIntegers.inj h)
    | _ => cases h
  | _ => cases g <;> simp_all [agrees, widened]

end UnaryFn

namespace Expr

/-! ## arithmetic trees -/

mutual

/-- The tree is built from variables and exact constants by sums, products,
opposites, reciprocals and functions that stay within exact numbers. -/
def isArithmetic : Expr → Bool
  | .var _ => true
  | .const x => x.isExact
  | .add terms => allArithmetic terms
  | .mul factors => allArithmetic factors
  | .neg e => isArithmetic e
  | .inv e => isArithmetic e
  | .apply f e => f.isArithmetic && isArithmetic e
  | .pow _ _ | .log _ _ | .goalSeek _ _ _ => false

/-- All trees of a list are arithmetic. -/
def allArithmetic : List Expr → Bool
  | [] => true
  | e :: es => isArithmetic e && allArithmetic es

end

/-- A list is arithmetic if and only if each of its trees is. -/
theorem allArithmetic_iff {es : List Expr} :
    allArithmetic es = true ↔ ∀ e ∈ es, e.isArithmetic = true := by
  induction es with
  | nil => simp [allArithmetic]
  | cons e es ih => simp [allArithmetic, ih]

mutual

/-- The tree with every number as a rational. -/
def widened : Expr → Expr
  | .var v => .var v
  | .const x => .const x.widened
  | .add terms => .add (widenedAll terms)
  | .mul factors => .mul (widenedAll factors)
  | .neg e => .neg (widened e)
  | .inv e => .inv (widened e)
  | .pow base exponent => .pow (widened base) (widened exponent)
  | .log base power => .log (widened base) (widened power)
  | .apply f e => .apply f.widened (widened e)
  | .goalSeek goal target inversion => .goalSeek (widened goal) (widened target) inversion

/-- The trees of a list with every number as a rational. -/
def widenedAll : List Expr → List Expr
  | [] => []
  | e :: es => widened e :: widenedAll es

end

theorem widenedAll_eq_map (es : List Expr) : widenedAll es = es.map widened := by
  induction es with
  | nil => rfl
  | cons e es ih => rw [widenedAll, ih, List.map_cons]

@[simp] theorem isConst_widened (e : Expr) : e.widened.isConst = e.isConst := by
  cases e <;> rfl

mutual

@[simp] theorem widened_widened : (e : Expr) → e.widened.widened = e.widened
  | .var _ | .const _ => rfl
  | .add terms => by simp only [widened, widenedAll_widenedAll terms]
  | .mul factors => by simp only [widened, widenedAll_widenedAll factors]
  | .neg e => by simp only [widened, widened_widened e]
  | .inv e => by simp only [widened, widened_widened e]
  | .pow base exponent => by
    simp only [widened, widened_widened base, widened_widened exponent]
  | .log base power => by simp only [widened, widened_widened base, widened_widened power]
  | .apply f e => by simp only [widened, UnaryFn.widened_widened, widened_widened e]
  | .goalSeek goal target _ => by
    simp only [widened, widened_widened goal, widened_widened target]

/-- The same for lists. -/
theorem widenedAll_widenedAll : (es : List Expr) →
    widenedAll (widenedAll es) = widenedAll es
  | [] => rfl
  | e :: es => by simp only [widenedAll, widened_widened e, widenedAll_widenedAll es]

end

mutual

/-- **Arithmetic trees with the same values are equal.** -/
theorem agrees_of_widened_eq : (e e' : Expr) → e.isArithmetic = true →
    e'.isArithmetic = true → e.widened = e'.widened → agrees e e' = true
  | .var _, e', _, _, h => by cases e' <;> simp_all [widened, agrees]
  | .const _, e', he, he', h => by
    cases e' with
    | const y => exact Number.beq_of_widened_eq he he' (Expr.const.inj h)
    | _ => cases h
  | .add ts, e', he, he', h => by
    cases e' with
    | add us => exact agreesAll_of_widened_eq ts us he he' (Expr.add.inj h)
    | _ => cases h
  | .mul ts, e', he, he', h => by
    cases e' with
    | mul us => exact agreesAll_of_widened_eq ts us he he' (Expr.mul.inj h)
    | _ => cases h
  | .neg e, e', he, he', h => by
    cases e' with
    | neg e' => exact agrees_of_widened_eq e e' he he' (Expr.neg.inj h)
    | _ => cases h
  | .inv e, e', he, he', h => by
    cases e' with
    | inv e' => exact agrees_of_widened_eq e e' he he' (Expr.inv.inj h)
    | _ => cases h
  | .apply f e, e', he, he', h => by
    cases e' with
    | apply g e' =>
      obtain ⟨hf, he⟩ := Bool.and_eq_true_iff.mp he
      obtain ⟨hg, he'⟩ := Bool.and_eq_true_iff.mp he'
      obtain ⟨hfg, hee⟩ := Expr.apply.inj h
      rw [agrees, UnaryFn.agrees_of_widened_eq hf hg hfg, agrees_of_widened_eq e e' he he' hee]
      rfl
    | _ => cases h

/-- The same for lists. -/
theorem agreesAll_of_widened_eq : (es es' : List Expr) → allArithmetic es = true →
    allArithmetic es' = true → widenedAll es = widenedAll es' → agreesAll es es' = true
  | [], es', _, _, h => by cases es' <;> first | rfl | cases h
  | e :: es, es', he, he', h => by
    cases es' with
    | nil => cases h
    | cons e' es' =>
      obtain ⟨he, hes⟩ := Bool.and_eq_true_iff.mp he
      obtain ⟨he', hes'⟩ := Bool.and_eq_true_iff.mp he'
      obtain ⟨hee, hall⟩ := List.cons.inj h
      rw [agreesAll, agrees_of_widened_eq e e' he he' hee,
        agreesAll_of_widened_eq es es' hes hes' hall]
      rfl

end

/-- Arithmetic trees of one rational form are equal. -/
theorem beq_of_widened_eq {e e' : Expr} (he : e.isArithmetic = true)
    (he' : e'.isArithmetic = true) (h : e.widened = e'.widened) : (e == e') = true :=
  agrees_of_widened_eq e e' he he' h

end Expr

end SymCalc
