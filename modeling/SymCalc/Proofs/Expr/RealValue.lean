import Mathlib.Analysis.SpecialFunctions.Gamma.Basic
import Mathlib.Analysis.SpecialFunctions.Log.Base
import Mathlib.Analysis.SpecialFunctions.Pow.Real
import Mathlib.Analysis.SpecialFunctions.Trigonometric.Basic
import SymCalc.Expr.Derivative

/-!
# SymCalc.Proofs.Expr.RealValue

The exact real function that an expression names.

1. `realValue ρ e` reads every node as the real function it is named after, at
   the point `ρ`, without any rounding;
2. `Interior ρ e` says that every subtree of `e` is read inside the interior of
   its domain at `ρ`;
3. the constructors that normalise do not change the function
   (`realValue_negate`, `realValue_invert`, `realValue_sum`,
   `realValue_product`), and a variable that does not occur free does not
   matter (`realValue_update_of_isConstant`).
-/

namespace SymCalc

/-- The real number that a number stands for.  An infinity stands for none, and
is read as `0`. -/
noncomputable def Number.realValue : Number → ℝ
  | .integer n => n
  | .rational q => q
  | .real (.finite x) => x.value.toRat
  | .real (.infinite _) => 0

/-- The whole number next to a real in a direction. -/
noncomputable def RoundMode.realValue (mode : RoundMode) (x : ℝ) : ℤ :=
  match mode with
  | ceil => ⌈x⌉
  | floor => ⌊x⌋
  | inward => if x < 0 then ⌈x⌉ else ⌊x⌋
  | outward => if x < 0 then ⌊x⌋ else ⌈x⌉

/-- The real function a function of one argument is named after. -/
noncomputable def UnaryFn.realValue : UnaryFn → ℝ → ℝ
  | .ln => Real.log
  | .exp => Real.exp
  | .sin => Real.sin
  | .cos => Real.cos
  | .tan => Real.tan
  | .factorial => fun x => Real.Gamma (x + 1)
  | .frac => fun x => x - RoundMode.inward.realValue x
  | .round mode => fun x => mode.realValue x
  | .offIntegers value => fun _ => value.realValue

/-- The arguments around which a function is read inside its domain: between
its jumps, away from its poles. -/
def UnaryFn.Interior (f : UnaryFn) (x : ℝ) : Prop :=
  match f with
  | .ln => 0 < x
  | .tan => Real.cos x ≠ 0
  | .frac | .round _ | .offIntegers _ => ∀ n : ℤ, x ≠ n
  | .exp | .sin | .cos | .factorial => True

namespace Expr

mutual

/-- The value at a point of the real function that an expression names.  A
goal-seek names none of its own, and is read as `0`. -/
noncomputable def realValue (ρ : Variable → ℝ) : Expr → ℝ
  | .var v => ρ v
  | .const x => x.realValue
  | .add terms => (realValues ρ terms).sum
  | .mul factors => (realValues ρ factors).prod
  | .neg e => -realValue ρ e
  | .inv e => (realValue ρ e)⁻¹
  | .pow base exponent => realValue ρ base ^ realValue ρ exponent
  | .log base power => Real.logb (realValue ρ base) (realValue ρ power)
  | .apply f e => f.realValue (realValue ρ e)
  | .goalSeek _ _ _ => 0

/-- The values at a point of a list of expressions. -/
noncomputable def realValues (ρ : Variable → ℝ) : List Expr → List ℝ
  | [] => []
  | e :: es => realValue ρ e :: realValues ρ es

end

mutual

/-- No factorial and no goal-seek occurs: every node names a function of the
reals. -/
def isRealFunction : Expr → Bool
  | .var _ => true
  | .const _ => true
  | .add terms => allRealFunctions terms
  | .mul factors => allRealFunctions factors
  | .neg e => isRealFunction e
  | .inv e => isRealFunction e
  | .pow base exponent => isRealFunction base && isRealFunction exponent
  | .log base power => isRealFunction base && isRealFunction power
  | .apply f e => f ≠ .factorial && isRealFunction e
  | .goalSeek _ _ _ => false

/-- No factorial and no goal-seek occurs in a list of expressions. -/
def allRealFunctions : List Expr → Bool
  | [] => true
  | e :: es => isRealFunction e && allRealFunctions es

end

mutual

/-- Every subtree is read inside the interior of its domain.  A power of a
negative base is, where the exponent is written down as an integer. -/
def Interior (ρ : Variable → ℝ) : Expr → Prop
  | .var _ => True
  | .const _ => True
  | .add terms => AllInterior ρ terms
  | .mul factors => AllInterior ρ factors
  | .neg e => Interior ρ e
  | .inv e => Interior ρ e ∧ realValue ρ e ≠ 0
  | .pow base exponent =>
    (Interior ρ base ∧ Interior ρ exponent) ∧
      (0 < realValue ρ base ∨
        (∃ n : Int, exponent = .const (.integer n)) ∧ realValue ρ base ≠ 0)
  | .log base power =>
    (Interior ρ base ∧ Interior ρ power) ∧
      0 < realValue ρ base ∧ realValue ρ base ≠ 1 ∧ 0 < realValue ρ power
  | .apply f e => Interior ρ e ∧ f.Interior (realValue ρ e)
  | .goalSeek _ _ _ => True

/-- All expressions of a list are read inside their domains. -/
def AllInterior (ρ : Variable → ℝ) : List Expr → Prop
  | [] => True
  | e :: es => Interior ρ e ∧ AllInterior ρ es

end

variable {ρ : Variable → ℝ}

attribute [grind] realValue realValues

@[simp] theorem realValues_append (es fs : List Expr) :
    realValues ρ (es ++ fs) = realValues ρ es ++ realValues ρ fs := by
  induction es with
  | nil => rfl
  | cons e es ih => rw [List.cons_append, realValues, ih, realValues, List.cons_append]

@[simp] theorem realValue_zero : realValue ρ zero = 0 := by
  simp [realValue, Number.realValue, Number.zero]

@[simp] theorem realValue_one : realValue ρ one = 1 := by
  simp [realValue, Number.realValue, Number.one]

@[simp] theorem realValue_ofInt (n : Int) : realValue ρ (ofInt n) = n := rfl

/-! ## normalising constructors -/

theorem realValue_neg_number (x : Number) : (-x).realValue = -x.realValue := by
  cases x with
  | integer n => simp [Number.realValue]
  | rational q => simp [Number.realValue]
  | real x =>
    cases x with
    | finite x =>
      change ((-x.value).toRat : ℝ) = -(x.value.toRat : ℝ)
      rw [Dyadic.toRat_neg, Rat.cast_neg]
    | infinite s => exact neg_zero.symm

@[simp] theorem realValue_negate (e : Expr) : realValue ρ (negate e) = -realValue ρ e := by
  unfold negate
  split
  · rw [realValue, neg_neg]
  · split
    · rw [realValue, realValue, realValue_neg_number]
    · rfl
  · rw [realValue]

@[simp] theorem realValue_invert (e : Expr) : realValue ρ (invert e) = (realValue ρ e)⁻¹ := by
  fun_induction invert e with
  | case1 e => rw [realValue, inv_inv]
  | case2 e ih => rw [realValue_negate, ih, realValue, inv_neg]
  | case3 e => rw [realValue]

/-- The addends of a tree come to its value. -/
theorem sum_realValues_addends (e : Expr) : (realValues ρ (addends e)).sum = realValue ρ e := by
  unfold addends
  split
  · rw [realValue]
  · simp [realValues]

/-- The factors of a tree come to its value. -/
theorem prod_realValues_factorsOf (e : Expr) :
    (realValues ρ (factorsOf e)).prod = realValue ρ e := by
  unfold factorsOf
  split
  · rw [realValue]
  · simp [realValues]

@[simp] theorem realValue_sum (es : List Expr) :
    realValue ρ (sum es) = (realValues ρ es).sum := by
  unfold sum
  rw [realValue]
  induction es with
  | nil => rfl
  | cons e es ih =>
    rw [List.flatMap_cons, realValues_append, List.sum_append, ih, sum_realValues_addends,
      realValues, List.sum_cons]

@[simp] theorem realValue_product (es : List Expr) :
    realValue ρ (product es) = (realValues ρ es).prod := by
  unfold product
  rw [realValue]
  induction es with
  | nil => rfl
  | cons e es ih =>
    rw [List.flatMap_cons, realValues_append, List.prod_append, ih, prod_realValues_factorsOf,
      realValues, List.prod_cons]

/-! ## variables that do not occur -/

mutual

/-- A variable that does not occur free does not matter. -/
theorem realValue_update_of_isConstant {v : Variable} (t : ℝ) : (e : Expr) →
    e.isConstant v = true → realValue (Function.update ρ v t) e = realValue ρ e
  | .var w, h => by
    have hne : w ≠ v := of_decide_eq_true h
    simp only [realValue]
    exact Function.update_of_ne hne t ρ
  | .const _, _ => rfl
  | .add terms, h => by
    rw [realValue, realValue, realValues_update_of_allConstant t terms h]
  | .mul factors, h => by
    rw [realValue, realValue, realValues_update_of_allConstant t factors h]
  | .neg e, h => by
    rw [realValue, realValue, realValue_update_of_isConstant t e h]
  | .inv e, h => by
    rw [realValue, realValue, realValue_update_of_isConstant t e h]
  | .pow base exponent, h => by
    simp only [isConstant, Bool.and_eq_true] at h
    rw [realValue, realValue, realValue_update_of_isConstant t base h.1,
      realValue_update_of_isConstant t exponent h.2]
  | .log base power, h => by
    simp only [isConstant, Bool.and_eq_true] at h
    rw [realValue, realValue, realValue_update_of_isConstant t base h.1,
      realValue_update_of_isConstant t power h.2]
  | .apply f e, h => by
    rw [realValue, realValue, realValue_update_of_isConstant t e h]
  | .goalSeek _ _ _, _ => rfl

/-- The same for lists. -/
theorem realValues_update_of_allConstant {v : Variable} (t : ℝ) : (es : List Expr) →
    allConstant v es = true → realValues (Function.update ρ v t) es = realValues ρ es
  | [], _ => rfl
  | e :: es, h => by
    simp only [allConstant, Bool.and_eq_true] at h
    rw [realValues, realValues, realValue_update_of_isConstant t e h.1,
      realValues_update_of_allConstant t es h.2]

end

end Expr

end SymCalc
