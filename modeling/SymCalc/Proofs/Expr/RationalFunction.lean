import Mathlib
import SymCalc.Proofs.Expr.FieldValue

/-!
# SymCalc.Proofs.Expr.RationalFunction

Rational functions of the variables, their formal derivatives and their values.

1. `RationalFunction.deriv` is the derivative by the quotient rule, and
   `RationalFunction.valueAt` the value at a point, both of the reduced fraction.
   Any other fraction gives the same (`deriv_mul_sq`, `valueAt_of_fraction`);
2. `HasSlope a v f x s` says that `f` is defined at the point `a`, where its value
   is `x` and that of its derivative along `v` is `s` (`HasSlope.valueAt_deriv`).
   There is one rule for each operation;
3. `Expr.toRationalFunction` is the rational function a tree denotes.
-/

namespace SymCalc

open MvPolynomial

/-- The rational functions of the variables over the rational numbers. -/
abbrev RationalFunction : Type := FractionRing (MvPolynomial Variable ℚ)

namespace RationalFunction

/-- A polynomial as a rational function. -/
noncomputable def ofPolynomial : MvPolynomial Variable ℚ →+* RationalFunction :=
  algebraMap (MvPolynomial Variable ℚ) RationalFunction

/-- The numerator of the reduced fraction. -/
noncomputable def num (f : RationalFunction) : MvPolynomial Variable ℚ :=
  IsFractionRing.num (MvPolynomial Variable ℚ) f

/-- The denominator of the reduced fraction. -/
noncomputable def den (f : RationalFunction) : MvPolynomial Variable ℚ :=
  IsFractionRing.den (MvPolynomial Variable ℚ) f

/-- The formal derivative along a variable. -/
noncomputable def deriv (v : Variable) (f : RationalFunction) : RationalFunction :=
  ofPolynomial (pderiv v f.num * f.den - f.num * pderiv v f.den) / ofPolynomial (f.den ^ 2)

/-- The value at a point at which the denominator does not vanish. -/
noncomputable def valueAt (a : Variable → ℚ) (f : RationalFunction) : ℚ :=
  eval a f.num / eval a f.den

/-- Different polynomials are different rational functions. -/
theorem ofPolynomial_injective : Function.Injective ofPolynomial :=
  IsFractionRing.injective (MvPolynomial Variable ℚ) RationalFunction

instance : CharZero RationalFunction :=
  charZero_of_injective_algebraMap (algebraMap ℚ RationalFunction).injective

/-! ## fractions -/

section fractions

variable {f : RationalFunction} {p q : MvPolynomial Variable ℚ} {a : Variable → ℚ}
  {v : Variable}

/-- The denominator of the reduced fraction is not the zero polynomial. -/
theorem den_ne_zero (f : RationalFunction) : f.den ≠ 0 :=
  nonZeroDivisors.ne_zero (IsFractionRing.den (MvPolynomial Variable ℚ) f).2

/-- A rational function is the fraction of its numerator and denominator. -/
theorem mul_den (f : RationalFunction) : f * ofPolynomial f.den = ofPolynomial f.num :=
  IsFractionRing.num_mul_den_eq_num_iff_eq.mpr rfl

/-- Two fractions of one rational function, multiplied crosswise. -/
theorem num_mul (h : f * ofPolynomial q = ofPolynomial p) : f.num * q = p * f.den := by
  apply ofPolynomial_injective
  rw [map_mul, map_mul, ← mul_den, ← h]
  ring

/-- The denominator of the reduced fraction divides every other one. -/
theorem den_dvd (h : f * ofPolynomial q = ofPolynomial p) : f.den ∣ q := by
  have hrel : IsRelPrime f.num f.den := IsFractionRing.num_den_reduced _ f
  exact hrel.symm.dvd_of_dvd_mul_left ⟨p, by rw [num_mul h, mul_comm]⟩

/-- Where the denominator of any fraction does not vanish, that of the reduced one does not. -/
theorem eval_den_ne_zero (h : f * ofPolynomial q = ofPolynomial p) (hq : eval a q ≠ 0) :
    eval a f.den ≠ 0 := by
  obtain ⟨c, rfl⟩ := den_dvd h
  rw [map_mul] at hq
  exact left_ne_zero_of_mul hq

/-- Any fraction with a denominator that does not vanish gives the value. -/
theorem valueAt_of_fraction (h : f * ofPolynomial q = ofPolynomial p) (hq : eval a q ≠ 0) :
    f.valueAt a = eval a p / eval a q := by
  rw [valueAt, div_eq_div_iff (eval_den_ne_zero h hq) hq, ← map_mul, ← map_mul, num_mul h]

/-- Any fraction gives the derivative by the quotient rule. -/
theorem deriv_mul_sq (h : f * ofPolynomial q = ofPolynomial p) :
    f.deriv v * ofPolynomial (q ^ 2) = ofPolynomial (pderiv v p * q - p * pderiv v q) := by
  have hden : ofPolynomial (f.den ^ 2) ≠ 0 :=
    (map_ne_zero_iff ofPolynomial ofPolynomial_injective).mpr (pow_ne_zero 2 f.den_ne_zero)
  have hcross := num_mul h
  have hderiv := congrArg (pderiv v) hcross
  rw [pderiv_mul, pderiv_mul] at hderiv
  rw [deriv, div_mul_eq_mul_div, div_eq_iff hden, ← map_mul, ← map_mul]
  congr 1
  linear_combination (q * f.den) * hderiv -
    (q * pderiv v f.den + pderiv v q * f.den) * hcross

end fractions

/-! ## values of derivatives -/

/-- The rational function `f` is defined at the point `a`, where its value is `x`
and that of its derivative along `v` is `s`. -/
def HasSlope (a : Variable → ℚ) (v : Variable) (f : RationalFunction) (x s : ℚ) : Prop :=
  ∃ p q : MvPolynomial Variable ℚ, f * ofPolynomial q = ofPolynomial p ∧ eval a q ≠ 0 ∧
    eval a p = x * eval a q ∧
    eval a (pderiv v p) = s * eval a q + x * eval a (pderiv v q)

namespace HasSlope

variable {a : Variable → ℚ} {v : Variable} {f g : RationalFunction} {x y s t : ℚ}

/-- The slope is the value of the formal derivative. -/
theorem valueAt_deriv (h : HasSlope a v f x s) : (f.deriv v).valueAt a = s := by
  obtain ⟨p, q, hf, hq, hx, hs⟩ := h
  have hsq : eval a (q ^ 2) ≠ 0 := by
    rw [map_pow]
    exact pow_ne_zero 2 hq
  rw [valueAt_of_fraction (deriv_mul_sq hf) hsq, div_eq_iff hsq]
  simp only [map_sub, map_mul, map_pow, hx, hs]
  ring

/-- A polynomial is defined everywhere, with the partial derivative as its slope. -/
theorem ofPolynomial (p : MvPolynomial Variable ℚ) :
    HasSlope a v (ofPolynomial p) (eval a p) (eval a (pderiv v p)) :=
  ⟨p, 1, by simp, by simp, by simp, by simp⟩

/-- Constants have slope zero. -/
theorem const (c : ℚ) : HasSlope a v (c : RationalFunction) c 0 := by
  have hcast : RationalFunction.ofPolynomial (C c) = (c : RationalFunction) :=
    eq_ratCast (RationalFunction.ofPolynomial.comp C) c
  have h := ofPolynomial (a := a) (v := v) (C c)
  rwa [hcast, eval_C, pderiv_C, map_zero] at h

theorem zero : HasSlope a v 0 0 0 := by
  simpa using const (a := a) (v := v) 0

theorem one : HasSlope a v 1 1 0 := by
  simpa using const (a := a) (v := v) 1

/-- The sum rule. -/
theorem add (hf : HasSlope a v f x s) (hg : HasSlope a v g y t) :
    HasSlope a v (f + g) (x + y) (s + t) := by
  obtain ⟨p, q, hf, hq, hx, hs⟩ := hf
  obtain ⟨p', q', hg, hq', hy, ht⟩ := hg
  refine ⟨p * q' + p' * q, q * q', ?_, ?_, ?_, ?_⟩
  · simp only [map_add, map_mul, ← hf, ← hg]
    ring
  · rw [map_mul]
    exact mul_ne_zero hq hq'
  · simp only [map_add, map_mul, hx, hy]
    ring
  · simp only [map_add, map_mul, pderiv_mul, hx, hy, hs, ht]
    ring

/-- The product rule. -/
theorem mul (hf : HasSlope a v f x s) (hg : HasSlope a v g y t) :
    HasSlope a v (f * g) (x * y) (s * y + x * t) := by
  obtain ⟨p, q, hf, hq, hx, hs⟩ := hf
  obtain ⟨p', q', hg, hq', hy, ht⟩ := hg
  refine ⟨p * p', q * q', ?_, ?_, ?_, ?_⟩
  · simp only [map_mul, ← hf, ← hg]
    ring
  · rw [map_mul]
    exact mul_ne_zero hq hq'
  · simp only [map_mul, hx, hy]
    ring
  · simp only [map_add, map_mul, pderiv_mul, hx, hy, hs, ht]
    ring

/-- The slope of the opposite. -/
theorem neg (hf : HasSlope a v f x s) : HasSlope a v (-f) (-x) (-s) := by
  simpa using (const (-1)).mul hf

/-- The reciprocal, where the value is not zero. -/
theorem inv (hf : HasSlope a v f x s) (hx : x ≠ 0) :
    HasSlope a v f⁻¹ x⁻¹ (-(s * x ^ (-2 : ℤ))) := by
  obtain ⟨p, q, hf, hq, hp, hs⟩ := hf
  have hpa : eval a p ≠ 0 := by
    rw [hp]
    exact mul_ne_zero hx hq
  have hf0 : f ≠ 0 := by
    rintro rfl
    have hp0 : RationalFunction.ofPolynomial p = RationalFunction.ofPolynomial 0 := by
      rw [← hf, zero_mul, map_zero]
    rw [ofPolynomial_injective hp0, map_zero] at hpa
    exact hpa rfl
  refine ⟨q, p, ?_, hpa, ?_, ?_⟩
  · rw [← hf, inv_mul_cancel_left₀ hf0]
  · rw [hp, inv_mul_cancel_left₀ hx]
  · have hcancel := mul_inv_cancel₀ hx
    rw [hs, hp, zpow_neg, zpow_two, mul_inv]
    linear_combination (s * x⁻¹ * eval a q - eval a (pderiv v q)) * hcancel

/-- The power rule, by induction on the exponent. -/
theorem pow (hf : HasSlope a v f x s) (n : Nat) :
    HasSlope a v (f ^ n) (x ^ n) (n * (x ^ (n - 1) * s)) := by
  induction n with
  | zero => simpa using one (a := a) (v := v)
  | succ n ih =>
    have hslope : ((n + 1 : Nat) : ℚ) * (x ^ (n + 1 - 1) * s) =
        n * (x ^ (n - 1) * s) * x + x ^ n * s := by
      cases n with
      | zero => simp
      | succ n =>
        rw [Nat.add_sub_cancel, Nat.add_sub_cancel]
        push_cast
        ring
    rw [hslope, pow_succ, pow_succ]
    exact ih.mul hf

end HasSlope

end RationalFunction

/-! ## trees -/

/-- The rational function a tree denotes. -/
noncomputable def Expr.toRationalFunction (e : Expr) : RationalFunction :=
  fieldValue (fun w => RationalFunction.ofPolynomial (MvPolynomial.X w)) e

end SymCalc
