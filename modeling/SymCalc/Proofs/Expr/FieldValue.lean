import Mathlib.Algebra.BigOperators.Group.List.Basic
import Mathlib.Data.Rat.Cast.CharZero
import SymCalc.Proofs.Expr.FreeVars
import SymCalc.Proofs.Expr.Substitute
import SymCalc.Proofs.Number.IntegerPower

/-!
# SymCalc.Proofs.Expr.FieldValue

Values of rational expressions in a field.

1. Polynomials are built from variables and integers by sums, products, opposites
   and powers to integers from zero on (`isPolynomial`); `staysExact` admits all
   exact numbers, reciprocals, and negative powers of polynomials, too, as they
   occur in derivatives;
2. `fieldValue` is the value such a tree has in a field of characteristic zero
   where the reciprocal of zero is zero;
3. simplification keeps this value (`keeps_simplifyWith`), and evaluation under
   integers finds it, in exact numbers (`computes_of_hasValue`).
-/

namespace SymCalc.Expr

/-! ## polynomials and rational expressions -/

/-- The integer an exponent stands for: one that is written down, or the
difference of two, as the power rule leaves it. -/
def exponent? : Expr → Option Int
  | .const (.integer n) => some n
  | .add [.const (.integer n), .neg (.const (.integer m))] => some (n - m)
  | _ => none

mutual

/-- The tree is a polynomial with integer coefficients. -/
def isPolynomial : Expr → Bool
  | .var _ => true
  | .const x => x.isInteger
  | .add terms => allPolynomial terms
  | .mul factors => allPolynomial factors
  | .neg e => isPolynomial e
  | .pow base (.const (.integer n)) => isPolynomial base && decide (0 ≤ n)
  | .inv _ | .pow _ _ | .log _ _ | .apply _ _ | .goalSeek _ _ _ => false

/-- All trees of a list are polynomials. -/
def allPolynomial : List Expr → Bool
  | [] => true
  | e :: es => isPolynomial e && allPolynomial es

end

mutual

/-- The tree is built from polynomials, their reciprocals and exact constants by
sums, products and opposites. -/
def isRational : Expr → Bool
  | .var _ => true
  | .const x => x.isExact
  | .add terms => allRational terms
  | .mul factors => allRational factors
  | .neg e => isRational e
  | .inv e => isPolynomial e
  | .pow base exponent => isPolynomial (.pow base exponent)
  | .log _ _ | .apply _ _ | .goalSeek _ _ _ => false

/-- All trees of a list are so. -/
def allRational : List Expr → Bool
  | [] => true
  | e :: es => isRational e && allRational es

end

mutual

/-- Evaluation under integers does not leave the exact numbers: powers are
integer powers of polynomials. -/
def staysExact : Expr → Bool
  | .var _ => true
  | .const x => x.isExact
  | .add terms => allStayExact terms
  | .mul factors => allStayExact factors
  | .neg e => staysExact e
  | .inv e => staysExact e
  | .pow base exponent => isPolynomial base && (exponent? exponent).isSome
  | .log _ _ | .apply _ _ | .goalSeek _ _ _ => false

/-- All trees of a list stay exact. -/
def allStayExact : List Expr → Bool
  | [] => true
  | e :: es => staysExact e && allStayExact es

end

/-- A list is of polynomials if its members are. -/
theorem allPolynomial_iff {es : List Expr} :
    allPolynomial es = true ↔ ∀ e ∈ es, e.isPolynomial = true := by
  induction es with
  | nil => simp [allPolynomial]
  | cons e es ih => simp [allPolynomial, ih]

/-- A list is of rational expressions if its members are. -/
theorem allRational_iff {es : List Expr} :
    allRational es = true ↔ ∀ e ∈ es, e.isRational = true := by
  induction es with
  | nil => simp [allRational]
  | cons e es ih => simp [allRational, ih]

/-- A list stays exact if its members do. -/
theorem allStayExact_iff {es : List Expr} :
    allStayExact es = true ↔ ∀ e ∈ es, e.staysExact = true := by
  induction es with
  | nil => simp [allStayExact]
  | cons e es ih => simp [allStayExact, ih]

/-- The exponents of a polynomial are written down. -/
theorem isPolynomial_pow_iff {b p : Expr} :
    (Expr.pow b p).isPolynomial = true ↔
      b.isPolynomial = true ∧ ∃ n : Int, 0 ≤ n ∧ p = ofInt n := by
  cases p with
  | const x => cases x <;> simp [isPolynomial]
  | _ => simp [isPolynomial]

/-- An integer is an exponent. -/
theorem exponent?_ofInt (n : Int) : exponent? (ofInt n) = some n := rfl

/-- An integer less one is an exponent, also before it is simplified. -/
theorem exponent?_sub_one (n : Int) : exponent? (sub (ofInt n) one) = some (n - 1) := rfl

mutual

/-- Polynomials stay exact. -/
theorem staysExact_of_isPolynomial : (e : Expr) → e.isPolynomial = true → e.staysExact = true
  | .var _, _ => rfl
  | .const _, h => Number.isExact_of_isInteger h
  | .add terms, h => allStayExact_of_allPolynomial terms h
  | .mul factors, h => allStayExact_of_allPolynomial factors h
  | .neg e, h => staysExact_of_isPolynomial e h
  | .pow b p, h => by
    obtain ⟨hb, n, -, rfl⟩ := isPolynomial_pow_iff.mp h
    rw [staysExact, hb, exponent?_ofInt]
    rfl

/-- The same for lists of polynomials. -/
theorem allStayExact_of_allPolynomial : (es : List Expr) → allPolynomial es = true →
    allStayExact es = true
  | [], _ => rfl
  | e :: es, h => by
    obtain ⟨he, hes⟩ := Bool.and_eq_true_iff.mp h
    rw [allStayExact, staysExact_of_isPolynomial e he, allStayExact_of_allPolynomial es hes]
    rfl

end

mutual

/-- Rational expressions stay exact. -/
theorem staysExact_of_isRational : (e : Expr) → e.isRational = true → e.staysExact = true
  | .var _, _ => rfl
  | .const _, h => h
  | .add terms, h => allStayExact_of_allRational terms h
  | .mul factors, h => allStayExact_of_allRational factors h
  | .neg e, h => staysExact_of_isRational e h
  | .inv e, h => staysExact_of_isPolynomial e h
  | .pow b p, h => staysExact_of_isPolynomial (.pow b p) h

/-- The same for lists of rational expressions. -/
theorem allStayExact_of_allRational : (es : List Expr) → allRational es = true →
    allStayExact es = true
  | [], _ => rfl
  | e :: es, h => by
    obtain ⟨he, hes⟩ := Bool.and_eq_true_iff.mp h
    rw [allStayExact, staysExact_of_isRational e he, allStayExact_of_allRational es hes]
    rfl

end

/-! ## values -/

section values

variable {K : Type} [Field K]

mutual

/-- The value of a tree at a point of a field, with the reciprocal of zero taken
to be zero. -/
def fieldValue (ρ : Variable → K) : Expr → K
  | .var v => ρ v
  | .const x => x.exactValue
  | .add terms => (fieldValues ρ terms).sum
  | .mul factors => (fieldValues ρ factors).prod
  | .neg e => -fieldValue ρ e
  | .inv e => (fieldValue ρ e)⁻¹
  | .pow base exponent => fieldValue ρ base ^ (exponent? exponent).getD 0
  | .log _ _ | .apply _ _ | .goalSeek _ _ _ => 0

/-- The values of a list of trees. -/
def fieldValues (ρ : Variable → K) : List Expr → List K
  | [] => []
  | e :: es => fieldValue ρ e :: fieldValues ρ es

end

variable {ρ : Variable → K}

/-- The values of a list are those of its members. -/
theorem fieldValues_eq_map (es : List Expr) : fieldValues ρ es = es.map (fieldValue ρ) := by
  induction es with
  | nil => rfl
  | cons e es ih => rw [fieldValues, ih, List.map_cons]

/-- The value of a sum is the sum of the values. -/
theorem fieldValue_add (es : List Expr) :
    fieldValue ρ (.add es) = (es.map (fieldValue ρ)).sum := by
  rw [fieldValue, fieldValues_eq_map]

/-- The value of a product is the product of the values. -/
theorem fieldValue_mul (es : List Expr) :
    fieldValue ρ (.mul es) = (es.map (fieldValue ρ)).prod := by
  rw [fieldValue, fieldValues_eq_map]

/-- A tree taken apart into terms has their sum as its value. -/
theorem sum_fieldValue_addends (e : Expr) :
    ((addends e).map (fieldValue ρ)).sum = fieldValue ρ e := by
  cases e <;> simp [addends, fieldValue_add]

/-- A tree taken apart into factors has their product as its value. -/
theorem prod_fieldValue_factorsOf (e : Expr) :
    ((factorsOf e).map (fieldValue ρ)).prod = fieldValue ρ e := by
  cases e <;> simp [factorsOf, fieldValue_mul]

@[simp] theorem fieldValue_sum (es : List Expr) :
    fieldValue ρ (sum es) = (es.map (fieldValue ρ)).sum := by
  rw [sum, fieldValue_add]
  induction es with
  | nil => rfl
  | cons e es ih => simp [sum_fieldValue_addends, ih]

@[simp] theorem fieldValue_product (es : List Expr) :
    fieldValue ρ (product es) = (es.map (fieldValue ρ)).prod := by
  rw [product, fieldValue_mul]
  induction es with
  | nil => rfl
  | cons e es ih => simp [prod_fieldValue_factorsOf, ih]

@[simp] theorem fieldValue_const (x : Number) : fieldValue ρ (.const x) = x.exactValue := rfl

@[simp] theorem fieldValue_zero : fieldValue ρ zero = 0 := by
  simp [Number.exactValue, Number.zero]

@[simp] theorem fieldValue_one : fieldValue ρ one = 1 := by
  simp [Number.exactValue, Number.one]

@[simp] theorem fieldValue_negate (e : Expr) : fieldValue ρ (negate e) = -fieldValue ρ e := by
  cases e with
  | const x =>
    rw [negate]
    split <;> simp [fieldValue]
  | neg e => simp [negate, fieldValue]
  | _ => rfl

@[simp] theorem fieldValue_invert : (e : Expr) → fieldValue ρ (invert e) = (fieldValue ρ e)⁻¹
  | .inv e => by simp [invert, fieldValue]
  | .neg e => by simp [invert, fieldValue, fieldValue_invert e, inv_neg]
  | .var _ | .const _ | .add _ | .mul _ | .pow _ _ | .log _ _ | .apply _ _
  | .goalSeek _ _ _ => rfl

end values

/-! ## values of simplified trees -/

/-- The tree `r` may stand for `e`: it stays exact, is a polynomial if `e` is, and
has the same values. -/
structure Keeps (e r : Expr) : Prop where
  exact : r.staysExact = true
  polynomial : e.isPolynomial = true → r.isPolynomial = true
  value : ∀ {K : Type} [Field K] [CharZero K] (ρ : Variable → K),
    fieldValue ρ r = fieldValue ρ e

/-- The trees `ts` may stand for `es` where only the total of the values counts. -/
structure KeepsAll (total : ∀ {K : Type} [Field K], List K → K) (es ts : List Expr) : Prop where
  exact : ∀ t ∈ ts, t.staysExact = true
  polynomial : (∀ e ∈ es, e.isPolynomial = true) → ∀ t ∈ ts, t.isPolynomial = true
  value : ∀ {K : Type} [Field K] [CharZero K] (ρ : Variable → K),
    total (ts.map (fieldValue ρ)) = total (es.map (fieldValue ρ))

/-- Standing for another tree is passed on. -/
theorem Keeps.trans {e r s : Expr} (h : Keeps e r) (h' : Keeps r s) : Keeps e s where
  exact := h'.exact
  polynomial := h'.polynomial ∘ h.polynomial
  value ρ := (h'.value ρ).trans (h.value ρ)

section sums

variable {us : List Expr} {x : Number}

/-- The constants may be put behind the other members of a list. -/
theorem perm_nonConstants_append (us : List Expr) :
    us.Perm (nonConstants us ++ (constants us).map .const) := by
  induction us with
  | nil => exact .nil
  | cons u us ih =>
    cases u with
    | const x => exact (ih.cons _).trans List.perm_middle.symm
    | _ => exact ih.cons _

/-- The constants among trees that stay exact are exact. -/
theorem isExact_of_mem_constants (hus : ∀ u ∈ us, u.staysExact = true) :
    ∀ x ∈ constants us, x.isExact = true := by
  intro x hx
  have hmem : .const x ∈ us := (perm_nonConstants_append us).mem_iff.mpr
    (List.mem_append_right _ (List.mem_map_of_mem hx))
  exact hus _ hmem

/-- The constants among polynomials are integers. -/
theorem isInteger_of_mem_constants (hus : ∀ u ∈ us, u.isPolynomial = true) :
    ∀ x ∈ constants us, x.isInteger = true := by
  intro x hx
  have hmem : .const x ∈ us := (perm_nonConstants_append us).mem_iff.mpr
    (List.mem_append_right _ (List.mem_map_of_mem hx))
  exact hus _ hmem

/-- What the constants of a list come to is exact, and an integer in a list of
polynomials. -/
theorem isExact_of_fold {fold : List Number → Except NumericError Number}
    {op : Rat → Rat → Rat} {unit : Rat} (hf : Number.ExactFold fold op unit)
    (hus : ∀ u ∈ us, u.staysExact = true) (hx : fold (constants us) = .ok x) :
    x.isExact = true ∧ x.exactValue = Number.total op unit (constants us) ∧
      ((∀ u ∈ us, u.isPolynomial = true) → x.isInteger = true) := by
  obtain ⟨y, hy, hye, hyv, hyi⟩ := hf.fold_of_isExact (isExact_of_mem_constants hus)
  cases hy.symm.trans hx
  refine ⟨hye, hyv, fun hpoly => ?_⟩
  rw [hyi, List.all_eq_true]
  exact isInteger_of_mem_constants hpoly

/-- What is put together from a list of trees without leaving the exact numbers. -/
theorem staysExact_assemble (node : List Expr → Expr) (neutral : Bool)
    (hexact : ∀ {es}, (∀ e ∈ es, e.staysExact = true) → (node es).staysExact = true)
    (hpolynomial : ∀ {es}, (∀ e ∈ es, e.isPolynomial = true) → (node es).isPolynomial = true)
    (hus : ∀ u ∈ us, u.staysExact = true) (hx : x.isExact = true)
    (hxi : (∀ u ∈ us, u.isPolynomial = true) → x.isInteger = true) :
    (assemble node (nonConstants us) x neutral).staysExact = true ∧
      ((∀ u ∈ us, u.isPolynomial = true) →
        (assemble node (nonConstants us) x neutral).isPolynomial = true) := by
  have hrest : ∀ u ∈ nonConstants us, u ∈ us := fun u hu => (mem_nonConstants.mp hu).1
  constructor
  · exact assemble_of_forall hexact (fun u hu => hus u (hrest u hu)) hx
  · intro hpoly
    exact assemble_of_forall hpolynomial (fun u hu => hpoly u (hrest u hu)) (hxi hpoly)

variable {K : Type} [Field K] {ρ : Variable → K}

/-- A sum put together from its constant and the other terms has their total as its value,
the constant left out only as a zero. -/
theorem fieldValue_assemble_add {rest : List Expr} {neutral : Bool}
    (hneutral : neutral = true → x.exactValue = 0) :
    fieldValue ρ (assemble .add rest x neutral) =
      (rest.map (fieldValue ρ)).sum + x.exactValue := by
  match rest, neutral with
  | [], _ => simp [assemble]
  | [u], true => simp [assemble, hneutral rfl]
  | u :: v :: us, true => simp [assemble, fieldValue_add, hneutral rfl]
  | u :: us, false => simp [assemble, fieldValue_add, add_assoc]

/-- A product put together from its constant and the other factors has their total as its
value, the constant left out only as a one. -/
theorem fieldValue_assemble_mul {rest : List Expr} {neutral : Bool}
    (hneutral : neutral = true → x.exactValue = 1) :
    fieldValue ρ (assemble .mul rest x neutral) =
      (rest.map (fieldValue ρ)).prod * x.exactValue := by
  match rest, neutral with
  | [], _ => simp [assemble]
  | [u], true => simp [assemble, hneutral rfl]
  | u :: v :: us, true => simp [assemble, fieldValue_mul, hneutral rfl]
  | u :: us, false => simp [assemble, fieldValue_mul, mul_assoc]

/-- The terms of a sum count the same with their constants added up. -/
theorem sum_fieldValue_eq [CharZero K] (us : List Expr) :
    (us.map (fieldValue ρ)).sum = ((nonConstants us).map (fieldValue ρ)).sum +
      (Number.total (· + ·) 0 (constants us) : Rat) := by
  rw [((perm_nonConstants_append us).map _).sum_eq, List.map_append, List.sum_append,
    List.map_map]
  have hcast : ((Number.total (· + ·) 0 (constants us) : Rat) : K) =
      (((constants us).map Number.exactValue).map (Rat.castHom K)).sum :=
    map_list_sum (Rat.castHom K) _
  rw [hcast, List.map_map]
  rfl

/-- The factors of a product count the same with their constants multiplied. -/
theorem prod_fieldValue_eq [CharZero K] (us : List Expr) :
    (us.map (fieldValue ρ)).prod = ((nonConstants us).map (fieldValue ρ)).prod *
      (Number.total (· * ·) 1 (constants us) : Rat) := by
  rw [((perm_nonConstants_append us).map _).prod_eq, List.map_append, List.prod_append,
    List.map_map]
  have hcast : ((Number.total (· * ·) 1 (constants us) : Rat) : K) =
      (((constants us).map Number.exactValue).map (Rat.castHom K)).prod :=
    map_list_prod (Rat.castHom K) _
  rw [hcast, List.map_map]
  rfl

end sums

/-- The sum that terms combine to may stand for the sum of them. -/
theorem keeps_combineSum {us : List Expr} {r : Expr} (hus : ∀ u ∈ us, u.staysExact = true)
    (hr : combineSum us = .ok r) : Keeps (.add us) r := by
  obtain ⟨x, hx, rfl⟩ := combineSum_eq_ok_iff.mp hr
  obtain ⟨hxe, hxv, hxi⟩ := isExact_of_fold Number.exactFold_sum hus hx
  obtain ⟨hexact, hpolynomial⟩ := staysExact_assemble .add x.isZero
    allStayExact_iff.mpr allPolynomial_iff.mpr hus hxe hxi
  refine ⟨hexact, fun h => hpolynomial (allPolynomial_iff.mp h), fun ρ => ?_⟩
  rw [fieldValue_assemble_add (Number.isZero_iff_of_isExact hxe).mp, fieldValue_add,
    sum_fieldValue_eq us, hxv]

/-- The product that factors combine to may stand for the product of them. -/
theorem keeps_combineProduct {us : List Expr} {r : Expr} (hus : ∀ u ∈ us, u.staysExact = true)
    (hr : combineProduct us = .ok r) : Keeps (.mul us) r := by
  obtain ⟨x, hx, rfl⟩ := combineProduct_eq_ok_iff.mp hr
  obtain ⟨hxe, hxv, hxi⟩ := isExact_of_fold Number.exactFold_product hus hx
  cases hzero : x.isZero with
  | true =>
    have hvalue : x.exactValue = 0 := (Number.isZero_iff_of_isExact hxe).mp hzero
    refine ⟨hxe, fun h => hxi (allPolynomial_iff.mp h), fun ρ => ?_⟩
    rw [fieldValue_mul, prod_fieldValue_eq us, ← hxv, if_pos rfl, fieldValue_const, hvalue]
    simp
  | false =>
    obtain ⟨hexact, hpolynomial⟩ := staysExact_assemble .mul x.isOne
      allStayExact_iff.mpr allPolynomial_iff.mpr hus hxe hxi
    refine ⟨hexact, fun h => hpolynomial (allPolynomial_iff.mp h), fun ρ => ?_⟩
    rw [if_neg Bool.false_ne_true, fieldValue_assemble_mul (Number.isOne_iff_of_isExact hxe).mp,
      fieldValue_mul, prod_fieldValue_eq us, hxv]

/-! ### single nodes -/

/-- A sign added or taken away leaves the kind of tree. -/
theorem staysExact_negate {e : Expr} (h : e.staysExact = true) :
    (negate e).staysExact = true ∧ (e.isPolynomial = true → (negate e).isPolynomial = true) := by
  cases e with
  | const x =>
    rw [negate]
    split
    · refine ⟨(Number.isExact_neg x).trans h, fun hx => ?_⟩
      cases x <;> first | rfl | cases hx
    · exact ⟨h, id⟩
  | neg e => exact ⟨h, id⟩
  | _ => exact ⟨h, id⟩

/-- A folded opposite may stand for the opposite. -/
theorem keeps_foldNeg {e : Expr} (h : e.staysExact = true) : Keeps (.neg e) (foldNeg e) := by
  cases hc : e.isConst with
  | true =>
    obtain ⟨x, rfl⟩ := isConst_eq_true_iff.mp hc
    refine ⟨(Number.isExact_neg x).trans h, fun hx => ?_, fun ρ => by simp [foldNeg, fieldValue]⟩
    cases x <;> first | rfl | cases hx
  | false =>
    obtain ⟨hexact, hpolynomial⟩ := staysExact_negate h
    rw [foldNeg_of_isConst_eq_false hc]
    exact ⟨hexact, hpolynomial, fun ρ => fieldValue_negate e⟩

/-- The reciprocal of what stays exact stays exact. -/
theorem staysExact_invert : {e : Expr} → e.staysExact = true → (invert e).staysExact = true
  | .neg e, h => (staysExact_negate (staysExact_invert (e := e) h)).1
  | .inv _, h | .var _, h | .const _, h | .add _, h | .mul _, h | .pow _ _, h => h

/-- A folded reciprocal may stand for the reciprocal. -/
theorem keeps_foldInv {e r : Expr} (h : e.staysExact = true) (hr : foldInv e = .ok r) :
    Keeps (.inv e) r := by
  cases hc : e.isConst with
  | true =>
    obtain ⟨x, rfl⟩ := isConst_eq_true_iff.mp hc
    have hx : x.isExact = true := h
    rw [foldInv, Number.inv_of_isExact hx] at hr
    split at hr
    · cases hr
    · cases hr
      exact ⟨rfl, (by cases ·), fun ρ => by simp [fieldValue, Number.exactValue]⟩
  | false =>
    rw [foldInv_of_isConst_eq_false hc] at hr
    cases hr
    exact ⟨staysExact_invert h, (by cases ·), fun ρ => fieldValue_invert e⟩

/-- A difference of integers as a sum. -/
theorem sum_integer_neg (n m : Int) :
    Number.sum [.integer n, -.integer m] = .ok (.integer (n - m)) := by
  have := Number.sum_integers [n, -m]
  simpa [sub_eq_add_neg] using this

/-- An exponent simplifies to the integer it stands for. -/
theorem simplifyWith_of_exponent? [Elementary] {solve : GoalSolver} {p : Expr} {n : Int}
    (h : exponent? p = some n) : (simplifyWith solve p).result = .ok (ofInt n) := by
  unfold exponent? at h
  split at h
  · cases h
    rfl
  · rename_i n m
    cases h
    have hterms : (simplifyTerms solve [ofInt n, .neg (ofInt m)]).result =
        .ok [ofInt n, .const (-.integer m)] := rfl
    have hcombine : combineSum [ofInt n, .const (-.integer m)] = .ok (ofInt (n - m)) :=
      combineSum_eq_ok_iff.mpr ⟨_, sum_integer_neg n m, rfl⟩
    rw [simplifyWith]
    exact Logged.result_bind_eq_ok.mpr ⟨_, hterms, Logged.result_numeric_eq_ok.mpr hcombine⟩
  · cases h

/-- A power whose base is no number stays as it is, but for a first power. -/
theorem foldPow_ofInt [Elementary] {b : Expr} {n : Int} (hc : b.isConst = false) :
    foldPow b (ofInt n) = .ok (if n = 1 then b else .pow b (ofInt n)) := by
  cases b <;> first | (simp [foldPow, Number.isOne]; done) | cases hc

/-- A power of a simplified polynomial to an integer. -/
theorem keeps_foldPow [Elementary] {b r : Expr} {n : Int} (hb : b.isPolynomial = true)
    (hr : foldPow b (ofInt n) = .ok r) : Keeps (.pow b (ofInt n)) r := by
  cases hc : b.isConst with
  | true =>
    obtain ⟨x, rfl⟩ := isConst_eq_true_iff.mp hc
    obtain ⟨m, rfl⟩ := Number.eq_integer_of_isInteger hb
    rw [foldPow, Number.pow_integer] at hr
    cases hy : Number.powInt m n with
    | error err => rw [hy] at hr; cases hr
    | ok y =>
      rw [hy] at hr
      cases hr
      obtain ⟨hvalue, hinteger⟩ := Number.exactValue_powInt hy
      refine ⟨Number.isExact_powInt hy, fun hpoly => ?_, fun ρ => ?_⟩
      · obtain ⟨-, n', hn', heq⟩ := isPolynomial_pow_iff.mp hpoly
        cases heq
        exact hinteger hn'
      · rw [fieldValue_const, hvalue, Rat.cast_zpow]
        rfl
  | false =>
    rw [foldPow_ofInt hc] at hr
    cases hr
    split
    · rename_i hn
      subst hn
      exact ⟨staysExact_of_isPolynomial b hb, fun _ => hb, fun ρ => by simp [fieldValue, exponent?]⟩
    · exact ⟨by rw [staysExact, hb]; rfl, id, fun ρ => rfl⟩

/-! ### trees -/

/-- Terms that may stand for terms make a sum that may stand for theirs. -/
theorem KeepsAll.add {es ts : List Expr} (h : KeepsAll List.sum es ts) :
    Keeps (.add es) (.add ts) where
  exact := allStayExact_iff.mpr h.exact
  polynomial hpoly := allPolynomial_iff.mpr (h.polynomial (allPolynomial_iff.mp hpoly))
  value ρ := by rw [fieldValue_add, fieldValue_add, h.value]

/-- Factors that may stand for factors make a product that may stand for theirs. -/
theorem KeepsAll.mul {es ts : List Expr} (h : KeepsAll List.prod es ts) :
    Keeps (.mul es) (.mul ts) where
  exact := allStayExact_iff.mpr h.exact
  polynomial hpoly := allPolynomial_iff.mpr (h.polynomial (allPolynomial_iff.mp hpoly))
  value ρ := by rw [fieldValue_mul, fieldValue_mul, h.value]

/-- The terms of what stays exact stay exact, and those of a polynomial are polynomials. -/
theorem staysExact_addends {e : Expr} (h : e.staysExact = true) :
    (∀ t ∈ addends e, t.staysExact = true) ∧
      (e.isPolynomial = true → ∀ t ∈ addends e, t.isPolynomial = true) := by
  cases hsum : e.isSum with
  | false =>
    rw [addends_of_isSum_eq_false hsum]
    simpa using h
  | true =>
    cases e with
    | add ts => exact ⟨allStayExact_iff.mp h, allPolynomial_iff.mp⟩
    | _ => cases hsum

/-- The factors of what stays exact stay exact, and those of a polynomial are polynomials. -/
theorem staysExact_factorsOf {e : Expr} (h : e.staysExact = true) :
    (∀ t ∈ factorsOf e, t.staysExact = true) ∧
      (e.isPolynomial = true → ∀ t ∈ factorsOf e, t.isPolynomial = true) := by
  cases hproduct : e.isProduct with
  | false =>
    rw [factorsOf_of_isProduct_eq_false hproduct]
    simpa using h
  | true =>
    cases e with
    | mul ts => exact ⟨allStayExact_iff.mp h, allPolynomial_iff.mp⟩
    | _ => cases hproduct

/-- One more term, taken apart. -/
theorem KeepsAll.cons_sum {e r : Expr} {es ts : List Expr} (he : Keeps e r)
    (h : KeepsAll List.sum es ts) : KeepsAll List.sum (e :: es) (addends r ++ ts) := by
  obtain ⟨hexact, hpolynomial⟩ := staysExact_addends he.exact
  refine ⟨List.forall_mem_append.mpr ⟨hexact, h.exact⟩, fun hpoly => ?_, fun ρ => ?_⟩
  · rw [List.forall_mem_cons] at hpoly
    exact List.forall_mem_append.mpr
      ⟨hpolynomial (he.polynomial hpoly.1), h.polynomial hpoly.2⟩
  · rw [List.map_append, List.sum_append, sum_fieldValue_addends, h.value, he.value,
      List.map_cons, List.sum_cons]

/-- One more factor, taken apart. -/
theorem KeepsAll.cons_prod {e r : Expr} {es ts : List Expr} (he : Keeps e r)
    (h : KeepsAll List.prod es ts) : KeepsAll List.prod (e :: es) (factorsOf r ++ ts) := by
  obtain ⟨hexact, hpolynomial⟩ := staysExact_factorsOf he.exact
  refine ⟨List.forall_mem_append.mpr ⟨hexact, h.exact⟩, fun hpoly => ?_, fun ρ => ?_⟩
  · rw [List.forall_mem_cons] at hpoly
    exact List.forall_mem_append.mpr
      ⟨hpolynomial (he.polynomial hpoly.1), h.polynomial hpoly.2⟩
  · rw [List.map_append, List.prod_append, prod_fieldValue_factorsOf, h.value, he.value,
      List.map_cons, List.prod_cons]

/-- What is left of factors may stand for them; a zero among them stands for the
product. -/
def KeepsFactors (es : List Expr) : Factors → Prop
  | .zero x => Keeps (.mul es) (.const x) ∧ x.exactValue = 0
  | .all ts => KeepsAll List.prod es ts

/-- One more factor before those that are left, or before the zero among them. -/
theorem KeepsFactors.cons {e r : Expr} {es : List Expr} {fs : Factors} (he : Keeps e r)
    (h : KeepsFactors es fs) : KeepsFactors (e :: es) (fs.prepend (factorsOf r)) := by
  cases fs with
  | all ts => exact KeepsAll.cons_prod he h
  | zero x =>
    obtain ⟨⟨hexact, hpolynomial, hvalue⟩, hx⟩ := h
    refine ⟨⟨hexact, fun hpoly => ?_, fun ρ => ?_⟩, hx⟩
    · exact hpolynomial (Bool.and_eq_true_iff.mp hpoly).2
    · have hes := hvalue ρ
      rw [fieldValue_const, hx, Rat.cast_zero, fieldValue_mul] at hes
      rw [fieldValue_const, hx, fieldValue_mul, List.map_cons, List.prod_cons, ← hes, mul_zero,
        Rat.cast_zero]

/-- A first factor that is zero stands for the product, whatever the others are. -/
theorem keepsFactors_zero {e : Expr} {x : Number} (es : List Expr) (he : Keeps e (.const x))
    (hx : x.isZero = true) : KeepsFactors (e :: es) (.zero x) := by
  have hexact : x.isExact = true := he.exact
  have hzero : x.exactValue = 0 := (Number.isZero_iff_of_isExact hexact).mp hx
  refine ⟨⟨hexact, fun hpoly => ?_, fun ρ => ?_⟩, hzero⟩
  · exact he.polynomial (Bool.and_eq_true_iff.mp hpoly).1
  · rw [fieldValue_mul, List.map_cons, List.prod_cons, ← he.value, fieldValue_const, hzero,
      Rat.cast_zero, zero_mul]

variable {solve : GoalSolver}

mutual

/-- **Simplification keeps values.**  The simplified tree stays exact, too, and of
a polynomial it is one. -/
theorem keeps_simplifyWith [Elementary] : (e : Expr) → e.staysExact = true → {r : Expr} →
    (simplifyWith solve e).result = .ok r → Keeps e r
  | .var _, h, _, hr => by
    cases hr
    exact ⟨h, id, fun _ => rfl⟩
  | .const _, h, _, hr => by
    cases hr
    exact ⟨h, id, fun _ => rfl⟩
  | .add terms, h, _, hr => by
    obtain ⟨ts, hts, hr⟩ := Logged.result_bind_eq_ok.mp hr
    have hall := keeps_simplifyTerms terms h hts
    exact hall.add.trans (keeps_combineSum hall.exact (Logged.result_numeric_eq_ok.mp hr))
  | .mul factors, h, _, hr => by
    obtain ⟨fs, hfs, hr⟩ := Logged.result_bind_eq_ok.mp hr
    have hall := keeps_simplifyFactors factors h hfs
    cases fs with
    | zero x =>
      cases hr
      exact hall.1
    | all ts =>
      have hall' : KeepsAll List.prod factors ts := hall
      exact hall'.mul.trans
        (keeps_combineProduct hall'.exact (Logged.result_numeric_eq_ok.mp hr))
  | .neg e, h, _, hr => by
    obtain ⟨s, hs, hr⟩ := Logged.result_bind_eq_ok.mp hr
    cases hr
    have he := keeps_simplifyWith e h hs
    have hneg : Keeps (.neg e) (.neg s) :=
      ⟨he.exact, he.polynomial, fun ρ => congrArg (- ·) (he.value ρ)⟩
    exact hneg.trans (keeps_foldNeg he.exact)
  | .inv e, h, _, hr => by
    obtain ⟨s, hs, hr⟩ := Logged.result_bind_eq_ok.mp hr
    have he := keeps_simplifyWith e h hs
    have hinv : Keeps (.inv e) (.inv s) :=
      ⟨he.exact, nofun, fun ρ => congrArg (·⁻¹) (he.value ρ)⟩
    exact hinv.trans (keeps_foldInv he.exact (Logged.result_numeric_eq_ok.mp hr))
  | .pow b p, h, _, hr => by
    obtain ⟨s, hs, hr⟩ := Logged.result_bind_eq_ok.mp hr
    obtain ⟨t, ht, hr⟩ := Logged.result_bind_eq_ok.mp hr
    obtain ⟨hb, hp⟩ := Bool.and_eq_true_iff.mp h
    obtain ⟨n, hn⟩ := Option.isSome_iff_exists.mp hp
    cases (simplifyWith_of_exponent? hn).symm.trans ht
    have hbase := keeps_simplifyWith b (staysExact_of_isPolynomial b hb) hs
    have hsb := hbase.polynomial hb
    have hpow : Keeps (.pow b p) (.pow s (ofInt n)) := by
      refine ⟨by rw [staysExact, hsb]; rfl, fun hpoly => ?_, fun ρ => ?_⟩
      · obtain ⟨-, m, hm, rfl⟩ := isPolynomial_pow_iff.mp hpoly
        cases hn
        exact isPolynomial_pow_iff.mpr ⟨hsb, n, hm, rfl⟩
      · simp only [fieldValue, hbase.value ρ, hn, exponent?_ofInt]
    exact hpow.trans (keeps_foldPow hsb (Logged.result_numeric_eq_ok.mp hr))

/-- The same for the terms of a sum, which count with their total. -/
theorem keeps_simplifyTerms [Elementary] : (es : List Expr) → allStayExact es = true →
    {ts : List Expr} → (simplifyTerms solve es).result = .ok ts → KeepsAll List.sum es ts
  | [], _, _, hr => by
    cases hr
    exact ⟨by simp, fun h => h, fun _ => rfl⟩
  | e :: es, h, _, hr => by
    obtain ⟨he, hes⟩ := Bool.and_eq_true_iff.mp h
    obtain ⟨s, hs, hr⟩ := Logged.result_bind_eq_ok.mp hr
    obtain ⟨ts, hts, hr⟩ := Logged.result_bind_eq_ok.mp hr
    cases hr
    exact .cons_sum (keeps_simplifyWith e he hs) (keeps_simplifyTerms es hes hts)

/-- The same for the factors of a product, up to a zero among them. -/
theorem keeps_simplifyFactors [Elementary] : (es : List Expr) → allStayExact es = true →
    {fs : Factors} → (simplifyFactors solve es).result = .ok fs → KeepsFactors es fs
  | [], _, _, hr => by
    cases hr
    exact ⟨by simp, fun h => h, fun _ => rfl⟩
  | e :: es, h, _, hr => by
    obtain ⟨he, hes⟩ := Bool.and_eq_true_iff.mp h
    rcases simplifyFactors_cons_eq_ok hr with ⟨x, hs, hx, rfl⟩ | ⟨s, rest, hs, hrest, rfl⟩
    · exact keepsFactors_zero es (keeps_simplifyWith e he hs) hx
    · exact .cons (keeps_simplifyWith e he hs) (keeps_simplifyFactors es hes hrest)

end

/-! ## evaluation under integers -/

/-- The number `x` is exact and the value of `e` at the point, and an integer if
`e` is a polynomial. -/
structure Computes (pt : Variable → Int) (e : Expr) (x : Number) : Prop where
  exact : x.isExact = true
  value : x.exactValue = fieldValue (fun v => (pt v : Rat)) e
  integer : e.isPolynomial = true → x.isInteger = true

variable {args : Arguments} {pt : Variable → Int}

/-- Numbers computed one by one are combined exactly. -/
theorem computes_fold {fold : List Number → Except NumericError Number}
    {op : Rat → Rat → Rat} {unit : Rat} (hf : Number.ExactFold fold op unit)
    {es : List Expr} {xs : List Number} {x : Number} (hxs : List.Forall₂ (Computes pt) es xs)
    (hx : fold xs = .ok x) :
    x.isExact = true ∧
      x.exactValue = (es.map (fieldValue fun v => (pt v : Rat))).foldr op unit ∧
      ((∀ e ∈ es, e.isPolynomial = true) → x.isInteger = true) := by
  have hall : (∀ y ∈ xs, y.isExact = true) ∧
      xs.map Number.exactValue = es.map (fieldValue fun v => (pt v : Rat)) ∧
      ((∀ e ∈ es, e.isPolynomial = true) → ∀ y ∈ xs, y.isInteger = true) := by
    clear hx
    induction hxs with
    | nil => simp
    | cons hy _ ih =>
      obtain ⟨hexact, hvalue, hinteger⟩ := ih
      simp only [List.forall_mem_cons, List.map_cons, hy.value, hvalue]
      exact ⟨⟨hy.exact, hexact⟩, trivial, fun h => ⟨hy.integer h.1, hinteger h.2⟩⟩
  obtain ⟨hexact, hvalue, hinteger⟩ := hall
  obtain ⟨y, hy, hye, hyv, hyi⟩ := hf.fold_of_isExact hexact
  cases hy.symm.trans hx
  refine ⟨hye, by rw [hyv, Number.total, hvalue], fun hpoly => ?_⟩
  rw [hyi, List.all_eq_true]
  exact hinteger hpoly

/-- An exponent evaluates to the integer it stands for. -/
theorem hasValue_of_exponent? [Elementary] {p : Expr} {n : Int} (h : exponent? p = some n) :
    HasValue solve args p (.integer n) := by
  unfold exponent? at h
  split at h
  · cases h
    exact hasValue_const.mpr rfl
  · rename_i n m
    cases h
    refine hasValue_add.mpr ⟨[.integer n, -.integer m], ?_, sum_integer_neg n m⟩
    exact .cons (hasValue_const.mpr rfl) (.cons (hasValue_neg.mpr ⟨_, hasValue_const.mpr rfl, rfl⟩)
      .nil)
  · cases h

mutual

/-- **Evaluation under integers finds the value in exact numbers.** -/
theorem computes_of_hasValue [Elementary] : (e : Expr) → e.staysExact = true →
    VarsIn (fun v => args.get? v = some (.integer (pt v))) e → {x : Number} →
    HasValue solve args e x → Computes pt e x
  | .var v, _, hargs, x, hx => by
    cases (varsIn_var.mp hargs).symm.trans (hasValue_var.mp hx)
    exact ⟨rfl, rfl, fun _ => rfl⟩
  | .const y, h, _, x, hx => by
    cases hasValue_const.mp hx
    exact ⟨h, by simp, id⟩
  | .add terms, h, hargs, x, hx => by
    obtain ⟨xs, hxs, hx⟩ := hasValue_add.mp hx
    obtain ⟨hexact, hvalue, hinteger⟩ := computes_fold Number.exactFold_sum
      (computes_of_hasValues terms h (varsIn_add.mp hargs) hxs) hx
    refine ⟨hexact, ?_, fun hpoly => hinteger (allPolynomial_iff.mp hpoly)⟩
    rw [hvalue, fieldValue_add]
    rfl
  | .mul factors, h, hargs, x, hx => by
    obtain ⟨xs, hxs, hx⟩ := hasValue_mul.mp hx
    obtain ⟨hexact, hvalue, hinteger⟩ := computes_fold Number.exactFold_product
      (computes_of_hasValues factors h (varsIn_mul.mp hargs) hxs) hx
    refine ⟨hexact, ?_, fun hpoly => hinteger (allPolynomial_iff.mp hpoly)⟩
    rw [hvalue, fieldValue_mul]
    rfl
  | .neg e, h, hargs, x, hx => by
    obtain ⟨y, hy, rfl⟩ := hasValue_neg.mp hx
    obtain ⟨hexact, hvalue, hinteger⟩ := computes_of_hasValue e h (varsIn_neg.mp hargs) hy
    refine ⟨(Number.isExact_neg y).trans hexact, ?_, fun hpoly => ?_⟩
    · rw [Number.exactValue_neg, hvalue, fieldValue]
    · obtain ⟨n, rfl⟩ := Number.eq_integer_of_isInteger (hinteger hpoly)
      rfl
  | .inv e, h, hargs, x, hx => by
    obtain ⟨y, hy, hx⟩ := hasValue_inv.mp hx
    obtain ⟨hexact, hvalue, -⟩ := computes_of_hasValue e h (varsIn_inv.mp hargs) hy
    rw [Number.inv_of_isExact hexact] at hx
    split at hx
    · cases hx
    · cases hx
      exact ⟨rfl, by rw [fieldValue, ← hvalue]; rfl, nofun⟩
  | .pow b p, h, hargs, x, hx => by
    obtain ⟨y, hy, z, hz, hx⟩ := hasValue_pow.mp hx
    obtain ⟨hb, hp⟩ := Bool.and_eq_true_iff.mp h
    obtain ⟨n, hn⟩ := Option.isSome_iff_exists.mp hp
    obtain ⟨hbase, -⟩ := varsIn_pow.mp hargs
    obtain ⟨-, hvalue, hinteger⟩ :=
      computes_of_hasValue b (staysExact_of_isPolynomial b hb) hbase hy
    obtain ⟨m, rfl⟩ := Number.eq_integer_of_isInteger (hinteger hb)
    cases (hasValue_of_exponent? hn).unique hz
    rw [Number.pow_integer] at hx
    obtain ⟨hpow, hpowInt⟩ := Number.exactValue_powInt hx
    refine ⟨Number.isExact_powInt hx, ?_, fun hpoly => ?_⟩
    · rw [hpow, fieldValue, hn, ← hvalue]
      rfl
    · obtain ⟨-, k, hk, rfl⟩ := isPolynomial_pow_iff.mp hpoly
      cases hn
      exact hpowInt hk

/-- The same for the members of a list. -/
theorem computes_of_hasValues [Elementary] : (es : List Expr) → allStayExact es = true →
    (∀ e ∈ es, VarsIn (fun v => args.get? v = some (.integer (pt v))) e) → {xs : List Number} →
    List.Forall₂ (HasValue solve args) es xs → List.Forall₂ (Computes pt) es xs
  | [], _, _, _, .nil => .nil
  | e :: es, h, hargs, _, .cons hx hxs => by
    obtain ⟨he, hes⟩ := Bool.and_eq_true_iff.mp h
    rw [List.forall_mem_cons] at hargs
    exact .cons (computes_of_hasValue e he hargs.1 hx)
      (computes_of_hasValues es hes hargs.2 hxs)

end

end SymCalc.Expr
