import SymCalc.Proofs.Expr.Derives
import SymCalc.Proofs.Expr.FieldValue
import SymCalc.Proofs.Expr.Operands
import SymCalc.Real256.Series

/-!
# SymCalc.Proofs.Expr.Polynomial

Polynomials given by their coefficients, and their derivatives.

1. Two sums agree when their terms do, but for the constants, which only have to come
   to the same in total (`SumsAlike.combineSum`);
2. a polynomial simplifies to a sum of monomials: `v ^ n` times its coefficient, or
   the coefficient alone where it is zero or `n` is (`result_polynomial`);
3. a monomial that depends on `v` is lowered by differentiation to the monomial of the
   next degree, with the coefficient times `n` (`exists_lowersTo`), and a sum of
   monomials term by term (`derivativeWith_add`).

Main statement: `derivative_polynomial`.
-/

namespace SymCalc.Expr

variable {solve : GoalSolver} {v : Variable}

/-! ## sums that agree -/

/-- Lists agree member by member. -/
theorem agreesAll_iff {es es' : List Expr} :
    agreesAll es es' = true ↔ List.Forall₂ (fun e e' => agrees e e' = true) es es' := by
  induction es generalizing es' with
  | nil => cases es' <;> simp [agreesAll]
  | cons e es ih => cases es' <;> simp [agreesAll, ih]

/-- Operands that agree and constants that are equal are put together to trees that agree. -/
theorem agrees_assemble {node : List Expr → Expr}
    (hnode : ∀ es es', agrees (node es) (node es') = agreesAll es es') {rest rest' : List Expr}
    {x y : Number} (hrest : List.Forall₂ (fun e e' => agrees e e' = true) rest rest')
    (hxy : (x == y) = true) (neutral : Bool) :
    agrees (assemble node rest x neutral) (assemble node rest' y neutral) = true := by
  have hconst : List.Forall₂ (fun e e' => agrees e e' = true) [.const x] [.const y] :=
    .cons hxy .nil
  have hall := List.rel_append hrest hconst
  cases hrest with
  | nil => exact hxy
  | cons he hes =>
    cases neutral with
    | true =>
      cases hes with
      | nil => exact he
      | cons he' hes => exact (hnode _ _).trans (agreesAll_iff.mpr (.cons he (.cons he' hes)))
    | false => exact (hnode _ _).trans (agreesAll_iff.mpr hall)

/-- The lists agree but for their constants, which are exact and come to the same. -/
structure SumsAlike (us vs : List Expr) : Prop where
  rest : List.Forall₂ (fun e e' => agrees e e' = true) (nonConstants us) (nonConstants vs)
  exact_left : ∀ x ∈ constants us, x.isExact = true
  exact_right : ∀ x ∈ constants vs, x.isExact = true
  total : Number.total (· + ·) 0 (constants us) = Number.total (· + ·) 0 (constants vs)

namespace SumsAlike

variable {us vs us' vs' : List Expr}

/-- Exact numbers with one total. -/
theorem numbers (xs ys : List Number) (hxs : ∀ x ∈ xs, x.isExact = true)
    (hys : ∀ y ∈ ys, y.isExact = true)
    (htotal : Number.total (· + ·) 0 xs = Number.total (· + ·) 0 ys) :
    SumsAlike (xs.map .const) (ys.map .const) where
  rest := by
    rw [nonConstants_map_const, nonConstants_map_const]
    exact .nil
  exact_left := by rwa [constants_map_const]
  exact_right := by rwa [constants_map_const]
  total := by rwa [constants_map_const, constants_map_const]

/-- A single term that agrees with another. -/
theorem term {e e' : Expr} (he : e.isConst = false) (he' : e'.isConst = false)
    (h : agrees e e' = true) : SumsAlike [e] [e'] := by
  have hconstants : ∀ {u : Expr}, u.isConst = false → constants [u] = [] := fun hu =>
    constants_of_isConst_eq_false (List.forall_mem_singleton.mpr hu)
  have hrest : ∀ {u : Expr}, u.isConst = false → nonConstants [u] = [u] := fun hu =>
    nonConstants_of_isConst_eq_false (List.forall_mem_singleton.mpr hu)
  refine ⟨?_, ?_, ?_, ?_⟩
  · rw [hrest he, hrest he']
    exact .cons h .nil
  · simp [hconstants he]
  · simp [hconstants he']
  · rw [hconstants he, hconstants he']

/-- Parts of sums that are alike make sums that are alike. -/
theorem append (h : SumsAlike us vs) (h' : SumsAlike us' vs') :
    SumsAlike (us ++ us') (vs ++ vs') where
  rest := by
    rw [nonConstants_append, nonConstants_append]
    exact List.rel_append h.rest h'.rest
  exact_left := by
    rw [constants_append]
    exact List.forall_mem_append.mpr ⟨h.exact_left, h'.exact_left⟩
  exact_right := by
    rw [constants_append]
    exact List.forall_mem_append.mpr ⟨h.exact_right, h'.exact_right⟩
  total := by
    rw [constants_append, constants_append, Number.exactFold_sum.total_append,
      Number.exactFold_sum.total_append, h.total, h'.total]

/-- Sums of nothing are alike. -/
theorem nil : SumsAlike [] [] := .numbers [] [] (by simp) (by simp) rfl

/-- A zero in the first list does not count. -/
theorem concat_zero (h : SumsAlike us vs) {x : Number} (hx : x.isExact = true)
    (hzero : x.exactValue = 0) : SumsAlike (us ++ [.const x]) vs := by
  have hnumber : SumsAlike [.const x] [] := by
    refine .numbers [x] [] (by simpa) (by simp) ?_
    rw [Number.exactFold_sum.total_singleton, hzero]
    rfl
  simpa using h.append hnumber

/-- Nor does one in the second. -/
theorem zero_cons (h : SumsAlike us vs) {y : Number} (hy : y.isExact = true)
    (hzero : y.exactValue = 0) : SumsAlike us (.const y :: vs) := by
  have hnumber : SumsAlike [] [.const y] := by
    refine .numbers [] [y] (by simp) (by simpa) ?_
    rw [Number.exactFold_sum.total_singleton, hzero]
    rfl
  exact hnumber.append h

/-- Such sums have results, and these agree. -/
theorem combineSum (h : SumsAlike us vs) :
    ∃ r r', combineSum us = .ok r ∧ combineSum vs = .ok r' ∧ agrees r r' = true := by
  obtain ⟨x, hx, hxe, hxv, -⟩ := Number.exactFold_sum.fold_of_isExact h.exact_left
  obtain ⟨y, hy, hye, hyv, -⟩ := Number.exactFold_sum.fold_of_isExact h.exact_right
  have hvalue : x.exactValue = y.exactValue := by rw [hxv, hyv, h.total]
  have hzero := Number.isZero_congr hxe hye hvalue
  refine ⟨_, _, combineSum_eq_ok_iff.mpr ⟨x, hx, rfl⟩, combineSum_eq_ok_iff.mpr ⟨y, hy, rfl⟩, ?_⟩
  rw [hzero]
  exact agrees_assemble (fun _ _ => by rw [agrees]) h.rest
    ((Number.beq_iff_of_isExact hxe hye).mpr hvalue) _

end SumsAlike

/-- A single term is its own sum, unless it is an infinity. -/
theorem combineSum_singleton (hm : ∀ x, m = .const x → x.isFinite = true) :
    combineSum [m] = .ok m := by
  rw [combineSum_eq_ok_iff]
  cases hc : m.isConst with
  | true =>
    obtain ⟨x, rfl⟩ := isConst_eq_true_iff.mp hc
    exact ⟨x, Number.sum_singleton (hm x rfl), rfl⟩
  | false =>
    have hconst : ∀ e ∈ [m], e.isConst = false := List.forall_mem_singleton.mpr hc
    rw [constants_of_isConst_eq_false hconst, nonConstants_of_isConst_eq_false hconst]
    exact ⟨.zero, rfl, rfl⟩

/-! ## monomials -/

/-- The power `v ^ (n + 1)`. -/
def power (v : Variable) : Nat → Expr
  | 0 => .var v
  | n + 1 => .pow (.var v) (ofInt ↑(n + 2))

/-- The power `v ^ n` as a list of factors, none for `v ^ 0`. -/
def powers (v : Variable) : Nat → List Expr
  | 0 => []
  | n + 1 => [power v n]

/-- The product of `v ^ n` and `c`, simplified. -/
def monomial (v : Variable) (n : Nat) (c : Number) : Expr :=
  if c.isZero then .const c else assemble .mul (powers v n) c c.isOne

/-- The monomials of a polynomial, from the highest power down to the constant term. -/
def monomials (v : Variable) : List Number → List Expr
  | [] => []
  | c :: cs => monomial v cs.length c :: monomials v cs

section monomials

variable {n : Nat} {c x y : Number} {cs : List Number}

/-- A power of the variable is no constant node. -/
theorem isConst_power (v : Variable) (n : Nat) : (power v n).isConst = false := by
  cases n <;> rfl

/-- A power of the variable is no product. -/
theorem isProduct_power (v : Variable) (n : Nat) : (power v n).isProduct = false := by
  cases n <;> rfl

/-- A power of the variable is no sum. -/
theorem isSum_power (v : Variable) (n : Nat) : (power v n).isSum = false := by
  cases n <;> rfl

/-- A power of the variable depends on it. -/
theorem isConstant_power (v : Variable) (n : Nat) : (power v n).isConstant v = false := by
  cases n <;> simp [power, isConstant]

/-- A power of the variable with a coefficient depends on it. -/
theorem isConstant_scaled (v : Variable) (n : Nat) (c : Number) :
    (Expr.mul [power v n, .const c]).isConstant v = false := by
  simp [isConstant, allConstant, isConstant_power]

/-- A power agrees with itself. -/
theorem agrees_power (v : Variable) (n : Nat) : agrees (power v n) (power v n) = true := by
  cases n with
  | zero => simp [power, agrees]
  | succ n =>
    have hself : ∀ m : Int, (Number.integer m == .integer m) = true := fun m =>
      (Number.beq_iff_of_isExact rfl rfl).mpr rfl
    simp [power, agrees, hself]

/-- The monomial of degree zero is its coefficient. -/
theorem monomial_zero (v : Variable) (c : Number) : monomial v 0 c = .const c := by
  cases hc : c.isZero <;> simp [monomial, powers, assemble, hc]

/-- A monomial with the coefficient zero is this zero. -/
theorem monomial_of_isZero (n : Nat) (hc : c.isZero = true) : monomial v n c = .const c := by
  rw [monomial, hc]
  rfl

/-- Every other monomial is the power with its coefficient, which is left out as a one. -/
theorem monomial_succ (hc : c.isZero = false) :
    monomial v (n + 1) c = assemble .mul [power v n] c c.isOne := by
  rw [monomial, hc]
  rfl

/-- A monomial that depends on the variable is no constant node. -/
theorem isConst_monomial (hc : c.isZero = false) : (monomial v (n + 1) c).isConst = false := by
  rw [monomial_succ hc, assemble]
  split
  · exact isConst_power v n
  · rfl

/-- A monomial is its coefficient, or a power of the variable, or the product of both. -/
theorem monomial_cases (v : Variable) (n : Nat) (c : Number) :
    monomial v n c = .const c ∨
      ∃ m, monomial v n c = power v m ∨ monomial v n c = .mul [power v m, .const c] := by
  cases n with
  | zero => exact .inl (monomial_zero v c)
  | succ n =>
    cases hc : c.isZero with
    | true => exact .inl (monomial_of_isZero _ hc)
    | false =>
      rw [monomial_succ hc, assemble]
      split
      · exact .inr ⟨n, .inl rfl⟩
      · exact .inr ⟨n, .inr rfl⟩

/-- No monomial is a sum. -/
theorem isSum_monomial (v : Variable) (n : Nat) (c : Number) : (monomial v n c).isSum = false := by
  rcases monomial_cases v n c with h | ⟨m, h | h⟩
  · rw [h]; rfl
  · rw [h]; exact isSum_power v m
  · rw [h]; rfl

/-- A monomial that is no constant depends on the variable. -/
theorem isConstant_monomial (h : (monomial v n c).isConst = false) :
    (monomial v n c).isConstant v = false := by
  rcases monomial_cases v n c with hm | ⟨m, hm | hm⟩
  · rw [hm] at h; cases h
  · rw [hm]; exact isConstant_power v m
  · rw [hm]; exact isConstant_scaled v m c

/-- The monomials of a polynomial that are no constant nodes depend on the variable. -/
theorem isConstant_of_mem_monomials {m : Expr} (hm : m ∈ nonConstants (monomials v cs)) :
    m.isConstant v = false := by
  obtain ⟨hmem, hconst⟩ := mem_nonConstants.mp hm
  clear hm
  induction cs with
  | nil => cases hmem
  | cons c cs ih =>
    rcases List.mem_cons.mp hmem with rfl | hmem
    · exact isConstant_monomial hconst
    · exact ih hmem

/-- Monomials depend on the value of the coefficient only. -/
theorem sumsAlike_monomial (v : Variable) (n : Nat) (hx : x.isExact = true)
    (hy : y.isExact = true) (hxy : x.exactValue = y.exactValue) :
    SumsAlike [monomial v n x] [monomial v n y] := by
  have hconst : SumsAlike [.const x] [.const y] := by
    refine .numbers [x] [y] (by simpa) (by simpa) ?_
    rw [Number.exactFold_sum.total_singleton, Number.exactFold_sum.total_singleton, hxy]
  have hzero := Number.isZero_congr hx hy hxy
  have hone := Number.isOne_congr hx hy hxy
  cases n with
  | zero => rwa [monomial_zero, monomial_zero]
  | succ n =>
    cases hyzero : y.isZero with
    | true => rwa [monomial_of_isZero _ (hzero.trans hyzero), monomial_of_isZero _ hyzero]
    | false =>
      have hxzero := hzero.trans hyzero
      refine .term (isConst_monomial hxzero) (isConst_monomial hyzero) ?_
      rw [monomial_succ hxzero, monomial_succ hyzero, hone]
      exact agrees_assemble (fun _ _ => by rw [agrees]) (.cons (agrees_power v n) .nil)
        ((Number.beq_iff_of_isExact hx hy).mpr hxy) _

/-- The monomials of a polynomial are like themselves. -/
theorem sumsAlike_monomials (hcs : ∀ c ∈ cs, c.isExact = true) :
    SumsAlike (monomials v cs) (monomials v cs) := by
  induction cs with
  | nil => exact .nil
  | cons c cs ih =>
    rw [List.forall_mem_cons] at hcs
    exact (sumsAlike_monomial v cs.length hcs.1 hcs.1 rfl).append (ih hcs.2)

/-- No term of a polynomial is a sum. -/
theorem isSum_of_mem_terms {t : Expr} (ht : t ∈ polynomial.terms v cs) : t.isSum = false := by
  induction cs with
  | nil => cases ht
  | cons c cs ih =>
    rcases List.mem_cons.mp ht with rfl | ht
    · split <;> rfl
    · exact ih ht

/-- No monomial of a polynomial is a sum. -/
theorem isSum_of_mem_monomials {m : Expr} (hm : m ∈ monomials v cs) : m.isSum = false := by
  induction cs with
  | nil => cases hm
  | cons c cs ih =>
    rcases List.mem_cons.mp hm with rfl | hm
    · exact isSum_monomial v cs.length c
    · exact ih hm

/-! ### simplified -/

variable [Elementary]

/-- A power of `v` to an integer above zero. -/
theorem simplifiesTo_power {p : Expr} (hp : exponent? p = some ↑(n + 1)) :
    SimplifiesTo solve (.pow (.var v) p) (power v n) := by
  have hvar : SimplifiesTo solve (.var v) (.var v) := rfl
  have hexponent : SimplifiesTo solve p (ofInt ↑(n + 1)) := simplifyWith_of_exponent? hp
  rw [SimplifiesTo, simplifyWith, hvar.bind, hexponent.bind, Logged.result_numeric_eq_ok,
    foldPow_ofInt rfl]
  cases n with
  | zero => rfl
  | succ n => rw [if_neg (by omega)]; rfl

/-- Factors that leave a power of `v` and constants make a monomial. -/
theorem simplifiesTo_monomial {fs rs : List Expr} (h : List.Forall₂ (SimplifiesTo solve) fs rs)
    (hrest : nonConstants rs = powers v n) (hzero : ∀ x ∈ constants rs, x.isZero = false)
    (hc : Number.product (constants rs) = .ok c) :
    SimplifiesTo solve (.mul fs) (monomial v n c) := by
  have hflat : ∀ r ∈ rs, r.isProduct = false := by
    intro r hr
    cases hconst : r.isConst with
    | true =>
      obtain ⟨x, rfl⟩ := isConst_eq_true_iff.mp hconst
      rfl
    | false =>
      have hmem : r ∈ powers v n := hrest ▸ mem_nonConstants.mpr ⟨hr, hconst⟩
      cases n with
      | zero => cases hmem
      | succ n => exact List.mem_singleton.mp hmem ▸ isProduct_power v n
  have hgather : Factors.gather rs = .all rs := by
    simpa [Factors.gather, Factors.prepend] using
      Factors.gather_append hflat (fun x hx => hzero x (mem_constants.mpr hx)) []
  rw [SimplifiesTo, simplifyWith_mul_of_factors (simplifyFactors_of_forall₂ h), hgather,
    Logged.result_numeric_eq_ok]
  exact combineProduct_eq_ok_iff.mpr ⟨c, hc, by rw [hrest]; rfl⟩

/-- A power of the variable is simplified. -/
theorem simplifiesTo_power_self (n : Nat) : SimplifiesTo solve (power v n) (power v n) := by
  cases n with
  | zero => rfl
  | succ n => exact simplifiesTo_power (exponent?_ofInt _)

/-- The monomial with its coefficient in front simplifies to the one with it at the end. -/
theorem simplifiesTo_scaled (n : Nat) (hc : c.isExact = true) :
    SimplifiesTo solve (.mul [.const c, power v n]) (monomial v (n + 1) c) := by
  have hself : SimplifiesTo solve (.const c) (.const c) := rfl
  cases hzero : c.isZero with
  | true =>
    rw [monomial_of_isZero _ hzero]
    exact simplifyWith_mul_of_factors (simplifyFactors_cons_of_isZero hself hzero)
  | false =>
    have hconstants : constants [.const c, power v n] = [c] := by cases n <;> rfl
    apply simplifiesTo_monomial (.cons hself (.cons (simplifiesTo_power_self n) .nil))
    · cases n <;> rfl
    · simpa [hconstants]
    · rw [hconstants]
      exact Number.product_singleton (Number.isFinite_of_isExact hc)

/-- The terms a polynomial is built from simplify to its monomials. -/
theorem simplifiesTo_terms (hcs : ∀ c ∈ cs, c.isExact = true) :
    List.Forall₂ (SimplifiesTo solve) (polynomial.terms v cs) (monomials v cs) := by
  induction cs with
  | nil => exact .nil
  | cons c cs ih =>
    rw [List.forall_mem_cons] at hcs
    rw [polynomial.terms, monomials]
    refine .cons ?_ (ih hcs.2)
    generalize cs.length = n
    rcases n with _ | _ | n
    · rw [monomial_zero]
      rfl
    · exact simplifiesTo_scaled 0 hcs.1
    · exact simplifiesTo_scaled (n + 1) hcs.1

/-- The polynomial is the combined sum of its monomials. -/
theorem result_polynomial (hcs : ∀ c ∈ cs, c.isExact = true) :
    (polynomial v cs).result = (Logged.numeric (combineSum (monomials v cs))).result := by
  rw [polynomial, sum, flatMap_addends_of_flat fun _ => isSum_of_mem_terms, simplifyWith,
    Logged.result_bind, simplifyTerms_of_forall₂ (simplifiesTo_terms hcs),
    flatMap_addends_of_flat fun _ => isSum_of_mem_monomials]
  rfl

end monomials

/-! ## derived coefficients -/

/-- The coefficients of the derivative of a polynomial. -/
def derivedCoefficients : List Number → Except NumericError (List Number)
  | [] => .ok []
  | [_] => .ok []
  | c :: c' :: cs => do
    let d ← Number.product [.integer ↑(cs.length + 1), c]
    let ds ← derivedCoefficients (c' :: cs)
    .ok (d :: ds)

/-- The coefficient in front is multiplied by its degree, the number of those after it. -/
theorem derivedCoefficients_cons {c c' d : Number} {cs ds : List Number}
    (hd : Number.product [.integer ↑(cs.length + 1), c] = .ok d)
    (hds : derivedCoefficients (c' :: cs) = .ok ds) :
    derivedCoefficients (c :: c' :: cs) = .ok (d :: ds) := by
  rw [derivedCoefficients, hd, hds]
  rfl

/-- A degree times an exact coefficient is exact. -/
theorem exists_derived_coefficient {c : Number} (n : Nat) (hc : c.isExact = true) :
    ∃ d, Number.product [.integer ↑(n + 1), c] = .ok d ∧ d.isExact = true ∧
      d.exactValue = (n + 1) * c.exactValue := by
  have hexact : ∀ x ∈ [Number.integer ↑(n + 1), c], x.isExact = true :=
    List.forall_mem_cons.mpr ⟨rfl, List.forall_mem_singleton.mpr hc⟩
  obtain ⟨d, hd, hde, hdv, -⟩ := Number.exactFold_product.fold_of_isExact hexact
  refine ⟨d, hd, hde, ?_⟩
  rw [hdv]
  simp [Number.total, Number.exactValue]

/-! ## lowered monomials -/

section

variable [Elementary]

/-- The derivative of `v ^ (n + 1)` by the power rule. -/
def powerSlope (v : Variable) : Nat → Expr
  | 0 => one
  | n + 1 => product [ofInt ↑(n + 2), lowerPower (.var v) (ofInt ↑(n + 2)), one]

/-- The derivative of a power of the variable follows the rules to `powerSlope`. -/
theorem derives_power (n : Nat) : Derives solve v (power v n) (powerSlope v n) := by
  cases n with
  | zero => exact .var
  | succ n => exact .pow_base (isConstant_power v (n + 1)) rfl rfl (isConstant_power v 0) rfl .var

/-- The slope simplifies to the power below and numbers that come to the exponent. -/
theorem exists_factors_powerSlope (solve : GoalSolver) (v : Variable) (n : Nat) :
    ∃ rs, List.Forall₂ (SimplifiesTo solve) (factorsOf (powerSlope v n)) rs ∧
      nonConstants rs = powers v n ∧
      (∀ x ∈ constants rs, x.isExact = true ∧ x.isZero = false) ∧
      Number.total (· * ·) 1 (constants rs) = n + 1 := by
  have hself : ∀ x : Number, SimplifiesTo solve (.const x) (.const x) := fun _ => rfl
  cases n with
  | zero =>
    refine ⟨[one], .cons (hself _) .nil, rfl, ?_, ?_⟩
    · simp [constants, Number.one, Number.isExact, Number.isZero]
    · simp [constants, Number.total, Number.one, Number.exactValue]
  | succ n =>
    have hlower : SimplifiesTo solve (lowerPower (.var v) (ofInt ↑(n + 2))) (power v n) :=
      simplifiesTo_power (by rw [exponent?_sub_one]; congr 1; omega)
    have hconstants : constants [ofInt ↑(n + 2), power v n, one] = [.integer ↑(n + 2), .one] := by
      cases n <;> rfl
    refine ⟨[ofInt ↑(n + 2), power v n, one], .cons (hself _) (.cons hlower (.cons (hself _) .nil)),
      ?_, ?_, ?_⟩
    · cases n <;> rfl
    · have hne : (n : Int) + 2 ≠ 0 := by omega
      rw [hconstants]
      simp [Number.one, Number.isExact, Number.isZero, hne]
    · have hsplit : (n : Rat) + 2 = n + 1 + 1 := by ring
      rw [hconstants]
      simpa [Number.total, Number.one, Number.exactValue] using hsplit

/-- Multiplied by numbers, the slope is the monomial below, with their product times
the exponent. -/
theorem exists_scaled_powerSlope (solve : GoalSolver) (v : Variable) (n : Nat) {cs : List Number}
    (hcs : ∀ c ∈ cs, c.isExact = true ∧ c.isZero = false) :
    ∃ k, k.isExact = true ∧ k.exactValue = (n + 1) * Number.total (· * ·) 1 cs ∧
      SimplifiesTo solve (.mul (factorsOf (powerSlope v n) ++ cs.map .const)) (monomial v n k) := by
  obtain ⟨rs, hrs, hrest, hnumbers, htotal⟩ := exists_factors_powerSlope solve v n
  have hself : List.Forall₂ (SimplifiesTo solve) (cs.map .const) (cs.map .const) :=
    List.forall₂_same.mpr fun e he => by
      obtain ⟨c, -, rfl⟩ := List.mem_map.mp he
      rfl
  have hconstants : constants (rs ++ cs.map .const) = constants rs ++ cs := by
    rw [constants_append, constants_map_const]
  have hall : ∀ x ∈ constants (rs ++ cs.map .const), x.isExact = true ∧ x.isZero = false := by
    rw [hconstants]
    exact List.forall_mem_append.mpr ⟨hnumbers, hcs⟩
  obtain ⟨k, hk, hke, hkv, -⟩ := Number.exactFold_product.fold_of_isExact fun x hx => (hall x hx).1
  refine ⟨k, hke, ?_, simplifiesTo_monomial (List.rel_append hrs hself) ?_
    (fun x hx => (hall x hx).2) hk⟩
  · rw [hkv, hconstants, Number.exactFold_product.total_append, htotal]
  · rw [nonConstants_append, hrest, nonConstants_map_const, List.append_nil]

/-- In a sum, the derivative of `t` is one term, which simplifies to `m`. -/
structure LowersTo (solve : GoalSolver) (v : Variable) (t m : Expr) : Prop where
  derives : ∃ d, Derives solve v t d ∧ List.Forall₂ (SimplifiesTo solve) (addends d) [m]
  flat : m.isSum = false

/-- Constants are lowered to zero. -/
theorem lowersTo_const (x : Number) : LowersTo solve v (.const x) zero :=
  ⟨⟨zero, .constant rfl, .cons rfl .nil⟩, rfl⟩

/-- A power is lowered to what its derivative simplifies to. -/
theorem lowersTo_power {n : Nat} {k : Number}
    (h : SimplifiesTo solve (.mul (factorsOf (powerSlope v n))) (monomial v n k)) :
    LowersTo solve v (power v n) (monomial v n k) := by
  refine ⟨⟨powerSlope v n, derives_power n, ?_⟩, isSum_monomial v n k⟩
  cases n with
  | zero =>
    -- the slope of the variable is a number and no product
    have hone : SimplifiesTo solve (.mul [one]) one := rfl
    rw [h.unique hone]
    exact .cons rfl .nil
  | succ n => exact .cons h .nil

/-- A power with a coefficient is lowered to what its derivative with this factor
simplifies to. -/
theorem lowersTo_scaled {n : Nat} {c k : Number}
    (h : SimplifiesTo solve (.mul (factorsOf (powerSlope v n) ++ [.const c])) (monomial v n k)) :
    LowersTo solve v (.mul [power v n, .const c]) (monomial v n k) := by
  have hderives : Derives solve v (.mul [power v n, .const c])
      (sum [product [powerSlope v n, .const c]]) :=
    .mul (isConstant_scaled v n c)
      (.cons (isConstant_power v n) (derives_power n) (.skip rfl .nil))
  exact ⟨⟨_, hderives, .cons h .nil⟩, isSum_monomial v n k⟩

/-- **A monomial is lowered** to the power below, times the exponent. -/
theorem exists_lowersTo (solve : GoalSolver) (v : Variable) {c : Number} (n : Nat)
    (hc : c.isExact = true) (hzero : c.isZero = false) :
    ∃ k, k.isExact = true ∧ k.exactValue = (n + 1) * c.exactValue ∧
      LowersTo solve v (monomial v (n + 1) c) (monomial v n k) := by
  rw [monomial_succ hzero]
  cases hone : c.isOne with
  | true =>
    obtain ⟨k, hke, hkv, hslope⟩ := exists_scaled_powerSlope solve v n (List.forall_mem_nil _)
    have hvalue : c.exactValue = 1 := (Number.isOne_iff_of_isExact hc).mp hone
    rw [List.map_nil, List.append_nil] at hslope
    exact ⟨k, hke, by rw [hkv, hvalue]; rfl, lowersTo_power hslope⟩
  | false =>
    obtain ⟨k, hke, hkv, hslope⟩ := exists_scaled_powerSlope solve v n
      (List.forall_mem_singleton.mpr ⟨hc, hzero⟩)
    rw [Number.exactFold_product.total_singleton] at hkv
    exact ⟨k, hke, hkv, lowersTo_scaled hslope⟩

/-! ## derivatives of sums -/

section sums

variable {ts L R : List Expr} {t m : Expr}

/-- The simplified derivative of a single term is its lowered monomial. -/
theorem LowersTo.derivativeWith (h : LowersTo solve v t m)
    (hm : ∀ x, m = .const x → x.isFinite = true) :
    (derivativeWith solve v t).result = (Logged.numeric (combineSum [m])).result := by
  obtain ⟨⟨d, hd, hsimplify⟩, hflat⟩ := h
  rw [derivativeWith_of_derive_eq_ok (derive_of_derives hd)]
  cases hsum : d.isSum with
  | false =>
    rw [addends_of_isSum_eq_false hsum] at hsimplify
    rw [combineSum_singleton hm]
    cases hsimplify with
    | cons hd _ => exact hd
  | true =>
    cases d with
    | add ds =>
      have hsimplify : List.Forall₂ (SimplifiesTo solve) ds [m] := hsimplify
      rw [simplifyWith, Logged.result_bind, simplifyTerms_of_forall₂ hsimplify,
        flatMap_addends_of_flat (List.forall_mem_singleton.mpr hflat)]
      rfl
    | _ => cases hsum

/-- Terms that can be lowered have derivatives that simplify to the lowered monomials. -/
theorem exists_derivesTerms (h : List.Forall₂ (LowersTo solve v) ts L) :
    ∃ ds, DerivesTerms solve v ts ds ∧
      List.Forall₂ (SimplifiesTo solve) (ds.flatMap addends) L := by
  induction h with
  | nil => exact ⟨[], .nil, .nil⟩
  | cons ht _ ih =>
    obtain ⟨d, hd, hsimplify⟩ := ht.derives
    obtain ⟨ds, hds, hall⟩ := ih
    exact ⟨d :: ds, .cons hd hds, List.rel_append hsimplify hall⟩

/-- A sum is differentiated term by term. -/
theorem derivativeWith_add (h : List.Forall₂ (LowersTo solve v) ts L)
    (hdepends : (Expr.add ts).isConstant v = false) :
    (derivativeWith solve v (.add ts)).result = (Logged.numeric (combineSum L)).result := by
  obtain ⟨ds, hds, hsimplify⟩ := exists_derivesTerms h
  have hflat : ∀ m ∈ L, m.isSum = false := by
    clear hsimplify hds hdepends
    induction h with
    | nil => simp
    | cons ht _ ih => exact List.forall_mem_cons.mpr ⟨ht.flat, ih⟩
  rw [derivativeWith_of_derive_eq_ok (derive_of_derives (.add hdepends hds)), sum, simplifyWith,
    Logged.result_bind, simplifyTerms_of_forall₂ hsimplify, flatMap_addends_of_flat hflat]
  rfl

/-- A constant beside the terms leaves a zero, at most. -/
theorem exists_derivativeWith_assemble (h : List.Forall₂ (LowersTo solve v) ts L)
    (hdepends : ∀ t ∈ ts, t.isConstant v = false) (hL : SumsAlike L R) (s : Number)
    (neutral : Bool) :
    ∃ L', SumsAlike L' R ∧ (derivativeWith solve v (assemble .add ts s neutral)).result =
      (Logged.numeric (combineSum L')).result := by
  cases h with
  | nil =>
    have hderives : Derives solve v (.const s) zero := .constant rfl
    exact ⟨[], hL, derivativeWith_of_derive_eq_ok (derive_of_derives hderives)⟩
  | @cons t m ts L ht hts =>
    have hall := List.Forall₂.cons ht hts
    have hconstant : ∀ us, (Expr.add (t :: us)).isConstant v = false := fun us => by
      rw [isConstant, allConstant, hdepends t List.mem_cons_self]
      rfl
    cases neutral with
    | true =>
      refine ⟨m :: L, hL, ?_⟩
      cases hts with
      | nil =>
        refine ht.derivativeWith fun x hx => Number.isFinite_of_isExact (hL.exact_left x ?_)
        rw [hx]
        exact List.mem_cons_self
      | cons ht' hts => exact derivativeWith_add hall (hconstant _)
    | false =>
      refine ⟨m :: L ++ [zero], hL.concat_zero rfl (by simp [Number.zero, Number.exactValue]), ?_⟩
      have hnumber : List.Forall₂ (LowersTo solve v) [.const s] [zero] :=
        .cons (lowersTo_const s) .nil
      exact derivativeWith_add (List.rel_append hall hnumber) (hconstant _)

end sums

/-! ## polynomials -/

/-- The monomials of a polynomial are lowered to those of the derived coefficients. -/
theorem exists_lowersTo_monomials {cs : List Number} (hcs : ∀ c ∈ cs, c.isExact = true) :
    ∃ ds L, derivedCoefficients cs = .ok ds ∧ ds.length = cs.length - 1 ∧
      (∀ d ∈ ds, d.isExact = true) ∧
      List.Forall₂ (LowersTo solve v) (nonConstants (monomials v cs)) L ∧
      SumsAlike L (monomials v ds) := by
  induction cs using derivedCoefficients.induct with
  | case1 => exact ⟨[], [], rfl, rfl, by simp, .nil, .nil⟩
  | case2 c =>
    have hrest : nonConstants (monomials v [c]) = [] := by
      rw [monomials, List.length_nil, monomial_zero]
      rfl
    rw [hrest]
    exact ⟨[], [], rfl, rfl, by simp, .nil, .nil⟩
  | case3 c c' cs ih =>
    rw [List.forall_mem_cons] at hcs
    obtain ⟨hc, hcs⟩ := hcs
    obtain ⟨ds, L, hds, hlength, hdse, hL, halike⟩ := ih hcs
    obtain ⟨d, hd, hde, hvalue⟩ := exists_derived_coefficient cs.length hc
    have hmonomials : monomials v (d :: ds) = [monomial v cs.length d] ++ monomials v ds := by
      rw [monomials, hlength]
      rfl
    have hrest : nonConstants (monomials v (c :: c' :: cs)) =
        nonConstants [monomial v (cs.length + 1) c] ++ nonConstants (monomials v (c' :: cs)) :=
      nonConstants_append [monomial v (cs.length + 1) c] _
    rw [hrest]
    cases hzero : c.isZero with
    | true =>
      refine ⟨d :: ds, L, derivedCoefficients_cons hd hds, by simp [hlength],
        List.forall_mem_cons.mpr ⟨hde, hdse⟩, ?_, ?_⟩
      · rw [monomial_of_isZero _ hzero]
        exact hL
      · have hdzero : d.exactValue = 0 := by
          rw [hvalue, (Number.isZero_iff_of_isExact hc).mp hzero, mul_zero]
        rw [hmonomials, monomial_of_isZero _ ((Number.isZero_iff_of_isExact hde).mpr hdzero)]
        exact halike.zero_cons hde hdzero
    | false =>
      obtain ⟨k, hke, hkv, hlowers⟩ := exists_lowersTo solve v cs.length hc hzero
      refine ⟨d :: ds, monomial v cs.length k :: L, derivedCoefficients_cons hd hds,
        by simp [hlength], List.forall_mem_cons.mpr ⟨hde, hdse⟩, ?_, ?_⟩
      · have hconst : ∀ m ∈ [monomial v (cs.length + 1) c], m.isConst = false :=
          List.forall_mem_singleton.mpr (isConst_monomial hzero)
        rw [nonConstants_of_isConst_eq_false hconst]
        exact .cons hlowers hL
      · rw [hmonomials]
        exact (sumsAlike_monomial v cs.length hke hde (hkv.trans hvalue.symm)).append halike

/-- **The derivative of a polynomial is the polynomial of the derived coefficients**,
whatever exact numbers the coefficients are: a zero or a one among them or among the
derived ones is dropped from both trees alike. -/
theorem derivative_polynomial (catalogue : Catalogue) (v : Variable) {cs : List Number}
    (hcs : ∀ c ∈ cs, c.isExact = true) :
    ∃ p p' ds q, (polynomial v cs).result = .ok p ∧ (p.derivative catalogue v).result = .ok p' ∧
      derivedCoefficients cs = .ok ds ∧ (polynomial v ds).result = .ok q ∧ (p' == q) = true := by
  obtain ⟨p, -, hp, -, -⟩ := (sumsAlike_monomials (v := v) hcs).combineSum
  have hpolynomial := (result_polynomial hcs).trans (Logged.result_numeric_eq_ok.mpr hp)
  obtain ⟨s, -, rfl⟩ := combineSum_eq_ok_iff.mp hp
  obtain ⟨ds, L, hds, -, hdse, hL, halike⟩ := exists_lowersTo_monomials hcs
  obtain ⟨L', halike', hderivative⟩ := exists_derivativeWith_assemble hL
    (fun _ => isConstant_of_mem_monomials) halike s s.isZero
  obtain ⟨p', q, hp', hq, hagrees⟩ := halike'.combineSum
  exact ⟨_, p', ds, q, hpolynomial, hderivative.trans (Logged.result_numeric_eq_ok.mpr hp'), hds,
    (result_polynomial hdse).trans (Logged.result_numeric_eq_ok.mpr hq), hagrees⟩

end

/-- The derivative of `x^2 * 1/2 + 5` is `x`. -/
theorem derivative_polynomial_half :
    let x : Variable := ⟨"x"⟩
    let cs := [Number.rational (1 / 2), .integer 0, .integer 5]
    let p := Expr.add [.mul [.pow (.var x) (ofInt 2), .const (.rational (1 / 2))], ofInt 5]
    (∀ c ∈ cs, c.isExact = true) ∧ (polynomial x cs).result = .ok p ∧
      ∃ p', (p.derivative .empty x).result = .ok p' ∧ (p' == .var x) = true := by
  intro x cs p
  have hexact : ∀ c ∈ cs, c.isExact = true := by simp [cs, Number.isExact]
  have hpolynomial : (polynomial x cs).result = .ok p := by with_unfolding_all rfl
  have hderived : derivedCoefficients cs = .ok [.rational 1, .integer 0] := by
    with_unfolding_all rfl
  have hx : (polynomial x [.rational 1, .integer 0]).result = .ok (.var x) := by
    with_unfolding_all rfl
  obtain ⟨_, p', _, _, hp, hp', hds, hq, heq⟩ := derivative_polynomial .empty x hexact
  cases hpolynomial.symm.trans hp
  cases hderived.symm.trans hds
  cases hx.symm.trans hq
  exact ⟨hexact, hpolynomial, p', hp', heq⟩

end SymCalc.Expr
