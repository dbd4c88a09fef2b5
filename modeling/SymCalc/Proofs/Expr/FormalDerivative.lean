import SymCalc.Proofs.Expr.RationalFunction
import SymCalc.Real256.Series

/-!
# SymCalc.Proofs.Expr.FormalDerivative

Derivatives of rational expressions evaluate to exact formal derivatives.

1. `DefinedAt a e` says that no inverted subtree is zero at the point `a`;
2. `SlopeAt a v e s` says that `s` is the slope there of the rational function `e`
   denotes, with one rule for each node; `FormalSlope a v e d` says that the tree
   `d` stays exact and has this slope as its value;
3. a derivative is put together from these rules (`formalSlope_of_derives`), and
   the simplified derivative has the same value.

Main statement: `evaluate_derivative_eq_formal`.
-/

namespace SymCalc.Expr

open RationalFunction (HasSlope)

/-- No inverted subtree is zero at the point. -/
def DefinedAt (a : Variable → Rat) (e : Expr) : Prop :=
  ∀ f, Subtree (.inv f) e → fieldValue a f ≠ 0

variable {a : Variable → Rat} {v : Variable}

/-! ## where a tree is defined -/

/-- A tree is defined where its parts are and it does not divide by zero. -/
theorem definedAt_iff_children {e : Expr} :
    DefinedAt a e ↔
      (∀ f, e = .inv f → fieldValue a f ≠ 0) ∧ ∀ c ∈ children e, DefinedAt a c := by
  constructor
  · intro h
    refine ⟨?_, fun c hc f hf => h f (.child hc hf)⟩
    rintro f rfl
    exact h f (.refl _)
  · rintro ⟨hself, hchildren⟩ f hf
    cases hf with
    | refl => exact hself f rfl
    | child hc hf => exact hchildren _ hc f hf

@[simp] theorem definedAt_var (w : Variable) : DefinedAt a (.var w) := by
  rw [definedAt_iff_children]
  simp [children, operands]

@[simp] theorem definedAt_const (x : Number) : DefinedAt a (.const x) := by
  rw [definedAt_iff_children]
  simp [children, operands]

@[simp] theorem definedAt_add {es : List Expr} :
    DefinedAt a (.add es) ↔ ∀ e ∈ es, DefinedAt a e := by
  rw [definedAt_iff_children]
  simp [children, operands]

@[simp] theorem definedAt_mul {es : List Expr} :
    DefinedAt a (.mul es) ↔ ∀ e ∈ es, DefinedAt a e := by
  rw [definedAt_iff_children]
  simp [children, operands]

@[simp] theorem definedAt_neg {e : Expr} : DefinedAt a (.neg e) ↔ DefinedAt a e := by
  rw [definedAt_iff_children]
  simp [children, operands]

@[simp] theorem definedAt_inv {e : Expr} :
    DefinedAt a (.inv e) ↔ fieldValue a e ≠ 0 ∧ DefinedAt a e := by
  rw [definedAt_iff_children]
  simp [children, operands]

@[simp] theorem definedAt_pow {b p : Expr} :
    DefinedAt a (.pow b p) ↔ DefinedAt a b ∧ DefinedAt a p := by
  rw [definedAt_iff_children]
  simp [children, operands]

mutual

/-- Polynomials are defined everywhere. -/
theorem definedAt_of_isPolynomial : (e : Expr) → e.isPolynomial = true → DefinedAt a e
  | .var w, _ => definedAt_var w
  | .const x, _ => definedAt_const x
  | .add terms, h => definedAt_add.mpr (definedAt_of_allPolynomial terms h)
  | .mul factors, h => definedAt_mul.mpr (definedAt_of_allPolynomial factors h)
  | .neg e, h => definedAt_neg.mpr (definedAt_of_isPolynomial e h)
  | .pow b p, h => by
    obtain ⟨hb, n, -, rfl⟩ := isPolynomial_pow_iff.mp h
    exact definedAt_pow.mpr ⟨definedAt_of_isPolynomial b hb, definedAt_const _⟩

/-- The same for the members of a list. -/
theorem definedAt_of_allPolynomial : (es : List Expr) → allPolynomial es = true →
    ∀ e ∈ es, DefinedAt a e
  | [], _ => by simp
  | e :: es, h => by
    obtain ⟨he, hes⟩ := Bool.and_eq_true_iff.mp h
    exact List.forall_mem_cons.mpr
      ⟨definedAt_of_isPolynomial e he, definedAt_of_allPolynomial es hes⟩

end

mutual

/-- Polynomials are rational expressions. -/
theorem isRational_of_isPolynomial : (e : Expr) → e.isPolynomial = true → e.isRational = true
  | .var _, _ => rfl
  | .const _, h => Number.isExact_of_isInteger h
  | .add terms, h => allRational_of_allPolynomial terms h
  | .mul factors, h => allRational_of_allPolynomial factors h
  | .neg e, h => isRational_of_isPolynomial e h
  | .pow _ _, h => h

/-- The same for lists. -/
theorem allRational_of_allPolynomial : (es : List Expr) → allPolynomial es = true →
    allRational es = true
  | [], _ => rfl
  | e :: es, h => by
    obtain ⟨he, hes⟩ := Bool.and_eq_true_iff.mp h
    rw [allRational, isRational_of_isPolynomial e he, allRational_of_allPolynomial es hes]
    rfl

end

/-! ## one rule for each node -/

/-- The value of the tree at the point is that of the rational function it denotes,
whose slope along `v` is `s` there. -/
def SlopeAt (a : Variable → Rat) (v : Variable) (e : Expr) (s : Rat) : Prop :=
  HasSlope a v e.toRationalFunction (fieldValue a e) s

/-- A tree that may stand for another one has its slope. -/
theorem slopeAt_of_keeps {e r : Expr} {s : Rat} (hr : Keeps e r) (h : SlopeAt a v r s) :
    SlopeAt a v e s := by
  rwa [SlopeAt, toRationalFunction, hr.value, hr.value] at h

/-- The variable has the slope one. -/
theorem slopeAt_var_self : SlopeAt a v (.var v) 1 := by
  have h := HasSlope.ofPolynomial (a := a) (v := v) (MvPolynomial.X v)
  rwa [MvPolynomial.eval_X, MvPolynomial.pderiv_X_self, map_one] at h

/-- Other variables have the slope zero. -/
theorem slopeAt_var_of_ne {w : Variable} (h : w ≠ v) : SlopeAt a v (.var w) 0 := by
  have hX := HasSlope.ofPolynomial (a := a) (v := v) (MvPolynomial.X w)
  rwa [MvPolynomial.eval_X, MvPolynomial.pderiv_X_of_ne h, map_zero] at hX

/-- Constants have the slope zero. -/
theorem slopeAt_const (x : Number) : SlopeAt a v (.const x) 0 := .const x.exactValue

/-- The slopes of the terms add up. -/
theorem slopeAt_add {es : List Expr} {ss : List Rat} (h : List.Forall₂ (SlopeAt a v) es ss) :
    SlopeAt a v (.add es) ss.sum := by
  rw [SlopeAt, toRationalFunction, fieldValue_add, fieldValue_add]
  induction h with
  | nil => exact .zero
  | cons he _ ih => exact he.add ih

/-- The slope of an opposite is the opposite. -/
theorem slopeAt_neg {e : Expr} {s : Rat} (h : SlopeAt a v e s) : SlopeAt a v (.neg e) (-s) :=
  HasSlope.neg h

/-- The slope of a reciprocal, where it is defined. -/
theorem slopeAt_inv {e : Expr} {s : Rat} (h : SlopeAt a v e s) (he : fieldValue a e ≠ 0) :
    SlopeAt a v (.inv e) (-(s * fieldValue a e ^ (-2 : Int))) :=
  HasSlope.inv h he

/-- The power rule. -/
theorem slopeAt_pow {b : Expr} {s : Rat} {n : Int} (hn : 0 ≤ n) (h : SlopeAt a v b s) :
    SlopeAt a v (.pow b (ofInt n)) (n * (fieldValue a b ^ (n - 1) * s)) := by
  obtain ⟨k, rfl⟩ := Int.eq_ofNat_of_zero_le hn
  have hpow := HasSlope.pow h k
  rw [← zpow_natCast, ← zpow_natCast] at hpow
  have hslope : (k : Rat) * (fieldValue a b ^ (k - 1) * s) =
      ((k : Int) : Rat) * (fieldValue a b ^ ((k : Int) - 1) * s) := by
    cases k with
    | zero => simp
    | succ k => simp [← zpow_natCast]
  rw [hslope] at hpow
  exact hpow

/-- A product of factors without slope has none. -/
theorem slopeAt_mul_zero {es : List Expr} (h : ∀ e ∈ es, SlopeAt a v e 0) :
    SlopeAt a v (.mul es) 0 := by
  rw [SlopeAt, toRationalFunction, fieldValue_mul, fieldValue_mul]
  induction es with
  | nil => exact .one
  | cons e es ih =>
    rw [List.forall_mem_cons] at h
    have hmul := HasSlope.mul h.1 (ih h.2)
    rwa [zero_mul, mul_zero, add_zero] at hmul

/-- A sum has the slope zero if its terms have. -/
theorem slopeAt_add_zero {es : List Expr} (h : ∀ e ∈ es, SlopeAt a v e 0) :
    SlopeAt a v (.add es) 0 := by
  have hadd := slopeAt_add (List.forall₂_map_right_iff.mpr (List.forall₂_same.mpr h))
  rwa [List.map_const', List.sum_replicate, smul_zero] at hadd

mutual

/-- Where the variable does not occur, the slope is zero. -/
theorem slopeAt_of_isConstant : (e : Expr) → e.isRational = true → DefinedAt a e →
    e.isConstant v = true → SlopeAt a v e 0
  | .var w, _, _, hc => slopeAt_var_of_ne fun hw => by simp [isConstant, hw] at hc
  | .const x, _, _, _ => slopeAt_const x
  | .add terms, he, hdef, hc =>
    slopeAt_add_zero (slopeAt_of_allConstant terms he (definedAt_add.mp hdef) hc)
  | .mul factors, he, hdef, hc =>
    slopeAt_mul_zero (slopeAt_of_allConstant factors he (definedAt_mul.mp hdef) hc)
  | .neg e, he, hdef, hc => by
    have h := slopeAt_of_isConstant e he (definedAt_neg.mp hdef) hc
    simpa using slopeAt_neg h
  | .inv e, he, hdef, hc => by
    obtain ⟨hne, hdef⟩ := definedAt_inv.mp hdef
    have h := slopeAt_of_isConstant e (isRational_of_isPolynomial e he) hdef hc
    simpa using slopeAt_inv h hne
  | .pow b p, he, _, hc => by
    obtain ⟨hb, n, hn, rfl⟩ := isPolynomial_pow_iff.mp he
    have h := slopeAt_of_isConstant b (isRational_of_isPolynomial b hb)
      (definedAt_of_isPolynomial b hb) (Bool.and_eq_true_iff.mp hc).1
    simpa using slopeAt_pow hn h

/-- The same for the members of a list. -/
theorem slopeAt_of_allConstant : (es : List Expr) → allRational es = true →
    (∀ e ∈ es, DefinedAt a e) → allConstant v es = true → ∀ e ∈ es, SlopeAt a v e 0
  | [], _, _, _ => by simp
  | e :: es, he, hdef, hc => by
    obtain ⟨he, hes⟩ := Bool.and_eq_true_iff.mp he
    obtain ⟨hce, hces⟩ := Bool.and_eq_true_iff.mp hc
    rw [List.forall_mem_cons] at hdef ⊢
    exact ⟨slopeAt_of_isConstant e he hdef.1 hce, slopeAt_of_allConstant es hes hdef.2 hces⟩

end

/-! ## derivative trees -/

/-- A sum stays exact if its terms do. -/
theorem staysExact_sum {es : List Expr} (h : ∀ e ∈ es, e.staysExact = true) :
    (sum es).staysExact = true :=
  allStayExact_iff.mpr (List.forall_mem_flatMap.mpr fun e he => (staysExact_addends (h e he)).1)

/-- A product stays exact if its factors do. -/
theorem staysExact_product {es : List Expr} (h : ∀ e ∈ es, e.staysExact = true) :
    (product es).staysExact = true :=
  allStayExact_iff.mpr (List.forall_mem_flatMap.mpr fun e he => (staysExact_factorsOf (h e he)).1)

/-- The tree `d` stays exact and has the slope of `e` as its value. -/
structure FormalSlope (a : Variable → Rat) (v : Variable) (e d : Expr) : Prop where
  exact : d.staysExact = true
  slope : SlopeAt a v e (fieldValue a d)

/-- The constant zero stands for a slope of zero. -/
theorem formalSlope_zero {e : Expr} (h : SlopeAt a v e 0) : FormalSlope a v e zero := by
  refine ⟨rfl, ?_⟩
  rwa [fieldValue_zero]

/-- The constant one stands for the slope of the variable. -/
theorem formalSlope_var : FormalSlope a v (.var v) one := by
  refine ⟨rfl, ?_⟩
  rw [fieldValue_one]
  exact slopeAt_var_self

/-- The sum of the derivatives stands for the slope of a sum. -/
theorem formalSlope_add {es ds : List Expr} (h : List.Forall₂ (FormalSlope a v) es ds) :
    FormalSlope a v (.add es) (sum ds) := by
  constructor
  · apply staysExact_sum
    induction h with
    | nil => simp
    | cons hd _ ih => exact List.forall_mem_cons.mpr ⟨hd.exact, ih⟩
  · have hslopes : List.Forall₂ (SlopeAt a v) es (ds.map (fieldValue a)) :=
      List.forall₂_map_right_iff.mpr (h.imp fun _ _ hd => hd.slope)
    rw [fieldValue_sum]
    exact slopeAt_add hslopes

/-- The opposite of the derivative stands for the slope of an opposite. -/
theorem formalSlope_neg {e d : Expr} (h : FormalSlope a v e d) :
    FormalSlope a v (.neg e) (negate d) := by
  refine ⟨(staysExact_negate h.exact).1, ?_⟩
  rw [fieldValue_negate]
  exact slopeAt_neg h.slope

/-- The rule for reciprocals stands for their slope, where they are defined. -/
theorem formalSlope_inv {e d : Expr} (he : e.isPolynomial = true) (hne : fieldValue a e ≠ 0)
    (h : FormalSlope a v e d) :
    FormalSlope a v (.inv e) (negate (product [d, .pow e (.ofInt (-2))])) := by
  have hpow : (Expr.pow e (ofInt (-2))).staysExact = true := by
    rw [staysExact, he]
    rfl
  have hproduct : (product [d, .pow e (ofInt (-2))]).staysExact = true :=
    staysExact_product (by simp [h.exact, hpow])
  refine ⟨(staysExact_negate hproduct).1, ?_⟩
  have hinv := slopeAt_inv h.slope hne
  simpa [fieldValue, exponent?_ofInt] using hinv

/-- The power rule after the base `e` has been simplified to `b`. -/
theorem formalSlope_pow {e b d : Expr} {n : Int} (hn : 0 ≤ n) (hb : b.isPolynomial = true)
    (hkeeps : Keeps e b) (h : FormalSlope a v b d) :
    FormalSlope a v (.pow e (ofInt n)) (product [ofInt n, lowerPower b (ofInt n), d]) := by
  have hexponent : exponent? (sub (ofInt n) one) = some (n - 1) := rfl
  constructor
  · have hpow : (lowerPower b (ofInt n)).staysExact = true := by
      rw [lowerPower, staysExact, hb, hexponent]
      rfl
    have hint : (ofInt n).staysExact = true := rfl
    exact staysExact_product (by simp [h.exact, hpow, hint])
  · have hpow := slopeAt_pow hn (slopeAt_of_keeps hkeeps h.slope)
    rw [← hkeeps.value] at hpow
    simpa [lowerPower, fieldValue, hexponent, Number.exactValue] using hpow

/-! ## products -/

/-- The terms `ds` of the product rule after the factors `before` stay exact and
add up to the slope of the remaining product, multiplied by `before`. -/
def ProductSlopeAt (a : Variable → Rat) (v : Variable) (before es ds : List Expr) : Prop :=
  (∀ d ∈ ds, d.staysExact = true) ∧ ∃ s, SlopeAt a v (.mul es) s ∧
    (ds.map (fieldValue a)).sum = (before.map (fieldValue a)).prod * s

/-- The product rule for a first factor and the others. -/
theorem slopeAt_mul_cons {e : Expr} {es : List Expr} {s t : Rat} (he : SlopeAt a v e s)
    (hes : SlopeAt a v (.mul es) t) :
    SlopeAt a v (.mul (e :: es)) (s * fieldValue a (.mul es) + fieldValue a e * t) :=
  HasSlope.mul he hes

/-- The empty product has no terms and the slope zero. -/
theorem productSlopeAt_nil (before : List Expr) : ProductSlopeAt a v before [] [] :=
  ⟨by simp, 0, HasSlope.one, by simp⟩

/-- A factor of slope zero joins those before, without a term. -/
theorem productSlopeAt_cons_of_isConstant {before es ds : List Expr} {e : Expr}
    (he : SlopeAt a v e 0) (h : ProductSlopeAt a v (before ++ [e]) es ds) :
    ProductSlopeAt a v before (e :: es) ds := by
  obtain ⟨hexact, s, hs, hsum⟩ := h
  refine ⟨hexact, _, slopeAt_mul_cons he hs, ?_⟩
  rw [hsum, List.map_append, List.prod_append]
  simp [mul_assoc]

/-- Every other factor gives one term, its derivative times all other factors. -/
theorem productSlopeAt_cons {before es ds : List Expr} {e d : Expr}
    (hbefore : ∀ u ∈ before, u.staysExact = true) (hes : ∀ u ∈ es, u.staysExact = true)
    (he : FormalSlope a v e d) (h : ProductSlopeAt a v (before ++ [e]) es ds) :
    ProductSlopeAt a v before (e :: es) (product (d :: (before ++ es)) :: ds) := by
  obtain ⟨hexact, s, hs, hsum⟩ := h
  refine ⟨?_, _, slopeAt_mul_cons he.slope hs, ?_⟩
  · have hterm : (product (d :: (before ++ es))).staysExact = true := by
      apply staysExact_product
      rw [List.forall_mem_cons, List.forall_mem_append]
      exact ⟨he.exact, hbefore, hes⟩
    exact List.forall_mem_cons.mpr ⟨hterm, hexact⟩
  · simp only [List.map_cons, List.sum_cons, hsum, fieldValue_product, fieldValue_mul,
      List.map_append, List.prod_append, List.prod_cons, List.map_nil, List.prod_nil]
    ring

/-- The terms of the product rule add up to the derivative of the product. -/
theorem formalSlope_mul {es ds : List Expr} (h : ProductSlopeAt a v [] es ds) :
    FormalSlope a v (.mul es) (sum ds) := by
  obtain ⟨hexact, s, hs, hsum⟩ := h
  refine ⟨staysExact_sum hexact, ?_⟩
  rw [fieldValue_sum, hsum, List.map_nil, List.prod_nil, one_mul]
  exact hs

/-! ## runs of the rules -/

section

variable [Elementary] {solve : GoalSolver}

mutual

/-- **Differentiation finds the formal derivative.**  The tree it leaves stays
exact, and its value is that of the formal derivative wherever no inverted subtree
is zero. -/
theorem formalSlope_of_derives {e d : Expr} : Derives solve v e d → e.isRational = true →
    DefinedAt a e → FormalSlope a v e d
  | .constant hc, he, hdef => formalSlope_zero (slopeAt_of_isConstant e he hdef hc)
  | .var, _, _ => formalSlope_var
  | .add _ h, he, hdef =>
    formalSlope_add (formalSlopes_of_derivesTerms h (allRational_iff.mp he) (definedAt_add.mp hdef))
  | .mul _ h, he, hdef =>
    formalSlope_mul (productSlopeAt_of_derivesFactors h (by simp) (allRational_iff.mp he)
      (definedAt_mul.mp hdef))
  | .neg _ h, he, hdef => formalSlope_neg (formalSlope_of_derives h he (definedAt_neg.mp hdef))
  | .inv _ h, he, hdef => by
    obtain ⟨hne, hdef⟩ := definedAt_inv.mp hdef
    have hslope := formalSlope_of_derives h (isRational_of_isPolynomial _ he) hdef
    exact formalSlope_inv he hne hslope
  | .pow_constant _ hb _ hbc _, he, _ => by
    obtain ⟨hbase, n, hn, rfl⟩ := isPolynomial_pow_iff.mp he
    have hkeeps := keeps_simplifyWith _ (staysExact_of_isPolynomial _ hbase) hb
    have hpoly := hkeeps.polynomial hbase
    have hslope := slopeAt_of_isConstant (a := a) _ (isRational_of_isPolynomial _ hpoly)
      (definedAt_of_isPolynomial _ hpoly) hbc
    have hpow := slopeAt_pow hn (slopeAt_of_keeps hkeeps hslope)
    exact formalSlope_zero (by simpa using hpow)
  | .pow_base _ hb hp _ _ h, he, _ => by
    obtain ⟨hbase, n, hn, rfl⟩ := isPolynomial_pow_iff.mp he
    cases hp
    have hkeeps := keeps_simplifyWith _ (staysExact_of_isPolynomial _ hbase) hb
    have hpoly := hkeeps.polynomial hbase
    have hslope := formalSlope_of_derives h (isRational_of_isPolynomial _ hpoly)
      (definedAt_of_isPolynomial _ hpoly)
    exact formalSlope_pow hn hpoly hkeeps hslope
  -- the exponent of a polynomial is a number, and so constant
  | .pow_exponent _ _ hp _ hpc _, he, _ => by
    obtain ⟨-, n, -, rfl⟩ := isPolynomial_pow_iff.mp he
    cases hp
    cases hpc
  | .pow_both _ _ hp _ hpc _ _, he, _ => by
    obtain ⟨-, n, -, rfl⟩ := isPolynomial_pow_iff.mp he
    cases hp
    cases hpc

/-- The same for the derivatives of terms. -/
theorem formalSlopes_of_derivesTerms {es ds : List Expr} : DerivesTerms solve v es ds →
    (∀ e ∈ es, e.isRational = true) → (∀ e ∈ es, DefinedAt a e) →
    List.Forall₂ (FormalSlope a v) es ds
  | .nil, _, _ => .nil
  | .cons h hs, he, hdef => by
    rw [List.forall_mem_cons] at he hdef
    exact .cons (formalSlope_of_derives h he.1 hdef.1)
      (formalSlopes_of_derivesTerms hs he.2 hdef.2)

/-- The same for the terms of the product rule. -/
theorem productSlopeAt_of_derivesFactors {before es ds : List Expr} :
    DerivesFactors solve v before es ds → (∀ e ∈ before, e.staysExact = true) →
    (∀ e ∈ es, e.isRational = true) → (∀ e ∈ es, DefinedAt a e) →
    ProductSlopeAt a v before es ds
  | .nil, _, _, _ => productSlopeAt_nil _
  | .skip hc hs, hbefore, he, hdef => by
    rw [List.forall_mem_cons] at he hdef
    have hbefore' := List.forall_mem_append.mpr
      ⟨hbefore, List.forall_mem_singleton.mpr (staysExact_of_isRational _ he.1)⟩
    exact productSlopeAt_cons_of_isConstant (slopeAt_of_isConstant _ he.1 hdef.1 hc)
      (productSlopeAt_of_derivesFactors hs hbefore' he.2 hdef.2)
  | .cons _ h hs, hbefore, he, hdef => by
    rw [List.forall_mem_cons] at he hdef
    have hbefore' := List.forall_mem_append.mpr
      ⟨hbefore, List.forall_mem_singleton.mpr (staysExact_of_isRational _ he.1)⟩
    have hrest := fun u hu => staysExact_of_isRational u (he.2 u hu)
    exact productSlopeAt_cons hbefore hrest (formalSlope_of_derives h he.1 hdef.1)
      (productSlopeAt_of_derivesFactors hs hbefore' he.2 hdef.2)

end

/-- The simplified derivative stays exact, too, with the same value. -/
theorem formalSlope_derivativeWith {e d : Expr} (he : e.isRational = true)
    (hdef : DefinedAt a e) (h : (derivativeWith solve v e).result = .ok d) :
    FormalSlope a v e d := by
  obtain ⟨d₁, h₁, h⟩ := Logged.result_bind_eq_ok.mp h
  have hslope := formalSlope_of_derives (derives_of_derive h₁) he hdef
  have hkeeps := keeps_simplifyWith d₁ hslope.exact h
  refine ⟨hkeeps.exact, ?_⟩
  rw [hkeeps.value]
  exact hslope.slope

/-- **The simplified derivative evaluates to the exact formal derivative.**  For a
rational expression whose variables are bound to integers at which no inverted
subtree is zero, what its derivative evaluates to is exact, and the value of the
formal derivative of the rational function the expression denotes. -/
theorem evaluate_derivative_eq_formal (catalogue : Catalogue) {e d : Expr} {wrt : Variable}
    {args : Arguments} {pt : Variable → Int} {x : Number} (he : e.isRational = true)
    (hargs : ∀ w ∈ e.freeVars, args.get? w = some (.integer (pt w)))
    (hdef : DefinedAt (fun w => (pt w : Rat)) e)
    (hd : (e.derivative catalogue wrt).result = .ok d)
    (hx : (d.evaluate catalogue args).result = .ok x) :
    x.isExact = true ∧
      x.exactValue = (e.toRationalFunction.deriv wrt).valueAt (fun w => (pt w : Rat)) := by
  have hslope := formalSlope_derivativeWith he hdef hd
  have hvars : VarsIn (fun w => args.get? w = some (.integer (pt w))) d :=
    VarsIn.derivativeWith hargs hd
  have hcomputes := computes_of_hasValue d hslope.exact hvars hx
  have hvalue := HasSlope.valueAt_deriv hslope.slope
  exact ⟨hcomputes.exact, hcomputes.value.trans hvalue.symm⟩

end

/-- Half of `x² / x` has the slope one half, as evaluation of its derivative at
three finds out. -/
theorem evaluate_derivative_eq_formal_half :
    let e := Expr.mul [.const (.rational (1 / 2)), .pow (ofName "x") (ofInt 2), .inv (ofName "x")]
    let args := Arguments.single ⟨"x"⟩ (.integer 3)
    ∃ d x, (e.derivative .empty ⟨"x"⟩).result = .ok d ∧ (d.evaluate .empty args).result = .ok x ∧
      x.isExact = true ∧
      (e.toRationalFunction.deriv ⟨"x"⟩).valueAt (fun _ => ((3 : Int) : Rat)) = 1 / 2 := by
  intro e args
  have hargs : VarsIn (fun w => args.get? w = some (.integer 3)) e := by
    simp [e, args]
  have hdef : DefinedAt (fun _ => ((3 : Int) : Rat)) e := by
    simp [e, fieldValue]
  obtain ⟨d, hd, hx⟩ : ∃ d, (e.derivative .empty ⟨"x"⟩).result = .ok d ∧
      (d.evaluate .empty args).result = .ok (.rational (1 / 2)) := by
    refine ⟨.add [.mul [ofName "x", .inv (ofName "x")],
      .mul [.neg (.pow (ofName "x") (ofInt (-2))), .pow (ofName "x") (ofInt 2),
        .const (.rational (1 / 2))]], ?_, ?_⟩
    · with_unfolding_all rfl
    · with_unfolding_all rfl
  obtain ⟨hexact, hvalue⟩ := evaluate_derivative_eq_formal .empty (by rfl) hargs hdef hd hx
  exact ⟨d, _, hd, hx, hexact, hvalue.symm⟩

end SymCalc.Expr
