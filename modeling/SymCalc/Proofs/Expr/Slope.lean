import Mathlib.Analysis.SpecialFunctions.Pow.Deriv
import Mathlib.Analysis.SpecialFunctions.Trigonometric.ArctanDeriv
import Mathlib.Topology.Algebra.Order.Floor
import SymCalc.Proofs.Expr.RealValue
import SymCalc.Real256.Series

/-!
# SymCalc.Proofs.Expr.Slope

Symbolic differentiation is differentiation of the real functions that trees
name.

1. A rounding is constant between integers, so that each function of one
   argument has the slope its rule states (`UnaryFn.hasDerivAt_realValue`,
   `realValue_applyRule`);
2. `Slope v e d` says that `d` names the derivative of `e` along `v`, wherever
   all parts of `e` are read inside their domains.  There is one rule for each
   kind of node, and three for powers;
3. a run of `derive` is put together from these rules.

Main statement: `hasDerivAt_derive`.
-/

namespace SymCalc

open Filter Topology

/-! ## functions of one argument -/

section rounding

variable {x : ℝ}

/-- The floor is constant next to what is no integer. -/
theorem eventually_floor_eq (hx : ∀ n : ℤ, x ≠ n) : ∀ᶠ y in 𝓝 x, ⌊y⌋ = ⌊x⌋ := by
  have hlt : (⌊x⌋ : ℝ) < x := lt_of_le_of_ne (Int.floor_le x) (hx _).symm
  filter_upwards [Ioo_mem_nhds hlt (Int.lt_floor_add_one x)] with y hy
  exact Int.floor_eq_iff.mpr ⟨hy.1.le, hy.2⟩

/-- The ceiling is constant next to what is no integer. -/
theorem eventually_ceil_eq (hx : ∀ n : ℤ, x ≠ n) : ∀ᶠ y in 𝓝 x, ⌈y⌉ = ⌈x⌉ := by
  have hlt : x < (⌈x⌉ : ℝ) := lt_of_le_of_ne (Int.le_ceil x) (hx _)
  have hgt : (⌈x⌉ : ℝ) - 1 < x := by linarith [Int.ceil_lt_add_one x]
  filter_upwards [Ioo_mem_nhds hgt hlt] with y hy
  exact Int.ceil_eq_iff.mpr ⟨hy.1, hy.2.le⟩

/-- The sign is constant next to what is not zero. -/
theorem eventually_neg_iff (hx : x ≠ 0) : ∀ᶠ y in 𝓝 x, (y < 0 ↔ x < 0) := by
  rcases lt_or_gt_of_ne hx with h | h
  · filter_upwards [Iio_mem_nhds h] with y hy
    exact iff_of_true hy h
  · filter_upwards [Ioi_mem_nhds h] with y hy
    exact iff_of_false (not_lt.mpr (le_of_lt hy)) (not_lt.mpr h.le)

/-- Between integers a rounding is constant. -/
theorem RoundMode.eventually_realValue_eq (mode : RoundMode) (hx : ∀ n : ℤ, x ≠ n) :
    ∀ᶠ y in 𝓝 x, mode.realValue y = mode.realValue x := by
  have hzero : x ≠ 0 := by simpa using hx 0
  filter_upwards [eventually_floor_eq hx, eventually_ceil_eq hx, eventually_neg_iff hzero]
    with y hfloor hceil hneg
  cases mode with
  | ceil => exact hceil
  | floor => exact hfloor
  | inward => simp only [RoundMode.realValue, hneg, hfloor, hceil]
  | outward => simp only [RoundMode.realValue, hneg, hfloor, hceil]

/-- Rounding has the slope zero between its jumps. -/
theorem RoundMode.hasDerivAt_realValue (mode : RoundMode) (hx : ∀ n : ℤ, x ≠ n) :
    HasDerivAt (fun y => (mode.realValue y : ℝ)) 0 x := by
  apply (hasDerivAt_const x (mode.realValue x : ℝ)).congr_of_eventuallyEq
  filter_upwards [mode.eventually_realValue_eq hx] with y hy
  rw [hy]

end rounding

/-- The slope of a function of one argument.  The factorial has none here. -/
noncomputable def UnaryFn.slope : UnaryFn → ℝ → ℝ
  | .ln => fun x => x⁻¹
  | .exp => Real.exp
  | .sin => Real.cos
  | .cos => fun x => -Real.sin x
  | .tan => fun x => 1 / Real.cos x ^ 2
  | .frac => fun _ => 1
  | .factorial | .round _ | .offIntegers _ => fun _ => 0

/-- Functions that are constant between their jumps have the slope zero. -/
theorem UnaryFn.slope_of_isStep {f : UnaryFn} (hf : f.isStep = true) (x : ℝ) :
    f.slope x = 0 := by
  cases f with
  | round mode => rfl
  | offIntegers value => rfl
  | _ => cases hf

/-- Every function but the factorial has its slope as derivative inside its domain. -/
theorem UnaryFn.hasDerivAt_realValue {f : UnaryFn} {x : ℝ} (hf : f ≠ .factorial)
    (hx : f.Interior x) : HasDerivAt f.realValue (f.slope x) x := by
  cases f with
  | ln => exact Real.hasDerivAt_log (ne_of_gt hx)
  | exp => exact Real.hasDerivAt_exp x
  | sin => exact Real.hasDerivAt_sin x
  | cos => exact Real.hasDerivAt_cos x
  | tan => exact Real.hasDerivAt_tan hx
  | frac =>
    have hround := RoundMode.inward.hasDerivAt_realValue hx
    have hsub := (hasDerivAt_id x).sub hround
    rwa [sub_zero] at hsub
  | factorial => exact absurd rfl hf
  | round mode => exact mode.hasDerivAt_realValue hx
  | offIntegers value => exact hasDerivAt_const x _

namespace Expr

variable {ρ : Variable → ℝ} {v : Variable}

/-- A power to an integer is one of reals to an integer. -/
theorem realValue_pow_ofInt (e : Expr) (n : Int) :
    realValue ρ (.pow e (.ofInt n)) = realValue ρ e ^ n := by
  rw [realValue, realValue_ofInt, Real.rpow_intCast]

/-- The rule for a function multiplies its slope by that of the argument. -/
theorem realValue_applyRule {f : UnaryFn} {e : Expr} {rule : Expr → Expr}
    (h : applyRule f e = some rule) (d : Expr) :
    realValue ρ (rule d) = f.slope (realValue ρ e) * realValue ρ d := by
  unfold applyRule at h
  cases f with
  | ln =>
    cases h
    simp [realValues, UnaryFn.slope, mul_comm]
  | exp =>
    cases h
    simp [realValues, realValue, UnaryFn.slope, UnaryFn.realValue]
  | sin =>
    cases h
    simp [realValues, realValue, UnaryFn.slope, UnaryFn.realValue]
  | cos =>
    cases h
    simp [realValues, realValue, UnaryFn.slope, UnaryFn.realValue]
  | tan =>
    cases h
    rw [realValue_product, realValues, realValues, realValues, realValue_pow_ofInt]
    simp [realValue, UnaryFn.slope, UnaryFn.realValue, zpow_neg]
  | frac =>
    cases h
    simp [realValues, realValue, UnaryFn.slope, UnaryFn.realValue, Number.realValue, Number.one]
  | factorial => cases h
  | round mode => cases h
  | offIntegers value => cases h

/-! ## one rule for each node -/

/-- `d` names the derivative of `e` along `v`, at every point at which all parts
of `e` are read inside their domains. -/
def Slope (v : Variable) (e d : Expr) : Prop :=
  ∀ ρ : Variable → ℝ, Interior ρ e →
    HasDerivAt (fun t => realValue (Function.update ρ v t) e) (realValue ρ d) (ρ v)

/-- A tree that does not depend on the variable has the slope zero. -/
theorem slope_of_isConstant {e : Expr} (h : e.isConstant v = true) : Slope v e zero := by
  intro ρ _
  simp only [realValue_update_of_isConstant _ e h, realValue_zero]
  exact hasDerivAt_const (ρ v) _

/-- The variable has the slope one. -/
theorem slope_var : Slope v (.var v) one := by
  intro ρ _
  rw [realValue_one]
  simp only [realValue, Function.update_self]
  exact hasDerivAt_id' (ρ v)

/-- The slopes of the terms add up. -/
theorem slope_add {terms ds : List Expr} (h : List.Forall₂ (Slope v) terms ds) :
    Slope v (.add terms) (sum ds) := by
  intro ρ hint
  simp only [realValue, realValue_sum]
  simp only [Interior] at hint
  induction h with
  | nil => exact hasDerivAt_const (ρ v) 0
  | cons he _ ih =>
    simp only [realValues, List.sum_cons]
    exact (he ρ hint.1).add (ih hint.2)

/-- The slope of an opposite is the opposite. -/
theorem slope_neg {e d : Expr} (h : Slope v e d) : Slope v (.neg e) (negate d) := by
  intro ρ hint
  simp only [realValue, realValue_negate]
  exact (h ρ hint).neg

/-- The slope of a reciprocal. -/
theorem slope_inv {e d : Expr} (h : Slope v e d) :
    Slope v (.inv e) (negate (product [d, .pow e (.ofInt (-2))])) := by
  intro ρ hint
  have hself : realValue (Function.update ρ v (ρ v)) e ≠ 0 := by
    rw [Function.update_eq_self]
    exact hint.2
  have hinv := (h ρ hint.1).fun_inv hself
  rw [Function.update_eq_self] at hinv
  apply hinv.congr_deriv
  rw [realValue_negate, realValue_product, realValues, realValues, realValues,
    realValue_pow_ofInt, zpow_neg]
  simp [div_eq_mul_inv]

/-- A logarithm to a base has the slope of the quotient of natural logarithms. -/
theorem slope_log {base power d : Expr} (h : Slope v (quotientOfLogs base power) d) :
    Slope v (.log base power) d := by
  intro ρ ⟨⟨hb, hp⟩, hpos, hne, hpower⟩
  have hlog : Real.log (realValue ρ base) ≠ 0 := Real.log_ne_zero_of_pos_of_ne_one hpos hne
  have hquotient := h ρ ⟨⟨hp, hpower⟩, ⟨⟨hb, hpos⟩, hlog⟩, trivial⟩
  simpa [quotientOfLogs_eq, realValue, realValues, UnaryFn.realValue, Real.logb,
    div_eq_mul_inv] using hquotient

/-- The chain rule. -/
theorem hasDerivAt_apply {f : UnaryFn} {e d : Expr} (hf : f ≠ .factorial) (h : Slope v e d)
    (hint : Interior ρ (.apply f e)) :
    HasDerivAt (fun t => realValue (Function.update ρ v t) (.apply f e))
      (f.slope (realValue ρ e) * realValue ρ d) (ρ v) := by
  have houter := f.hasDerivAt_realValue hf hint.2
  rw [← Function.update_eq_self v ρ] at houter
  have hcomp := houter.comp (ρ v) (h ρ hint.1)
  rw [Function.update_eq_self] at hcomp
  exact hcomp

/-- The chain rule, for functions with a rule of their own. -/
theorem slope_apply {f : UnaryFn} {e d : Expr} {rule : Expr → Expr}
    (hf : applyRule f e = some rule) (h : Slope v e d) : Slope v (.apply f e) (rule d) := by
  intro ρ hint
  have hne : f ≠ .factorial := by
    rintro rfl
    cases hf
  rw [realValue_applyRule hf]
  exact hasDerivAt_apply hne h hint

/-- Between its jumps a step function of anything that has a slope is constant. -/
theorem slope_apply_of_isStep {f : UnaryFn} {e d : Expr} (hf : f.isStep = true)
    (h : Slope v e d) : Slope v (.apply f e) (.apply (.offIntegers .zero) e) := by
  intro ρ hint
  have hne : f ≠ .factorial := by
    rintro rfl
    cases hf
  have hzero : realValue ρ (.apply (.offIntegers .zero) e) = 0 := by
    simp [realValue, UnaryFn.realValue, Number.realValue, Number.zero]
  have hchain := hasDerivAt_apply hne h hint
  rw [UnaryFn.slope_of_isStep hf, zero_mul] at hchain
  rw [hzero]
  exact hchain

/-! ## powers -/

@[simp] theorem realValue_sub (a b : Expr) :
    realValue ρ (sub a b) = realValue ρ a - realValue ρ b := by
  simp [sub, realValues, sub_eq_add_neg]

/-- A power with its exponent lowered by one. -/
theorem realValue_lowerPower (b p : Expr) :
    realValue ρ (lowerPower b p) = realValue ρ b ^ (realValue ρ p - 1) := by
  rw [lowerPower, realValue, realValue_sub, realValue_one]

/-- A power whose exponent depends on a variable has a positive base. -/
theorem base_pos_of_interior {b p : Expr} (hint : Interior ρ (.pow b p))
    (hp : p.isConstant v = false) : 0 < realValue ρ b := by
  rcases hint.2 with hpos | ⟨⟨n, rfl⟩, _⟩
  · exact hpos
  · cases hp

/-- The rule for powers of a base that does not depend on the variable. -/
theorem slope_pow_of_isConstant_base {b p dp : Expr} (hb : b.isConstant v = true)
    (hp : p.isConstant v = false) (h : Slope v p dp) :
    Slope v (.pow b p) (product [.pow b p, ln b, dp]) := by
  intro ρ hint
  have hpos := base_pos_of_interior hint hp
  have hpow := (h ρ hint.1.2).const_rpow hpos
  rw [Function.update_eq_self] at hpow
  simp only [realValue, realValue_update_of_isConstant _ b hb]
  apply hpow.congr_deriv
  simp only [realValue_product, realValues, realValue, UnaryFn.realValue, List.prod_cons,
    List.prod_nil]
  ring

/-- The rule for powers to an exponent that does not depend on the variable. -/
theorem slope_pow_of_isConstant_exponent {b p db : Expr} (hp : p.isConstant v = true)
    (h : Slope v b db) :
    Slope v (.pow b p) (product [p, lowerPower b p, db]) := by
  intro ρ hint
  have hne : realValue ρ b ≠ 0 := by
    rcases hint.2 with hpos | ⟨_, hne⟩
    · exact ne_of_gt hpos
    · exact hne
  have hself : realValue (Function.update ρ v (ρ v)) b ≠ 0 := by
    rwa [Function.update_eq_self]
  have hpow := (h ρ hint.1.1).rpow_const (p := realValue ρ p) (.inl hself)
  rw [Function.update_eq_self] at hpow
  simp only [realValue, realValue_update_of_isConstant _ p hp]
  apply hpow.congr_deriv
  simp only [realValue_product, realValues, realValue_lowerPower, List.prod_cons, List.prod_nil]
  ring

/-- The rule for powers of which both parts depend on the variable. -/
theorem slope_pow {b p db dp : Expr} (hp : p.isConstant v = false) (hdb : Slope v b db)
    (hdp : Slope v p dp) :
    Slope v (.pow b p)
      (product [lowerPower b p, sum [product [p, db], product [b, ln b, dp]]]) := by
  intro ρ hint
  have hpos := base_pos_of_interior hint hp
  have hself : 0 < realValue (Function.update ρ v (ρ v)) b := by
    rwa [Function.update_eq_self]
  have hpow := (hdb ρ hint.1.1).rpow (hdp ρ hint.1.2) hself
  rw [Function.update_eq_self] at hpow
  apply hpow.congr_deriv
  have hsplit : realValue ρ b ^ realValue ρ p =
      realValue ρ b ^ (realValue ρ p - 1) * realValue ρ b := by
    rw [← Real.rpow_add_one (ne_of_gt hpos), sub_add_cancel]
  simp only [realValue_product, realValue_sum, realValues, realValue_lowerPower, realValue,
    UnaryFn.realValue, List.prod_cons, List.prod_nil, List.sum_cons, List.sum_nil]
  rw [hsplit]
  ring

/-! ## products -/

/-- The terms of the product rule after the factors `before` add up to the slope
of the remaining product, multiplied by `before`. -/
def ProductSlope (v : Variable) (before es ds : List Expr) : Prop :=
  ∀ ρ : Variable → ℝ, AllInterior ρ es → ∃ s,
    HasDerivAt (fun t => (realValues (Function.update ρ v t) es).prod) s (ρ v) ∧
      (realValues ρ ds).sum = (realValues ρ before).prod * s

/-- The empty product has no terms and the slope zero. -/
theorem productSlope_nil (before : List Expr) : ProductSlope v before [] [] :=
  fun ρ _ => ⟨0, hasDerivAt_const (ρ v) 1, by simp [realValues]⟩

/-- A factor that does not depend on the variable joins those before, without a term. -/
theorem productSlope_cons_of_isConstant {before es ds : List Expr} {e : Expr}
    (he : e.isConstant v = true) (h : ProductSlope v (before ++ [e]) es ds) :
    ProductSlope v before (e :: es) ds := by
  intro ρ hint
  obtain ⟨s, hs, hsum⟩ := h ρ hint.2
  refine ⟨realValue ρ e * s, ?_, ?_⟩
  · simp only [realValues, List.prod_cons, realValue_update_of_isConstant _ e he]
    exact hs.const_mul (realValue ρ e)
  · rw [hsum, realValues_append, List.prod_append]
    simp [realValues, mul_assoc]

/-- Every other factor gives one term, its slope times all other factors. -/
theorem productSlope_cons {before es ds : List Expr} {e d : Expr} (he : Slope v e d)
    (h : ProductSlope v (before ++ [e]) es ds) :
    ProductSlope v before (e :: es) (product (d :: (before ++ es)) :: ds) := by
  intro ρ hint
  obtain ⟨s, hs, hsum⟩ := h ρ hint.2
  have hmul := (he ρ hint.1).mul hs
  rw [Function.update_eq_self] at hmul
  refine ⟨_, hmul, ?_⟩
  simp only [realValues, realValue_product, realValues_append, List.sum_cons, List.prod_cons,
    List.prod_append, List.prod_nil, hsum]
  ring

/-- The terms of the product rule add up to the slope of the product. -/
theorem slope_mul {factors ds : List Expr} (h : ProductSlope v [] factors ds) :
    Slope v (.mul factors) (sum ds) := by
  intro ρ hint
  obtain ⟨s, hs, hsum⟩ := h ρ hint
  rw [realValue_sum, hsum, realValues, List.prod_nil, one_mul]
  exact hs

/-- The members of a list of real functions are real functions. -/
theorem isRealFunction_of_mem {e : Expr} {es : List Expr}
    (h : allRealFunctions es = true) (he : e ∈ es) : isRealFunction e = true := by
  induction es with
  | nil => cases he
  | cons e' es ih =>
    simp only [allRealFunctions, Bool.and_eq_true] at h
    rcases List.mem_cons.mp he with rfl | he
    · exact h.1
    · exact ih h.2 he

/-! ## runs of the rules -/

section

variable [Elementary]

mutual

/-- Every base and exponent of a power is left unchanged by simplification. -/
def PowersSimplified (solve : GoalSolver) : Expr → Prop
  | .var _ => True
  | .const _ => True
  | .add terms => AllPowersSimplified solve terms
  | .mul factors => AllPowersSimplified solve factors
  | .neg e => PowersSimplified solve e
  | .inv e => PowersSimplified solve e
  | .pow base exponent =>
    (PowersSimplified solve base ∧ (simplifyWith solve base).result = .ok base) ∧
      PowersSimplified solve exponent ∧ (simplifyWith solve exponent).result = .ok exponent
  | .log base power => PowersSimplified solve base ∧ PowersSimplified solve power
  | .apply _ e => PowersSimplified solve e
  | .goalSeek goal target _ => PowersSimplified solve goal ∧ PowersSimplified solve target

/-- The powers of all expressions of a list are simplified. -/
def AllPowersSimplified (solve : GoalSolver) : List Expr → Prop
  | [] => True
  | e :: es => PowersSimplified solve e ∧ AllPowersSimplified solve es

end

variable {solve : GoalSolver}

/-- The members of a list have simplified powers if the list does. -/
theorem AllPowersSimplified.of_mem {e : Expr} {es : List Expr}
    (h : AllPowersSimplified solve es) (he : e ∈ es) : PowersSimplified solve e := by
  induction es with
  | nil => cases he
  | cons e' es ih =>
    rcases List.mem_cons.mp he with rfl | he
    · exact h.1
    · exact ih h.2 he

/-- Differentiation succeeds and finds the slope. -/
def FindsSlope (solve : GoalSolver) (v : Variable) (e : Expr) : Prop :=
  ∃ d, (derive solve v e).result = .ok d ∧ Slope v e d

/-- Where the variable does not occur the slope zero is found at once. -/
theorem findsSlope_of_isConstant {e : Expr} (h : e.isConstant v = true) :
    FindsSlope solve v e := by
  refine ⟨zero, ?_, slope_of_isConstant h⟩
  rw [derive.eq_def, if_pos h]
  rfl

/-- The slopes of all terms are found if that of each is. -/
theorem deriveTerms_slopes {terms : List Expr} (h : ∀ e ∈ terms, FindsSlope solve v e) :
    ∃ ds, (deriveTerms solve v terms).result = .ok ds ∧ List.Forall₂ (Slope v) terms ds := by
  induction terms with
  | nil => exact ⟨[], by rw [deriveTerms]; rfl, .nil⟩
  | cons e es ih =>
    obtain ⟨d, hd, hslope⟩ := h e List.mem_cons_self
    obtain ⟨ds, hds, hslopes⟩ := ih fun e' he' => h e' (List.mem_cons_of_mem e he')
    refine ⟨d :: ds, ?_, .cons hslope hslopes⟩
    rw [deriveTerms]
    exact Logged.result_bind_eq_ok.mpr ⟨d, hd, Logged.result_bind_eq_ok.mpr ⟨ds, hds, rfl⟩⟩

/-- The terms of the product rule are found if the slope of each factor is. -/
theorem deriveFactors_slopes {factors : List Expr} (h : ∀ e ∈ factors, FindsSlope solve v e)
    (before : List Expr) :
    ∃ ds, (deriveFactors solve v before factors).result = .ok ds ∧
      ProductSlope v before factors ds := by
  induction factors generalizing before with
  | nil => exact ⟨[], by rw [deriveFactors]; rfl, productSlope_nil before⟩
  | cons e es ih =>
    obtain ⟨ds, hds, hslopes⟩ :=
      ih (fun e' he' => h e' (List.mem_cons_of_mem e he')) (before ++ [e])
    rw [deriveFactors]
    by_cases he : e.isConstant v = true
    · rw [if_pos he]
      exact ⟨ds, hds, productSlope_cons_of_isConstant he hslopes⟩
    · obtain ⟨d, hd, hslope⟩ := h e List.mem_cons_self
      refine ⟨_, ?_, productSlope_cons hslope hslopes⟩
      rw [if_neg he]
      exact Logged.result_bind_eq_ok.mpr ⟨d, hd, Logged.result_bind_eq_ok.mpr ⟨ds, hds, rfl⟩⟩

/-- Which of the rules for powers applies depends on where the variable occurs. -/
theorem findsSlope_pow {b p : Expr} (hc : ¬(Expr.pow b p).isConstant v = true)
    (hb : (simplifyWith solve b).result = .ok b) (hp : (simplifyWith solve p).result = .ok p)
    (hdb : FindsSlope solve v b) (hdp : FindsSlope solve v p) :
    FindsSlope solve v (.pow b p) := by
  obtain ⟨db, hdb, hsb⟩ := hdb
  obtain ⟨dp, hdp, hsp⟩ := hdp
  unfold FindsSlope
  rw [derive.eq_def, if_neg hc]
  simp only [Logged.andThenOk_eq_bind, Logged.result_bind_eq_ok, hb, hp, Except.ok.injEq,
    exists_eq_left']
  rw [isConstant, Bool.and_eq_true, not_and] at hc
  cases hcb : b.isConstant v with
  | true =>
    have hcp : p.isConstant v = false := by simpa using hc hcb
    rw [hcp]
    exact ⟨_, Logged.result_bind_eq_ok.mpr ⟨dp, hdp, rfl⟩,
      slope_pow_of_isConstant_base hcb hcp hsp⟩
  | false =>
    cases hcp : p.isConstant v with
    | true =>
      exact ⟨_, Logged.result_bind_eq_ok.mpr ⟨db, hdb, rfl⟩,
        slope_pow_of_isConstant_exponent hcp hsb⟩
    | false =>
      exact ⟨_, Logged.result_bind_eq_ok.mpr ⟨db, hdb, Logged.result_bind_eq_ok.mpr
        ⟨dp, hdp, rfl⟩⟩, slope_pow hcp hsb hsp⟩

/-- The slope of a function is found if that of its argument is. -/
theorem findsSlope_apply {f : UnaryFn} {e : Expr} (hc : ¬(Expr.apply f e).isConstant v = true)
    (hf : f ≠ .factorial) (h : FindsSlope solve v e) : FindsSlope solve v (.apply f e) := by
  obtain ⟨d, hd, hslope⟩ := h
  unfold FindsSlope
  rw [derive.eq_def, if_neg hc]
  by_cases hstep : f.isStep = true
  · simp only [hstep, if_true]
    exact ⟨_, rfl, slope_apply_of_isStep hstep hslope⟩
  · cases hrule : applyRule f e with
    | none => cases f <;> simp_all [applyRule, UnaryFn.isStep]
    | some rule =>
      simp only [hstep, hrule]
      exact ⟨_, Logged.result_bind_eq_ok.mpr ⟨d, hd, rfl⟩, slope_apply hrule hslope⟩

/-- **Differentiation of a real function with simplified powers finds its
slope.** -/
theorem findsSlope {e : Expr} (hf : isRealFunction e = true) (hs : PowersSimplified solve e) :
    FindsSlope solve v e := by
  -- a logarithm is replaced by a quotient that is no part of it, but weighs less
  induction hn : weight e using Nat.strongRecOn generalizing e with | ind n ih
  have ih : ∀ {a}, weight a < n → isRealFunction a = true → PowersSimplified solve a →
      FindsSlope solve v a := fun hlt hf' hs' => ih _ hlt hf' hs' rfl
  by_cases hc : e.isConstant v = true
  · exact findsSlope_of_isConstant hc
  · cases e with
    | var w =>
      have hw : w = v := by simpa [isConstant] using hc
      subst hw
      exact ⟨one, by rw [derive.eq_def, if_neg hc]; rfl, slope_var⟩
    | const x => exact absurd rfl hc
    | add terms =>
      obtain ⟨ds, hds, hslope⟩ := deriveTerms_slopes fun e he =>
        ih (hn ▸ weight_lt_add he) (isRealFunction_of_mem hf he) (hs.of_mem he)
      refine ⟨sum ds, ?_, slope_add hslope⟩
      rw [derive.eq_def, if_neg hc]
      exact Logged.result_bind_eq_ok.mpr ⟨ds, hds, rfl⟩
    | mul factors =>
      obtain ⟨ds, hds, hslope⟩ := deriveFactors_slopes (fun e he =>
        ih (hn ▸ weight_lt_mul he) (isRealFunction_of_mem hf he) (hs.of_mem he)) []
      refine ⟨sum ds, ?_, slope_mul hslope⟩
      rw [derive.eq_def, if_neg hc]
      exact Logged.result_bind_eq_ok.mpr ⟨ds, hds, rfl⟩
    | neg e =>
      simp only [weight] at hn
      obtain ⟨d, hd, hslope⟩ := ih (a := e) (by omega) hf hs
      refine ⟨negate d, ?_, slope_neg hslope⟩
      rw [derive.eq_def, if_neg hc]
      exact Logged.result_bind_eq_ok.mpr ⟨d, hd, rfl⟩
    | inv e =>
      simp only [weight] at hn
      obtain ⟨d, hd, hslope⟩ := ih (a := e) (by omega) hf hs
      refine ⟨_, ?_, slope_inv hslope⟩
      rw [derive.eq_def, if_neg hc]
      exact Logged.result_bind_eq_ok.mpr ⟨d, hd, rfl⟩
    | pow base exponent =>
      obtain ⟨⟨hbs, hb⟩, hps, hp⟩ := hs
      simp only [isRealFunction, Bool.and_eq_true] at hf
      simp only [weight] at hn
      exact findsSlope_pow hc hb hp (ih (by omega) hf.1 hbs) (ih (by omega) hf.2 hps)
    | log base power =>
      have := weight_quotientOfLogs base power
      obtain ⟨d, hd, hslope⟩ := ih (a := quotientOfLogs base power) (by omega)
        (by simpa [quotientOfLogs_eq, isRealFunction, allRealFunctions, and_comm] using hf)
        (by simpa [quotientOfLogs_eq, PowersSimplified, AllPowersSimplified, and_comm] using hs)
      refine ⟨d, ?_, slope_log hslope⟩
      rw [derive.eq_def, if_neg hc]
      exact hd
    | apply f e =>
      simp only [isRealFunction, Bool.and_eq_true, decide_eq_true_eq] at hf
      simp only [weight] at hn
      exact findsSlope_apply hc hf.1 (ih (by omega) hf.2 hs)
    | goalSeek goal target inversion => cases hf

/-- **The differentiation rules are correct over the real numbers.**  A tree
without factorials and goal-seeks, whose powers are simplified, has a derivative
tree, and this names the derivative of the function the tree names at every
point inside its domain. -/
theorem hasDerivAt_derive {e : Expr} (hf : isRealFunction e = true)
    (hs : PowersSimplified solve e) :
    ∃ d, (derive solve v e).result = .ok d ∧ ∀ ρ : Variable → ℝ, Interior ρ e →
      HasDerivAt (fun t => realValue (Function.update ρ v t) e) (realValue ρ d) (ρ v) :=
  findsSlope hf hs

end

/-- A cube has a slope at a negative point, as its exponent is an integer. -/
theorem hasDerivAt_derive_cube :
    let e := Expr.pow (ofName "x") (ofInt 3)
    let ρ : Variable → ℝ := fun _ => -2
    Interior ρ e ∧ ∃ d, (derive .none ⟨"x"⟩ e).result = .ok d ∧
      HasDerivAt (fun t => realValue (Function.update ρ ⟨"x"⟩ t) e) (realValue ρ d) (-2) := by
  intro e ρ
  have hint : Interior ρ e := ⟨⟨trivial, trivial⟩, .inr ⟨⟨3, rfl⟩, by simp [realValue, ρ]⟩⟩
  have hs : PowersSimplified .none e := ⟨⟨trivial, rfl⟩, trivial, rfl⟩
  obtain ⟨d, hd, h⟩ := hasDerivAt_derive (v := ⟨"x"⟩) (by rfl) hs
  exact ⟨hint, d, hd, h ρ hint⟩

end Expr

end SymCalc
