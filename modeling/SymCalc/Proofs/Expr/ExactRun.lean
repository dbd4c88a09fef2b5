import SymCalc.GoalSeek.Level
import SymCalc.Proofs.Expr.Value
import SymCalc.Proofs.Number.IntegerPower
import SymCalc.Real256.Series

/-!
# SymCalc.Proofs.Expr.ExactRun

Simplification on runs that never leave the exact numbers.

1. A tree is *exact* if every number in it is an integer or a rational and no
   node leads out of these: no logarithm, exponential, angle or goal-seek;
2. a run of it stays exact if every power it meets is one of integers;
3. simplification may then only narrow the representation of a value, as a
   neutral constant that is a rational takes its representation with it when it
   is dropped.

Main statement: `simplify_exact_run`.
-/

namespace SymCalc

/-- The function stays within the exact numbers. -/
def UnaryFn.isExact : UnaryFn → Bool
  | .factorial | .frac | .round _ => true
  | .offIntegers value => value.isExact
  | .ln | .exp | .sin | .cos | .tan => false

/-- All values bound are exact. -/
def Arguments.IsExact (args : Arguments) : Prop :=
  ∀ v x, args.get? v = some x → x.isExact = true

theorem Arguments.isExact_single {v : Variable} {x : Number} (h : x.isExact = true) :
    (Arguments.single v x).IsExact := by
  intro w y hy
  rw [get?_single] at hy
  split at hy
  · exact Option.some.inj hy ▸ h
  · cases hy

open Number (Narrows TotalNarrows ExactFold exactFold_sum exactFold_product)

/-- A function that stays exact is defined on a narrower argument too. -/
theorem UnaryFn.eval_narrows [Elementary] {f : UnaryFn} (hf : f.isExact = true) {x y z : Number}
    (h : Narrows y x) (hz : f.eval x = .ok z) : ∃ w, f.eval y = .ok w ∧ Narrows w z := by
  cases f with
  | factorial =>
    simp only [eval, mapError_eq_ok_iff] at hz ⊢
    rw [h.factorial_eq hz]
    exact ⟨z, hz, .refl (Number.isExact_of_factorial hz)⟩
  | frac =>
    simp only [eval, mapError_eq_ok_iff] at hz ⊢
    exact h.frac hz
  | round mode =>
    simp only [eval, mapError_eq_ok_iff] at hz ⊢
    rw [h.round_eq]
    exact ⟨z, hz, .refl (Number.isExact_of_round hz)⟩
  | offIntegers value =>
    have hfinite : y.isFinite = x.isFinite := by
      rw [Number.isFinite_of_isExact h.exact_left, Number.isFinite_of_isExact h.exact_right]
    simp only [eval, hfinite, h.isIntegral_eq] at hz ⊢
    refine ⟨z, hz, .refl ?_⟩
    split at hz
    · split at hz
      · cases hz
      · cases hz
        exact hf
    · cases hz
  | ln | exp | sin | cos | tan => cases hf

namespace Expr

mutual

/-- Every number in the tree is exact, and no node leads out of the exact
numbers by itself. -/
def isExact : Expr → Bool
  | .var _ => true
  | .const x => x.isExact
  | .add terms => allExact terms
  | .mul factors => allExact factors
  | .neg e => isExact e
  | .inv e => isExact e
  | .pow base exponent => isExact base && isExact exponent
  | .log _ _ => false
  | .apply f e => f.isExact && isExact e
  | .goalSeek _ _ _ => false

/-- All trees of a list are exact. -/
def allExact : List Expr → Bool
  | [] => true
  | e :: es => isExact e && allExact es

end

section

variable [Elementary]

mutual

/-- Base and exponent of every power in the tree have integers as their
values. -/
def IntegerPowers (solve : GoalSolver) (args : Arguments) : Expr → Prop
  | .var _ => True
  | .const _ => True
  | .add terms => AllIntegerPowers solve args terms
  | .mul factors => AllIntegerPowers solve args factors
  | .neg e => IntegerPowers solve args e
  | .inv e => IntegerPowers solve args e
  | .pow base exponent =>
    (IntegerPowers solve args base ∧ IntegerPowers solve args exponent) ∧
      (∃ b : Int, HasValue solve args base (.integer b)) ∧
      (∃ p : Int, HasValue solve args exponent (.integer p))
  | .log base power => IntegerPowers solve args base ∧ IntegerPowers solve args power
  | .apply _ e => IntegerPowers solve args e
  | .goalSeek _ _ _ => True

/-- Base and exponent of every power in a list of trees have integers as their
values. -/
def AllIntegerPowers (solve : GoalSolver) (args : Arguments) : List Expr → Prop
  | [] => True
  | e :: es => IntegerPowers solve args e ∧ AllIntegerPowers solve args es

end

variable {solve : GoalSolver} {args : Arguments}

/-! ## normalising constructors -/

/-- The constructor of negations negates the value. -/
theorem hasValue_negate {e : Expr} {x : Number} (h : HasValue solve args e x)
    (hx : x.isExact = true) : HasValue solve args (negate e) (-x) := by
  unfold negate
  split
  · obtain ⟨y, hy, rfl⟩ := hasValue_neg.mp h
    have hye : y.isExact = true := by cases y <;> simp_all [Number.isExact]
    rwa [Number.neg_neg_of_isExact hye]
  · cases hasValue_const.mp h
    split
    · exact hasValue_const.mpr rfl
    · exact hasValue_neg.mpr ⟨x, h, rfl⟩
  · exact hasValue_neg.mpr ⟨x, h, rfl⟩

/-- The constructor of reciprocals inverts the value.  Where two reciprocals
cancel, the value may become an integer. -/
theorem hasValue_invert {e : Expr} {x y : Number} (h : HasValue solve args e x)
    (hx : x.isExact = true) (hy : x.inv = .ok y) :
    ∃ z, HasValue solve args (invert e) z ∧ Narrows z y := by
  fun_induction invert e generalizing x y with
  | case1 e =>
    obtain ⟨u, hu, hux⟩ := hasValue_inv.mp h
    exact ⟨u, hu, Number.narrows_of_inv_inv (Number.isExact_of_inv hux hx) hux hy⟩
  | case2 e ih =>
    obtain ⟨u, hu, rfl⟩ := hasValue_neg.mp h
    have hue : u.isExact = true := by simpa using hx
    obtain ⟨w, hw, hwe, rfl⟩ := Number.inv_neg_of_isExact hue hy
    obtain ⟨z, hz, hzw⟩ := ih hu hue hw
    exact ⟨-z, hasValue_negate hz hzw.exact_left, hzw.neg⟩
  | case3 e =>
    exact ⟨y, hasValue_inv.mpr ⟨x, h, hy⟩, .refl (Number.isExact_of_eq_inv hx hy)⟩

/-! ## single nodes -/

/-- The folded opposite has the value of the opposite. -/
theorem hasValue_foldNeg {e : Expr} {x y : Number} (h : HasValue solve args e y)
    (hn : Narrows y x) : HasValue solve args (foldNeg e) (-y) := by
  unfold foldNeg
  split
  · cases hasValue_const.mp h
    exact hasValue_const.mpr rfl
  · exact hasValue_negate h hn.exact_left

/-- The folded reciprocal has the value of the reciprocal. -/
theorem hasValue_foldInv {e : Expr} {x y z : Number} (h : HasValue solve args e y)
    (hn : Narrows y x) (hz : x.inv = .ok z) :
    ∃ e', foldInv e = .ok e' ∧ ∃ w, HasValue solve args e' w ∧ Narrows w z := by
  rw [← hn.inv_eq] at hz
  unfold foldInv
  split
  · cases hasValue_const.mp h
    refine ⟨.const z, by rw [hz]; rfl, z, hasValue_const.mpr rfl, .refl ?_⟩
    exact Number.isExact_of_eq_inv hn.exact_left hz
  · exact ⟨_, rfl, hasValue_invert h hn.exact_left hz⟩

/-- The folded power of integers has the value of the power. -/
theorem hasValue_foldPow {base exponent : Expr} {b p : Int} {x : Number}
    (hb : HasValue solve args base (.integer b))
    (hp : HasValue solve args exponent (.integer p)) (hx : Number.powInt b p = .ok x) :
    ∃ e', foldPow base exponent = .ok e' ∧ ∃ y, HasValue solve args e' y ∧ Narrows y x := by
  have hexact := Number.isExact_powInt hx
  have hpow : HasValue solve args (.pow base exponent) x :=
    hasValue_pow.mpr ⟨_, hb, _, hp, hx⟩
  unfold foldPow
  split
  · cases hasValue_const.mp hb
    cases hasValue_const.mp hp
    rw [Number.pow_integer, hx]
    exact ⟨.const x, rfl, x, hasValue_const.mpr rfl, .refl hexact⟩
  · cases hasValue_const.mp hp
    split
    · rename_i hone
      have hp1 : p = 1 := of_decide_eq_true hone
      subst hp1
      cases Number.eq_integer_of_powInt_one hx
      exact ⟨base, rfl, _, hb, .refl hexact⟩
    · exact ⟨_, rfl, x, hpow, .refl hexact⟩
  · exact ⟨_, rfl, x, hpow, .refl hexact⟩

/-- An exact function, folded, has the value of the function. -/
theorem hasValue_foldApply {f : UnaryFn} (hf : f.isExact = true) {e : Expr} {x y z : Number}
    (h : HasValue solve args e y) (hn : Narrows y x) (hz : f.eval x = .ok z) :
    ∃ e', foldApply f e = .ok e' ∧ ∃ w, HasValue solve args e' w ∧ Narrows w z := by
  obtain ⟨w, hw, hwz⟩ := UnaryFn.eval_narrows hf hn hz
  unfold foldApply
  split
  · cases hasValue_const.mp h
    exact ⟨.const w, by rw [hw]; rfl, w, hasValue_const.mpr rfl, hwz⟩
  · exact ⟨_, rfl, w, hasValue_apply.mpr ⟨y, h, hw⟩, hwz⟩

/-! ## sums and products -/

section combine

variable {fold : List Number → Except NumericError Number} {op : Rat → Rat → Rat} {unit : Rat}
  {node : List Expr → Expr}

/-- The values of a list are those of its members that are not constants, and
its constants. -/
theorem exists_perm_constants {es : List Expr} {xs : List Number}
    (h : List.Forall₂ (HasValue solve args) es xs) :
    ∃ ys, List.Forall₂ (HasValue solve args) (nonConstants es) ys ∧
      xs.Perm (ys ++ constants es) := by
  induction h with
  | nil => exact ⟨[], .nil, .nil⟩
  | @cons e x es xs he _ ih =>
    obtain ⟨ys, hys, hp⟩ := ih
    cases e with
    | const y =>
      cases hasValue_const.mp he
      exact ⟨ys, hys, (hp.cons x).trans List.perm_middle.symm⟩
    | _ => exact ⟨x :: ys, .cons he hys, hp.cons x⟩

/-- Operands gathered into a node come to the total of their values. -/
theorem hasValue_assemble (hf : ExactFold fold op unit)
    (hnode : ∀ {es x}, HasValue solve args (node es) x ↔
      ∃ xs, List.Forall₂ (HasValue solve args) es xs ∧ fold xs = .ok x)
    {rest : List Expr} {ys xs : List Number} {c x : Number} {neutral : Bool}
    (hys : List.Forall₂ (HasValue solve args) rest ys)
    (h : TotalNarrows op unit (ys ++ [c]) xs) (hx : fold xs = .ok x)
    (hn : neutral = true → c.exactValue = unit) :
    ∃ z, HasValue solve args (assemble node rest c neutral) z ∧ Narrows z x := by
  unfold assemble
  split
  · cases hys
    exact ⟨c, hasValue_const.mpr rfl, h.narrows hf hx⟩
  · split
    · rename_i hneutral
      have hdrop := h.drop_unit hf (hn hneutral)
      split
      · cases hys with
        | cons he hes =>
          cases hes
          exact ⟨_, he, hdrop.narrows hf hx⟩
      · obtain ⟨z, hz, hzx⟩ := hdrop.fold_eq hf hx
        exact ⟨z, hnode.mpr ⟨ys, hys, hz⟩, hzx⟩
    · obtain ⟨z, hz, hzx⟩ := h.fold_eq hf hx
      refine ⟨z, hnode.mpr ⟨ys ++ [c], ?_, hz⟩, hzx⟩
      exact List.rel_append hys (.cons (hasValue_const.mpr rfl) .nil)

/-- The constants of a list fold, and may stand for themselves. -/
theorem fold_constants (hf : ExactFold fold op unit) {es : List Expr} {ys xs : List Number}
    (hes : List.Forall₂ (HasValue solve args) es ys) (h : TotalNarrows op unit ys xs) :
    ∃ c, fold (constants es) = .ok c ∧ c.isExact = true ∧
      ∃ zs, List.Forall₂ (HasValue solve args) (nonConstants es) zs ∧
        TotalNarrows op unit (zs ++ [c]) xs := by
  obtain ⟨zs, hzs, hp⟩ := exists_perm_constants hes
  have hperm := h.perm hf hp
  obtain ⟨c, hc, hce, -⟩ := hf.fold_of_isExact fun z hz =>
    hperm.exact_left z (List.mem_append_right zs hz)
  exact ⟨c, hc, hce, zs, hzs, hperm.collect hf hc⟩

end combine

/-- The combined sum has the value of the sum. -/
theorem hasValue_combineSum {es : List Expr} {ys xs : List Number} {x : Number}
    (hes : List.Forall₂ (HasValue solve args) es ys) (h : TotalNarrows (· + ·) 0 ys xs)
    (hx : Number.sum xs = .ok x) :
    ∃ e, combineSum es = .ok e ∧ ∃ z, HasValue solve args e z ∧ Narrows z x := by
  obtain ⟨c, hc, hce, zs, hzs, htotal⟩ := fold_constants exactFold_sum hes h
  refine ⟨_, combineSum_eq_ok_iff.mpr ⟨c, hc, rfl⟩, ?_⟩
  exact hasValue_assemble exactFold_sum hasValue_add hzs htotal hx
    (Number.isZero_iff_of_isExact hce).mp

/-- The combined product has the value of the product. -/
theorem hasValue_combineProduct {es : List Expr} {ys xs : List Number} {x : Number}
    (hes : List.Forall₂ (HasValue solve args) es ys) (h : TotalNarrows (· * ·) 1 ys xs)
    (hx : Number.product xs = .ok x) :
    ∃ e, combineProduct es = .ok e ∧ ∃ z, HasValue solve args e z ∧ Narrows z x := by
  obtain ⟨c, hc, hce, zs, hzs, htotal⟩ := fold_constants exactFold_product hes h
  refine ⟨_, combineProduct_eq_ok_iff.mpr ⟨c, hc, rfl⟩, ?_⟩
  split
  · rename_i hzero
    have hfirst := htotal.perm exactFold_product List.perm_append_comm
    have habsorb := hfirst.absorb ((Number.isZero_iff_of_isExact hce).mp hzero)
    exact ⟨c, hasValue_const.mpr rfl, habsorb.narrows exactFold_product hx⟩
  · exact hasValue_assemble exactFold_product hasValue_mul hzs htotal hx
      (Number.isOne_iff_of_isExact hce).mp

/-- The terms of a tree add up to its value. -/
theorem exists_values_addends {e : Expr} {x y : Number} (h : HasValue solve args e y)
    (hn : Narrows y x) :
    ∃ ys, List.Forall₂ (HasValue solve args) (addends e) ys ∧
      TotalNarrows (· + ·) 0 ys [x] := by
  unfold addends
  split
  · obtain ⟨ys, hys, hsum⟩ := hasValue_add.mp h
    exact ⟨ys, hys, .of_fold exactFold_sum hn hsum⟩
  · refine ⟨[y], .cons h .nil, .of_fold exactFold_sum hn ?_⟩
    exact Number.sum_singleton (Number.isFinite_of_isExact hn.exact_left)

/-- The factors of a tree multiply to its value. -/
theorem exists_values_factorsOf {e : Expr} {x y : Number} (h : HasValue solve args e y)
    (hn : Narrows y x) :
    ∃ ys, List.Forall₂ (HasValue solve args) (factorsOf e) ys ∧
      TotalNarrows (· * ·) 1 ys [x] := by
  unfold factorsOf
  split
  · obtain ⟨ys, hys, hproduct⟩ := hasValue_mul.mp h
    exact ⟨ys, hys, .of_fold exactFold_product hn hproduct⟩
  · refine ⟨[y], .cons h .nil, .of_fold exactFold_product hn ?_⟩
    exact Number.product_singleton (Number.isFinite_of_isExact hn.exact_left)

/-! ## simplified trees -/

/-- The factors left after simplification; a zero is left alone. -/
def Factors.members : Factors → List Expr
  | .zero x => [.const x]
  | .all factors => factors

/-- Factors put in front of others multiply with them, and a zero absorbs
them. -/
theorem exists_values_prepend {r : Factors} {fs : List Expr} {ws ys vs xs : List Number}
    (hfs : List.Forall₂ (HasValue solve args) fs ws) (hw : TotalNarrows (· * ·) 1 ws vs)
    (hr : List.Forall₂ (HasValue solve args) r.members ys)
    (hzero : ∀ z, r = .zero z → z.exactValue = 0) (hy : TotalNarrows (· * ·) 1 ys xs) :
    ∃ zs, List.Forall₂ (HasValue solve args) (r.prepend fs).members zs ∧
      TotalNarrows (· * ·) 1 zs (vs ++ xs) := by
  have happend := hw.append exactFold_product hy
  cases r with
  | zero z =>
    obtain ⟨y, ys, hz, hys, rfl⟩ := List.forall₂_cons_left_iff.mp hr
    cases hasValue_const.mp hz
    cases hys
    have hfirst := happend.perm exactFold_product List.perm_append_comm
    exact ⟨[z], hr, hfirst.absorb (hzero z rfl)⟩
  | all es => exact ⟨ws ++ ys, List.rel_append hfs hr, happend⟩

mutual

/-- An exact run of a tree is one of the simplified tree, on which every value
is the same in no wider representation. -/
theorem simplifyWith_narrows (ha : args.IsExact) : (e : Expr) → e.isExact = true →
    IntegerPowers solve args e → ∀ {x}, HasValue solve args e x →
    ∃ e', (simplifyWith solve e).result = .ok e' ∧
      ∃ y, HasValue solve args e' y ∧ Narrows y x
  | .var v, _, _, x, h => ⟨.var v, rfl, x, h, .refl (ha v x (hasValue_var.mp h))⟩
  | .const c, he, _, x, h => by
    cases hasValue_const.mp h
    exact ⟨.const c, rfl, c, h, .refl he⟩
  | .add terms, he, hp, x, h => by
    obtain ⟨xs, hxs, hx⟩ := hasValue_add.mp h
    obtain ⟨ts, hts, ys, hys, htotal⟩ := simplifyTerms_narrows ha terms he hp hxs
    obtain ⟨e', he', hvalue⟩ := hasValue_combineSum hys htotal hx
    refine ⟨e', ?_, hvalue⟩
    rw [simplifyWith, Logged.result_bind_eq_ok]
    exact ⟨ts, hts, Logged.result_numeric_eq_ok.mpr he'⟩
  | .mul factors, he, hp, x, h => by
    obtain ⟨xs, hxs, hx⟩ := hasValue_mul.mp h
    obtain ⟨r, hr, -, ys, hys, htotal⟩ := simplifyFactors_narrows ha factors he hp hxs
    cases r with
    | zero z =>
      obtain ⟨y, ys, hz, hnil, rfl⟩ := List.forall₂_cons_left_iff.mp hys
      cases hnil
      refine ⟨.const z, ?_, y, hz, htotal.narrows exactFold_product hx⟩
      rw [simplifyWith, Logged.result_bind_eq_ok]
      exact ⟨.zero z, hr, rfl⟩
    | all fs =>
      obtain ⟨e', he', hvalue⟩ := hasValue_combineProduct hys htotal hx
      refine ⟨e', ?_, hvalue⟩
      rw [simplifyWith, Logged.result_bind_eq_ok]
      exact ⟨.all fs, hr, Logged.result_numeric_eq_ok.mpr he'⟩
  | .neg e, he, hp, x, h => by
    obtain ⟨u, hu, rfl⟩ := hasValue_neg.mp h
    obtain ⟨e₁, h₁, y, hy, hyu⟩ := simplifyWith_narrows ha e he hp hu
    refine ⟨foldNeg e₁, ?_, -y, hasValue_foldNeg hy hyu, hyu.neg⟩
    rw [simplifyWith, Logged.result_bind_eq_ok]
    exact ⟨e₁, h₁, rfl⟩
  | .inv e, he, hp, x, h => by
    obtain ⟨u, hu, hux⟩ := hasValue_inv.mp h
    obtain ⟨e₁, h₁, y, hy, hyu⟩ := simplifyWith_narrows ha e he hp hu
    obtain ⟨e', he', hvalue⟩ := hasValue_foldInv hy hyu hux
    refine ⟨e', ?_, hvalue⟩
    rw [simplifyWith, Logged.result_bind_eq_ok]
    exact ⟨e₁, h₁, Logged.result_numeric_eq_ok.mpr he'⟩
  | .pow base exponent, he, hp, x, h => by
    simp only [isExact, Bool.and_eq_true] at he
    obtain ⟨⟨hpb, hpe⟩, ⟨b, hb⟩, ⟨p, hp⟩⟩ := hp
    obtain ⟨b', hb', p', hp', hx⟩ := hasValue_pow.mp h
    cases hb'.unique hb
    cases hp'.unique hp
    obtain ⟨e₁, h₁, y, hy, hyb⟩ := simplifyWith_narrows ha base he.1 hpb hb
    obtain ⟨e₂, h₂, z, hz, hzp⟩ := simplifyWith_narrows ha exponent he.2 hpe hp
    cases hyb.eq_integer
    cases hzp.eq_integer
    obtain ⟨e', he', hvalue⟩ := hasValue_foldPow hy hz hx
    refine ⟨e', ?_, hvalue⟩
    rw [simplifyWith, Logged.result_bind_eq_ok]
    refine ⟨e₁, h₁, ?_⟩
    rw [Logged.result_bind_eq_ok]
    exact ⟨e₂, h₂, Logged.result_numeric_eq_ok.mpr he'⟩
  | .log base power, he, _, _, _ => by cases he
  | .apply f e, he, hp, x, h => by
    simp only [isExact, Bool.and_eq_true] at he
    obtain ⟨u, hu, hux⟩ := hasValue_apply.mp h
    obtain ⟨e₁, h₁, y, hy, hyu⟩ := simplifyWith_narrows ha e he.2 hp hu
    obtain ⟨e', he', hvalue⟩ := hasValue_foldApply he.1 hy hyu hux
    refine ⟨e', ?_, hvalue⟩
    rw [simplifyWith, Logged.result_bind_eq_ok]
    exact ⟨e₁, h₁, he'⟩
  | .goalSeek goal target inversion, he, _, _, _ => by cases he

/-- The terms of an exact run are exact, and simplified ones come to the same
in no wider representation. -/
theorem simplifyTerms_narrows (ha : args.IsExact) : (es : List Expr) → allExact es = true →
    AllIntegerPowers solve args es → ∀ {xs}, List.Forall₂ (HasValue solve args) es xs →
    ∃ ts, (simplifyTerms solve es).result = .ok ts ∧
      ∃ ys, List.Forall₂ (HasValue solve args) ts ys ∧ TotalNarrows (· + ·) 0 ys xs
  | [], _, _, _, .nil => ⟨[], rfl, [], .nil, .nil⟩
  | e :: es, he, hp, _, .cons hx hxs => by
    simp only [allExact, Bool.and_eq_true] at he
    obtain ⟨e', he', y, hy, hyx⟩ := simplifyWith_narrows ha e he.1 hp.1 hx
    obtain ⟨ts, hts, zs, hzs, htotal⟩ := simplifyTerms_narrows ha es he.2 hp.2 hxs
    obtain ⟨ys, hys, hfirst⟩ := exists_values_addends hy hyx
    refine ⟨addends e' ++ ts, ?_, ys ++ zs, List.rel_append hys hzs,
      hfirst.append exactFold_sum htotal⟩
    rw [simplifyTerms, Logged.result_bind_eq_ok]
    refine ⟨e', he', ?_⟩
    rw [Logged.result_bind_eq_ok]
    exact ⟨ts, hts, rfl⟩

/-- The factors of an exact run are exact, and what is left of them multiplies
to the same in no wider representation. -/
theorem simplifyFactors_narrows (ha : args.IsExact) : (es : List Expr) →
    allExact es = true → AllIntegerPowers solve args es →
    ∀ {xs}, List.Forall₂ (HasValue solve args) es xs →
    ∃ r, (simplifyFactors solve es).result = .ok r ∧ (∀ z, r = .zero z → z.exactValue = 0) ∧
      ∃ ys, List.Forall₂ (HasValue solve args) r.members ys ∧ TotalNarrows (· * ·) 1 ys xs
  | [], _, _, _, .nil => ⟨.all [], rfl, nofun, [], .nil, .nil⟩
  | e :: es, he, hp, _, .cons hx hxs => by
    simp only [allExact, Bool.and_eq_true] at he
    obtain ⟨e', he', y, hy, hyx⟩ := simplifyWith_narrows ha e he.1 hp.1 hx
    obtain ⟨r, hr, hzero, zs, hzs, htotal⟩ := simplifyFactors_narrows ha es he.2 hp.2 hxs
    rcases eq_zero_const_or e' with ⟨z, rfl, hz⟩ | hne
    · obtain rfl := hasValue_const.mp hy
      have hz0 := (Number.isZero_iff_of_isExact hyx.exact_left).mp hz
      have happend := (TotalNarrows.singleton hyx).append exactFold_product htotal
      refine ⟨.zero z, simplifyFactors_cons_of_isZero he' hz, ?_, [z], .cons hy .nil,
        happend.absorb hz0⟩
      rintro _ ⟨⟩
      exact hz0
    · obtain ⟨ys, hys, hfirst⟩ := exists_values_factorsOf hy hyx
      refine ⟨r.prepend (factorsOf e'), ?_, ?_, exists_values_prepend hys hfirst hzs hzero htotal⟩
      · rw [simplifyFactors_cons_of_not_isZero he' hne, hr]
        rfl
      · intro z hrz
        cases r with
        | zero w => exact hzero z hrz
        | all fs => cases hrz

end

/-- **Simplification is sound on exact runs.**  Where an exact tree has a value
under exact bindings and raises integers to integers only, its simplified tree
exists and has an equal value, which is an integer whenever the first one is. -/
theorem simplify_exact_run (catalogue : Catalogue) {e : Expr} {v : Number}
    (he : e.isExact = true) (ha : args.IsExact)
    (hp : e.IntegerPowers (e.solver catalogue) args)
    (hv : (e.evaluate catalogue args).result = .ok v) :
    ∃ e' v', (e.simplify catalogue).result = .ok e' ∧
      (e'.evaluate catalogue args).result = .ok v' ∧
      (v' == v) = true ∧ (v.isInteger = true → v'.isInteger = true) := by
  obtain ⟨e', he', v', hv', hn⟩ := simplifyWith_narrows ha e he hp hv
  have hdepth := seekDepth_simplifyWith _ e he'
  refine ⟨e', v', he', ?_, ?_, hn.integer⟩
  · rw [← evaluateWith_solveAt catalogue hdepth]
    exact hv'
  · exact decide_eq_true hn.order_eq

end

/-- A dropped rational zero takes its representation along: `x ^ 2 + 0 / 1` is
the rational `9` at the integer `3`, its simplified tree the integer `9`. -/
theorem simplify_exact_run_square :
    let e := Expr.add [.pow (ofName "x") (ofInt 2), .const (.rational 0)]
    let args := Arguments.single ⟨"x"⟩ (.integer 3)
    ∃ e' v', (e.simplify .empty).result = .ok e' ∧ (e'.evaluate .empty args).result = .ok v' ∧
      (v' == Number.rational 9) = true ∧
      ((Number.rational 9).isInteger = true → v'.isInteger = true) := by
  intro e args
  have hargs : args.IsExact := Arguments.isExact_single rfl
  refine simplify_exact_run .empty (by rfl) hargs ?_ (by with_unfolding_all rfl)
  exact ⟨⟨⟨trivial, trivial⟩, ⟨3, by rfl⟩, ⟨2, by rfl⟩⟩, trivial, trivial⟩

end Expr

end SymCalc
