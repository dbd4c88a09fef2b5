import SymCalc.GoalSeek.Level
import SymCalc.Proofs.Expr.FieldValue
import SymCalc.Real256.Series

/-!
# SymCalc.Proofs.Expr.LostPoints

Points at which a polynomial has a value and its derivative has none.

The power rule leaves `b ^ 0` of a first power `b ^ 1`, and `0 ^ 0` has no value.

1. `PowersIn P e` says that `e` is built like a polynomial, and that `P b n` holds of
   every power `b ^ n` in it; simplification keeps it where `P` allows for a
   simplified base (`powersIn_simplifyWith`);
2. powers to zero in a derivative come from the first powers of the tree that are
   not inside another power (`FirstPower`), as the base of a power is simplified
   before it is differentiated (`powersIn_of_derives`);
3. evaluation at integers ends with an integer, with a power that is too long, or
   with a power to zero whose base vanishes (`endsIn_evaluateWith`).

Main statement: `evaluate_derivative_at_integers`.
-/

namespace SymCalc.Expr

/-! ## powers -/

mutual

/-- The tree is built from variables and integers by sums, products, opposites and
powers to integers, and `P` holds of the base and the exponent of each power. -/
def PowersIn (P : Expr → Int → Prop) : Expr → Prop
  | .var _ => True
  | .const x => x.isInteger = true
  | .add terms => AllPowersIn P terms
  | .mul factors => AllPowersIn P factors
  | .neg e => PowersIn P e
  | .pow base exponent => PowersIn P base ∧ ∃ n, exponent? exponent = some n ∧ P base n
  | .inv _ | .log _ _ | .apply _ _ | .goalSeek _ _ _ => False

/-- All trees of a list are so. -/
def AllPowersIn (P : Expr → Int → Prop) : List Expr → Prop
  | [] => True
  | e :: es => PowersIn P e ∧ AllPowersIn P es

end

section powers

variable {P Q : Expr → Int → Prop}

/-- A list has its powers in `P` if its members do. -/
theorem allPowersIn_iff {es : List Expr} : AllPowersIn P es ↔ ∀ e ∈ es, PowersIn P e := by
  induction es with
  | nil => simp [AllPowersIn]
  | cons e es ih => simp [AllPowersIn, ih]

mutual

/-- A property of the powers may be relaxed. -/
theorem PowersIn.mono (h : ∀ b n, P b n → Q b n) : (e : Expr) → PowersIn P e → PowersIn Q e
  | .var _, _ => trivial
  | .const _, he => he
  | .add terms, he => AllPowersIn.mono h terms he
  | .mul factors, he => AllPowersIn.mono h factors he
  | .neg e, he => PowersIn.mono h e he
  | .pow b _, ⟨hb, n, hn, hP⟩ => ⟨PowersIn.mono h b hb, n, hn, h b n hP⟩

/-- The same for lists. -/
theorem AllPowersIn.mono (h : ∀ b n, P b n → Q b n) : (es : List Expr) → AllPowersIn P es →
    AllPowersIn Q es
  | [], _ => trivial
  | e :: es, ⟨he, hes⟩ => ⟨PowersIn.mono h e he, AllPowersIn.mono h es hes⟩

end

mutual

/-- A polynomial is so built, and its powers are found among its subtrees. -/
theorem powersIn_of_subtree : (e : Expr) → e.isPolynomial = true →
    (∀ b n, b.isPolynomial = true → Subtree (.pow b (ofInt n)) e → P b n) → PowersIn P e
  | .var _, _, _ => trivial
  | .const _, he, _ => he
  | .add terms, he, h => allPowersIn_of_subtree terms he fun b n t ht hb hs =>
    h b n hb (.child ht hs)
  | .mul factors, he, h => allPowersIn_of_subtree factors he fun b n t ht hb hs =>
    h b n hb (.child ht hs)
  | .neg e, he, h => powersIn_of_subtree e he fun b n hb hs =>
    h b n hb (.child List.mem_cons_self hs)
  | .pow b p, he, h => by
    obtain ⟨hb, n, -, rfl⟩ := isPolynomial_pow_iff.mp he
    have hbase := powersIn_of_subtree b hb fun b' m hb' hs =>
      h b' m hb' (.child List.mem_cons_self hs)
    exact ⟨hbase, n, exponent?_ofInt n, h b n hb (.refl _)⟩

/-- The same for lists of polynomials. -/
theorem allPowersIn_of_subtree : (es : List Expr) → allPolynomial es = true →
    (∀ b n, ∀ e ∈ es, b.isPolynomial = true → Subtree (.pow b (ofInt n)) e → P b n) →
    AllPowersIn P es
  | [], _, _ => trivial
  | e :: es, hes, h => by
    obtain ⟨he, hes⟩ := Bool.and_eq_true_iff.mp hes
    exact ⟨powersIn_of_subtree e he fun b n => h b n e List.mem_cons_self,
      allPowersIn_of_subtree es hes fun b n u hu => h b n u (List.mem_cons_of_mem _ hu)⟩

end

/-- An exponent holds no powers of its own. -/
theorem powersIn_of_exponent? {p : Expr} {n : Int} (h : exponent? p = some n) : PowersIn P p := by
  unfold exponent? at h
  split at h
  · exact rfl
  · exact ⟨rfl, rfl, trivial⟩
  · cases h

/-- The property passes on to the parts of a node. -/
theorem PowersIn.child {e c : Expr} (h : PowersIn P e) (hc : c ∈ children e) : PowersIn P c := by
  cases e with
  | var v => cases hc
  | const x => cases hc
  | add terms => exact allPowersIn_iff.mp h c hc
  | mul factors => exact allPowersIn_iff.mp h c hc
  | neg e =>
    rw [List.mem_singleton.mp hc]
    exact h
  | pow b p =>
    obtain ⟨hb, n, hn, -⟩ := h
    have hboth : ∀ u ∈ [b, p], PowersIn P u := by
      rw [List.forall_mem_cons, List.forall_mem_singleton]
      exact ⟨hb, powersIn_of_exponent? hn⟩
    exact hboth c hc
  | inv _ | log _ _ | apply _ _ | goalSeek _ _ _ => exact h.elim

/-- What holds of all powers holds of each. -/
theorem PowersIn.of_subtree {e b : Expr} {n : Int} (h : PowersIn P e)
    (hs : Subtree (.pow b (ofInt n)) e) : P b n := by
  induction hs with
  | refl =>
    obtain ⟨-, m, hm, hP⟩ := h
    cases hm
    exact hP
  | child hc _ ih => exact ih (h.child hc)

/-! ### constructors -/

/-- The terms of a tree have no powers but those of the tree. -/
theorem powersIn_addends {e : Expr} (h : PowersIn P e) : ∀ t ∈ addends e, PowersIn P t := by
  cases hsum : e.isSum with
  | false =>
    rw [addends_of_isSum_eq_false hsum]
    simpa using h
  | true =>
    cases e with
    | add ts => exact allPowersIn_iff.mp h
    | _ => cases hsum

/-- The factors of a tree have no powers but those of the tree. -/
theorem powersIn_factorsOf {e : Expr} (h : PowersIn P e) : ∀ t ∈ factorsOf e, PowersIn P t := by
  cases hproduct : e.isProduct with
  | false =>
    rw [factorsOf_of_isProduct_eq_false hproduct]
    simpa using h
  | true =>
    cases e with
    | mul ts => exact allPowersIn_iff.mp h
    | _ => cases hproduct

/-- A sum has no powers but those of its terms. -/
theorem powersIn_sum {es : List Expr} (h : ∀ e ∈ es, PowersIn P e) : PowersIn P (sum es) := by
  rw [sum, PowersIn, allPowersIn_iff]
  intro t ht
  obtain ⟨e, he, ht⟩ := List.mem_flatMap.mp ht
  exact powersIn_addends (h e he) t ht

/-- A product has no powers but those of its factors. -/
theorem powersIn_product {es : List Expr} (h : ∀ e ∈ es, PowersIn P e) :
    PowersIn P (product es) := by
  rw [product, PowersIn, allPowersIn_iff]
  intro t ht
  obtain ⟨e, he, ht⟩ := List.mem_flatMap.mp ht
  exact powersIn_factorsOf (h e he) t ht

/-- A folded opposite has no powers but those of what it is of. -/
theorem powersIn_foldNeg {e : Expr} (h : PowersIn P e) : PowersIn P (foldNeg e) := by
  cases e with
  | const x => cases x <;> first | rfl | cases h
  | _ => exact h

/-- A sign added or taken away leaves the powers. -/
theorem powersIn_negate {e : Expr} (h : PowersIn P e) : PowersIn P (negate e) := by
  cases e with
  | const x =>
    rw [negate]
    split
    · exact powersIn_foldNeg (e := .const x) h
    · exact h
  | _ => exact h

/-! ### simplification -/

/-- The constants of such trees are integers, and so is what they combine to. -/
theorem isInteger_of_fold {fold : List Number → Except NumericError Number}
    {op : Rat → Rat → Rat} {unit : Rat} (hf : Number.ExactFold fold op unit) {us : List Expr}
    {x : Number} (hus : ∀ u ∈ us, PowersIn P u) (hx : fold (constants us) = .ok x) :
    x.isInteger = true := by
  have hmem : ∀ y ∈ constants us, y.isInteger = true := fun y hy =>
    hus _ ((perm_nonConstants_append us).mem_iff.mpr
      (List.mem_append_right _ (List.mem_map_of_mem hy)))
  obtain ⟨y, hy, -, -, hinteger⟩ :=
    hf.fold_of_isExact fun y hy => Number.isExact_of_isInteger (hmem y hy)
  cases hy.symm.trans hx
  rw [hinteger, List.all_eq_true]
  exact hmem

/-- The sum that terms combine to has no powers but theirs. -/
theorem powersIn_combineSum {us : List Expr} {r : Expr} (hus : ∀ u ∈ us, PowersIn P u)
    (hr : combineSum us = .ok r) : PowersIn P r := by
  obtain ⟨x, hx, rfl⟩ := combineSum_eq_ok_iff.mp hr
  exact assemble_of_forall allPowersIn_iff.mpr (fun u hu => hus u (mem_nonConstants.mp hu).1)
    (isInteger_of_fold Number.exactFold_sum hus hx)

/-- The product that factors combine to has no powers but theirs. -/
theorem powersIn_combineProduct {us : List Expr} {r : Expr} (hus : ∀ u ∈ us, PowersIn P u)
    (hr : combineProduct us = .ok r) : PowersIn P r := by
  obtain ⟨x, hx, rfl⟩ := combineProduct_eq_ok_iff.mp hr
  have hinteger := isInteger_of_fold Number.exactFold_product hus hx
  split
  · exact hinteger
  · exact assemble_of_forall allPowersIn_iff.mpr (fun u hu => hus u (mem_nonConstants.mp hu).1)
      hinteger

/-- A folded power is a number, or the base, or a power of it. -/
theorem powersIn_foldPow [Elementary] {b r : Expr} {n : Int} (hn : 0 ≤ n) (hb : PowersIn P b)
    (hP : P b n) (hr : foldPow b (ofInt n) = .ok r) : PowersIn P r := by
  cases hc : b.isConst with
  | true =>
    obtain ⟨x, rfl⟩ := isConst_eq_true_iff.mp hc
    obtain ⟨m, rfl⟩ := Number.eq_integer_of_isInteger hb
    rw [foldPow, Number.pow_integer] at hr
    cases hy : Number.powInt m n with
    | error err => rw [hy] at hr; cases hr
    | ok y =>
      rw [hy] at hr
      cases hr
      exact (Number.exactValue_powInt hy).2 hn
  | false =>
    rw [foldPow_ofInt hc] at hr
    cases hr
    split
    · exact hb
    · exact ⟨hb, n, exponent?_ofInt n, hP⟩

/-- What is left of factors is so built. -/
def Factors.PowersIn (P : Expr → Int → Prop) : Factors → Prop
  | .zero x => x.isInteger = true
  | .all factors => ∀ f ∈ factors, Expr.PowersIn P f

/-- Further factors in front of what is left of the others. -/
theorem Factors.PowersIn.prepend {es : List Expr} {fs : Factors}
    (hes : ∀ e ∈ es, Expr.PowersIn P e) (h : fs.PowersIn P) : (fs.prepend es).PowersIn P := by
  cases fs with
  | zero x => exact h
  | all factors => exact List.forall_mem_append.mpr ⟨hes, h⟩

/-- A property of powers of polynomials to exponents from zero on that the
simplified base has, too. -/
structure IsStable (P : Expr → Int → Prop) : Prop where
  polynomial : ∀ {b n}, P b n → b.isPolynomial = true
  nonneg : ∀ {b n}, P b n → 0 ≤ n
  keeps : ∀ {b r n}, P b n → Keeps b r → P r n

variable [Elementary] {solve : GoalSolver}

mutual

/-- **Simplification keeps what holds of all powers.** -/
theorem powersIn_simplifyWith (hP : IsStable P) : (e : Expr) → PowersIn P e → {r : Expr} →
    (simplifyWith solve e).result = .ok r → PowersIn P r
  | .var _, h, _, hr => by
    cases hr
    exact h
  | .const _, h, _, hr => by
    cases hr
    exact h
  | .add terms, h, _, hr => by
    obtain ⟨ts, hts, hr⟩ := Logged.result_bind_eq_ok.mp hr
    exact powersIn_combineSum (powersIn_simplifyTerms hP terms h hts)
      (Logged.result_numeric_eq_ok.mp hr)
  | .mul factors, h, _, hr => by
    obtain ⟨fs, hfs, hr⟩ := Logged.result_bind_eq_ok.mp hr
    have hall := powersIn_simplifyFactors hP factors h hfs
    cases fs with
    | zero x =>
      cases hr
      exact hall
    | all ts => exact powersIn_combineProduct hall (Logged.result_numeric_eq_ok.mp hr)
  | .neg e, h, _, hr => by
    obtain ⟨s, hs, hr⟩ := Logged.result_bind_eq_ok.mp hr
    cases hr
    exact powersIn_foldNeg (powersIn_simplifyWith hP e h hs)
  | .pow b p, ⟨hb, n, hn, hbn⟩, _, hr => by
    obtain ⟨s, hs, hr⟩ := Logged.result_bind_eq_ok.mp hr
    obtain ⟨t, ht, hr⟩ := Logged.result_bind_eq_ok.mp hr
    cases (simplifyWith_of_exponent? hn).symm.trans ht
    have hkeeps := keeps_simplifyWith b (staysExact_of_isPolynomial b (hP.polynomial hbn)) hs
    exact powersIn_foldPow (hP.nonneg hbn) (powersIn_simplifyWith hP b hb hs)
      (hP.keeps hbn hkeeps) (Logged.result_numeric_eq_ok.mp hr)

/-- The same for the terms of a sum. -/
theorem powersIn_simplifyTerms (hP : IsStable P) : (es : List Expr) → AllPowersIn P es →
    {ts : List Expr} → (simplifyTerms solve es).result = .ok ts → ∀ t ∈ ts, PowersIn P t
  | [], _, _, hr => by
    cases hr
    simp
  | e :: es, ⟨he, hes⟩, _, hr => by
    obtain ⟨s, hs, hr⟩ := Logged.result_bind_eq_ok.mp hr
    obtain ⟨ts, hts, hr⟩ := Logged.result_bind_eq_ok.mp hr
    cases hr
    exact List.forall_mem_append.mpr ⟨powersIn_addends (powersIn_simplifyWith hP e he hs),
      powersIn_simplifyTerms hP es hes hts⟩

/-- The same for the factors of a product. -/
theorem powersIn_simplifyFactors (hP : IsStable P) : (es : List Expr) → AllPowersIn P es →
    {fs : Factors} → (simplifyFactors solve es).result = .ok fs → fs.PowersIn P
  | [], _, _, hr => by
    cases hr
    exact fun f hf => absurd hf List.not_mem_nil
  | e :: es, ⟨he, hes⟩, _, hr => by
    rcases simplifyFactors_cons_eq_ok hr with ⟨x, hs, -, rfl⟩ | ⟨s, rest, hs, hrest, rfl⟩
    · exact powersIn_simplifyWith hP e he hs
    · exact .prepend (powersIn_factorsOf (powersIn_simplifyWith hP e he hs))
        (powersIn_simplifyFactors hP es hes hrest)

end

end powers

/-! ## first powers -/

/-- The first power of `b` occurs in the tree, and not inside another power. -/
inductive FirstPower : Expr → Expr → Prop
  | pow {b p} : exponent? p = some 1 → FirstPower (.pow b p) b
  | add {t ts b} : t ∈ ts → FirstPower t b → FirstPower (.add ts) b
  | mul {t ts b} : t ∈ ts → FirstPower t b → FirstPower (.mul ts) b
  | neg {e b} : FirstPower e b → FirstPower (.neg e) b

/-- A first power in the later terms of a sum is one in the sum. -/
theorem FirstPower.add_cons {e b : Expr} {es : List Expr} (h : FirstPower (.add es) b) :
    FirstPower (.add (e :: es)) b := by
  cases h with
  | add ht h => exact .add (List.mem_cons_of_mem _ ht) h

/-- A first power in the later factors of a product is one in the product. -/
theorem FirstPower.mul_cons {e b : Expr} {es : List Expr} (h : FirstPower (.mul es) b) :
    FirstPower (.mul (e :: es)) b := by
  cases h with
  | mul ht h => exact .mul (List.mem_cons_of_mem _ ht) h

/-- The base of a first power is nested no deeper than the tree. -/
theorem FirstPower.seekDepth_le {e b : Expr} (h : FirstPower e b) :
    b.seekDepth ≤ e.seekDepth := by
  induction h with
  | pow _ => simp only [seekDepth, Nat.le_max_left]
  | add ht _ ih => exact Nat.le_trans ih (seekDepth_le_of_mem ht)
  | mul ht _ ih => exact Nat.le_trans ih (seekDepth_le_of_mem ht)
  | neg _ ih => exact ih

/-- Simplification leaves no first power. -/
theorem not_firstPower_of_normal {e b : Expr} (h : Normal e) : ¬FirstPower e b := by
  intro hfirst
  induction hfirst with
  | @pow b p hp =>
    obtain ⟨⟨-, hnormal⟩, -, hone⟩ := h
    unfold exponent? at hp
    split at hp
    · cases hp
      exact absurd (hone _ rfl) (by simp [Number.isOne])
    · -- a difference of two numbers is not simplified
      have hneg := allNormal_iff.mp hnormal.1 _ (List.mem_cons_of_mem _ List.mem_cons_self)
      cases hneg.2.1
    · cases hp
  | add ht _ ih => exact ih (allNormal_iff.mp h.1 _ ht)
  | mul ht _ ih => exact ih (allNormal_iff.mp h.1 _ ht)
  | neg _ ih => exact ih h.1

/-- The powers a polynomial is made of: polynomials to exponents from one on. -/
structure IsPower (b : Expr) (n : Int) : Prop where
  polynomial : b.isPolynomial = true
  positive : 1 ≤ n

/-- The powers of a derivative: where the exponent is zero, the base stands for that
of a first power which depends on the variable. -/
structure LoweredFrom (e : Expr) (v : Variable) (b : Expr) (n : Int) : Prop where
  polynomial : b.isPolynomial = true
  nonneg : 0 ≤ n
  origin : n = 0 → ∃ b₀, FirstPower e b₀ ∧ b₀.isConstant v = false ∧ Keeps b₀ b

/-- Powers of polynomials remain such when their bases are simplified. -/
theorem isStable_isPower : IsStable IsPower where
  polynomial h := h.polynomial
  nonneg h := le_trans zero_le_one h.positive
  keeps h hkeeps := ⟨hkeeps.polynomial h.polynomial, h.positive⟩

/-- Powers of a derivative remain such when their bases are simplified. -/
theorem isStable_loweredFrom (e : Expr) (v : Variable) : IsStable (LoweredFrom e v) where
  polynomial h := h.polynomial
  nonneg h := h.nonneg
  keeps h hkeeps := by
    refine ⟨hkeeps.polynomial h.polynomial, h.nonneg, fun hn => ?_⟩
    obtain ⟨b₀, hfirst, hc, hkeeps₀⟩ := h.origin hn
    exact ⟨b₀, hfirst, hc, hkeeps₀.trans hkeeps⟩

section derivatives

variable {solve : GoalSolver} {v : Variable}

/-- The powers that were there stay above zero. -/
theorem PowersIn.lowered {e t : Expr} (h : PowersIn IsPower t) : PowersIn (LoweredFrom e v) t :=
  PowersIn.mono (fun _ _ hb => ⟨hb.polynomial, le_trans zero_le_one hb.positive,
    fun hn => absurd hb.positive (by omega)⟩) t h

/-- First powers of a part are first powers of the whole. -/
theorem PowersIn.lowered_of_firstPower {e e' d : Expr}
    (h : ∀ b, FirstPower e b → FirstPower e' b) (hd : PowersIn (LoweredFrom e v) d) :
    PowersIn (LoweredFrom e' v) d := by
  refine PowersIn.mono (fun b n hb => ⟨hb.polynomial, hb.nonneg, fun hn => ?_⟩) d hd
  obtain ⟨b₀, hfirst, hc, hkeeps⟩ := hb.origin hn
  exact ⟨b₀, h b₀ hfirst, hc, hkeeps⟩

/-- An exponent does not depend on any variable. -/
theorem isConstant_of_exponent? {p : Expr} {n : Int} (h : exponent? p = some n) :
    p.isConstant v = true := by
  unfold exponent? at h
  split at h
  · rfl
  · rfl
  · cases h

/-- The power rule lowers a first power to a power to zero, and other powers to
powers above zero. -/
theorem powersIn_powerRule [Elementary] {base b p db : Expr} {n : Int}
    (hbase : PowersIn IsPower (.pow base p)) (hn : exponent? p = some n)
    (hc : base.isConstant v = false) (hb : (simplifyWith solve base).result = .ok b)
    (hdb : PowersIn (LoweredFrom b v) db) :
    PowersIn (LoweredFrom (.pow base p) v) (product [ofInt n, lowerPower b (ofInt n), db]) := by
  obtain ⟨hpowers, m, hm, hpower⟩ := hbase
  cases hn.symm.trans hm
  have hkeeps := keeps_simplifyWith base (staysExact_of_isPolynomial base hpower.polynomial) hb
  have hnormal : Normal b := normal_simplifyWith base hb
  have hlower : PowersIn (LoweredFrom (.pow base p) v) (lowerPower b (ofInt n)) := by
    refine ⟨(powersIn_simplifyWith isStable_isPower base hpowers hb).lowered, n - 1,
      exponent?_sub_one n, hkeeps.polynomial hpower.polynomial, ?_, fun hzero => ?_⟩
    · have := hpower.positive
      omega
    · obtain rfl : n = 1 := by omega
      exact ⟨base, .pow hn, hc, hkeeps⟩
  have hinner : PowersIn (LoweredFrom (.pow base p) v) db :=
    hdb.lowered_of_firstPower fun b₀ hfirst => absurd hfirst (not_firstPower_of_normal hnormal)
  apply powersIn_product
  rw [List.forall_mem_cons, List.forall_mem_cons, List.forall_mem_singleton]
  exact ⟨rfl, hlower, hinner⟩

variable [Elementary]

mutual

/-- **Powers to zero come from first powers.** -/
theorem powersIn_of_derives {e d : Expr} : Derives solve v e d → PowersIn IsPower e →
    PowersIn (LoweredFrom e v) d
  | .constant _, _ => rfl
  | .var, _ => rfl
  | .add _ h, he =>
    powersIn_sum (powersIn_of_derivesTerms h (allPowersIn_iff.mp he))
  | .mul _ h, he =>
    powersIn_sum (powersIn_of_derivesFactors h (by simp) (allPowersIn_iff.mp he))
  | .neg _ h, he =>
    (powersIn_negate (powersIn_of_derives h he)).lowered_of_firstPower fun _ => .neg
  | .pow_constant .., _ => rfl
  | .pow_base hc hb hp _ _ h, he => by
    obtain ⟨hbase, n, hn, -⟩ := id he
    cases (simplifyWith_of_exponent? hn).symm.trans hp
    rw [isConstant, isConstant_of_exponent? hn, Bool.and_true] at hc
    exact powersIn_powerRule he hn hc hb
      (powersIn_of_derives h (powersIn_simplifyWith isStable_isPower _ hbase hb))
  -- the exponent is a number, and so constant
  | .pow_exponent _ _ hp _ hpc _, ⟨_, n, hn, _⟩ => by
    cases (simplifyWith_of_exponent? hn).symm.trans hp
    cases hpc
  | .pow_both _ _ hp _ hpc _ _, ⟨_, n, hn, _⟩ => by
    cases (simplifyWith_of_exponent? hn).symm.trans hp
    cases hpc

/-- The same for the derivatives of terms. -/
theorem powersIn_of_derivesTerms {es ds : List Expr} : DerivesTerms solve v es ds →
    (∀ e ∈ es, PowersIn IsPower e) → ∀ d ∈ ds, PowersIn (LoweredFrom (.add es) v) d
  | .nil, _ => by simp
  | .cons h hs, hes => by
    rw [List.forall_mem_cons] at hes
    refine List.forall_mem_cons.mpr ⟨?_, fun d hd => ?_⟩
    · exact (powersIn_of_derives h hes.1).lowered_of_firstPower fun _ => .add List.mem_cons_self
    · exact (powersIn_of_derivesTerms hs hes.2 d hd).lowered_of_firstPower
        fun b => FirstPower.add_cons

/-- The same for the terms of the product rule. -/
theorem powersIn_of_derivesFactors {before es ds : List Expr} :
    DerivesFactors solve v before es ds → (∀ e ∈ before, PowersIn IsPower e) →
    (∀ e ∈ es, PowersIn IsPower e) → ∀ d ∈ ds, PowersIn (LoweredFrom (.mul es) v) d
  | .nil, _, _, _, hd => absurd hd List.not_mem_nil
  | .skip _ hs, hbefore, hes, d, hd => by
    rw [List.forall_mem_cons] at hes
    have hbefore' := List.forall_mem_append.mpr ⟨hbefore, List.forall_mem_singleton.mpr hes.1⟩
    exact (powersIn_of_derivesFactors hs hbefore' hes.2 d hd).lowered_of_firstPower
      fun b => FirstPower.mul_cons
  | .cons _ h hs, hbefore, hes, d, hd => by
    rw [List.forall_mem_cons] at hes
    have hbefore' := List.forall_mem_append.mpr ⟨hbefore, List.forall_mem_singleton.mpr hes.1⟩
    rcases List.mem_cons.mp hd with rfl | hd
    · apply powersIn_product
      rw [List.forall_mem_cons, List.forall_mem_append]
      refine ⟨?_, fun u hu => (hbefore u hu).lowered, fun u hu => (hes.2 u hu).lowered⟩
      exact (powersIn_of_derives h hes.1).lowered_of_firstPower fun _ => .mul List.mem_cons_self
    · exact (powersIn_of_derivesFactors hs hbefore' hes.2 d hd).lowered_of_firstPower
        fun b => FirstPower.mul_cons

end

/-- The simplified derivative has no other powers to zero, either. -/
theorem powersIn_derivativeWith {e d : Expr} (he : PowersIn IsPower e)
    (h : (derivativeWith solve v e).result = .ok d) : PowersIn (LoweredFrom e v) d := by
  obtain ⟨d₁, h₁, h⟩ := Logged.result_bind_eq_ok.mp h
  exact powersIn_simplifyWith (isStable_loweredFrom e v) d₁
    (powersIn_of_derives (derives_of_derive h₁) he) h

end derivatives

/-! ## evaluation at integers -/

/-- The run ends in `good` data, or with an error that is allowed. -/
def EndsIn {α : Type} (allowed : Error → Prop) (good : α → Prop) : Except Error α → Prop
  | .ok a => good a
  | .error err => allowed err

/-- One step after another. -/
theorem EndsIn.bind {α β : Type} {allowed : Error → Prop} {good : α → Prop} {good' : β → Prop}
    {run : Logged Error α} {f : α → Logged Error β} (h : EndsIn allowed good run.result)
    (hf : ∀ a, good a → EndsIn allowed good' (f a).result) :
    EndsIn allowed good' (run >>= f).result := by
  rw [Logged.result_bind]
  cases hrun : run.result with
  | error err =>
    rw [hrun] at h
    exact h
  | ok a =>
    rw [hrun] at h
    exact hf a h

/-- The number is the integer that is the value of the tree. -/
def IsValue (pt : Variable → Int) (e : Expr) (x : Number) : Prop :=
  ∃ n : Int, x = .integer n ∧ (n : Rat) = fieldValue (fun v => (pt v : Rat)) e

/-- A power is too long, or it is a power to zero, one of those that `P` admits,
whose base vanishes. -/
def FailsAt (pt : Variable → Int) (P : Expr → Int → Prop) (err : Error) : Prop :=
  err = .numeric .precisionLimitExceeded ∨
    err = .numeric .invalidPower ∧ ∃ b, P b 0 ∧ fieldValue (fun v => (pt v : Rat)) b = 0

section evaluation

variable {solve : GoalSolver} {args : Arguments} {pt : Variable → Int} {P : Expr → Int → Prop}

/-- Integers found one by one. -/
theorem exists_map_integer {es : List Expr} {xs : List Number}
    (h : List.Forall₂ (IsValue pt) es xs) :
    ∃ ns : List Int, xs = ns.map .integer ∧
      ns.map (Int.cast : Int → Rat) = es.map (fieldValue fun v => (pt v : Rat)) := by
  induction h with
  | nil => exact ⟨[], rfl, rfl⟩
  | cons hx _ ih =>
    obtain ⟨n, rfl, hn⟩ := hx
    obtain ⟨ns, rfl, hns⟩ := ih
    exact ⟨n :: ns, rfl, by rw [List.map_cons, List.map_cons, hn, hns]⟩

/-- A sum of values is the value of the sum. -/
theorem endsIn_sum {es : List Expr} {xs : List Number} (h : List.Forall₂ (IsValue pt) es xs) :
    EndsIn (FailsAt pt P) (IsValue pt (.add es))
      (Logged.numeric (Number.sum xs) : Logged Error Number).result := by
  obtain ⟨ns, rfl, hns⟩ := exists_map_integer h
  rw [Number.sum_integers]
  refine ⟨_, rfl, ?_⟩
  rw [fieldValue_add, ← hns, ← List.sum_eq_foldl, Int.cast_list_sum]

/-- A product of values is the value of the product. -/
theorem endsIn_product {es : List Expr} {xs : List Number}
    (h : List.Forall₂ (IsValue pt) es xs) :
    EndsIn (FailsAt pt P) (IsValue pt (.mul es))
      (Logged.numeric (Number.product xs) : Logged Error Number).result := by
  obtain ⟨ns, rfl, hns⟩ := exists_map_integer h
  rw [Number.product_integers]
  refine ⟨_, rfl, ?_⟩
  rw [fieldValue_mul, ← hns, ← List.prod_eq_foldl, Int.cast_list_prod]

variable [Elementary]

/-- A power of integers has the value of the power, or it is too long, or it is zero to the
exponent zero. -/
theorem endsIn_pow {b p : Expr} {n m : Int} (hn : exponent? p = some n) (hn0 : 0 ≤ n)
    (hb : P b n) (hm : (m : Rat) = fieldValue (fun v => (pt v : Rat)) b) :
    EndsIn (FailsAt pt P) (IsValue pt (.pow b p))
      (Logged.numeric ((Number.integer m).pow (.integer n)) : Logged Error Number).result := by
  rw [Number.pow_integer]
  rcases Number.powInt_cases m hn0 with ⟨k, hk, hvalue⟩ | hlong | ⟨hzero, rfl, rfl⟩
  · rw [hk]
    refine ⟨k, rfl, ?_⟩
    rw [fieldValue, hn, ← hm, hvalue]
    rfl
  · rw [hlong]
    exact .inl rfl
  · rw [hzero]
    exact .inr ⟨rfl, b, hb, by simpa using hm.symm⟩

mutual

/-- **Evaluation at integers ends with the value, or in a power that has none.** -/
theorem endsIn_evaluateWith (hP : IsStable P) : (e : Expr) → PowersIn P e →
    VarsIn (fun v => args.get? v = some (.integer (pt v))) e →
    EndsIn (FailsAt pt P) (IsValue pt e) (evaluateWith solve args e).result
  | .var v, _, hargs => by
    rw [evaluateWith, varsIn_var.mp hargs]
    exact ⟨pt v, rfl, rfl⟩
  | .const x, he, _ => by
    obtain ⟨n, rfl⟩ := Number.eq_integer_of_isInteger he
    exact ⟨n, rfl, by simp [Number.exactValue]⟩
  | .add terms, he, hargs => by
    rw [evaluateWith]
    exact (endsIn_evaluateAllWith hP terms he (varsIn_add.mp hargs)).bind fun _ => endsIn_sum
  | .mul factors, he, hargs => by
    rw [evaluateWith]
    exact (endsIn_evaluateAllWith hP factors he (varsIn_mul.mp hargs)).bind
      fun _ => endsIn_product
  | .neg e, he, hargs => by
    rw [evaluateWith]
    refine (endsIn_evaluateWith hP e he (varsIn_neg.mp hargs)).bind fun x hx => ?_
    obtain ⟨n, rfl, hn⟩ := hx
    exact ⟨-n, rfl, by rw [fieldValue, ← hn, Int.cast_neg]⟩
  | .pow b p, ⟨hb, n, hn, hbn⟩, hargs => by
    rw [evaluateWith]
    refine (endsIn_evaluateWith hP b hb (varsIn_pow.mp hargs).1).bind fun x hx => ?_
    obtain ⟨m, rfl, hm⟩ := hx
    have hexponent : (evaluateWith solve args p).result = .ok (.integer n) :=
      hasValue_of_exponent? hn
    rw [Logged.result_bind, hexponent]
    exact endsIn_pow hn (hP.nonneg hbn) hbn hm

/-- The same for the members of a list. -/
theorem endsIn_evaluateAllWith (hP : IsStable P) : (es : List Expr) → AllPowersIn P es →
    (∀ e ∈ es, VarsIn (fun v => args.get? v = some (.integer (pt v))) e) →
    EndsIn (FailsAt pt P) (List.Forall₂ (IsValue pt) es) (evaluateAllWith solve args es).result
  | [], _, _ => .nil
  | e :: es, ⟨he, hes⟩, hargs => by
    rw [List.forall_mem_cons] at hargs
    rw [evaluateAllWith]
    refine (endsIn_evaluateWith hP e he hargs.1).bind fun x hx => ?_
    exact (endsIn_evaluateAllWith hP es hes hargs.2).bind fun xs hxs => .cons hx hxs

end

/-- Where a polynomial has a value, so have the bases of its first powers. -/
theorem exists_hasValue_of_firstPower {e b : Expr} {x : Number} {p : Variable → Prop}
    (h : FirstPower e b) (he : e.isPolynomial = true) (hvars : VarsIn p e)
    (hx : HasValue solve args e x) :
    b.isPolynomial = true ∧ VarsIn p b ∧ ∃ y, HasValue solve args b y := by
  induction h generalizing x with
  | pow _ =>
    obtain ⟨y, hy, -⟩ := hasValue_pow.mp hx
    exact ⟨(isPolynomial_pow_iff.mp he).1, (varsIn_pow.mp hvars).1, y, hy⟩
  | add ht _ ih =>
    obtain ⟨xs, hxs, -⟩ := hasValue_add.mp hx
    obtain ⟨y, hy⟩ := exists_hasValue_of_mem hxs ht
    exact ih (allPolynomial_iff.mp he _ ht) (varsIn_add.mp hvars _ ht) hy
  | mul ht _ ih =>
    obtain ⟨xs, hxs, -⟩ := hasValue_mul.mp hx
    obtain ⟨y, hy⟩ := exists_hasValue_of_mem hxs ht
    exact ih (allPolynomial_iff.mp he _ ht) (varsIn_mul.mp hvars _ ht) hy
  | neg _ ih =>
    obtain ⟨y, hy, -⟩ := hasValue_neg.mp hx
    exact ih he (varsIn_neg.mp hvars) hy

/-- The base of a first power that vanishes is found to be zero. -/
theorem hasValue_zero_of_firstPower {e b : Expr} {x : Number} (h : FirstPower e b)
    (he : e.isPolynomial = true)
    (hargs : VarsIn (fun v => args.get? v = some (.integer (pt v))) e)
    (hx : HasValue solve args e x) (hzero : fieldValue (fun v => (pt v : Rat)) b = 0) :
    HasValue solve args b (.integer 0) := by
  obtain ⟨hb, hvars, y, hy⟩ := exists_hasValue_of_firstPower h he hargs hx
  obtain ⟨-, hvalue, hinteger⟩ :=
    computes_of_hasValue b (staysExact_of_isPolynomial b hb) hvars hy
  obtain ⟨n, rfl⟩ := Number.eq_integer_of_isInteger (hinteger hb)
  have hn : (n : Rat) = 0 := hvalue.trans hzero
  rwa [Int.cast_eq_zero.mp hn] at hy

end evaluation

/-! ## derivatives at integers -/

/-- **The derivative of a polynomial has no value only where a power is too long or
the base of a first power vanishes.**  Let `e` be a polynomial whose exponents are
one at least, with a value where its variables are bound to integers.  Evaluation of
its derivative at this point ends

1. with an integer;
2. at a power too long to write down;
3. or in `0 ^ 0`, and then `e` has a first power, not inside another power, whose
   base depends on the variable and is zero at the point. -/
theorem evaluate_derivative_at_integers [Elementary] (catalogue : Catalogue) {e d : Expr}
    {wrt : Variable}
    {args : Arguments} {pt : Variable → Int} {x : Number} (he : e.isPolynomial = true)
    (hpositive : ∀ b n, Subtree (.pow b (ofInt n)) e → 1 ≤ n)
    (hargs : ∀ w ∈ e.freeVars, args.get? w = some (.integer (pt w)))
    (hx : (e.evaluate catalogue args).result = .ok x)
    (hd : (e.derivative catalogue wrt).result = .ok d) :
    (∃ n, (d.evaluate catalogue args).result = .ok (.integer n)) ∨
      (d.evaluate catalogue args).result = .error (.numeric .precisionLimitExceeded) ∨
      (d.evaluate catalogue args).result = .error (.numeric .invalidPower) ∧
        ∃ b, FirstPower e b ∧ b.isConstant wrt = false ∧
          (b.evaluate catalogue args).result = .ok (.integer 0) := by
  have hpowers : PowersIn IsPower e :=
    powersIn_of_subtree e he fun b n hb hs => ⟨hb, hpositive b n hs⟩
  have hlowered := powersIn_derivativeWith hpowers hd
  have hvars : VarsIn (fun w => args.get? w = some (.integer (pt w))) d :=
    VarsIn.derivativeWith hargs hd
  have hends : EndsIn (FailsAt pt (LoweredFrom e wrt)) (IsValue pt d)
      (d.evaluate catalogue args).result :=
    endsIn_evaluateWith (isStable_loweredFrom e wrt) d hlowered hvars
  cases hresult : (d.evaluate catalogue args).result with
  | ok y =>
    rw [hresult] at hends
    obtain ⟨n, rfl, -⟩ := hends
    exact .inl ⟨n, rfl⟩
  | error err =>
    rw [hresult] at hends
    rcases hends with rfl | ⟨rfl, b, hb, hzero⟩
    · exact .inr (.inl rfl)
    · obtain ⟨b₀, hfirst, hc, hkeeps⟩ := hb.origin rfl
      have hzero₀ : fieldValue (fun v => (pt v : Rat)) b₀ = 0 := by
        rw [← hkeeps.value, hzero]
      have hvalue := hasValue_zero_of_firstPower hfirst he hargs hx hzero₀
      refine .inr (.inr ⟨rfl, b₀, hfirst, hc, ?_⟩)
      rw [← evaluateWith_solveAt catalogue hfirst.seekDepth_le]
      exact hvalue

/-- The derivative of `x ^ 2 + (x - y) ^ 1` has no value where `x` and `y` are
equal. -/
theorem evaluate_derivative_at_integers_diagonal :
    let e := Expr.add [.pow (ofName "x") (ofInt 2),
      .pow (.add [ofName "x", .neg (ofName "y")]) (ofInt 1)]
    let args : Arguments := ⟨[(⟨"x"⟩, .integer 3), (⟨"y"⟩, .integer 3)]⟩
    (e.evaluate .empty args).result = .ok (.integer 9) ∧
      ∃ d, (e.derivative .empty ⟨"x"⟩).result = .ok d ∧
        (d.evaluate .empty args).result = .error (.numeric .invalidPower) ∧
        ∃ b, FirstPower e b ∧ b.isConstant ⟨"x"⟩ = false ∧
          (b.evaluate .empty args).result = .ok (.integer 0) := by
  intro e args
  have hpowers : PowersIn (fun _ n => 1 ≤ n) e :=
    ⟨⟨trivial, 2, rfl, by decide⟩, ⟨⟨trivial, trivial, trivial⟩, 1, rfl, by decide⟩, trivial⟩
  have hargs : VarsIn (fun w => args.get? w = some (.integer 3)) e := by
    have hx : args.get? ⟨"x"⟩ = some (.integer 3) := rfl
    have hy : args.get? ⟨"y"⟩ = some (.integer 3) := rfl
    simp [e, hx, hy]
  obtain ⟨d, hd, hlost⟩ : ∃ d, (e.derivative .empty ⟨"x"⟩).result = .ok d ∧
      (d.evaluate .empty args).result = .error (.numeric .invalidPower) := by
    refine ⟨.add [.mul [ofName "x", ofInt 2],
      .pow (.add [ofName "x", .neg (ofName "y")]) (ofInt 0)], ?_, ?_⟩
    · with_unfolding_all rfl
    · with_unfolding_all rfl
  have hx : (e.evaluate .empty args).result = .ok (.integer 9) := by
    with_unfolding_all rfl
  refine ⟨hx, d, hd, hlost, ?_⟩
  rcases evaluate_derivative_at_integers .empty (by rfl)
    (fun _ _ => hpowers.of_subtree) hargs hx hd with
    ⟨n, hn⟩ | hlong | ⟨-, h⟩
  · rw [hlost] at hn
    cases hn
  · rw [hlost] at hlong
    cases hlong
  · exact h

end SymCalc.Expr
