import SymCalc.GoalSeek.Solve
import SymCalc.Real256.Series

/-!
# SymCalc.Proofs.Expr.Normal

The normal form of simplified trees.

1. `Normal e` lists what a simplified tree does not hold anywhere: a sum or
   product that is not flat, a neutral constant, or a node that could be folded;
2. what simplification or currying leaves is normal (`normal_simplifyWith`,
   `normal_curryWith`);
3. a normal tree is left as it is, in all its number representations, by both
   (`simplifyWith_of_normal`, `curryWith_empty_of_normal`).

Main statements: simplified trees are the normal ones
(`exists_simplify_eq_ok_iff`), and simplifying twice is simplifying once
(`simplify_of_simplify`).
-/

namespace SymCalc

/-! ## sums and products are finite -/

namespace Number

/-- Folding reals ends in a finite one. -/
theorem isFinite_foldReals {op : Real256 → Real256 → Real256} {empty : Number}
    (h : empty.isFinite = true) (rs : List Real256) : (foldReals op empty rs).isFinite = true := by
  cases rs with
  | nil => exact h
  | cons r rs => rfl

/-- A sum is finite, as infinite operands are turned away. -/
theorem isFinite_of_sum_eq_ok {xs : List Number} {x : Number} (h : sum xs = .ok x) :
    x.isFinite = true := by
  unfold sum at h
  cases hops : Operands.unify xs with
  | error err => rw [hops] at h; cases h
  | ok ops =>
    rw [hops] at h
    cases ops with
    | integers ns => cases h; rfl
    | rationals qs => cases h; rfl
    | reals rs => cases h; exact isFinite_foldReals rfl rs

/-- A product is finite, too. -/
theorem isFinite_of_product_eq_ok {xs : List Number} {x : Number} (h : product xs = .ok x) :
    x.isFinite = true := by
  unfold product at h
  cases hops : Operands.unify xs with
  | error err => rw [hops] at h; cases h
  | ok ops =>
    rw [hops] at h
    cases ops with
    | integers ns => cases h; rfl
    | rationals qs => cases h; rfl
    | reals rs => cases h; exact isFinite_foldReals rfl rs

end Number

namespace Expr

/-! ## kinds of nodes -/

/-- A number. -/
def isConst : Expr → Bool
  | .const _ => true
  | _ => false

/-- A product. -/
def isProduct : Expr → Bool
  | .mul _ => true
  | _ => false

/-- A negation. -/
def isNegation : Expr → Bool
  | .neg _ => true
  | _ => false

/-- A reciprocal. -/
def isReciprocal : Expr → Bool
  | .inv _ => true
  | _ => false

/-- Constants are the nodes of this kind. -/
theorem isConst_eq_true_iff {e : Expr} : e.isConst = true ↔ ∃ x, e = .const x := by
  cases e <;> simp [isConst]

/-- What is no sum is a single term. -/
theorem addends_of_isSum_eq_false {e : Expr} (h : e.isSum = false) : addends e = [e] := by
  cases e <;> first | rfl | cases h

/-- What is no product is a single factor. -/
theorem factorsOf_of_isProduct_eq_false {e : Expr} (h : e.isProduct = false) :
    factorsOf e = [e] := by
  cases e <;> first | rfl | cases h

/-- Terms without sums among them stay as they are. -/
theorem flatMap_addends_of_flat {es : List Expr} (h : ∀ e ∈ es, e.isSum = false) :
    es.flatMap addends = es := by
  induction es with
  | nil => rfl
  | cons e es ih =>
    rw [List.forall_mem_cons] at h
    rw [List.flatMap_cons, addends_of_isSum_eq_false h.1, ih h.2, List.singleton_append]

/-- Factors without products among them stay as they are. -/
theorem flatMap_factorsOf_of_flat {es : List Expr} (h : ∀ e ∈ es, e.isProduct = false) :
    es.flatMap factorsOf = es := by
  induction es with
  | nil => rfl
  | cons e es ih =>
    rw [List.forall_mem_cons] at h
    rw [List.flatMap_cons, factorsOf_of_isProduct_eq_false h.1, ih h.2, List.singleton_append]

/-! ## the constants of a list -/

/-- Leaving out the constants is a filter. -/
theorem nonConstants_eq_filter (es : List Expr) :
    nonConstants es = es.filter fun e => !e.isConst := by
  induction es with
  | nil => rfl
  | cons e es ih =>
    cases e <;> simp [nonConstants, isConst, ih]

/-- What is left are the members that are no constants. -/
theorem mem_nonConstants {e : Expr} {es : List Expr} :
    e ∈ nonConstants es ↔ e ∈ es ∧ e.isConst = false := by
  rw [nonConstants_eq_filter, List.mem_filter, Bool.not_eq_true']

/-- The constants of two lists are those of the one and of the other. -/
theorem constants_append (es fs : List Expr) :
    constants (es ++ fs) = constants es ++ constants fs := by
  induction es with
  | nil => rfl
  | cons e es ih => cases e <;> simp [constants, ih]

/-- Without constants two lists are still one after the other. -/
theorem nonConstants_append (es fs : List Expr) :
    nonConstants (es ++ fs) = nonConstants es ++ nonConstants fs := by
  rw [nonConstants_eq_filter, nonConstants_eq_filter, nonConstants_eq_filter, List.filter_append]

/-- A list without constants has none to collect. -/
theorem constants_of_isConst_eq_false {es : List Expr} (h : ∀ e ∈ es, e.isConst = false) :
    constants es = [] := by
  induction es with
  | nil => rfl
  | cons e es ih =>
    rw [List.forall_mem_cons] at h
    cases e <;> first | exact ih h.2 | cases h.1

/-- A list without constants has none to lose. -/
theorem nonConstants_of_isConst_eq_false {es : List Expr} (h : ∀ e ∈ es, e.isConst = false) :
    nonConstants es = es := by
  rw [nonConstants_eq_filter]
  exact List.filter_eq_self.mpr fun e he => by rw [h e he]; rfl

/-! ## normal trees -/

/-- The operands of a normal sum or product: two at least, none of the kind of
the node, and one constant at most, which is the last, finite, and not to be
dropped. -/
structure NormalOperands (sameKind : Expr → Bool) (dropped : Number → Bool) (es : List Expr) :
    Prop where
  two_le : 2 ≤ es.length
  flat : ∀ e ∈ es, sameKind e = false
  constLast : ∃ rest, (∀ e ∈ rest, e.isConst = false) ∧
    (es = rest ∨ ∃ x, es = rest ++ [.const x] ∧ x.isFinite = true ∧ dropped x = false)

mutual

/-- Nothing is left to fold or to flatten. -/
def Normal : Expr → Prop
  | .var _ => True
  | .const _ => True
  | .add terms => AllNormal terms ∧ NormalOperands isSum Number.isZero terms
  | .mul factors =>
    AllNormal factors ∧ NormalOperands isProduct (fun x => x.isZero || x.isOne) factors
  | .neg e => Normal e ∧ e.isConst = false ∧ e.isNegation = false
  | .inv e =>
    Normal e ∧ e.isConst = false ∧ e.isReciprocal = false ∧ e.isNegation = false
  | .pow base exponent =>
    (Normal base ∧ Normal exponent) ∧ (base.isConst && exponent.isConst) = false ∧
      ∀ x, exponent = .const x → x.isOne = false
  | .log base power => (Normal base ∧ Normal power) ∧ (base.isConst && power.isConst) = false
  | .apply _ e => Normal e ∧ e.isConst = false
  | .goalSeek goal target inversion =>
    (Normal goal ∧ Normal target) ∧
      (freeVars (.goalSeek goal target inversion)).isEmpty = false

/-- All expressions of a list are normal. -/
def AllNormal : List Expr → Prop
  | [] => True
  | e :: es => Normal e ∧ AllNormal es

end

/-- A list is normal if its members are. -/
theorem allNormal_iff {es : List Expr} : AllNormal es ↔ ∀ e ∈ es, Normal e := by
  induction es with
  | nil => simp [AllNormal]
  | cons e es ih => rw [AllNormal, ih, List.forall_mem_cons]

/-! ## building normal nodes -/

/-- What is put together from normal operands is normal. -/
theorem normal_assemble {node : List Expr → Expr} {sameKind : Expr → Bool}
    {dropped : Number → Bool} {es : List Expr} {x : Number} {neutral : Bool}
    (hnode : ∀ {us}, AllNormal us → NormalOperands sameKind dropped us → Normal (node us))
    (hconst : sameKind (.const x) = false) (hes : ∀ e ∈ es, Normal e ∧ sameKind e = false)
    (hx : x.isFinite = true) (hneutral : neutral = false → dropped x = false) :
    Normal (assemble node (nonConstants es) x neutral) := by
  have hrest : ∀ e ∈ nonConstants es, Normal e ∧ sameKind e = false ∧ e.isConst = false := by
    intro e he
    obtain ⟨hmem, hc⟩ := mem_nonConstants.mp he
    exact ⟨(hes e hmem).1, (hes e hmem).2, hc⟩
  generalize nonConstants es = rest at hrest
  cases rest with
  | nil => trivial
  | cons e rest =>
    cases neutral with
    | true =>
      cases rest with
      | nil => exact (hrest e List.mem_cons_self).1
      | cons e' rest =>
        apply hnode (allNormal_iff.mpr fun u hu => (hrest u hu).1)
        exact ⟨by simp, fun u hu => (hrest u hu).2.1, _, fun u hu => (hrest u hu).2.2, .inl rfl⟩
    | false =>
      have hmem : ∀ u ∈ e :: rest ++ [.const x], u ∈ e :: rest ∨ u = .const x := by
        intro u hu
        rwa [List.mem_append, List.mem_singleton] at hu
      apply hnode
      · rw [allNormal_iff]
        intro u hu
        rcases hmem u hu with hu | rfl
        · exact (hrest u hu).1
        · trivial
      · constructor
        · simp
        · intro u hu
          rcases hmem u hu with hu | rfl
          · exact (hrest u hu).2.1
          · exact hconst
        · exact ⟨e :: rest, fun u hu => (hrest u hu).2.2, .inr ⟨x, rfl, hx, hneutral rfl⟩⟩

/-- Normal terms without sums among them combine to a normal tree. -/
theorem normal_combineSum {terms : List Expr} {e : Expr} (h : combineSum terms = .ok e)
    (hterms : ∀ t ∈ terms, Normal t ∧ t.isSum = false) : Normal e := by
  obtain ⟨x, hx, rfl⟩ := combineSum_eq_ok_iff.mp h
  exact normal_assemble (fun h₁ h₂ => ⟨h₁, h₂⟩) rfl hterms (Number.isFinite_of_sum_eq_ok hx) id

/-- Normal factors without products among them combine to a normal tree. -/
theorem normal_combineProduct {factors : List Expr} {e : Expr}
    (h : combineProduct factors = .ok e)
    (hfactors : ∀ f ∈ factors, Normal f ∧ f.isProduct = false) : Normal e := by
  obtain ⟨x, hx, rfl⟩ := combineProduct_eq_ok_iff.mp h
  cases hzero : x.isZero with
  | true => trivial
  | false =>
    have hneutral : x.isOne = false → (x.isZero || x.isOne) = false := by
      intro hone
      rw [hzero, hone]
      rfl
    exact normal_assemble (fun h₁ h₂ => ⟨h₁, h₂⟩) rfl hfactors
      (Number.isFinite_of_product_eq_ok hx) hneutral

/-- A normal tree taken apart into terms leaves normal terms, none of them a sum. -/
theorem normal_addends {e : Expr} (h : Normal e) :
    ∀ t ∈ addends e, Normal t ∧ t.isSum = false := by
  cases hsum : e.isSum with
  | false => simp [addends_of_isSum_eq_false hsum, h, hsum]
  | true =>
    cases e with
    | add terms => exact fun t ht => ⟨allNormal_iff.mp h.1 t ht, h.2.flat t ht⟩
    | _ => cases hsum

/-- A normal tree taken apart into factors leaves normal factors, none of them a product. -/
theorem normal_factorsOf {e : Expr} (h : Normal e) :
    ∀ f ∈ factorsOf e, Normal f ∧ f.isProduct = false := by
  cases hproduct : e.isProduct with
  | false => simp [factorsOf_of_isProduct_eq_false hproduct, h, hproduct]
  | true =>
    cases e with
    | mul factors => exact fun f hf => ⟨allNormal_iff.mp h.1 f hf, h.2.flat f hf⟩
    | _ => cases hproduct

/-- The opposite of a normal tree is normal, as a second sign takes the first one away. -/
theorem normal_negate {e : Expr} (h : Normal e) (hc : e.isConst = false) :
    Normal (negate e) := by
  cases e with
  | neg e => exact h.1
  | const x => cases hc
  | _ => exact ⟨h, rfl, rfl⟩

/-- The reciprocal of a normal tree is normal, as it goes below a sign and a second one
takes the first one away. -/
theorem normal_invert {e : Expr} (h : Normal e) (hc : e.isConst = false) :
    Normal (invert e) := by
  cases e with
  | const x => cases hc
  | inv e => exact h.1
  | neg e =>
    -- a reciprocal or a negation below would not be normal, or cancels
    obtain ⟨he, hconst, hneg⟩ := h
    cases e with
    | const x => cases hconst
    | neg e => cases hneg
    | inv e => exact normal_negate he.1 he.2.1
    | _ => exact ⟨⟨he, rfl, rfl, rfl⟩, rfl, rfl⟩
  | _ => exact ⟨h, rfl, rfl, rfl⟩

/-! ## what simplification leaves -/

variable {solve : GoalSolver}

/-- Only the opposite of a constant is computed. -/
theorem foldNeg_of_isConst_eq_false {e : Expr} (h : e.isConst = false) :
    foldNeg e = negate e := by
  cases e <;> first | rfl | cases h

/-- Only the reciprocal of a constant is computed. -/
theorem foldInv_of_isConst_eq_false {e : Expr} (h : e.isConst = false) :
    foldInv e = .ok (invert e) := by
  cases e <;> first | rfl | cases h

/-- Only a function of a constant is computed. -/
theorem foldApply_of_isConst_eq_false [Elementary] {f : UnaryFn} {e : Expr}
    (h : e.isConst = false) :
    foldApply f e = .ok (.apply f e) := by
  cases e <;> first | rfl | cases h

/-- The folded opposite of a normal tree is normal. -/
theorem normal_foldNeg {e : Expr} (h : Normal e) : Normal (foldNeg e) := by
  cases hc : e.isConst with
  | true =>
    obtain ⟨x, rfl⟩ := isConst_eq_true_iff.mp hc
    trivial
  | false =>
    rw [foldNeg_of_isConst_eq_false hc]
    exact normal_negate h hc

/-- The folded reciprocal of a normal tree is normal. -/
theorem normal_foldInv {e e' : Expr} (he : foldInv e = .ok e') (h : Normal e) : Normal e' := by
  unfold foldInv at he
  split at he
  · rename_i x
    cases hx : x.inv <;> rw [hx] at he <;> cases he
    trivial
  · rename_i hne
    cases he
    apply normal_invert h
    cases e <;> first | rfl | exact absurd rfl (hne _)

/-- The folded power of normal trees is normal: two constants are computed, and the
exponent one is dropped. -/
theorem normal_foldPow [Elementary] {b p e' : Expr} (he : foldPow b p = .ok e') (hb : Normal b)
    (hp : Normal p) : Normal e' := by
  unfold foldPow at he
  split at he
  · rename_i x y
    cases hx : x.pow y <;> rw [hx] at he <;> cases he
    trivial
  · rename_i y hne
    have hc : b.isConst = false := by
      cases b <;> first | rfl | exact absurd rfl (hne _)
    cases hone : y.isOne with
    | true =>
      rw [hone] at he
      cases he
      exact hb
    | false =>
      rw [hone] at he
      cases he
      refine ⟨⟨hb, hp⟩, by rw [hc]; rfl, ?_⟩
      rintro z ⟨⟩
      exact hone
  · rename_i hne _
    cases he
    have hc : p.isConst = false := by
      cases p <;> first | rfl | exact absurd rfl (hne _)
    refine ⟨⟨hb, hp⟩, by rw [hc, Bool.and_false], ?_⟩
    rintro z rfl
    cases hc

/-- The folded logarithm of normal trees is normal. -/
theorem normal_foldLog [Elementary] {b p e' : Expr} (he : foldLog b p = .ok e') (hb : Normal b)
    (hp : Normal p) : Normal e' := by
  unfold foldLog at he
  split at he
  · rename_i x y
    cases hx : x.log y <;> rw [hx] at he <;> cases he
    trivial
  · rename_i hne
    cases he
    refine ⟨⟨hb, hp⟩, ?_⟩
    cases hcb : b.isConst with
    | false => rfl
    | true =>
      obtain ⟨x, rfl⟩ := isConst_eq_true_iff.mp hcb
      cases p <;> first | rfl | exact absurd rfl (hne _ _ rfl)

/-- The folded function of a normal tree is normal. -/
theorem normal_foldApply [Elementary] {f : UnaryFn} {e e' : Expr} (he : foldApply f e = .ok e')
    (h : Normal e) : Normal e' := by
  unfold foldApply at he
  split at he
  · rename_i x
    cases hx : f.eval x <;> rw [hx] at he <;> cases he
    trivial
  · rename_i hne
    cases he
    refine ⟨h, ?_⟩
    cases e <;> first | rfl | exact absurd rfl (hne _)

/-- A folded goal-seek of normal trees is normal: it is solved unless something is left
free. -/
theorem normal_foldSeek {goal target : Expr} {inversion : Inversion} {e' : Expr}
    (he : (foldSeek solve goal target inversion).result = .ok e') (hg : Normal goal)
    (ht : Normal target) : Normal e' := by
  unfold foldSeek at he
  split at he
  · obtain ⟨x, _, he⟩ := Logged.result_bind_eq_ok.mp he
    cases he
    trivial
  · rename_i hfree
    cases he
    exact ⟨⟨hg, ht⟩, eq_false_of_ne_true hfree⟩

/-- The factors that are left, if no zero ends the product, are normal. -/
def Factors.AllNormal : Factors → Prop
  | .zero _ => True
  | .all factors => ∀ f ∈ factors, Normal f ∧ f.isProduct = false

/-- Normal factors in front of what is left of the others. -/
theorem Factors.allNormal_prepend {es : List Expr} {r : Factors}
    (hes : ∀ f ∈ es, Normal f ∧ f.isProduct = false) (h : r.AllNormal) :
    (r.prepend es).AllNormal := by
  cases r with
  | zero x => trivial
  | all fs =>
    intro f hf
    rcases List.mem_append.mp hf with hf | hf
    · exact hes f hf
    · exact h f hf

mutual

/-- **What simplification leaves is normal.** -/
theorem normal_simplifyWith [Elementary] : (e : Expr) → {e' : Expr} →
    (simplifyWith solve e).result = .ok e' → Normal e'
  | .var _, _, h => by cases h; trivial
  | .const _, _, h => by cases h; trivial
  | .add terms, _, h => by
    obtain ⟨ts, hts, h⟩ := Logged.result_bind_eq_ok.mp h
    exact normal_combineSum (Logged.result_numeric_eq_ok.mp h) (normal_simplifyTerms terms hts)
  | .mul factors, _, h => by
    obtain ⟨r, hr, h⟩ := Logged.result_bind_eq_ok.mp h
    have hnormal := normal_simplifyFactors factors hr
    cases r with
    | zero x => cases h; trivial
    | all fs => exact normal_combineProduct (Logged.result_numeric_eq_ok.mp h) hnormal
  | .neg e, _, h => by
    obtain ⟨e₁, h₁, h⟩ := Logged.result_bind_eq_ok.mp h
    cases h
    exact normal_foldNeg (normal_simplifyWith e h₁)
  | .inv e, _, h => by
    obtain ⟨e₁, h₁, h⟩ := Logged.result_bind_eq_ok.mp h
    exact normal_foldInv (Logged.result_numeric_eq_ok.mp h) (normal_simplifyWith e h₁)
  | .pow base exponent, _, h => by
    obtain ⟨b, hb, h⟩ := Logged.result_bind_eq_ok.mp h
    obtain ⟨p, hp, h⟩ := Logged.result_bind_eq_ok.mp h
    exact normal_foldPow (Logged.result_numeric_eq_ok.mp h) (normal_simplifyWith base hb)
      (normal_simplifyWith exponent hp)
  | .log base power, _, h => by
    obtain ⟨b, hb, h⟩ := Logged.result_bind_eq_ok.mp h
    obtain ⟨p, hp, h⟩ := Logged.result_bind_eq_ok.mp h
    exact normal_foldLog (Logged.result_numeric_eq_ok.mp h) (normal_simplifyWith base hb)
      (normal_simplifyWith power hp)
  | .apply f e, _, h => by
    obtain ⟨e₁, h₁, h⟩ := Logged.result_bind_eq_ok.mp h
    exact normal_foldApply h (normal_simplifyWith e h₁)
  | .goalSeek goal target inversion, _, h => by
    obtain ⟨g, hg, h⟩ := Logged.result_bind_eq_ok.mp h
    obtain ⟨t, ht, h⟩ := Logged.result_bind_eq_ok.mp h
    exact normal_foldSeek h (normal_simplifyWith goal hg) (normal_simplifyWith target ht)

/-- Simplified terms are normal, and none of them is a sum. -/
theorem normal_simplifyTerms [Elementary] : (es : List Expr) → {ts : List Expr} →
    (simplifyTerms solve es).result = .ok ts → ∀ t ∈ ts, Normal t ∧ t.isSum = false
  | [], _, h => by cases h; exact fun t ht => absurd ht List.not_mem_nil
  | e :: es, _, h => by
    obtain ⟨e₁, h₁, h⟩ := Logged.result_bind_eq_ok.mp h
    obtain ⟨ts, hts, h⟩ := Logged.result_bind_eq_ok.mp h
    cases h
    intro t ht
    rcases List.mem_append.mp ht with ht | ht
    · exact normal_addends (normal_simplifyWith e h₁) t ht
    · exact normal_simplifyTerms es hts t ht

/-- Simplified factors are normal, and none of them is a product. -/
theorem normal_simplifyFactors [Elementary] : (es : List Expr) → {r : Factors} →
    (simplifyFactors solve es).result = .ok r → r.AllNormal
  | [], _, h => by cases h; exact fun f hf => absurd hf List.not_mem_nil
  | e :: es, _, h => by
    rcases simplifyFactors_cons_eq_ok h with ⟨x, -, -, rfl⟩ | ⟨e₁, r', h₁, hr, rfl⟩
    · trivial
    · exact Factors.allNormal_prepend (normal_factorsOf (normal_simplifyWith e h₁))
        (normal_simplifyFactors es hr)

end

/-! ## normal trees stay -/

/-- Normal operands are put together again as they are.  They hold no constant,
or one that is not dropped. -/
theorem NormalOperands.assemble_eq {sameKind : Expr → Bool} {dropped : Number → Bool}
    {es : List Expr} (h : NormalOperands sameKind dropped es) (node : List Expr → Expr) :
    (constants es = [] ∧ ∀ x, assemble node (nonConstants es) x true = node es) ∨
      ∃ x, constants es = [x] ∧ x.isFinite = true ∧ dropped x = false ∧
        assemble node (nonConstants es) x false = node es := by
  obtain ⟨rest, hrest, rfl | ⟨x, rfl, hx, hdropped⟩⟩ := h.constLast
  · refine .inl ⟨constants_of_isConst_eq_false hrest, fun x => ?_⟩
    rw [nonConstants_of_isConst_eq_false hrest]
    match es, h.two_le with
    | _ :: _ :: _, _ => rfl
  · refine .inr ⟨x, ?_, hx, hdropped, ?_⟩
    · rw [constants_append, constants_of_isConst_eq_false hrest]
      rfl
    · rw [nonConstants_append, nonConstants_of_isConst_eq_false hrest]
      match rest, h.two_le with
      | _ :: _, _ => simp [nonConstants, assemble]

/-- The terms of a normal sum combine to it. -/
theorem combineSum_of_normal {terms : List Expr} (h : NormalOperands isSum Number.isZero terms) :
    combineSum terms = .ok (.add terms) := by
  rw [combineSum_eq_ok_iff]
  rcases h.assemble_eq .add with ⟨hc, hall⟩ | ⟨x, hc, hx, hzero, hall⟩
  · rw [hc]
    exact ⟨.zero, rfl, hall .zero⟩
  · rw [hc]
    refine ⟨x, Number.sum_singleton hx, ?_⟩
    rw [hzero, hall]

/-- The factors of a normal product combine to it. -/
theorem combineProduct_of_normal {factors : List Expr}
    (h : NormalOperands isProduct (fun x => x.isZero || x.isOne) factors) :
    combineProduct factors = .ok (.mul factors) := by
  rw [combineProduct_eq_ok_iff]
  rcases h.assemble_eq .mul with ⟨hc, hall⟩ | ⟨x, hc, hx, hdropped, hall⟩
  · rw [hc]
    exact ⟨.one, rfl, hall .one⟩
  · rw [hc]
    rw [Bool.or_eq_false_iff] at hdropped
    refine ⟨x, Number.product_singleton hx, ?_⟩
    rw [hdropped.1, hdropped.2, hall]
    rfl

/-- A constant factor of a normal product is not zero. -/
theorem NormalOperands.isZero_eq_false {factors : List Expr}
    (h : NormalOperands isProduct (fun x => x.isZero || x.isOne) factors) {x : Number}
    (hx : .const x ∈ factors) : x.isZero = false := by
  obtain ⟨rest, hrest, rfl | ⟨y, rfl, _, hdropped⟩⟩ := h.constLast
  · cases hrest _ hx
  · rcases List.mem_append.mp hx with hx | hx
    · cases hrest _ hx
    · cases List.mem_singleton.mp hx
      exact (Bool.or_eq_false_iff.mp hdropped).1

/-- A sign that normal trees have is not taken away. -/
theorem negate_of_normal {e : Expr} (h : Normal (.neg e)) : negate e = .neg e := by
  obtain ⟨_, hc, hneg⟩ := h
  cases e with
  | const x => cases hc
  | neg e => cases hneg
  | _ => rfl

/-- A normal opposite is its own folding. -/
theorem foldNeg_of_normal {e : Expr} (h : Normal (.neg e)) : foldNeg e = .neg e := by
  rw [foldNeg_of_isConst_eq_false h.2.1, negate_of_normal h]

/-- A reciprocal that normal trees have is not taken away. -/
theorem invert_of_normal {e : Expr} (h : Normal (.inv e)) : invert e = .inv e := by
  obtain ⟨_, _, hinv, hneg⟩ := h
  cases e with
  | inv e => cases hinv
  | neg e => cases hneg
  | _ => rfl

/-- A normal reciprocal is its own folding. -/
theorem foldInv_of_normal {e : Expr} (h : Normal (.inv e)) : foldInv e = .ok (.inv e) := by
  rw [foldInv_of_isConst_eq_false h.2.1, invert_of_normal h]

/-- A normal power is its own folding. -/
theorem foldPow_of_normal [Elementary] {b p : Expr} (h : Normal (.pow b p)) :
    foldPow b p = .ok (.pow b p) := by
  obtain ⟨_, hc, hone⟩ := h
  cases p with
  | const y =>
    have hy : y.isOne = false := hone y rfl
    cases b with
    | const x => cases hc
    | _ => simp [foldPow, hy]
  | _ => cases b <;> rfl

/-- A normal logarithm is its own folding. -/
theorem foldLog_of_normal [Elementary] {b p : Expr} (h : Normal (.log b p)) :
    foldLog b p = .ok (.log b p) := by
  obtain ⟨_, hc⟩ := h
  cases b <;> cases p <;> first | rfl | cases hc

/-- A normal function is its own folding. -/
theorem foldApply_of_normal [Elementary] {f : UnaryFn} {e : Expr} (h : Normal (.apply f e)) :
    foldApply f e = .ok (.apply f e) :=
  foldApply_of_isConst_eq_false h.2

section

variable [Elementary]

mutual

/-- **A normal tree is simplified to itself.** -/
theorem simplifyWith_of_normal : (e : Expr) → Normal e → (simplifyWith solve e).result = .ok e
  | .var _, _ => rfl
  | .const _, _ => rfl
  | .add terms, h => by
    rw [simplifyWith]
    exact Logged.result_bind_eq_ok.mpr ⟨terms, simplifyTerms_of_normal terms h.1 h.2.flat,
      Logged.result_numeric_eq_ok.mpr (combineSum_of_normal h.2)⟩
  | .mul factors, h => by
    rw [simplifyWith]
    exact Logged.result_bind_eq_ok.mpr ⟨.all factors,
      simplifyFactors_of_normal factors h.1 h.2.flat fun _ => h.2.isZero_eq_false,
      Logged.result_numeric_eq_ok.mpr (combineProduct_of_normal h.2)⟩
  | .neg e, h => by
    rw [simplifyWith]
    refine Logged.result_bind_eq_ok.mpr ⟨e, simplifyWith_of_normal e h.1, ?_⟩
    rw [foldNeg_of_normal h]
    rfl
  | .inv e, h => by
    rw [simplifyWith]
    exact Logged.result_bind_eq_ok.mpr ⟨e, simplifyWith_of_normal e h.1,
      Logged.result_numeric_eq_ok.mpr (foldInv_of_normal h)⟩
  | .pow base exponent, h => by
    rw [simplifyWith]
    exact Logged.result_bind_eq_ok.mpr ⟨base, simplifyWith_of_normal base h.1.1,
      Logged.result_bind_eq_ok.mpr ⟨exponent, simplifyWith_of_normal exponent h.1.2,
        Logged.result_numeric_eq_ok.mpr (foldPow_of_normal h)⟩⟩
  | .log base power, h => by
    rw [simplifyWith]
    exact Logged.result_bind_eq_ok.mpr ⟨base, simplifyWith_of_normal base h.1.1,
      Logged.result_bind_eq_ok.mpr ⟨power, simplifyWith_of_normal power h.1.2,
        Logged.result_numeric_eq_ok.mpr (foldLog_of_normal h)⟩⟩
  | .apply f e, h => by
    rw [simplifyWith]
    exact Logged.result_bind_eq_ok.mpr ⟨e, simplifyWith_of_normal e h.1, foldApply_of_normal h⟩
  | .goalSeek goal target inversion, h => by
    rw [simplifyWith]
    refine Logged.result_bind_eq_ok.mpr ⟨goal, simplifyWith_of_normal goal h.1.1,
      Logged.result_bind_eq_ok.mpr ⟨target, simplifyWith_of_normal target h.1.2, ?_⟩⟩
    rw [foldSeek, h.2]
    rfl

/-- The terms of a normal sum stay as they are. -/
theorem simplifyTerms_of_normal : (es : List Expr) → AllNormal es →
    (∀ e ∈ es, e.isSum = false) → (simplifyTerms solve es).result = .ok es
  | [], _, _ => rfl
  | e :: es, h, hflat => by
    rw [List.forall_mem_cons] at hflat
    rw [simplifyTerms]
    refine Logged.result_bind_eq_ok.mpr ⟨e, simplifyWith_of_normal e h.1,
      Logged.result_bind_eq_ok.mpr ⟨es, simplifyTerms_of_normal es h.2 hflat.2, ?_⟩⟩
    rw [addends_of_isSum_eq_false hflat.1]
    rfl

/-- The factors of a normal product stay as they are, as there is no zero among them. -/
theorem simplifyFactors_of_normal : (es : List Expr) → AllNormal es →
    (∀ e ∈ es, e.isProduct = false) → (∀ x, .const x ∈ es → x.isZero = false) →
    (simplifyFactors solve es).result = .ok (.all es)
  | [], _, _, _ => rfl
  | e :: es, h, hflat, hzero => by
    rw [List.forall_mem_cons] at hflat
    have hkeep : ∀ x, e = .const x → x.isZero = false :=
      fun x hx => hzero x (hx ▸ List.mem_cons_self)
    rw [simplifyFactors_cons_of_not_isZero (simplifyWith_of_normal e h.1) hkeep,
      simplifyFactors_of_normal es h.2 hflat.2 fun x hx => hzero x (List.mem_cons_of_mem e hx),
      factorsOf_of_isProduct_eq_false hflat.1]
    rfl

end

/-! ## simplified trees -/

/-- **The results of simplification are the normal trees.** -/
theorem exists_simplify_eq_ok_iff (catalogue : Catalogue) {e' : Expr} :
    (∃ e : Expr, (e.simplify catalogue).result = .ok e') ↔ Normal e' := by
  constructor
  · rintro ⟨e, he⟩
    exact normal_simplifyWith e he
  · intro h
    exact ⟨e', simplifyWith_of_normal e' h⟩

/-- **Simplifying a simplified tree leaves it as it is**, with every number in its
representation. -/
theorem simplify_of_simplify (catalogue : Catalogue) {e e' : Expr}
    (h : (e.simplify catalogue).result = .ok e') :
    (e'.simplify catalogue).result = .ok e' := by
  have hnormal : Normal e' := normal_simplifyWith e h
  exact simplifyWith_of_normal e' hnormal

end

/-- One time `x ^ 1 + 1` collapses to a sum within the sum, whose constants then
meet. -/
theorem simplify_of_simplify_collapse :
    let e := Expr.add [ofInt 2, .mul [one, .add [.pow (ofName "x") one, one]]]
    (e.simplify .empty).result = .ok (.add [ofName "x", ofInt 3]) ∧
      ((Expr.add [ofName "x", ofInt 3]).simplify .empty).result =
        .ok (.add [ofName "x", ofInt 3]) := by
  intro e
  have he : (e.simplify .empty).result = .ok (.add [ofName "x", ofInt 3]) := rfl
  exact ⟨he, simplify_of_simplify .empty he⟩

/-! ## currying -/

variable [Elementary]

/-- What currying leaves is normal. -/
theorem normal_curryWith {args : Arguments} : {e e' : Expr} →
    (curryWith solve args e).result = .ok e' → Normal e'
  | .var v, _, h => by
    rw [curryWith] at h
    cases hv : args.get? v <;> rw [hv] at h <;> cases h <;> trivial
  | .const _, _, h => by cases h; trivial
  | .add _, _, h => by
    obtain ⟨_, _, h⟩ := Logged.result_bind_eq_ok.mp h
    exact normal_simplifyWith _ h
  | .mul _, _, h => by
    obtain ⟨_, _, h⟩ := Logged.result_bind_eq_ok.mp h
    exact normal_simplifyWith _ h
  | .neg _, _, h => by
    obtain ⟨_, _, h⟩ := Logged.result_bind_eq_ok.mp h
    exact normal_simplifyWith _ h
  | .inv _, _, h => by
    obtain ⟨_, _, h⟩ := Logged.result_bind_eq_ok.mp h
    exact normal_simplifyWith _ h
  | .pow _ _, _, h => by
    obtain ⟨_, _, h⟩ := Logged.result_bind_eq_ok.mp h
    obtain ⟨_, _, h⟩ := Logged.result_bind_eq_ok.mp h
    exact normal_simplifyWith _ h
  | .log _ _, _, h => by
    obtain ⟨_, _, h⟩ := Logged.result_bind_eq_ok.mp h
    obtain ⟨_, _, h⟩ := Logged.result_bind_eq_ok.mp h
    exact normal_simplifyWith _ h
  | .apply _ _, _, h => by
    obtain ⟨_, _, h⟩ := Logged.result_bind_eq_ok.mp h
    exact normal_simplifyWith _ h
  | .goalSeek _ _ _, _, h => by
    obtain ⟨_, _, h⟩ := Logged.result_bind_eq_ok.mp h
    obtain ⟨_, _, h⟩ := Logged.result_bind_eq_ok.mp h
    exact normal_simplifyWith _ h

mutual

/-- **Currying a normal tree without bindings leaves it as it is.** -/
theorem curryWith_empty_of_normal : (e : Expr) → Normal e →
    (curryWith solve .empty e).result = .ok e
  | .var _, _ => rfl
  | .const _, _ => rfl
  | .add terms, h => by
    rw [curryWith]
    refine Logged.result_bind_eq_ok.mpr ⟨terms, curryAllWith_empty_of_normal terms h.1, ?_⟩
    rw [sum, flatMap_addends_of_flat h.2.flat]
    exact simplifyWith_of_normal _ h
  | .mul factors, h => by
    rw [curryWith]
    refine Logged.result_bind_eq_ok.mpr ⟨factors, curryAllWith_empty_of_normal factors h.1, ?_⟩
    rw [product, flatMap_factorsOf_of_flat h.2.flat]
    exact simplifyWith_of_normal _ h
  | .neg e, h => by
    rw [curryWith]
    refine Logged.result_bind_eq_ok.mpr ⟨e, curryWith_empty_of_normal e h.1, ?_⟩
    rw [negate_of_normal h]
    exact simplifyWith_of_normal _ h
  | .inv e, h => by
    rw [curryWith]
    refine Logged.result_bind_eq_ok.mpr ⟨e, curryWith_empty_of_normal e h.1, ?_⟩
    rw [invert_of_normal h]
    exact simplifyWith_of_normal _ h
  | .pow base exponent, h => by
    rw [curryWith]
    exact Logged.result_bind_eq_ok.mpr ⟨base, curryWith_empty_of_normal base h.1.1,
      Logged.result_bind_eq_ok.mpr ⟨exponent, curryWith_empty_of_normal exponent h.1.2,
        simplifyWith_of_normal _ h⟩⟩
  | .log base power, h => by
    rw [curryWith]
    exact Logged.result_bind_eq_ok.mpr ⟨base, curryWith_empty_of_normal base h.1.1,
      Logged.result_bind_eq_ok.mpr ⟨power, curryWith_empty_of_normal power h.1.2,
        simplifyWith_of_normal _ h⟩⟩
  | .apply f e, h => by
    rw [curryWith]
    exact Logged.result_bind_eq_ok.mpr ⟨e, curryWith_empty_of_normal e h.1,
      simplifyWith_of_normal _ h⟩
  | .goalSeek goal target inversion, h => by
    rw [curryWith]
    exact Logged.result_bind_eq_ok.mpr ⟨goal, curryWith_empty_of_normal goal h.1.1,
      Logged.result_bind_eq_ok.mpr ⟨target, curryWith_empty_of_normal target h.1.2,
        simplifyWith_of_normal _ h⟩⟩

/-- The same for the members of a list. -/
theorem curryAllWith_empty_of_normal : (es : List Expr) → AllNormal es →
    (curryAllWith solve .empty es).result = .ok es
  | [], _ => rfl
  | e :: es, h => by
    rw [curryAllWith]
    exact Logged.result_bind_eq_ok.mpr ⟨e, curryWith_empty_of_normal e h.1,
      Logged.result_bind_eq_ok.mpr ⟨es, curryAllWith_empty_of_normal es h.2, rfl⟩⟩

end

end Expr

end SymCalc
