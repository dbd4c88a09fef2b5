import SymCalc.Proofs.Expr.Substitute
import SymCalc.Real256.Series

/-!
# SymCalc.Proofs.Expr.WellFormed

What the constructors keep out of every tree.

1. `clashes parent child` lists the pairs of nodes that a constructor takes
   apart or cancels, and a tree is `WellFormed` when no such pair is in it;
2. each constructor keeps this (`WellFormed.sum` and so on), and so does
   whatever ends in a simplification, as normal trees are well-formed
   (`wellFormed_of_normal`);
3. `Built` are the trees that come about without a node written down.

Main statement: `wellFormed_of_built`.  Nothing more can be said of the shape of
built trees: but for goal-seeks, whose domain is noted as they are built, every
well-formed tree is built (`built_of_wellFormed`).
-/

namespace SymCalc.Expr

/-! ## well-formed trees -/

/-- The parent's constructor does not put the parent on top of this child: it
takes the child apart, cancels it, or changes its sign. -/
def clashes : Expr → Expr → Bool
  | .add _, child => child.isSum
  | .mul _, child => child.isProduct
  | .neg _, .const x => x.isNegative
  | .neg _, child => child.isNegation
  | .inv _, child => child.isReciprocal || child.isNegation
  | _, _ => false

/-- Nowhere in the tree a parent clashes with a child. -/
def WellFormed (e : Expr) : Prop :=
  ∀ parent, Subtree parent e → ∀ child ∈ children parent, clashes parent child = false

variable {e c : Expr} {es : List Expr}

/-- A tree is well-formed if its parts are and none of them clashes with it. -/
theorem wellFormed_iff_children :
    WellFormed e ↔ ∀ c ∈ children e, clashes e c = false ∧ WellFormed c := by
  constructor
  · intro h c hc
    exact ⟨h e (.refl e) c hc, fun parent hp => h parent (hp.trans (.child hc (.refl c)))⟩
  · intro h parent hp child hchild
    cases hp with
    | refl => exact (h child hchild).1
    | child hc hp => exact (h _ hc).2 parent hp child hchild

section nodes

variable {v : Variable} {x : Number} {b p : Expr} {f : UnaryFn} {inversion : Inversion}

@[simp] theorem wellFormed_var : WellFormed (.var v) :=
  wellFormed_iff_children.mpr fun _ hc => absurd hc List.not_mem_nil

@[simp] theorem wellFormed_const : WellFormed (.const x) :=
  wellFormed_iff_children.mpr fun _ hc => absurd hc List.not_mem_nil

/-- A sum is well-formed without sums among its terms. -/
theorem wellFormed_add : WellFormed (.add es) ↔ ∀ e ∈ es, e.isSum = false ∧ WellFormed e :=
  wellFormed_iff_children

/-- A product is well-formed without products among its factors. -/
theorem wellFormed_mul : WellFormed (.mul es) ↔ ∀ e ∈ es, e.isProduct = false ∧ WellFormed e :=
  wellFormed_iff_children

/-- An opposite is well-formed where no sign could be taken away. -/
theorem wellFormed_neg : WellFormed (.neg e) ↔ clashes (.neg e) e = false ∧ WellFormed e :=
  wellFormed_iff_children.trans List.forall_mem_singleton

/-- A reciprocal is well-formed where it could not go below a sign or be taken away. -/
theorem wellFormed_inv : WellFormed (.inv e) ↔ clashes (.inv e) e = false ∧ WellFormed e :=
  wellFormed_iff_children.trans List.forall_mem_singleton

@[simp] theorem wellFormed_pow : WellFormed (.pow b p) ↔ WellFormed b ∧ WellFormed p := by
  simp [wellFormed_iff_children (e := .pow b p), children, operands, clashes]

@[simp] theorem wellFormed_log : WellFormed (.log b p) ↔ WellFormed b ∧ WellFormed p := by
  simp [wellFormed_iff_children (e := .log b p), children, operands, clashes]

@[simp] theorem wellFormed_apply : WellFormed (.apply f e) ↔ WellFormed e := by
  simp [wellFormed_iff_children (e := .apply f e), children, operands, clashes]

@[simp] theorem wellFormed_goalSeek :
    WellFormed (.goalSeek b p inversion) ↔ WellFormed b ∧ WellFormed p := by
  simp [wellFormed_iff_children (e := .goalSeek b p inversion), children, clashes]

end nodes

/-! ## constructors -/

/-- The terms of a well-formed tree are well-formed and no sums. -/
theorem WellFormed.addends (h : WellFormed e) :
    ∀ t ∈ addends e, t.isSum = false ∧ WellFormed t := by
  cases hsum : e.isSum with
  | false => simp [addends_of_isSum_eq_false hsum, hsum, h]
  | true =>
    cases e with
    | add terms => exact wellFormed_add.mp h
    | _ => cases hsum

/-- The factors of a well-formed tree are well-formed and no products. -/
theorem WellFormed.factorsOf (h : WellFormed e) :
    ∀ f ∈ factorsOf e, f.isProduct = false ∧ WellFormed f := by
  cases hproduct : e.isProduct with
  | false => simp [factorsOf_of_isProduct_eq_false hproduct, hproduct, h]
  | true =>
    cases e with
    | mul factors => exact wellFormed_mul.mp h
    | _ => cases hproduct

/-- Sums of well-formed terms are well-formed. -/
theorem WellFormed.sum (h : ∀ e ∈ es, WellFormed e) : WellFormed (sum es) := by
  refine wellFormed_add.mpr fun t ht => ?_
  obtain ⟨e, he, ht⟩ := List.mem_flatMap.mp ht
  exact (h e he).addends t ht

/-- Products of well-formed factors are well-formed. -/
theorem WellFormed.product (h : ∀ e ∈ es, WellFormed e) : WellFormed (product es) := by
  refine wellFormed_mul.mpr fun f hf => ?_
  obtain ⟨e, he, hf⟩ := List.mem_flatMap.mp hf
  exact (h e he).factorsOf f hf

/-- The opposite of a well-formed tree is well-formed. -/
theorem WellFormed.negate (h : WellFormed e) : WellFormed (negate e) := by
  cases e with
  | neg e => exact (wellFormed_neg.mp h).2
  | const x =>
    rw [Expr.negate]
    split
    · exact wellFormed_const
    · rename_i hneg
      exact wellFormed_neg.mpr ⟨eq_false_of_ne_true hneg, h⟩
  | _ => exact wellFormed_neg.mpr ⟨rfl, h⟩

/-- The reciprocal of a well-formed tree is well-formed. -/
theorem WellFormed.invert (h : WellFormed e) : WellFormed (invert e) := by
  fun_induction Expr.invert e with
  | case1 e => exact (wellFormed_inv.mp h).2
  | case2 e ih => exact (ih (wellFormed_neg.mp h).2).negate
  | case3 e hinv hneg =>
    refine wellFormed_inv.mpr ⟨?_, h⟩
    cases e with
    | inv e => exact absurd rfl (hinv e)
    | neg e => exact absurd rfl (hneg e)
    | _ => rfl

/-- Where nothing clashes the opposite adds a sign. -/
theorem negate_of_clashes_eq_false (h : clashes (.neg e) e = false) : negate e = .neg e := by
  cases e with
  | neg e => cases h
  | const x =>
    have hx : x.isNegative = false := h
    rw [negate, hx]
    rfl
  | _ => rfl

/-- Where nothing clashes the reciprocal adds a node. -/
theorem invert_of_clashes_eq_false (h : clashes (.inv e) e = false) : invert e = .inv e := by
  cases e with
  | inv e | neg e => cases h
  | _ => rfl

/-! ## simplified trees -/

/-- The parts of a normal tree are normal. -/
theorem Normal.child (h : Normal e) (hc : c ∈ children e) : Normal c := by
  cases e with
  | var v => cases hc
  | const x => cases hc
  | add terms => exact allNormal_iff.mp h.1 c hc
  | mul factors => exact allNormal_iff.mp h.1 c hc
  | neg e | inv e | apply f e => exact List.mem_singleton.mp hc ▸ h.1
  | pow b p | log b p | goalSeek b p inversion =>
    simp only [children, operands, List.mem_cons, List.not_mem_nil, or_false] at hc
    rcases hc with rfl | rfl
    · exact h.1.1
    · exact h.1.2

/-- The subtrees of a normal tree are normal. -/
theorem Normal.subtree (h : Normal e) (hc : Subtree c e) : Normal c := by
  induction hc with
  | refl => exact h
  | child hc _ ih => exact ih (h.child hc)

/-- No constant is left under a negation, and sums and products are flat. -/
theorem clashes_of_normal (h : Normal e) (hc : c ∈ children e) : clashes e c = false := by
  cases e with
  | add terms => exact h.2.flat c hc
  | mul factors => exact h.2.flat c hc
  | neg e =>
    obtain ⟨-, hconst, hneg⟩ := h
    obtain rfl := List.mem_singleton.mp hc
    cases c with
    | const x => cases hconst
    | _ => exact hneg
  | inv e =>
    obtain ⟨-, -, hinv, hneg⟩ := h
    obtain rfl := List.mem_singleton.mp hc
    rw [clashes, hinv, hneg]
    rfl
  | _ => rfl

/-- Normal trees are well-formed. -/
theorem wellFormed_of_normal (h : Normal e) : WellFormed e :=
  fun _ hparent _ hchild => clashes_of_normal (h.subtree hparent) hchild

/-! ## built trees -/

/-- The trees that come about by any sequence of operations, without a node
written down.  The operators `+`, `-`, `*` and `/` and the sign are the
constructors `sum`, `sub`, `product`, `div` and `negate`. -/
inductive Built [Elementary] : Expr → Prop
  | var (v : Variable) : Built (.var v)
  | const (x : Number) : Built (.const x)
  | sum {terms : List Expr} : (∀ t ∈ terms, Built t) → Built (sum terms)
  | product {factors : List Expr} : (∀ f ∈ factors, Built f) → Built (product factors)
  | negate {a : Expr} : Built a → Built (negate a)
  | invert {a : Expr} : Built a → Built (invert a)
  | sub {a b : Expr} : Built a → Built b → Built (sub a b)
  | div {a b : Expr} : Built a → Built b → Built (div a b)
  | root {base degree : Expr} : Built base → Built degree → Built (root base degree)
  | pow {base exponent : Expr} : Built base → Built exponent → Built (.pow base exponent)
  | log {base power : Expr} : Built base → Built power → Built (.log base power)
  | apply (f : UnaryFn) {a : Expr} : Built a → Built (.apply f a)
  | seek (v : Variable) (factory : FactoryId) {goal target : Expr} :
    Built goal → Built target → Built (seek goal target v factory)
  | polynomial {v : Variable} {coefficients : List Number} {r : Expr} :
    (polynomial v coefficients).result = .ok r → Built r
  | simplify {catalogue : Catalogue} {a r : Expr} :
    Built a → (a.simplify catalogue).result = .ok r → Built r
  | curry {catalogue : Catalogue} {args : Arguments} {a r : Expr} :
    Built a → (a.curry catalogue args).result = .ok r → Built r
  | derivative {catalogue : Catalogue} {v : Variable} {a r : Expr} :
    Built a → (a.derivative catalogue v).result = .ok r → Built r

/-- **Built trees are well-formed**: no sum right in a sum, no product in a
product, no negation of a negation or of a negative constant, and no reciprocal
of a reciprocal or of a negation, at any depth. -/
theorem wellFormed_of_built [Elementary] (h : Built e) : WellFormed e := by
  induction h with
  | var v => exact wellFormed_var
  | const x => exact wellFormed_const
  | sum _ ih => exact .sum ih
  | product _ ih => exact .product ih
  | negate _ ih => exact ih.negate
  | invert _ ih => exact ih.invert
  | sub _ _ iha ihb => exact .sum (by simp [iha, ihb.negate])
  | div _ _ iha ihb => exact .product (by simp [iha, ihb.invert])
  | root _ _ ihb ihd => exact wellFormed_pow.mpr ⟨ihb, ihd.invert⟩
  | pow _ _ ihb ihe => exact wellFormed_pow.mpr ⟨ihb, ihe⟩
  | log _ _ ihb ihp => exact wellFormed_log.mpr ⟨ihb, ihp⟩
  | apply f _ ih => exact wellFormed_apply.mpr ih
  | seek v factory _ _ ihg iht => exact wellFormed_goalSeek.mpr ⟨ihg, iht⟩
  | polynomial hr => exact wellFormed_of_normal (normal_simplifyWith _ hr)
  | simplify _ hr _ => exact wellFormed_of_normal (normal_simplifyWith _ hr)
  | curry _ hr _ => exact wellFormed_of_normal (normal_curryWith hr)
  | derivative _ hr _ =>
    obtain ⟨d, -, hr⟩ := Logged.result_bind_eq_ok.mp hr
    exact wellFormed_of_normal (normal_simplifyWith d hr)

/-- For `p` the polynomial `x^2 - 1`, the reciprocal of `-(p - -p)`. -/
theorem wellFormed_of_built_reciprocal :
    let square := Expr.pow (ofName "x") (ofInt 2)
    let e := Expr.neg (.inv (.add [square, ofInt (-1), square, ofInt (-1)]))
    Built e ∧ WellFormed e := by
  intro square e
  have hpolynomial : (polynomial ⟨"x"⟩ [.integer 1, .integer 0, .integer (-1)]).result =
      .ok (.add [square, ofInt (-1)]) := rfl
  have hp : Built (.add [square, ofInt (-1)]) := .polynomial hpolynomial
  have he : Built e := .invert (.negate (.sub hp (.negate hp)))
  exact ⟨he, wellFormed_of_built he⟩

mutual

/-- Without goal-seeks the constructors build every well-formed tree. -/
theorem built_of_wellFormed [Elementary] : (e : Expr) → WellFormed e → e.seekDepth = 0 → Built e
  | .var v, _, _ => .var v
  | .const x, _, _ => .const x
  | .add terms, h, hd => by
    have hterms := wellFormed_add.mp h
    have hbuilt := Built.sum (allBuilt_of_wellFormed terms (fun t ht => (hterms t ht).2) hd)
    rwa [sum, flatMap_addends_of_flat fun t ht => (hterms t ht).1] at hbuilt
  | .mul factors, h, hd => by
    have hfactors := wellFormed_mul.mp h
    have hbuilt := Built.product (allBuilt_of_wellFormed factors (fun f hf => (hfactors f hf).2) hd)
    rwa [product, flatMap_factorsOf_of_flat fun f hf => (hfactors f hf).1] at hbuilt
  | .neg e, h, hd => by
    obtain ⟨hclash, he⟩ := wellFormed_neg.mp h
    have hbuilt := (built_of_wellFormed e he hd).negate
    rwa [negate_of_clashes_eq_false hclash] at hbuilt
  | .inv e, h, hd => by
    obtain ⟨hclash, he⟩ := wellFormed_inv.mp h
    have hbuilt := (built_of_wellFormed e he hd).invert
    rwa [invert_of_clashes_eq_false hclash] at hbuilt
  | .pow base exponent, h, hd => by
    obtain ⟨hb, hp⟩ := wellFormed_pow.mp h
    obtain ⟨hdb, hdp⟩ := Nat.max_eq_zero_iff.mp hd
    exact .pow (built_of_wellFormed base hb hdb) (built_of_wellFormed exponent hp hdp)
  | .log base power, h, hd => by
    obtain ⟨hb, hp⟩ := wellFormed_log.mp h
    obtain ⟨hdb, hdp⟩ := Nat.max_eq_zero_iff.mp hd
    exact .log (built_of_wellFormed base hb hdb) (built_of_wellFormed power hp hdp)
  | .apply f e, h, hd => .apply f (built_of_wellFormed e (wellFormed_apply.mp h) hd)
  | .goalSeek _ _ _, _, hd => absurd hd (Nat.succ_ne_zero _)

/-- The same for the members of a list. -/
theorem allBuilt_of_wellFormed [Elementary] : (es : List Expr) → (∀ e ∈ es, WellFormed e) →
    seekDepthAll es = 0 → ∀ e ∈ es, Built e
  | [], _, _ => fun _ he => absurd he List.not_mem_nil
  | e :: es, h, hd => by
    rw [List.forall_mem_cons] at h ⊢
    obtain ⟨hde, hdes⟩ := Nat.max_eq_zero_iff.mp hd
    exact ⟨built_of_wellFormed e h.1 hde, allBuilt_of_wellFormed es h.2 hdes⟩

end

end SymCalc.Expr
