import Mathlib.Data.List.Forall2
import SymCalc.Proofs.Expr.Folded
import SymCalc.Proofs.Expr.Normal
import SymCalc.Real256.Series

/-!
# SymCalc.Proofs.Expr.Substitute

Currying against the replacement of bound variables, followed by one
simplification.

1. `substitute args e` replaces the free occurrences of bound variables by their
   values, and nothing else;
2. operands may be simplified ahead of their node: rebuilt from the simplified
   operands by its constructor, the node simplifies to what it would have
   simplified to (`simplifyWith_sum_operands`, `simplifyWith_negate_operand` and
   so on);
3. so currying is a strict simplification of the substituted tree, one that
   simplifies every subtree (`strictRun_curryWith`);
4. simplification itself leaves out the factors behind a zero, and only these
   (`simplifies_or_behindZero`).

Main statements: `simplify_substitute_of_curry`, and
`curry_iff_of_simplify_substitute` for what a zero factor hides.
-/

namespace SymCalc.Expr

/-! ## substitution -/

mutual

/-- The tree with the free occurrences of bound variables replaced by their
values.  The variable of a goal-seek is bound in its target. -/
def substitute (args : Arguments) : Expr → Expr
  | .var v =>
    match args.get? v with
    | some x => .const x
    | none => .var v
  | .const x => .const x
  | .add terms => .add (substituteAll args terms)
  | .mul factors => .mul (substituteAll args factors)
  | .neg e => .neg (substitute args e)
  | .inv e => .inv (substitute args e)
  | .pow base exponent => .pow (substitute args base) (substitute args exponent)
  | .log base power => .log (substitute args base) (substitute args power)
  | .apply f e => .apply f (substitute args e)
  | .goalSeek goal target inversion =>
    .goalSeek (substitute args goal) (substitute (args.erase inversion.unknown) target) inversion

/-- The members of a list with bound variables replaced. -/
def substituteAll (args : Arguments) : List Expr → List Expr
  | [] => []
  | e :: es => substitute args e :: substituteAll args es

end

mutual

/-- Numbers hold no goal-seeks. -/
theorem seekDepth_substitute : (args : Arguments) → (e : Expr) →
    seekDepth (substitute args e) = seekDepth e
  | args, .var v => by
    rw [substitute]
    split <;> rfl
  | _, .const _ => rfl
  | args, .add terms => seekDepthAll_substituteAll args terms
  | args, .mul factors => seekDepthAll_substituteAll args factors
  | args, .neg e => seekDepth_substitute args e
  | args, .inv e => seekDepth_substitute args e
  | args, .pow base exponent => by
    simp only [substitute, seekDepth, seekDepth_substitute args base,
      seekDepth_substitute args exponent]
  | args, .log base power => by
    simp only [substitute, seekDepth, seekDepth_substitute args base,
      seekDepth_substitute args power]
  | args, .apply _ e => seekDepth_substitute args e
  | args, .goalSeek goal target inversion => by
    simp only [substitute, seekDepth, seekDepth_substitute args goal,
      seekDepth_substitute (args.erase inversion.unknown) target]

/-- The same for the members of a list. -/
theorem seekDepthAll_substituteAll : (args : Arguments) → (es : List Expr) →
    seekDepthAll (substituteAll args es) = seekDepthAll es
  | _, [] => rfl
  | args, e :: es => by
    simp only [substituteAll, seekDepthAll, seekDepth_substitute args e,
      seekDepthAll_substituteAll args es]

end

/-! ## factors -/

/-- What is left of a list of simplified factors: all of them with the products
among them taken apart, or the first zero. -/
def Factors.gather : List Expr → Factors
  | [] => .all []
  | .const x :: rs => if x.isZero then .zero x else (gather rs).prepend [.const x]
  | r :: rs => (gather rs).prepend (factorsOf r)

/-- A factor that is not a zero goes in front of what is left of the later ones. -/
theorem Factors.gather_cons (hr : ∀ x, r = .const x → x.isZero = false) :
    gather (r :: rs) = (gather rs).prepend (factorsOf r) := by
  cases r with
  | const x =>
    rw [gather, hr x rfl]
    rfl
  | _ => rfl

/-- Factors can be put in front one part after the other. -/
theorem Factors.prepend_append (us vs : List Expr) (fs : Factors) :
    fs.prepend (us ++ vs) = (fs.prepend vs).prepend us := by
  cases fs with
  | zero x => rfl
  | all fs => simp only [prepend, List.append_assoc]

/-- Factors that are neither zero nor products go in front as they are. -/
theorem Factors.gather_append {us : List Expr} (hflat : ∀ u ∈ us, u.isProduct = false)
    (hzero : ∀ x, .const x ∈ us → x.isZero = false) (vs : List Expr) :
    gather (us ++ vs) = (gather vs).prepend us := by
  induction us with
  | nil => cases hvs : gather vs <;> simp [prepend, hvs]
  | cons u us ih =>
    rw [List.forall_mem_cons] at hflat
    rw [List.cons_append, gather_cons fun x hx => hzero x (hx ▸ List.mem_cons_self),
      ih hflat.2 fun x hx => hzero x (List.mem_cons_of_mem u hx),
      factorsOf_of_isProduct_eq_false hflat.1, ← prepend_append, List.singleton_append]

/-- Taking the simplified factors apart first changes nothing. -/
theorem Factors.gather_flatMap_factorsOf (h : Expr.AllNormal rs) :
    gather (rs.flatMap factorsOf) = gather rs := by
  induction rs with
  | nil => rfl
  | cons r rs ih =>
    rw [List.flatMap_cons]
    rcases eq_zero_const_or r with ⟨x, rfl, hx⟩ | hkeep
    · simp only [factorsOf, List.singleton_append, gather, hx, if_true]
    · have hzero : ∀ x, .const x ∈ factorsOf r → x.isZero = false := by
        intro x hx
        cases r with
        | mul factors => exact h.1.2.isZero_eq_false hx
        | _ => exact hkeep x (List.mem_singleton.mp hx).symm
      rw [gather_append (fun u hu => (normal_factorsOf h.1 u hu).2) hzero, ih h.2,
        gather_cons hkeep]

/-! ## subtrees -/

/-- The direct subtrees, goal and target of a goal-seek among them. -/
def children : Expr → List Expr
  | .goalSeek goal target _ => [goal, target]
  | e => operands e

/-- The first expression occurs in the second one. -/
inductive Subtree : Expr → Expr → Prop
  | refl (e) : Subtree e e
  | child {s c e} : c ∈ children e → Subtree s c → Subtree s e

/-- A subtree of a subtree is a subtree. -/
theorem Subtree.trans {s t e : Expr} (h : Subtree s t) (h' : Subtree t e) : Subtree s e := by
  induction h' with
  | refl => exact h
  | child hc _ ih => exact .child hc ih

/-! ## simplified operands -/

section

variable [Elementary]

/-- The expression `e` simplifies to `r`, whatever is reported meanwhile. -/
def SimplifiesTo (solve : GoalSolver) (e r : Expr) : Prop :=
  (simplifyWith solve e).result = .ok r

variable {solve : GoalSolver}

section operands

variable {e r e₁ r₁ e₂ r₂ : Expr} {es rs : List Expr}

/-- A tree simplifies to one tree at most. -/
theorem SimplifiesTo.unique (h₁ : SimplifiesTo solve e r₁) (h₂ : SimplifiesTo solve e r₂) :
    r₁ = r₂ :=
  Except.ok.inj (h₁.symm.trans h₂)

/-- What a tree simplifies to is normal. -/
theorem SimplifiesTo.normal (h : SimplifiesTo solve e r) : Normal r := normal_simplifyWith e h

/-- What is simplified stays as it is. -/
theorem SimplifiesTo.self (h : SimplifiesTo solve e r) : SimplifiesTo solve r r :=
  simplifyWith_of_normal r h.normal

/-- A step after a simplification starts from what this arrives at. -/
theorem SimplifiesTo.bind {α : Type} (h : SimplifiesTo solve e r) (f : Expr → Logged Error α) :
    (simplifyWith solve e >>= f).result = (f r).result := by
  rw [Logged.result_bind, h]
  rfl

/-- What the members of a list simplify to is normal. -/
theorem allNormal_of_forall₂ (h : List.Forall₂ (SimplifiesTo solve) es rs) : AllNormal rs := by
  induction h with
  | nil => trivial
  | cons he _ ih => exact ⟨he.normal, ih⟩

/-- Simplified terms are what the terms simplify to, taken apart. -/
theorem simplifyTerms_of_forall₂ (h : List.Forall₂ (SimplifiesTo solve) es rs) :
    (simplifyTerms solve es).result = .ok (rs.flatMap addends) := by
  induction h with
  | nil => rfl
  | @cons e r es rs he _ ih =>
    rw [simplifyTerms, he.bind, Logged.result_bind, ih]
    rfl

/-- The terms of a list of simplified trees are simplified, too. -/
theorem simplifyTerms_flatMap_addends (h : AllNormal rs) :
    (simplifyTerms solve (rs.flatMap addends)).result = .ok (rs.flatMap addends) := by
  have hparts : ∀ t ∈ rs.flatMap addends, Normal t ∧ t.isSum = false := by
    intro t ht
    obtain ⟨r, hr, ht⟩ := List.mem_flatMap.mp ht
    exact normal_addends (allNormal_iff.mp h r hr) t ht
  exact simplifyTerms_of_normal _ (allNormal_iff.mpr fun t ht => (hparts t ht).1)
    fun t ht => (hparts t ht).2

/-- A sum of simplified trees has their terms and nothing else to simplify. -/
theorem simplifyWith_sum_of_normal (h : AllNormal rs) :
    (simplifyWith solve (sum rs)).result =
      (Logged.numeric (combineSum (rs.flatMap addends))).result := by
  rw [sum, simplifyWith, Logged.result_bind, simplifyTerms_flatMap_addends h]
  rfl

/-- Terms may be simplified before they are added. -/
theorem simplifyWith_sum_operands (h : List.Forall₂ (SimplifiesTo solve) es rs) :
    (simplifyWith solve (sum rs)).result = (simplifyWith solve (.add es)).result := by
  rw [simplifyWith_sum_of_normal (allNormal_of_forall₂ h), simplifyWith, Logged.result_bind,
    simplifyTerms_of_forall₂ h]
  rfl

/-- Simplified factors are what the factors simplify to, gathered up to the first zero. -/
theorem simplifyFactors_of_forall₂ (h : List.Forall₂ (SimplifiesTo solve) es rs) :
    (simplifyFactors solve es).result = .ok (.gather rs) := by
  induction h with
  | nil => rfl
  | @cons e r es rs he _ ih =>
    rcases eq_zero_const_or r with ⟨x, rfl, hx⟩ | hkeep
    · rw [simplifyFactors_cons_of_isZero he hx, Factors.gather, hx]
      rfl
    · rw [simplifyFactors_cons_of_not_isZero he hkeep, ih, Factors.gather_cons hkeep]
      rfl

/-- Normal trees simplify to themselves. -/
theorem simplifiesTo_self_of_allNormal (h : AllNormal rs) :
    List.Forall₂ (SimplifiesTo solve) rs rs := by
  induction rs with
  | nil => exact .nil
  | cons r rs ih => exact .cons (simplifyWith_of_normal r h.1) (ih h.2)

/-- The product of what is left of its factors. -/
def Factors.combined : Factors → Except NumericError Expr
  | .zero x => .ok (.const x)
  | .all factors => combineProduct factors

/-- A product simplifies to what its simplified factors combine to. -/
theorem simplifyWith_mul_of_factors {fs : Factors}
    (h : (simplifyFactors solve es).result = .ok fs) :
    (simplifyWith solve (.mul es)).result = (Logged.numeric fs.combined).result := by
  rw [simplifyWith, Logged.result_bind, h]
  cases fs <;> rfl

/-- A product of simplified trees has their factors and nothing else to simplify. -/
theorem simplifyWith_product_of_normal (h : AllNormal rs) :
    (simplifyWith solve (product rs)).result =
      (Logged.numeric (Factors.gather rs).combined).result := by
  have hparts : AllNormal (rs.flatMap factorsOf) := by
    rw [allNormal_iff]
    intro f hf
    obtain ⟨r, hr, hf⟩ := List.mem_flatMap.mp hf
    exact (normal_factorsOf (allNormal_iff.mp h r hr) f hf).1
  have hfactors : (simplifyFactors solve (rs.flatMap factorsOf)).result =
      .ok (Factors.gather rs) := by
    rw [simplifyFactors_of_forall₂ (simplifiesTo_self_of_allNormal hparts),
      Factors.gather_flatMap_factorsOf h]
  exact simplifyWith_mul_of_factors hfactors

/-- Factors may be simplified before they are multiplied. -/
theorem simplifyWith_product_operands (h : List.Forall₂ (SimplifiesTo solve) es rs) :
    (simplifyWith solve (product rs)).result = (simplifyWith solve (.mul es)).result := by
  rw [simplifyWith_product_of_normal (allNormal_of_forall₂ h),
    simplifyWith_mul_of_factors (simplifyFactors_of_forall₂ h)]

/-- The opposite of a simplified tree is simplified, but for a constant. -/
theorem simplifyWith_negate_of_normal (h : Normal r) :
    (simplifyWith solve (negate r)).result = .ok (foldNeg r) := by
  cases hc : r.isConst with
  | true =>
    obtain ⟨x, rfl⟩ := isConst_eq_true_iff.mp hc
    exact simplifyWith_negate_const x
  | false =>
    rw [foldNeg_of_isConst_eq_false hc]
    exact simplifyWith_of_normal _ (normal_negate h hc)

/-- The reciprocal of a simplified tree is simplified, but for a constant. -/
theorem simplifyWith_invert_of_normal (h : Normal r) :
    (simplifyWith solve (invert r)).result = (Logged.numeric (foldInv r)).result := by
  cases hc : r.isConst with
  | true =>
    obtain ⟨x, rfl⟩ := isConst_eq_true_iff.mp hc
    rfl
  | false =>
    rw [foldInv_of_isConst_eq_false hc]
    exact simplifyWith_of_normal _ (normal_invert h hc)

/-- A function of a normal tree is only folded. -/
theorem simplifyWith_apply_of_normal {f : UnaryFn} (h : Normal r) :
    (simplifyWith solve (.apply f r)).result = foldApply f r := by
  have hr : SimplifiesTo solve r r := simplifyWith_of_normal r h
  rw [simplifyWith, hr.bind]
  rfl

/-- A tree may be simplified before its opposite is. -/
theorem simplifyWith_negate_operand (h : SimplifiesTo solve e r) :
    (simplifyWith solve (negate r)).result = (simplifyWith solve (.neg e)).result := by
  rw [simplifyWith_negate_of_normal h.normal, simplifyWith, h.bind]
  rfl

/-- A tree may be simplified before its reciprocal is. -/
theorem simplifyWith_invert_operand (h : SimplifiesTo solve e r) :
    (simplifyWith solve (invert r)).result = (simplifyWith solve (.inv e)).result := by
  rw [simplifyWith_invert_of_normal h.normal, simplifyWith, h.bind]

/-- Base and exponent may be simplified before the power is. -/
theorem simplifyWith_pow_operands (h₁ : SimplifiesTo solve e₁ r₁)
    (h₂ : SimplifiesTo solve e₂ r₂) :
    (simplifyWith solve (.pow r₁ r₂)).result = (simplifyWith solve (.pow e₁ e₂)).result := by
  rw [simplifyWith, simplifyWith, h₁.bind, h₁.self.bind, h₂.bind, h₂.self.bind]

/-- Base and argument may be simplified before the logarithm is. -/
theorem simplifyWith_log_operands (h₁ : SimplifiesTo solve e₁ r₁)
    (h₂ : SimplifiesTo solve e₂ r₂) :
    (simplifyWith solve (.log r₁ r₂)).result = (simplifyWith solve (.log e₁ e₂)).result := by
  rw [simplifyWith, simplifyWith, h₁.bind, h₁.self.bind, h₂.bind, h₂.self.bind]

/-- The argument may be simplified before the function is. -/
theorem simplifyWith_apply_operand {f : UnaryFn} (h : SimplifiesTo solve e r) :
    (simplifyWith solve (.apply f r)).result = (simplifyWith solve (.apply f e)).result := by
  rw [simplifyWith_apply_of_normal h.normal, simplifyWith, h.bind]
  rfl

/-- Goal and target may be simplified before the goal-seek is. -/
theorem simplifyWith_goalSeek_operands {inversion : Inversion} (h₁ : SimplifiesTo solve e₁ r₁)
    (h₂ : SimplifiesTo solve e₂ r₂) :
    (simplifyWith solve (.goalSeek r₁ r₂ inversion)).result =
      (simplifyWith solve (.goalSeek e₁ e₂ inversion)).result := by
  rw [simplifyWith, simplifyWith, h₁.bind, h₁.self.bind, h₂.bind, h₂.self.bind]

end operands

/-- Simplification of the expression succeeds. -/
def Simplifies (solve : GoalSolver) (e : Expr) : Prop := ∃ r, SimplifiesTo solve e r

/-- Simplification of every subtree succeeds. -/
def AllSimplify (solve : GoalSolver) (e : Expr) : Prop := ∀ s, Subtree s e → Simplifies solve s

/-- Every subtree simplifies if the tree does and those of its parts do. -/
theorem allSimplify_of_children {e : Expr} (he : Simplifies solve e)
    (h : ∀ c ∈ children e, AllSimplify solve c) : AllSimplify solve e := by
  intro s hs
  cases hs with
  | refl => exact he
  | child hc hs => exact h _ hc s hs

/-! ## currying simplifies every subtree -/

/-- A run that simplifies all of its operands together with their subtrees and
ends as `yields` says, or fails as one of these subtrees does. -/
structure StrictRun (solve : GoalSolver) (operands : List Expr) {α : Type} (yields : α → Prop)
    (run : Logged Error α) : Prop where
  ok : ∀ a, run.result = .ok a → yields a ∧ ∀ e ∈ operands, AllSimplify solve e
  error : ∀ err, run.result = .error err →
    ∃ e ∈ operands, ∃ s, Subtree s e ∧ (simplifyWith solve s).result = .error err

namespace StrictRun

/-- A strict run that simplifies one expression. -/
abbrev Of (solve : GoalSolver) (e : Expr) (run : Logged Error Expr) : Prop :=
  StrictRun solve [e] (SimplifiesTo solve e) run

/-- A node without parts that simplifies to itself. -/
theorem leaf {e : Expr} (hc : children e = []) (he : SimplifiesTo solve e e) :
    Of solve e (pure e) where
  ok r hr := by
    cases hr
    refine ⟨he, fun c hc' => ?_⟩
    rw [List.mem_singleton.mp hc']
    exact allSimplify_of_children ⟨e, he⟩ (by simp [hc])
  error _ herr := by cases herr

/-- A node is simplified once its direct subtrees are, by way of the rebuilt
node. -/
theorem node {n : Expr} {α : Type} {yields : α → Prop} {run : Logged Error α}
    {rebuild : α → Logged Error Expr} (h : StrictRun solve (children n) yields run)
    (hrebuild : ∀ a, yields a → (rebuild a).result = (simplifyWith solve n).result) :
    Of solve n (run >>= rebuild) where
  ok r hr := by
    obtain ⟨a, ha, hr⟩ := Logged.result_bind_eq_ok.mp hr
    obtain ⟨hyields, hall⟩ := h.ok a ha
    rw [hrebuild a hyields] at hr
    refine ⟨hr, fun c hc => ?_⟩
    rw [List.mem_singleton.mp hc]
    exact allSimplify_of_children ⟨r, hr⟩ hall
  error err herr := by
    refine ⟨n, List.mem_cons_self, ?_⟩
    rcases Logged.result_bind_eq_error.mp herr with herr | ⟨a, ha, herr⟩
    · obtain ⟨c, hc, s, hs, hfail⟩ := h.error err herr
      exact ⟨s, .child hc hs, hfail⟩
    · exact ⟨n, .refl n, (hrebuild a (h.ok a ha).1).symm.trans herr⟩

/-- Two runs one after the other. -/
theorem andThen {es fs : List Expr} {α β γ : Type} {yields : α → Prop} {yields' : β → Prop}
    {m : Logged Error α} {m' : Logged Error β} (h : StrictRun solve es yields m)
    (h' : StrictRun solve fs yields' m') (pair : α → β → γ) {yields'' : γ → Prop}
    (hpair : ∀ a b, yields a → yields' b → yields'' (pair a b)) :
    StrictRun solve (es ++ fs) yields'' (m >>= fun a => m' >>= fun b => pure (pair a b)) where
  ok c hc := by
    obtain ⟨a, ha, hc⟩ := Logged.result_bind_eq_ok.mp hc
    obtain ⟨b, hb, hc⟩ := Logged.result_bind_eq_ok.mp hc
    cases hc
    obtain ⟨hya, hes⟩ := h.ok a ha
    obtain ⟨hyb, hfs⟩ := h'.ok b hb
    refine ⟨hpair a b hya hyb, fun e he => ?_⟩
    rcases List.mem_append.mp he with he | he
    · exact hes e he
    · exact hfs e he
  error err herr := by
    rcases Logged.result_bind_eq_error.mp herr with herr | ⟨a, -, herr⟩
    · obtain ⟨e, he, hfail⟩ := h.error err herr
      exact ⟨e, List.mem_append_left fs he, hfail⟩
    rcases Logged.result_bind_eq_error.mp herr with herr | ⟨b, -, herr⟩
    · obtain ⟨e, he, hfail⟩ := h'.error err herr
      exact ⟨e, List.mem_append_right es he, hfail⟩
    · cases herr

/-- A node over two subtrees. -/
theorem node₂ {n e₁ e₂ : Expr} {m₁ m₂ : Logged Error Expr}
    {rebuild : Expr → Expr → Logged Error Expr} (hn : children n = [e₁, e₂])
    (h₁ : Of solve e₁ m₁) (h₂ : Of solve e₂ m₂)
    (hrebuild : ∀ r₁ r₂, SimplifiesTo solve e₁ r₁ → SimplifiesTo solve e₂ r₂ →
      (rebuild r₁ r₂).result = (simplifyWith solve n).result) :
    Of solve n (m₁ >>= fun r₁ => m₂ >>= fun r₂ => rebuild r₁ r₂) := by
  have hpair : StrictRun solve (children n)
      (fun r => SimplifiesTo solve e₁ r.1 ∧ SimplifiesTo solve e₂ r.2)
      (m₁ >>= fun r₁ => m₂ >>= fun r₂ => pure (r₁, r₂)) := by
    rw [hn]
    exact h₁.andThen h₂ Prod.mk fun _ _ => And.intro
  have hnode : Of solve n ((m₁ >>= fun r₁ => m₂ >>= fun r₂ => pure (r₁, r₂)) >>=
      fun r => rebuild r.1 r.2) :=
    hpair.node fun r hr => hrebuild r.1 r.2 hr.1 hr.2
  simpa only [bind_assoc, pure_bind] using hnode

end StrictRun

mutual

/-- **Currying simplifies every subtree of the substituted tree**, and fails as
one of them does. -/
theorem strictRun_curryWith : (args : Arguments) → (e : Expr) →
    StrictRun.Of solve (substitute args e) (curryWith solve args e)
  | args, .var v => by
    rw [curryWith, substitute]
    cases args.get? v with
    | none => exact .leaf rfl rfl
    | some x => exact .leaf rfl rfl
  | _, .const x => .leaf (e := .const x) rfl rfl
  | args, .add terms => by
    rw [curryWith, substitute]
    exact (strictRun_curryAllWith args terms).node fun _ => simplifyWith_sum_operands
  | args, .mul factors => by
    rw [curryWith, substitute]
    exact (strictRun_curryAllWith args factors).node fun _ => simplifyWith_product_operands
  | args, .neg e => by
    rw [curryWith, substitute]
    exact (strictRun_curryWith args e).node fun _ => simplifyWith_negate_operand
  | args, .inv e => by
    rw [curryWith, substitute]
    exact (strictRun_curryWith args e).node fun _ => simplifyWith_invert_operand
  | args, .pow base exponent => by
    rw [curryWith, substitute]
    exact .node₂ rfl (strictRun_curryWith args base) (strictRun_curryWith args exponent)
      fun _ _ => simplifyWith_pow_operands
  | args, .log base power => by
    rw [curryWith, substitute]
    exact .node₂ rfl (strictRun_curryWith args base) (strictRun_curryWith args power)
      fun _ _ => simplifyWith_log_operands
  | args, .apply f e => by
    rw [curryWith, substitute]
    exact (strictRun_curryWith args e).node fun _ => simplifyWith_apply_operand
  | args, .goalSeek goal target inversion => by
    rw [curryWith, substitute]
    exact .node₂ rfl (strictRun_curryWith args goal)
      (strictRun_curryWith (args.erase inversion.unknown) target)
      fun _ _ => simplifyWith_goalSeek_operands

/-- The same for the members of a list. -/
theorem strictRun_curryAllWith : (args : Arguments) → (es : List Expr) →
    StrictRun solve (substituteAll args es)
      (List.Forall₂ (SimplifiesTo solve) (substituteAll args es)) (curryAllWith solve args es)
  | _, [] => by
    refine ⟨fun rs hrs => ?_, nofun⟩
    cases hrs
    exact ⟨.nil, fun e he => absurd he List.not_mem_nil⟩
  | args, e :: es => by
    rw [curryAllWith, substituteAll]
    exact (strictRun_curryWith args e).andThen (strictRun_curryAllWith args es) List.cons
      fun _ _ => .cons

end

/-- Curried members are normal. -/
theorem allNormal_curryAllWith {args : Arguments} {es rs : List Expr}
    (h : (curryAllWith solve args es).result = .ok rs) : AllNormal rs :=
  allNormal_of_forall₂ ((strictRun_curryAllWith args es).ok rs h).1

/-- Currying succeeds where every subtree of the substituted tree can be
simplified, and with the same result. -/
theorem curryWith_eq_ok_iff {args : Arguments} {e r : Expr} :
    (curryWith solve args e).result = .ok r ↔
      SimplifiesTo solve (substitute args e) r ∧ AllSimplify solve (substitute args e) := by
  have hrun : StrictRun.Of solve (substitute args e) (curryWith solve args e) :=
    strictRun_curryWith args e
  constructor
  · intro h
    obtain ⟨hr, hall⟩ := hrun.ok r h
    exact ⟨hr, hall _ List.mem_cons_self⟩
  · rintro ⟨hr, hall⟩
    cases h : (curryWith solve args e).result with
    | ok r' => rw [hr.unique (hrun.ok r' h).1]
    | error err =>
      obtain ⟨c, hc, s, hs, hfail⟩ := hrun.error err h
      obtain ⟨s', hs'⟩ := hall s (List.mem_singleton.mp hc ▸ hs)
      cases hfail.symm.trans hs'

/-! ## what a zero factor hides -/

/-- The factor `f` stands behind one that simplifies to zero, in a product that
occurs in `e`. -/
def BehindZero (solve : GoalSolver) (f e : Expr) : Prop :=
  ∃ before after, Subtree (.mul (before ++ f :: after)) e ∧
    ∃ z ∈ before, ∃ x, SimplifiesTo solve z (.const x) ∧ x.isZero = true

/-- Factors are simplified up to the first zero. -/
theorem simplifies_of_mem_factors {es : List Expr} {fs : Factors}
    (h : (simplifyFactors solve es).result = .ok fs) {f : Expr} (hf : f ∈ es) :
    Simplifies solve f ∨ ∃ before after, es = before ++ f :: after ∧
      ∃ z ∈ before, ∃ x, SimplifiesTo solve z (.const x) ∧ x.isZero = true := by
  induction es generalizing fs with
  | nil => cases hf
  | cons e es ih =>
    rcases simplifyFactors_cons_eq_ok h with ⟨x, hr, hx, -⟩ | ⟨r, rest, hr, hrest, -⟩
    · rcases List.mem_cons.mp hf with rfl | hf
      · exact .inl ⟨_, hr⟩
      · obtain ⟨before, after, rfl⟩ := List.append_of_mem hf
        exact .inr ⟨e :: before, after, rfl, e, List.mem_cons_self, x, hr, hx⟩
    · rcases List.mem_cons.mp hf with rfl | hf
      · exact .inl ⟨r, hr⟩
      · rcases ih hrest hf with hs | ⟨before, after, rfl, z, hz, hx⟩
        · exact .inl hs
        · exact .inr ⟨e :: before, after, rfl, z, List.mem_cons_of_mem e hz, hx⟩

/-- Every term of a sum that simplifies does so, too. -/
theorem simplifies_of_mem_terms {es ts : List Expr}
    (h : (simplifyTerms solve es).result = .ok ts) {t : Expr} (ht : t ∈ es) :
    Simplifies solve t := by
  induction es generalizing ts with
  | nil => cases ht
  | cons e es ih =>
    obtain ⟨r, hr, h⟩ := Logged.result_bind_eq_ok.mp h
    obtain ⟨ts', hts, _⟩ := Logged.result_bind_eq_ok.mp h
    rcases List.mem_cons.mp ht with rfl | ht
    · exact ⟨r, hr⟩
    · exact ih hts ht

/-- The direct subtrees of a tree that can be simplified can be simplified, but
for factors behind a zero. -/
theorem simplifies_child {e c : Expr} (he : Simplifies solve e) (hc : c ∈ children e) :
    Simplifies solve c ∨ BehindZero solve c e := by
  obtain ⟨r, hr⟩ := he
  cases e with
  | var v => cases hc
  | const x => cases hc
  | add terms =>
    obtain ⟨ts, hts, _⟩ := Logged.result_bind_eq_ok.mp hr
    exact .inl (simplifies_of_mem_terms hts hc)
  | mul factors =>
    obtain ⟨fs, hfs, _⟩ := Logged.result_bind_eq_ok.mp hr
    rcases simplifies_of_mem_factors hfs hc with hs | ⟨before, after, heq, hzero⟩
    · exact .inl hs
    · exact .inr ⟨before, after, heq ▸ .refl _, hzero⟩
  | neg e =>
    obtain ⟨s, hs, _⟩ := Logged.result_bind_eq_ok.mp hr
    exact .inl ⟨s, List.mem_singleton.mp hc ▸ hs⟩
  | inv e =>
    obtain ⟨s, hs, _⟩ := Logged.result_bind_eq_ok.mp hr
    exact .inl ⟨s, List.mem_singleton.mp hc ▸ hs⟩
  | apply f e =>
    obtain ⟨s, hs, _⟩ := Logged.result_bind_eq_ok.mp hr
    exact .inl ⟨s, List.mem_singleton.mp hc ▸ hs⟩
  | pow e₁ e₂ | log e₁ e₂ | goalSeek e₁ e₂ _ =>
    obtain ⟨s₁, hs₁, hr⟩ := Logged.result_bind_eq_ok.mp hr
    obtain ⟨s₂, hs₂, _⟩ := Logged.result_bind_eq_ok.mp hr
    simp only [children, operands, List.mem_cons, List.not_mem_nil, or_false] at hc
    rcases hc with rfl | rfl
    · exact .inl ⟨s₁, hs₁⟩
    · exact .inl ⟨s₂, hs₂⟩

/-- What a zero hides in a part of a tree it hides in the tree. -/
theorem BehindZero.trans {f c e : Expr} (h : BehindZero solve f c) (hc : Subtree c e) :
    BehindZero solve f e := by
  obtain ⟨before, after, hsub, hzero⟩ := h
  exact ⟨before, after, hsub.trans hc, hzero⟩

/-- What a zero hides is part of the tree. -/
theorem BehindZero.subtree {f e : Expr} (h : BehindZero solve f e) : Subtree f e := by
  obtain ⟨before, after, hsub, -⟩ := h
  exact .trans (.child (by simp [children, operands]) (.refl f)) hsub

/-- Simplification comes to every subtree that does not lie in a factor behind a
zero. -/
theorem simplifies_or_behindZero {s e : Expr} (hs : Subtree s e) (he : Simplifies solve e) :
    Simplifies solve s ∨ ∃ f, BehindZero solve f e ∧ ¬ Simplifies solve f ∧ Subtree s f := by
  induction hs with
  | refl => exact .inl he
  | @child c e hc hsc ih =>
    by_cases hcs : Simplifies solve c
    · rcases ih hcs with hs | ⟨f, hf, hfail, hsf⟩
      · exact .inl hs
      · exact .inr ⟨f, hf.trans (.child hc (.refl c)), hfail, hsf⟩
    · exact .inr ⟨c, (simplifies_child he hc).resolve_left hcs, hcs, hsc⟩

/-! ## curried trees -/

section catalogue

variable (catalogue : Catalogue) {e r : Expr} {args : Arguments}

/-- Substitution leaves the depth of goal-seeks, and so the solver. -/
theorem solver_substitute : (e.substitute args).solver catalogue = e.solver catalogue := by
  rw [solver, solver, seekDepth_substitute]

/-- **Currying is substitution followed by simplification**, where it succeeds:
the tree with bound variables replaced simplifies to the curried tree. -/
theorem simplify_substitute_of_curry (h : (e.curry catalogue args).result = .ok r) :
    ((e.substitute args).simplify catalogue).result = .ok r := by
  obtain ⟨hr, _⟩ := curryWith_eq_ok_iff.mp h
  rw [simplify, solver_substitute]
  exact hr

/-- **Where currying and substitution followed by simplification part.**  Let
the tree with bound variables replaced simplify to `r`.  Then currying arrives at
`r` if and only if the factors behind a zero can be simplified, too; and it fails
only as some part of such a factor does. -/
theorem curry_iff_of_simplify_substitute
    (h : ((e.substitute args).simplify catalogue).result = .ok r) :
    ((e.curry catalogue args).result = .ok r ↔
      ∀ f, BehindZero (e.solver catalogue) f (e.substitute args) →
        Simplifies (e.solver catalogue) f) ∧
    ∀ err, (e.curry catalogue args).result = .error err →
      ∃ f, BehindZero (e.solver catalogue) f (e.substitute args) ∧
        ∃ s, Subtree s f ∧ (simplifyWith (e.solver catalogue) s).result = .error err := by
  rw [simplify, solver_substitute] at h
  constructor
  · rw [curry, curryWith_eq_ok_iff]
    constructor
    · rintro ⟨-, hall⟩ f hf
      exact hall f hf.subtree
    · refine fun hbehind => ⟨h, fun s hs => ?_⟩
      refine (simplifies_or_behindZero hs ⟨r, h⟩).resolve_right ?_
      rintro ⟨f, hf, hfail, -⟩
      exact hfail (hbehind f hf)
  · intro err herr
    obtain ⟨c, hc, s, hs, hfail⟩ := (strictRun_curryWith args e).error err herr
    rw [List.mem_singleton.mp hc] at hs
    rcases simplifies_or_behindZero hs ⟨r, h⟩ with ⟨s', hs'⟩ | ⟨f, hf, -, hsf⟩
    · cases hfail.symm.trans hs'
    · exact ⟨f, hf, s, hsf, hfail⟩

end catalogue

end

/-- With `x` bound to 3, the target of a goal-seek for `x` keeps its `x`. -/
theorem simplify_substitute_of_curry_goalSeek :
    let x : Variable := ⟨"x"⟩
    let seekX := seek (ofName "y") (.pow (.var x) (ofInt 2)) x ⟨0⟩
    let e := Expr.add [.var x, seekX]
    let args := Arguments.single x (.integer 3)
    (e.curry .empty args).result = .ok (.add [seekX, ofInt 3]) ∧
      ((e.substitute args).simplify .empty).result = .ok (.add [seekX, ofInt 3]) := by
  intro x seekX e args
  have h : (e.curry .empty args).result = .ok (.add [seekX, ofInt 3]) := rfl
  exact ⟨h, simplify_substitute_of_curry .empty h⟩

/-- At `x = -1` the product `0 * ln x` simplifies to zero, but is not curried. -/
theorem curry_iff_of_simplify_substitute_ln :
    let e := product [zero, ln (ofName "x")]
    let args := Arguments.single ⟨"x"⟩ (.integer (-1))
    ((e.substitute args).simplify .empty).result = .ok zero ∧
      (e.curry .empty args).result = .error (.numeric .logarithmOfNegative) ∧
      ∃ f, BehindZero (e.solver .empty) f (e.substitute args) ∧
        ∃ s, Subtree s f ∧ (simplifyWith (e.solver .empty) s).result =
          .error (.numeric .logarithmOfNegative) := by
  intro e args
  have h : ((e.substitute args).simplify .empty).result = .ok zero := rfl
  have herr : (e.curry .empty args).result = .error (.numeric .logarithmOfNegative) := rfl
  exact ⟨h, herr, (curry_iff_of_simplify_substitute .empty h).2 _ herr⟩

end SymCalc.Expr
