import SymCalc.Expr.Simplify

/-!
# SymCalc.Expr.Weight

A size of trees that simplification never increases.  Every node counts one,
but a logarithm to a base counts for the quotient of natural logarithms it is
an abbreviation of, and one more.

Main statements: `weight_simplifyWith`, `weight_quotientOfLogs`.
-/

namespace SymCalc.Expr

mutual

/-- The size of a tree. -/
def weight : Expr → Nat
  | .var _ => 1
  | .const _ => 1
  | .add terms => 1 + weightAll terms
  | .mul factors => 1 + weightAll factors
  | .neg e => 1 + weight e
  | .inv e => 1 + weight e
  | .pow base exponent => 1 + weight base + weight exponent
  | .log base power => 5 + weight base + weight power
  | .apply _ e => 1 + weight e
  | .goalSeek goal target _ => 1 + weight goal + weight target

/-- The sizes of a list of trees, added up. -/
def weightAll : List Expr → Nat
  | [] => 0
  | e :: es => weight e + weightAll es

end

attribute [grind] weight weightAll

/-- Every tree weighs something. -/
theorem one_le_weight (e : Expr) : 1 ≤ weight e := by
  cases e <;> simp only [weight] <;> omega

@[simp] theorem weightAll_append (es fs : List Expr) :
    weightAll (es ++ fs) = weightAll es + weightAll fs := by
  induction es with
  | nil => simp [weightAll]
  | cons e es ih => simp only [List.cons_append, weightAll, ih]; omega

/-- A member weighs no more than the list. -/
theorem weight_le_of_mem {e : Expr} {es : List Expr} (h : e ∈ es) :
    weight e ≤ weightAll es := by
  induction es with
  | nil => cases h
  | cons e' es ih =>
    simp only [weightAll]
    rcases List.mem_cons.mp h with rfl | h
    · omega
    · have := ih h
      omega

/-- A term weighs less than the sum. -/
theorem weight_lt_add {e : Expr} {terms : List Expr} (h : e ∈ terms) :
    weight e < weight (.add terms) := by
  have := weight_le_of_mem h
  simp only [weight]
  omega

/-- A factor weighs less than the product. -/
theorem weight_lt_mul {e : Expr} {factors : List Expr} (h : e ∈ factors) :
    weight e < weight (.mul factors) := by
  have := weight_le_of_mem h
  simp only [weight]
  omega

/-- The logarithm of `power` to a base, as a quotient of natural logarithms. -/
def quotientOfLogs (base power : Expr) : Expr := div (ln power) (ln base)

/-- The quotient is a product with a reciprocal as its last factor. -/
theorem quotientOfLogs_eq (base power : Expr) :
    quotientOfLogs base power = .mul [ln power, .inv (ln base)] := rfl

/-- The quotient weighs less than the logarithm it spells out. -/
theorem weight_quotientOfLogs (base power : Expr) :
    weight (quotientOfLogs base power) < weight (.log base power) := by
  simp only [quotientOfLogs_eq, weight, weightAll]
  omega

/-! ## normalising constructors -/

/-- The opposite weighs at most the sign more. -/
theorem weight_negate (e : Expr) : weight (negate e) ≤ 1 + weight e := by
  unfold negate
  split
  · simp only [weight]; omega
  · split <;> simp only [weight] <;> omega
  · simp only [weight]; omega

/-- The reciprocal weighs at most one node more. -/
theorem weight_invert (e : Expr) : weight (invert e) ≤ 1 + weight e := by
  fun_induction invert e with
  | case1 e => simp only [weight]; omega
  | case2 e ih =>
    have := weight_negate (invert e)
    simp only [weight]
    omega
  | case3 e => simp only [weight]; omega

/-- A sum taken apart loses the weight of its node. -/
theorem weightAll_addends (e : Expr) : weightAll (addends e) ≤ weight e := by
  unfold addends
  split <;> simp only [weight, weightAll] <;> omega

/-- A product taken apart loses the weight of its node. -/
theorem weightAll_factorsOf (e : Expr) : weightAll (factorsOf e) ≤ weight e := by
  unfold factorsOf
  split <;> simp only [weight, weightAll] <;> omega

/-! ## folded nodes -/

/-- Constants weigh one each. -/
theorem weightAll_nonConstants (es : List Expr) :
    weightAll (nonConstants es) + (constants es).length = weightAll es := by
  fun_induction nonConstants es <;> simp_all [constants, weightAll, weight] <;> omega

/-- Operands put together with a constant weigh one node more, and the constant only if it
is kept. -/
theorem weight_assemble {node : List Expr → Expr}
    (hnode : ∀ es, weight (node es) = 1 + weightAll es)
    {rest : List Expr} {x : Number} {neutral : Bool} {n : Nat}
    (hn : neutral = false → 1 ≤ n) :
    weight (assemble node rest x neutral) ≤ 1 + (weightAll rest + n) := by
  unfold assemble
  split
  · simp only [weight, weightAll]; omega
  · split
    · split
      · simp only [weightAll]; omega
      · rw [hnode]; omega
    · rename_i h
      have := hn (by simpa using h)
      rw [hnode, weightAll_append]
      simp only [weightAll, weight]
      omega

/-- A sum of simplified terms weighs no more than they do with a node above them. -/
theorem weight_combineSum {terms : List Expr} {e : Expr} (h : combineSum terms = .ok e) :
    weight e ≤ 1 + weightAll terms := by
  unfold combineSum at h
  cases hx : Number.sum (constants terms) with
  | error err => rw [hx] at h; cases h
  | ok x =>
    rw [hx] at h
    cases h
    rw [← weightAll_nonConstants terms]
    refine weight_assemble (fun _ => rfl) fun hneutral => ?_
    cases hc : constants terms with
    | nil => rw [hc] at hx; cases hx; exact absurd hneutral (by decide)
    | cons _ _ => simp

/-- A product of simplified factors weighs no more than they do with a node above them. -/
theorem weight_combineProduct {factors : List Expr} {e : Expr}
    (h : combineProduct factors = .ok e) : weight e ≤ 1 + weightAll factors := by
  unfold combineProduct at h
  cases hx : Number.product (constants factors) with
  | error err => rw [hx] at h; cases h
  | ok x =>
    rw [hx] at h
    cases h
    split
    · simp only [weight]; omega
    · rw [← weightAll_nonConstants factors]
      refine weight_assemble (fun _ => rfl) fun hneutral => ?_
      cases hc : constants factors with
      | nil => rw [hc] at hx; cases hx; exact absurd hneutral (by decide)
      | cons _ _ => simp

/-- A folded opposite weighs no more than the node it replaces. -/
theorem weight_foldNeg (e : Expr) : weight (foldNeg e) ≤ 1 + weight e := by
  unfold foldNeg
  split
  · simp only [weight]; omega
  · exact weight_negate e

/-- A folded reciprocal weighs no more than the node it replaces. -/
theorem weight_foldInv {e e' : Expr} (h : foldInv e = .ok e') : weight e' ≤ 1 + weight e := by
  unfold foldInv at h
  split at h
  · rename_i x
    cases hx : x.inv <;> rw [hx] at h <;> cases h
    simp only [weight]; omega
  · cases h
    exact weight_invert e

/-- A folded power weighs no more than the node it replaces. -/
theorem weight_foldPow [Elementary] {b p e' : Expr} (h : foldPow b p = .ok e') :
    weight e' ≤ 1 + weight b + weight p := by
  unfold foldPow at h
  split at h
  · rename_i x y
    cases hx : x.pow y <;> rw [hx] at h <;> cases h
    simp only [weight]; omega
  · cases h
    split <;> simp only [weight] <;> omega
  · cases h
    simp only [weight]; omega

/-- A folded logarithm weighs no more than the node it replaces. -/
theorem weight_foldLog [Elementary] {b p e' : Expr} (h : foldLog b p = .ok e') :
    weight e' ≤ 5 + weight b + weight p := by
  unfold foldLog at h
  split at h
  · rename_i x y
    cases hx : x.log y <;> rw [hx] at h <;> cases h
    simp only [weight]; omega
  · cases h
    simp only [weight]; omega

/-- A folded function weighs no more than the node it replaces. -/
theorem weight_foldApply [Elementary] {f : UnaryFn} {e e' : Expr} (h : foldApply f e = .ok e') :
    weight e' ≤ 1 + weight e := by
  unfold foldApply at h
  split at h
  · rename_i x
    cases hx : f.eval x <;> rw [hx] at h <;> cases h
    simp only [weight]; omega
  · cases h
    simp only [weight]; omega

/-- A folded goal-seek weighs no more than the node it replaces. -/
theorem weight_foldSeek {solve : GoalSolver} {goal target : Expr} {inversion : Inversion}
    {e' : Expr} (h : (foldSeek solve goal target inversion).result = .ok e') :
    weight e' ≤ 1 + weight goal + weight target := by
  unfold foldSeek at h
  split at h
  · rw [Logged.result_bind] at h
    cases hx : (solve goal target inversion .empty).result <;> rw [hx] at h <;> cases h
    simp only [weight]; omega
  · cases h
    simp only [weight]; omega

/-! ## simplified trees -/

/-- The size of what simplification leaves of a product's factors. -/
def Factors.weight : Factors → Nat
  | .zero _ => 0
  | .all factors => weightAll factors

/-- Further factors in front add at most their own weight; before a zero they add none. -/
theorem weight_prepend (es : List Expr) (r : Factors) :
    (r.prepend es).weight ≤ weightAll es + r.weight := by
  cases r <;> simp [Factors.prepend, Factors.weight]

variable [Elementary]

mutual

/-- **Simplification never increases the weight of a tree.** -/
theorem weight_simplifyWith (solve : GoalSolver) : (e : Expr) → {e' : Expr} →
    (simplifyWith solve e).result = .ok e' → weight e' ≤ weight e
  | .var _, _, h => by cases h; exact Nat.le_refl _
  | .const _, _, h => by cases h; exact Nat.le_refl _
  | .add terms, _, h => by
    obtain ⟨ts, hts, h⟩ := Logged.result_bind_eq_ok.mp h
    have := weight_simplifyTerms solve terms hts
    have := weight_combineSum (Logged.result_numeric_eq_ok.mp h)
    simp only [weight]
    omega
  | .mul factors, _, h => by
    obtain ⟨r, hr, h⟩ := Logged.result_bind_eq_ok.mp h
    have := weight_simplifyFactors solve factors hr
    cases r with
    | zero x => cases h; simp only [weight]; omega
    | all fs =>
      have := weight_combineProduct (Logged.result_numeric_eq_ok.mp h)
      simp only [weight, Factors.weight] at *
      omega
  | .neg e, _, h => by
    obtain ⟨e₁, h₁, h⟩ := Logged.result_bind_eq_ok.mp h
    have := weight_simplifyWith solve e h₁
    cases h
    have := weight_foldNeg e₁
    simp only [weight]
    omega
  | .inv e, _, h => by
    obtain ⟨e₁, h₁, h⟩ := Logged.result_bind_eq_ok.mp h
    have := weight_simplifyWith solve e h₁
    have := weight_foldInv (Logged.result_numeric_eq_ok.mp h)
    simp only [weight]
    omega
  | .pow base exponent, _, h => by
    obtain ⟨b, hb, h⟩ := Logged.result_bind_eq_ok.mp h
    obtain ⟨p, hp, h⟩ := Logged.result_bind_eq_ok.mp h
    have := weight_simplifyWith solve base hb
    have := weight_simplifyWith solve exponent hp
    have := weight_foldPow (Logged.result_numeric_eq_ok.mp h)
    simp only [weight]
    omega
  | .log base power, _, h => by
    obtain ⟨b, hb, h⟩ := Logged.result_bind_eq_ok.mp h
    obtain ⟨p, hp, h⟩ := Logged.result_bind_eq_ok.mp h
    have := weight_simplifyWith solve base hb
    have := weight_simplifyWith solve power hp
    have := weight_foldLog (Logged.result_numeric_eq_ok.mp h)
    simp only [weight]
    omega
  | .apply f e, _, h => by
    obtain ⟨e₁, h₁, h⟩ := Logged.result_bind_eq_ok.mp h
    have := weight_simplifyWith solve e h₁
    have := weight_foldApply (f := f) h
    simp only [weight]
    omega
  | .goalSeek goal target inversion, _, h => by
    obtain ⟨g, hg, h⟩ := Logged.result_bind_eq_ok.mp h
    obtain ⟨t, ht, h⟩ := Logged.result_bind_eq_ok.mp h
    have := weight_simplifyWith solve goal hg
    have := weight_simplifyWith solve target ht
    have := weight_foldSeek h
    simp only [weight]
    omega

/-- The same for the terms of a sum, sums among them taken apart. -/
theorem weight_simplifyTerms (solve : GoalSolver) : (es : List Expr) → {ts : List Expr} →
    (simplifyTerms solve es).result = .ok ts → weightAll ts ≤ weightAll es
  | [], _, h => by cases h; exact Nat.le_refl _
  | e :: es, _, h => by
    obtain ⟨e₁, h₁, h⟩ := Logged.result_bind_eq_ok.mp h
    obtain ⟨ts, hts, h⟩ := Logged.result_bind_eq_ok.mp h
    have := weight_simplifyWith solve e h₁
    have := weight_simplifyTerms solve es hts
    have := weightAll_addends e₁
    cases h
    simp only [weightAll_append, weightAll]
    omega

/-- The same for the factors of a product, of which a zero may hide the rest. -/
theorem weight_simplifyFactors (solve : GoalSolver) : (es : List Expr) → {r : Factors} →
    (simplifyFactors solve es).result = .ok r → r.weight ≤ weightAll es
  | [], _, h => by cases h; exact Nat.le_refl _
  | e :: es, _, h => by
    simp only [weightAll]
    rcases simplifyFactors_cons_eq_ok h with ⟨x, -, -, rfl⟩ | ⟨e₁, rest, h₁, hrest, rfl⟩
    · have := one_le_weight e
      simp only [Factors.weight]
      omega
    · have := weight_simplifyWith solve e h₁
      have := weight_simplifyFactors solve es hrest
      have := weightAll_factorsOf e₁
      have := weight_prepend (factorsOf e₁) rest
      omega

end

/-- The simplified base of a power weighs less than the power. -/
theorem weight_base_lt {solve : GoalSolver} {base b : Expr}
    (h : (simplifyWith solve base).result = .ok b) (exponent : Expr) :
    weight b < weight (.pow base exponent) := by
  have := weight_simplifyWith solve base h
  simp only [weight]
  omega

/-- The simplified exponent of a power weighs less than the power. -/
theorem weight_exponent_lt {solve : GoalSolver} {exponent p : Expr}
    (h : (simplifyWith solve exponent).result = .ok p) (base : Expr) :
    weight p < weight (.pow base exponent) := by
  have := weight_simplifyWith solve exponent h
  simp only [weight]
  omega

end SymCalc.Expr
