import SymCalc.Expr.Curry
import SymCalc.Expr.Derivative

/-!
# SymCalc.Expr.Depth

How deep goal-seeks are nested in an expression, and that no operation on
expressions nests them deeper.

Main statements: `seekDepth_simplifyWith`, `seekDepth_curryWith`,
`seekDepth_derivativeWith`.
-/

namespace SymCalc.Expr

mutual

/-- How deep goal-seeks are nested. -/
def seekDepth : Expr → Nat
  | .var _ => 0
  | .const _ => 0
  | .add terms => seekDepthAll terms
  | .mul factors => seekDepthAll factors
  | .neg e => seekDepth e
  | .inv e => seekDepth e
  | .pow base exponent => max (seekDepth base) (seekDepth exponent)
  | .log base power => max (seekDepth base) (seekDepth power)
  | .apply _ e => seekDepth e
  | .goalSeek goal target _ => max (seekDepth goal) (seekDepth target) + 1

/-- How deep goal-seeks are nested in the members of a list. -/
def seekDepthAll : List Expr → Nat
  | [] => 0
  | e :: es => max (seekDepth e) (seekDepthAll es)

end

attribute [grind] seekDepth seekDepthAll

@[simp] theorem seekDepthAll_append (es fs : List Expr) :
    seekDepthAll (es ++ fs) = max (seekDepthAll es) (seekDepthAll fs) := by
  induction es with
  | nil => simp [seekDepthAll]
  | cons e es ih => simp only [List.cons_append, seekDepthAll, ih]; omega

/-- A member of a list nests goal-seeks no deeper than the list. -/
theorem seekDepth_le_of_mem {e : Expr} {es : List Expr} (h : e ∈ es) :
    seekDepth e ≤ seekDepthAll es := by
  induction es with
  | nil => cases h
  | cons e' es ih =>
    simp only [seekDepthAll]
    rcases List.mem_cons.mp h with rfl | h
    · omega
    · have := ih h
      omega

/-! ## normalising constructors -/

/-- The opposite of a tree, whether it adds a sign or takes one away, nests as deep. -/
theorem seekDepth_negate (e : Expr) : seekDepth (negate e) = seekDepth e := by
  unfold negate
  split
  · simp only [seekDepth]
  · split <;> simp only [seekDepth]
  · simp only [seekDepth]

/-- The reciprocal of a tree nests as deep, also where it goes below a sign. -/
theorem seekDepth_invert (e : Expr) : seekDepth (invert e) = seekDepth e := by
  fun_induction invert e with
  | case1 e => simp only [seekDepth]
  | case2 e ih => rw [seekDepth_negate, ih, seekDepth]
  | case3 e => simp only [seekDepth]

/-- Taking a sum apart keeps the depth. -/
theorem seekDepthAll_addends (e : Expr) : seekDepthAll (addends e) = seekDepth e := by
  unfold addends
  split
  · simp only [seekDepth]
  · simp only [seekDepthAll]; omega

/-- Taking a product apart keeps the depth. -/
theorem seekDepthAll_factorsOf (e : Expr) : seekDepthAll (factorsOf e) = seekDepth e := by
  unfold factorsOf
  split
  · simp only [seekDepth]
  · simp only [seekDepthAll]; omega

/-- A sum nests as deep as its terms, whose own sums become part of it. -/
theorem seekDepth_sum (es : List Expr) : seekDepth (sum es) = seekDepthAll es := by
  unfold sum
  rw [seekDepth]
  induction es with
  | nil => rfl
  | cons e es ih =>
    rw [List.flatMap_cons, seekDepthAll_append, seekDepthAll_addends, ih, seekDepthAll]

/-- A product nests as deep as its factors, whose own products become part of it. -/
theorem seekDepth_product (es : List Expr) : seekDepth (product es) = seekDepthAll es := by
  unfold product
  rw [seekDepth]
  induction es with
  | nil => rfl
  | cons e es ih =>
    rw [List.flatMap_cons, seekDepthAll_append, seekDepthAll_factorsOf, ih, seekDepthAll]

/-- The derivative of a function is put together from its argument and the derivative of
this. -/
theorem seekDepth_applyRule {f : UnaryFn} {e d : Expr} {rule : Expr → Expr}
    (h : applyRule f e = some rule) :
    seekDepth (rule d) ≤ max (seekDepth e) (seekDepth d) := by
  unfold applyRule at h
  split at h <;> cases h <;>
    simp only [seekDepth_negate, seekDepth_product, seekDepth_invert, seekDepthAll, seekDepth] <;>
    omega

/-! ## folded nodes -/

/-- Constants have no part in the depth. -/
theorem seekDepthAll_nonConstants (es : List Expr) :
    seekDepthAll (nonConstants es) = seekDepthAll es := by
  fun_induction nonConstants es <;> simp_all [seekDepthAll, seekDepth]

/-- A constant beside other operands makes no goal-seek deeper. -/
theorem seekDepth_assemble {node : List Expr → Expr}
    (hnode : ∀ es, seekDepth (node es) = seekDepthAll es)
    (rest : List Expr) (x : Number) (neutral : Bool) :
    seekDepth (assemble node rest x neutral) ≤ seekDepthAll rest := by
  unfold assemble
  split
  · simp [seekDepth]
  · split
    · split
      · simp only [seekDepthAll]; omega
      · exact Nat.le_of_eq (hnode _)
    · rw [hnode, seekDepthAll_append]
      simp only [seekDepthAll, seekDepth]
      omega

/-- A sum of simplified terms nests no deeper than they do. -/
theorem seekDepth_combineSum {terms : List Expr} {e : Expr}
    (h : combineSum terms = .ok e) : seekDepth e ≤ seekDepthAll terms := by
  unfold combineSum at h
  cases hx : Number.sum (constants terms) with
  | error err => rw [hx] at h; cases h
  | ok x =>
    rw [hx] at h
    cases h
    rw [← seekDepthAll_nonConstants terms]
    exact seekDepth_assemble (fun _ => rfl) ..

/-- A product of simplified factors nests no deeper than they do, and not at all if it is
zero. -/
theorem seekDepth_combineProduct {factors : List Expr} {e : Expr}
    (h : combineProduct factors = .ok e) : seekDepth e ≤ seekDepthAll factors := by
  unfold combineProduct at h
  cases hx : Number.product (constants factors) with
  | error err => rw [hx] at h; cases h
  | ok x =>
    rw [hx] at h
    cases h
    split
    · simp [seekDepth]
    · rw [← seekDepthAll_nonConstants factors]
      exact seekDepth_assemble (fun _ => rfl) ..

/-- A folded opposite nests no deeper than what it is of. -/
theorem seekDepth_foldNeg (e : Expr) : seekDepth (foldNeg e) ≤ seekDepth e := by
  unfold foldNeg
  split
  · simp [seekDepth]
  · exact Nat.le_of_eq (seekDepth_negate e)

/-- A folded reciprocal nests no deeper than what it is of. -/
theorem seekDepth_foldInv {e e' : Expr} (h : foldInv e = .ok e') :
    seekDepth e' ≤ seekDepth e := by
  unfold foldInv at h
  split at h
  · rename_i x
    cases hx : x.inv <;> rw [hx] at h <;> cases h
    simp [seekDepth]
  · cases h
    exact Nat.le_of_eq (seekDepth_invert e)

/-- A folded power nests no deeper than base and exponent. -/
theorem seekDepth_foldPow [Elementary] {b p e' : Expr} (h : foldPow b p = .ok e') :
    seekDepth e' ≤ max (seekDepth b) (seekDepth p) := by
  unfold foldPow at h
  split at h
  · rename_i x y
    cases hx : x.pow y <;> rw [hx] at h <;> cases h
    simp [seekDepth]
  · cases h
    split <;> simp only [seekDepth] <;> omega
  · cases h
    simp only [seekDepth]; omega

/-- A folded logarithm nests no deeper than base and argument. -/
theorem seekDepth_foldLog [Elementary] {b p e' : Expr} (h : foldLog b p = .ok e') :
    seekDepth e' ≤ max (seekDepth b) (seekDepth p) := by
  unfold foldLog at h
  split at h
  · rename_i x y
    cases hx : x.log y <;> rw [hx] at h <;> cases h
    simp [seekDepth]
  · cases h
    simp only [seekDepth]; omega

/-- A folded function nests no deeper than its argument. -/
theorem seekDepth_foldApply [Elementary] {f : UnaryFn} {e e' : Expr} (h : foldApply f e = .ok e') :
    seekDepth e' ≤ seekDepth e := by
  unfold foldApply at h
  split at h
  · rename_i x
    cases hx : f.eval x <;> rw [hx] at h <;> cases h
    simp [seekDepth]
  · cases h
    simp only [seekDepth]; omega

/-- A folded goal-seek is solved, or one level above goal and target. -/
theorem seekDepth_foldSeek {solve : GoalSolver} {goal target : Expr} {inversion : Inversion}
    {e' : Expr} (h : (foldSeek solve goal target inversion).result = .ok e') :
    seekDepth e' ≤ max (seekDepth goal) (seekDepth target) + 1 := by
  unfold foldSeek at h
  split at h
  · rw [Logged.result_bind] at h
    cases hx : (solve goal target inversion .empty).result <;> rw [hx] at h <;> cases h
    simp [seekDepth]
  · cases h
    simp only [seekDepth]; omega

/-! ## simplified trees -/

/-- How deep goal-seeks are nested in what simplification leaves of factors. -/
def Factors.seekDepth : Factors → Nat
  | .zero _ => 0
  | .all factors => seekDepthAll factors

/-- Further factors in front bring in their own depth only. -/
theorem seekDepth_prepend (es : List Expr) (r : Factors) :
    (r.prepend es).seekDepth ≤ max (seekDepthAll es) r.seekDepth := by
  cases r with
  | zero x => exact Nat.zero_le _
  | all fs =>
    simp only [Factors.prepend, Factors.seekDepth, seekDepthAll_append]
    omega

variable [Elementary]

mutual

/-- **Simplification nests goal-seeks no deeper.** -/
theorem seekDepth_simplifyWith (solve : GoalSolver) : (e : Expr) → {e' : Expr} →
    (simplifyWith solve e).result = .ok e' → seekDepth e' ≤ seekDepth e
  | .var _, _, h => by cases h; exact Nat.le_refl _
  | .const _, _, h => by cases h; exact Nat.le_refl _
  | .add terms, _, h => by
    obtain ⟨ts, hts, h⟩ := Logged.result_bind_eq_ok.mp h
    have := seekDepth_simplifyTerms solve terms hts
    have := seekDepth_combineSum (Logged.result_numeric_eq_ok.mp h)
    simp only [seekDepth]
    omega
  | .mul factors, _, h => by
    obtain ⟨r, hr, h⟩ := Logged.result_bind_eq_ok.mp h
    have := seekDepth_simplifyFactors solve factors hr
    cases r with
    | zero x => cases h; exact Nat.zero_le _
    | all fs =>
      have := seekDepth_combineProduct (Logged.result_numeric_eq_ok.mp h)
      simp only [seekDepth, Factors.seekDepth] at *
      omega
  | .neg e, _, h => by
    obtain ⟨e₁, h₁, h⟩ := Logged.result_bind_eq_ok.mp h
    have := seekDepth_simplifyWith solve e h₁
    cases h
    have := seekDepth_foldNeg e₁
    simp only [seekDepth]
    omega
  | .inv e, _, h => by
    obtain ⟨e₁, h₁, h⟩ := Logged.result_bind_eq_ok.mp h
    have := seekDepth_simplifyWith solve e h₁
    have := seekDepth_foldInv (Logged.result_numeric_eq_ok.mp h)
    simp only [seekDepth]
    omega
  | .pow base exponent, _, h => by
    obtain ⟨b, hb, h⟩ := Logged.result_bind_eq_ok.mp h
    obtain ⟨p, hp, h⟩ := Logged.result_bind_eq_ok.mp h
    have := seekDepth_simplifyWith solve base hb
    have := seekDepth_simplifyWith solve exponent hp
    have := seekDepth_foldPow (Logged.result_numeric_eq_ok.mp h)
    simp only [seekDepth]
    omega
  | .log base power, _, h => by
    obtain ⟨b, hb, h⟩ := Logged.result_bind_eq_ok.mp h
    obtain ⟨p, hp, h⟩ := Logged.result_bind_eq_ok.mp h
    have := seekDepth_simplifyWith solve base hb
    have := seekDepth_simplifyWith solve power hp
    have := seekDepth_foldLog (Logged.result_numeric_eq_ok.mp h)
    simp only [seekDepth]
    omega
  | .apply f e, _, h => by
    obtain ⟨e₁, h₁, h⟩ := Logged.result_bind_eq_ok.mp h
    have := seekDepth_simplifyWith solve e h₁
    have := seekDepth_foldApply (f := f) h
    simp only [seekDepth]
    omega
  | .goalSeek goal target inversion, _, h => by
    obtain ⟨g, hg, h⟩ := Logged.result_bind_eq_ok.mp h
    obtain ⟨t, ht, h⟩ := Logged.result_bind_eq_ok.mp h
    have := seekDepth_simplifyWith solve goal hg
    have := seekDepth_simplifyWith solve target ht
    have := seekDepth_foldSeek h
    simp only [seekDepth]
    omega

/-- The same for the terms of a sum, sums among them taken apart. -/
theorem seekDepth_simplifyTerms (solve : GoalSolver) : (es : List Expr) → {ts : List Expr} →
    (simplifyTerms solve es).result = .ok ts → seekDepthAll ts ≤ seekDepthAll es
  | [], _, h => by cases h; exact Nat.le_refl _
  | e :: es, _, h => by
    obtain ⟨e₁, h₁, h⟩ := Logged.result_bind_eq_ok.mp h
    obtain ⟨ts, hts, h⟩ := Logged.result_bind_eq_ok.mp h
    have := seekDepth_simplifyWith solve e h₁
    have := seekDepth_simplifyTerms solve es hts
    cases h
    rw [seekDepthAll_append, seekDepthAll_addends]
    simp only [seekDepthAll]
    omega

/-- The same for the factors of a product, of which a zero may hide the rest. -/
theorem seekDepth_simplifyFactors (solve : GoalSolver) : (es : List Expr) → {r : Factors} →
    (simplifyFactors solve es).result = .ok r → r.seekDepth ≤ seekDepthAll es
  | [], _, h => by cases h; exact Nat.le_refl _
  | e :: es, _, h => by
    simp only [seekDepthAll]
    rcases simplifyFactors_cons_eq_ok h with ⟨x, -, -, rfl⟩ | ⟨e₁, rest, h₁, hrest, rfl⟩
    · exact Nat.zero_le _
    · have := seekDepth_simplifyWith solve e h₁
      have := seekDepth_simplifyFactors solve es hrest
      have := seekDepthAll_factorsOf e₁
      have := seekDepth_prepend (factorsOf e₁) rest
      omega

end

/-! ## curried trees -/

mutual

/-- **Currying nests goal-seeks no deeper.** -/
theorem seekDepth_curryWith (solve : GoalSolver) : (args : Arguments) → (e : Expr) →
    {e' : Expr} → (curryWith solve args e).result = .ok e' → seekDepth e' ≤ seekDepth e
  | args, .var v, _, h => by
    simp only [curryWith] at h
    split at h <;> cases h <;> exact Nat.le_refl _
  | _, .const _, _, h => by cases h; exact Nat.le_refl _
  | args, .add terms, _, h => by
    obtain ⟨ts, hts, h⟩ := Logged.result_bind_eq_ok.mp h
    have := seekDepth_curryAllWith solve args terms hts
    have := seekDepth_simplifyWith solve _ h
    rw [seekDepth_sum] at this
    simp only [seekDepth]
    omega
  | args, .mul factors, _, h => by
    obtain ⟨fs, hfs, h⟩ := Logged.result_bind_eq_ok.mp h
    have := seekDepth_curryAllWith solve args factors hfs
    have := seekDepth_simplifyWith solve _ h
    rw [seekDepth_product] at this
    simp only [seekDepth]
    omega
  | args, .neg e, _, h => by
    obtain ⟨e₁, h₁, h⟩ := Logged.result_bind_eq_ok.mp h
    have := seekDepth_curryWith solve args e h₁
    have := seekDepth_simplifyWith solve _ h
    rw [seekDepth_negate] at this
    simp only [seekDepth]
    omega
  | args, .inv e, _, h => by
    obtain ⟨e₁, h₁, h⟩ := Logged.result_bind_eq_ok.mp h
    have := seekDepth_curryWith solve args e h₁
    have := seekDepth_simplifyWith solve _ h
    rw [seekDepth_invert] at this
    simp only [seekDepth]
    omega
  | args, .pow base exponent, _, h => by
    obtain ⟨b, hb, h⟩ := Logged.result_bind_eq_ok.mp h
    obtain ⟨p, hp, h⟩ := Logged.result_bind_eq_ok.mp h
    have := seekDepth_curryWith solve args base hb
    have := seekDepth_curryWith solve args exponent hp
    have := seekDepth_simplifyWith solve _ h
    simp only [seekDepth] at *
    omega
  | args, .log base power, _, h => by
    obtain ⟨b, hb, h⟩ := Logged.result_bind_eq_ok.mp h
    obtain ⟨p, hp, h⟩ := Logged.result_bind_eq_ok.mp h
    have := seekDepth_curryWith solve args base hb
    have := seekDepth_curryWith solve args power hp
    have := seekDepth_simplifyWith solve _ h
    simp only [seekDepth] at *
    omega
  | args, .apply f e, _, h => by
    obtain ⟨e₁, h₁, h⟩ := Logged.result_bind_eq_ok.mp h
    have := seekDepth_curryWith solve args e h₁
    have := seekDepth_simplifyWith solve _ h
    simp only [seekDepth] at *
    omega
  | args, .goalSeek goal target inversion, _, h => by
    obtain ⟨g, hg, h⟩ := Logged.result_bind_eq_ok.mp h
    obtain ⟨t, ht, h⟩ := Logged.result_bind_eq_ok.mp h
    have := seekDepth_curryWith solve args goal hg
    have := seekDepth_curryWith solve (args.erase inversion.unknown) target ht
    have := seekDepth_simplifyWith solve _ h
    simp only [seekDepth] at *
    omega

/-- The same for the members of a list. -/
theorem seekDepth_curryAllWith (solve : GoalSolver) : (args : Arguments) →
    (es : List Expr) → {es' : List Expr} →
    (curryAllWith solve args es).result = .ok es' → seekDepthAll es' ≤ seekDepthAll es
  | _, [], _, h => by cases h; exact Nat.le_refl _
  | args, e :: es, _, h => by
    obtain ⟨e₁, h₁, h⟩ := Logged.result_bind_eq_ok.mp h
    obtain ⟨es₁, hes, h⟩ := Logged.result_bind_eq_ok.mp h
    have := seekDepth_curryWith solve args e h₁
    have := seekDepth_curryAllWith solve args es hes
    cases h
    simp only [seekDepthAll]
    omega

end

/-! ## derivatives -/

/-- Derivatives of terms nest no deeper than the terms, if each of them does not. -/
theorem seekDepth_deriveTerms {solve : GoalSolver} {v : Variable} {es : List Expr}
    (ih : ∀ e ∈ es, ∀ d, (derive solve v e).result = .ok d → seekDepth d ≤ seekDepth e)
    {ds : List Expr} (h : (deriveTerms solve v es).result = .ok ds) :
    seekDepthAll ds ≤ seekDepthAll es := by
  induction es generalizing ds with
  | nil =>
    rw [deriveTerms] at h
    cases h
    exact Nat.le_refl _
  | cons e es ihs =>
    rw [deriveTerms] at h
    obtain ⟨d, hd, h⟩ := Logged.result_bind_eq_ok.mp h
    obtain ⟨ds, hds, h⟩ := Logged.result_bind_eq_ok.mp h
    cases h
    have := ih e List.mem_cons_self d hd
    have := ihs (fun e he => ih e (List.mem_cons_of_mem _ he)) hds
    simp only [seekDepthAll]
    omega

/-- The terms of the product rule hold all factors, those before the current one included. -/
theorem seekDepth_deriveFactors {solve : GoalSolver} {v : Variable} {before es : List Expr}
    (ih : ∀ e ∈ es, ∀ d, (derive solve v e).result = .ok d → seekDepth d ≤ seekDepth e)
    {ds : List Expr} (h : (deriveFactors solve v before es).result = .ok ds) :
    seekDepthAll ds ≤ max (seekDepthAll before) (seekDepthAll es) := by
  induction es generalizing before ds with
  | nil =>
    rw [deriveFactors] at h
    cases h
    exact Nat.zero_le _
  | cons e es ihs =>
    have hrest : ∀ {before ds}, (deriveFactors solve v before es).result = .ok ds →
        seekDepthAll ds ≤ max (seekDepthAll before) (seekDepthAll es) :=
      ihs fun e he => ih e (List.mem_cons_of_mem _ he)
    rw [deriveFactors] at h
    simp only [seekDepthAll]
    split at h
    · have := hrest h
      simp only [seekDepthAll_append, seekDepthAll] at this
      omega
    · obtain ⟨d, hd, h⟩ := Logged.result_bind_eq_ok.mp h
      obtain ⟨ds, hds, h⟩ := Logged.result_bind_eq_ok.mp h
      cases h
      have := ih e List.mem_cons_self d hd
      have := hrest hds
      simp only [seekDepthAll, seekDepth_product, seekDepthAll_append] at *
      omega

/-- **Differentiation nests goal-seeks no deeper.** -/
theorem seekDepth_derive {solve : GoalSolver} {v : Variable} {e d : Expr}
    (h : (derive solve v e).result = .ok d) : seekDepth d ≤ seekDepth e := by
  induction hn : weight e using Nat.strongRecOn generalizing e d with | ind n ih
  have ih : ∀ {e' d'}, weight e' < n → (derive solve v e').result = .ok d' →
      seekDepth d' ≤ seekDepth e' := fun hlt h' => ih _ hlt h' rfl
  rw [derive.eq_def] at h
  split at h
  · cases h
    exact Nat.zero_le _
  · cases e with
    | var w => cases h; exact Nat.zero_le _
    | const x => cases h; exact Nat.zero_le _
    | add terms =>
      obtain ⟨ds, hds, h⟩ := Logged.result_bind_eq_ok.mp h
      cases h
      have := seekDepth_deriveTerms
        (fun e he d hd => ih (hn ▸ weight_lt_add he) hd) hds
      rw [seekDepth_sum, seekDepth]
      exact this
    | mul factors =>
      obtain ⟨ds, hds, h⟩ := Logged.result_bind_eq_ok.mp h
      cases h
      have := seekDepth_deriveFactors
        (fun e he d hd => ih (hn ▸ weight_lt_mul he) hd) hds
      rw [seekDepth_sum, seekDepth]
      simp only [seekDepthAll] at this
      omega
    | neg e =>
      obtain ⟨d, hd, h⟩ := Logged.result_bind_eq_ok.mp h
      cases h
      have := ih (by simp only [weight] at hn; omega) hd
      rw [seekDepth_negate, seekDepth]
      exact this
    | inv e =>
      obtain ⟨d, hd, h⟩ := Logged.result_bind_eq_ok.mp h
      cases h
      have := ih (by simp only [weight] at hn; omega) hd
      simp only [seekDepth_negate, seekDepth_product, seekDepthAll, seekDepth]
      omega
    | pow base exponent =>
      obtain ⟨b, hb, h⟩ := Logged.result_andThenOk_eq_ok.mp h
      obtain ⟨p, hp, h⟩ := Logged.result_andThenOk_eq_ok.mp h
      have := seekDepth_simplifyWith solve base hb
      have := seekDepth_simplifyWith solve exponent hp
      have := weight_base_lt hb exponent
      have := weight_exponent_lt hp base
      simp only [seekDepth]
      split at h
      · cases h
        exact Nat.zero_le _
      · obtain ⟨dp, hdp, h⟩ := Logged.result_bind_eq_ok.mp h
        cases h
        have := ih (by omega) hdp
        simp only [seekDepth_product, seekDepthAll, seekDepth]
        omega
      · obtain ⟨db, hdb, h⟩ := Logged.result_bind_eq_ok.mp h
        cases h
        have := ih (by omega) hdb
        simp only [seekDepth_product, lowerPower, sub, seekDepth_sum, seekDepth_negate,
          seekDepthAll, seekDepth]
        omega
      · obtain ⟨db, hdb, h⟩ := Logged.result_bind_eq_ok.mp h
        obtain ⟨dp, hdp, h⟩ := Logged.result_bind_eq_ok.mp h
        cases h
        have := ih (by omega) hdb
        have := ih (by omega) hdp
        simp only [seekDepth_product, lowerPower, sub, seekDepth_sum, seekDepth_negate,
          seekDepthAll, seekDepth]
        omega
    | log base power =>
      have := weight_quotientOfLogs base power
      have := ih (by omega) h
      simp only [quotientOfLogs_eq, seekDepth, seekDepthAll] at this ⊢
      omega
    | apply f e =>
      simp only at h
      split at h
      · cases h
        simp only [seekDepth]
        omega
      · split at h
        · rename_i rule hrule
          obtain ⟨d, hd, h⟩ := Logged.result_bind_eq_ok.mp h
          cases h
          have := ih (by simp only [weight] at hn; omega) hd
          have := seekDepth_applyRule (d := d) hrule
          simp only [seekDepth]
          omega
        · cases h
    | goalSeek goal target inversion => cases h

/-- The simplified derivative nests goal-seeks no deeper than the expression. -/
theorem seekDepth_derivativeWith {solve : GoalSolver} {v : Variable} {e d : Expr}
    (h : (derivativeWith solve v e).result = .ok d) : seekDepth d ≤ seekDepth e := by
  obtain ⟨d₁, h₁, h⟩ := Logged.result_bind_eq_ok.mp h
  exact Nat.le_trans (seekDepth_simplifyWith solve d₁ h) (seekDepth_derive h₁)

end SymCalc.Expr
