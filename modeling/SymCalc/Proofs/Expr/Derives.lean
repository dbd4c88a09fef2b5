import SymCalc.Expr.Derivative

/-!
# SymCalc.Proofs.Expr.Derives

Differentiation as a relation between trees.

`Derives solve v e d` says that `d` is the derivative of `e` along `v` before it is
simplified, with one rule for each branch of `derive` that ends.  What holds of
derivatives is proved by induction on these rules, where the weight that `derive`
recurses on does not show.

Main statement: `derive_eq_ok_iff`.
-/

namespace SymCalc.Expr

variable [Elementary]

mutual

/-- The tree `d` is the derivative of `e` along `v`. -/
inductive Derives (solve : GoalSolver) (v : Variable) : Expr → Expr → Prop
  | constant {e} (hc : e.isConstant v = true) : Derives solve v e zero
  | var : Derives solve v (.var v) one
  | add {terms ds} (hc : (Expr.add terms).isConstant v = false) :
    DerivesTerms solve v terms ds → Derives solve v (.add terms) (sum ds)
  | mul {factors ds} (hc : (Expr.mul factors).isConstant v = false) :
    DerivesFactors solve v [] factors ds → Derives solve v (.mul factors) (sum ds)
  | neg {e d} (hc : (Expr.neg e).isConstant v = false) :
    Derives solve v e d → Derives solve v (.neg e) (negate d)
  | inv {e d} (hc : (Expr.inv e).isConstant v = false) :
    Derives solve v e d →
    Derives solve v (.inv e) (negate (product [d, .pow e (.ofInt (-2))]))
  | pow_constant {base exponent b p} (hc : (Expr.pow base exponent).isConstant v = false)
    (hb : (simplifyWith solve base).result = .ok b)
    (hp : (simplifyWith solve exponent).result = .ok p)
    (hbc : b.isConstant v = true) (hpc : p.isConstant v = true) :
    Derives solve v (.pow base exponent) zero
  | pow_exponent {base exponent b p dp} (hc : (Expr.pow base exponent).isConstant v = false)
    (hb : (simplifyWith solve base).result = .ok b)
    (hp : (simplifyWith solve exponent).result = .ok p)
    (hbc : b.isConstant v = true) (hpc : p.isConstant v = false) :
    Derives solve v p dp →
    Derives solve v (.pow base exponent) (product [.pow b p, ln b, dp])
  | pow_base {base exponent b p db} (hc : (Expr.pow base exponent).isConstant v = false)
    (hb : (simplifyWith solve base).result = .ok b)
    (hp : (simplifyWith solve exponent).result = .ok p)
    (hbc : b.isConstant v = false) (hpc : p.isConstant v = true) :
    Derives solve v b db →
    Derives solve v (.pow base exponent) (product [p, lowerPower b p, db])
  | pow_both {base exponent b p db dp} (hc : (Expr.pow base exponent).isConstant v = false)
    (hb : (simplifyWith solve base).result = .ok b)
    (hp : (simplifyWith solve exponent).result = .ok p)
    (hbc : b.isConstant v = false) (hpc : p.isConstant v = false) :
    Derives solve v b db → Derives solve v p dp →
    Derives solve v (.pow base exponent)
      (product [lowerPower b p, sum [product [p, db], product [b, ln b, dp]]])
  | log {base power d} (hc : (Expr.log base power).isConstant v = false) :
    Derives solve v (quotientOfLogs base power) d → Derives solve v (.log base power) d
  | step {f e} (hc : (Expr.apply f e).isConstant v = false) (hf : f.isStep = true) :
    Derives solve v (.apply f e) (.apply (.offIntegers .zero) e)
  | apply {f e d rule} (hc : (Expr.apply f e).isConstant v = false) (hf : f.isStep = false)
    (hrule : applyRule f e = some rule) :
    Derives solve v e d → Derives solve v (.apply f e) (rule d)

/-- The trees `ds` are the derivatives of `es` along `v`. -/
inductive DerivesTerms (solve : GoalSolver) (v : Variable) : List Expr → List Expr → Prop
  | nil : DerivesTerms solve v [] []
  | cons {e es d ds} : Derives solve v e d → DerivesTerms solve v es ds →
    DerivesTerms solve v (e :: es) (d :: ds)

/-- The trees `ds` are the terms of the product rule for the factors `es` after
those `before`. -/
inductive DerivesFactors (solve : GoalSolver) (v : Variable) :
    List Expr → List Expr → List Expr → Prop
  | nil {before} : DerivesFactors solve v before [] []
  | skip {before e es ds} (hc : e.isConstant v = true) :
    DerivesFactors solve v (before ++ [e]) es ds → DerivesFactors solve v before (e :: es) ds
  | cons {before e es d ds} (hc : e.isConstant v = false) :
    Derives solve v e d → DerivesFactors solve v (before ++ [e]) es ds →
    DerivesFactors solve v before (e :: es) (product (d :: (before ++ es)) :: ds)

end

variable {solve : GoalSolver} {v : Variable}

/-! ## runs follow the rules -/

/-- What is derived from the addends follows the rules, if it does for each of them. -/
theorem derivesTerms_of_deriveTerms {es : List Expr}
    (ih : ∀ e ∈ es, ∀ d, (derive solve v e).result = .ok d → Derives solve v e d)
    {ds : List Expr} (h : (deriveTerms solve v es).result = .ok ds) :
    DerivesTerms solve v es ds := by
  induction es generalizing ds with
  | nil =>
    rw [deriveTerms] at h
    cases h
    exact .nil
  | cons e es ihs =>
    rw [List.forall_mem_cons] at ih
    rw [deriveTerms] at h
    obtain ⟨d, hd, h⟩ := Logged.result_bind_eq_ok.mp h
    obtain ⟨ds, hds, h⟩ := Logged.result_bind_eq_ok.mp h
    cases h
    exact .cons (ih.1 d hd) (ihs ih.2 hds)

/-- What is derived from the factors follows the rules, if it does for each of them. -/
theorem derivesFactors_of_deriveFactors {before es : List Expr}
    (ih : ∀ e ∈ es, ∀ d, (derive solve v e).result = .ok d → Derives solve v e d)
    {ds : List Expr} (h : (deriveFactors solve v before es).result = .ok ds) :
    DerivesFactors solve v before es ds := by
  induction es generalizing before ds with
  | nil =>
    rw [deriveFactors] at h
    cases h
    exact .nil
  | cons e es ihs =>
    rw [List.forall_mem_cons] at ih
    rw [deriveFactors] at h
    cases hc : e.isConstant v with
    | true =>
      rw [if_pos hc] at h
      exact .skip hc (ihs ih.2 h)
    | false =>
      rw [hc, if_neg Bool.false_ne_true] at h
      obtain ⟨d, hd, h⟩ := Logged.result_bind_eq_ok.mp h
      obtain ⟨ds, hds, h⟩ := Logged.result_bind_eq_ok.mp h
      cases h
      exact .cons hc (ih.1 d hd) (ihs ih.2 hds)

/-- A derivation that succeeds follows the rules. -/
theorem derives_of_derive {e d : Expr} (h : (derive solve v e).result = .ok d) :
    Derives solve v e d := by
  induction hn : weight e using Nat.strongRecOn generalizing e d with | ind n ih
  have ih : ∀ {e' d'}, weight e' < n → (derive solve v e').result = .ok d' →
      Derives solve v e' d' := fun hlt h' => ih _ hlt h' rfl
  rw [derive.eq_def] at h
  cases hc : e.isConstant v with
  | true =>
    rw [if_pos hc] at h
    cases h
    exact .constant hc
  | false =>
    rw [hc, if_neg Bool.false_ne_true] at h
    cases e with
    | var w =>
      have hw : w = v := by simpa [isConstant] using hc
      cases h
      subst hw
      exact .var
    | const x => cases hc
    | add terms =>
      obtain ⟨ds, hds, h⟩ := Logged.result_bind_eq_ok.mp h
      cases h
      exact .add hc (derivesTerms_of_deriveTerms
        (fun e he d hd => ih (hn ▸ weight_lt_add he) hd) hds)
    | mul factors =>
      obtain ⟨ds, hds, h⟩ := Logged.result_bind_eq_ok.mp h
      cases h
      exact .mul hc (derivesFactors_of_deriveFactors
        (fun e he d hd => ih (hn ▸ weight_lt_mul he) hd) hds)
    | neg e =>
      obtain ⟨d, hd, h⟩ := Logged.result_bind_eq_ok.mp h
      cases h
      simp only [weight] at hn
      exact .neg hc (ih (by omega) hd)
    | inv e =>
      obtain ⟨d, hd, h⟩ := Logged.result_bind_eq_ok.mp h
      cases h
      simp only [weight] at hn
      exact .inv hc (ih (by omega) hd)
    | pow base exponent =>
      obtain ⟨b, hb, h⟩ := Logged.result_andThenOk_eq_ok.mp h
      obtain ⟨p, hp, h⟩ := Logged.result_andThenOk_eq_ok.mp h
      have := weight_base_lt hb exponent
      have := weight_exponent_lt hp base
      split at h
      · rename_i hbc hpc
        cases h
        exact .pow_constant hc hb hp hbc hpc
      · rename_i hbc hpc
        obtain ⟨dp, hdp, h⟩ := Logged.result_bind_eq_ok.mp h
        cases h
        exact .pow_exponent hc hb hp hbc hpc (ih (by omega) hdp)
      · rename_i hbc hpc
        obtain ⟨db, hdb, h⟩ := Logged.result_bind_eq_ok.mp h
        cases h
        exact .pow_base hc hb hp hbc hpc (ih (by omega) hdb)
      · rename_i hbc hpc
        obtain ⟨db, hdb, h⟩ := Logged.result_bind_eq_ok.mp h
        obtain ⟨dp, hdp, h⟩ := Logged.result_bind_eq_ok.mp h
        cases h
        exact .pow_both hc hb hp hbc hpc (ih (by omega) hdb) (ih (by omega) hdp)
    | log base power =>
      have := weight_quotientOfLogs base power
      exact .log hc (ih (by omega) h)
    | apply f e =>
      simp only [weight] at hn
      cases hf : f.isStep with
      | true =>
        simp only [hf, if_true] at h
        cases h
        exact .step hc hf
      | false =>
        simp only [hf, Bool.false_eq_true, if_false] at h
        split at h
        · rename_i rule hrule
          obtain ⟨d, hd, h⟩ := Logged.result_bind_eq_ok.mp h
          cases h
          exact .apply hc hf hrule (ih (by omega) hd)
        · cases h
    | goalSeek goal target inversion => cases h

/-! ## the rules are followed -/

mutual

/-- What follows the rules is derived. -/
theorem derive_of_derives {e d : Expr} : Derives solve v e d →
    (derive solve v e).result = .ok d
  | .constant hc => by
    rw [derive.eq_def, if_pos hc]
    rfl
  | .var => by
    have hc : ¬(Expr.var v).isConstant v = true := by simp [isConstant]
    rw [derive.eq_def, if_neg hc]
    rfl
  | .add hc h => by
    rw [derive.eq_def, hc]
    exact Logged.result_bind_eq_ok.mpr ⟨_, deriveTerms_of_derivesTerms h, rfl⟩
  | .mul hc h => by
    rw [derive.eq_def, hc]
    exact Logged.result_bind_eq_ok.mpr ⟨_, deriveFactors_of_derivesFactors h, rfl⟩
  | .neg hc h => by
    rw [derive.eq_def, hc]
    exact Logged.result_bind_eq_ok.mpr ⟨_, derive_of_derives h, rfl⟩
  | .inv hc h => by
    rw [derive.eq_def, hc]
    exact Logged.result_bind_eq_ok.mpr ⟨_, derive_of_derives h, rfl⟩
  | .pow_constant hc hb hp hbc hpc => by
    rw [derive.eq_def, hc]
    refine Logged.result_andThenOk_eq_ok.mpr ⟨_, hb, ?_⟩
    refine Logged.result_andThenOk_eq_ok.mpr ⟨_, hp, ?_⟩
    rw [hbc, hpc]
    rfl
  | .pow_exponent hc hb hp hbc hpc h => by
    rw [derive.eq_def, hc]
    refine Logged.result_andThenOk_eq_ok.mpr ⟨_, hb, ?_⟩
    refine Logged.result_andThenOk_eq_ok.mpr ⟨_, hp, ?_⟩
    rw [hbc, hpc]
    exact Logged.result_bind_eq_ok.mpr ⟨_, derive_of_derives h, rfl⟩
  | .pow_base hc hb hp hbc hpc h => by
    rw [derive.eq_def, hc]
    refine Logged.result_andThenOk_eq_ok.mpr ⟨_, hb, ?_⟩
    refine Logged.result_andThenOk_eq_ok.mpr ⟨_, hp, ?_⟩
    rw [hbc, hpc]
    exact Logged.result_bind_eq_ok.mpr ⟨_, derive_of_derives h, rfl⟩
  | .pow_both hc hb hp hbc hpc h h' => by
    rw [derive.eq_def, hc]
    refine Logged.result_andThenOk_eq_ok.mpr ⟨_, hb, ?_⟩
    refine Logged.result_andThenOk_eq_ok.mpr ⟨_, hp, ?_⟩
    rw [hbc, hpc]
    refine Logged.result_bind_eq_ok.mpr ⟨_, derive_of_derives h, ?_⟩
    exact Logged.result_bind_eq_ok.mpr ⟨_, derive_of_derives h', rfl⟩
  | .log hc h => by
    rw [derive.eq_def, hc]
    exact derive_of_derives h
  | .step hc hf => by
    rw [derive.eq_def, hc]
    simp [hf]
  | @Derives.apply _ _ _ f e _ _ hc hf hrule h => by
    rw [derive.eq_def, hc]
    simp only [Bool.false_eq_true, if_false, hf, hrule]
    exact Logged.result_bind_eq_ok.mpr ⟨_, derive_of_derives h, rfl⟩

/-- The same for the addends of a sum. -/
theorem deriveTerms_of_derivesTerms {es ds : List Expr} : DerivesTerms solve v es ds →
    (deriveTerms solve v es).result = .ok ds
  | .nil => by
    rw [deriveTerms]
    rfl
  | .cons h hs => by
    rw [deriveTerms]
    refine Logged.result_bind_eq_ok.mpr ⟨_, derive_of_derives h, ?_⟩
    exact Logged.result_bind_eq_ok.mpr ⟨_, deriveTerms_of_derivesTerms hs, rfl⟩

/-- The same for the factors of a product. -/
theorem deriveFactors_of_derivesFactors {before es ds : List Expr} :
    DerivesFactors solve v before es ds → (deriveFactors solve v before es).result = .ok ds
  | .nil => by
    rw [deriveFactors]
    rfl
  | .skip hc hs => by
    rw [deriveFactors, if_pos hc]
    exact deriveFactors_of_derivesFactors hs
  | .cons hc h hs => by
    rw [deriveFactors, hc, if_neg Bool.false_ne_true]
    refine Logged.result_bind_eq_ok.mpr ⟨_, derive_of_derives h, ?_⟩
    exact Logged.result_bind_eq_ok.mpr ⟨_, deriveFactors_of_derivesFactors hs, rfl⟩

end

/-- **Differentiation follows the rules, and only them.** -/
theorem derive_eq_ok_iff {e d : Expr} :
    (derive solve v e).result = .ok d ↔ Derives solve v e d :=
  ⟨derives_of_derive, derive_of_derives⟩

end SymCalc.Expr
