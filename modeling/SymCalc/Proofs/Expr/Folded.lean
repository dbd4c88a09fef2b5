import SymCalc.GoalSeek.Level
import SymCalc.Proofs.Expr.Value
import SymCalc.Proofs.Number.Zero
import SymCalc.Real256.Series

/-!
# SymCalc.Proofs.Expr.Folded

What currying arrives at when every variable has a binding.

1. `foldedValue args e` is the value that folding constants leaves: the value of
   the tree, but for products with a zero factor, which are their first zero
   factor in its own representation (`Number.foldedProduct`);
2. currying under a covering binding is that value as a constant, with the same
   errors (`curryWith_eq_foldedValue`);
3. where every product that evaluation comes to folds to its value
   (`ProductsFold`), the folded value is the value
   (`foldedValue_eq_of_productsFold`).  Products without a zero factor do, and
   those that keep the representation of their zeros (`ZerosKept`).  A product
   alone loses nothing but the representation (`Number.foldedProduct_beq`): what
   is lost shows in the nodes above.

Main statements: `curry_of_covers`, and `curry_eq_evaluate` away from zeros.
-/

namespace SymCalc

/-- The product of a list that is folded from left to right: its first zero, if
it has one. -/
def Number.foldedProduct (xs : List Number) : Except NumericError Number :=
  match xs.find? Number.isZero with
  | some z => .ok z
  | none => Number.product xs

/-- The first zero factor of a product is equal to the product. -/
theorem Number.foldedProduct_beq {xs : List Number} {p : Number} (h : product xs = .ok p) :
    ∃ z, foldedProduct xs = .ok z ∧ (z == p) = true := by
  unfold foldedProduct
  cases hz : xs.find? isZero with
  | some z =>
    have hzero := List.find?_some hz
    have hp := isZero_of_product_eq_ok (List.mem_of_find?_eq_some hz) hzero h
    exact ⟨z, rfl, beq_of_isZero hzero hp⟩
  | none => exact ⟨p, h, beq_self p⟩

/-- All variables of a set have values. -/
def Arguments.Covers (args : Arguments) (vars : Variables) : Prop :=
  ∀ v ∈ vars, ∃ x, args.get? v = some x

/-- Bindings cover two sets if they cover each. -/
theorem Arguments.covers_union {args : Arguments} {s t : Variables} :
    args.Covers (s.union t) ↔ args.Covers s ∧ args.Covers t := by
  unfold Arguments.Covers
  constructor
  · intro h
    constructor
    · exact fun v hv => h v (Variables.mem_union.mpr (.inl hv))
    · exact fun v hv => h v (Variables.mem_union.mpr (.inr hv))
  · rintro ⟨hs, ht⟩ v hv
    rcases Variables.mem_union.mp hv with hv | hv
    · exact hs v hv
    · exact ht v hv

namespace Expr

mutual

/-- The value that is left when all variables are replaced and constants are
folded.  Goal-seeks have none here. -/
def foldedValue [Elementary] (args : Arguments) : Expr → Except Error Number
  | .var v =>
    match args.get? v with
    | some x => .ok x
    | none => .error (.undefinedValue v)
  | .const x => .ok x
  | .add terms => do
    let xs ← foldedValues args terms
    (Number.sum xs).mapError .numeric
  | .mul factors => do
    let xs ← foldedValues args factors
    (Number.foldedProduct xs).mapError .numeric
  | .neg e => do
    let x ← foldedValue args e
    .ok (-x)
  | .inv e => do
    let x ← foldedValue args e
    x.inv.mapError .numeric
  | .pow base exponent => do
    let b ← foldedValue args base
    let p ← foldedValue args exponent
    (b.pow p).mapError .numeric
  | .log base power => do
    let b ← foldedValue args base
    let p ← foldedValue args power
    (b.log p).mapError .numeric
  | .apply f e => do
    let x ← foldedValue args e
    f.eval x
  | .goalSeek _ _ inversion => .error (.unknownNotInDomain inversion.unknown)

/-- The folded values of a list of expressions. -/
def foldedValues [Elementary] (args : Arguments) : List Expr → Except Error (List Number)
  | [] => .ok []
  | e :: es => do
    let x ← foldedValue args e
    let xs ← foldedValues args es
    .ok (x :: xs)

end

variable {solve : GoalSolver} {args : Arguments}

/-! ## nodes over constants -/

section constants

variable (xs : List Number)

/-- Constants are collected as the numbers they are. -/
theorem constants_map_const : constants (xs.map .const) = xs := by
  induction xs with
  | nil => rfl
  | cons x xs ih => rw [List.map_cons, constants, ih]

/-- Of constants nothing else is left. -/
theorem nonConstants_map_const : nonConstants (xs.map .const) = [] := by
  induction xs with
  | nil => rfl
  | cons x xs ih => rw [List.map_cons, nonConstants, ih]

/-- Constants are no sums to be taken apart. -/
theorem flatMap_addends_map_const : (xs.map Expr.const).flatMap addends = xs.map .const := by
  induction xs with
  | nil => rfl
  | cons x xs ih => rw [List.map_cons, List.flatMap_cons, ih]; rfl

/-- Constants are no products to be taken apart. -/
theorem flatMap_factorsOf_map_const :
    (xs.map Expr.const).flatMap factorsOf = xs.map .const := by
  induction xs with
  | nil => rfl
  | cons x xs ih => rw [List.map_cons, List.flatMap_cons, ih]; rfl

/-- A sum of constants becomes the constant of their sum. -/
theorem combineSum_map_const : combineSum (xs.map .const) = (Number.sum xs).map .const := by
  unfold combineSum
  rw [constants_map_const, nonConstants_map_const]
  cases Number.sum xs <;> rfl

/-- A product of constants becomes the constant of their product. -/
theorem combineProduct_map_const :
    combineProduct (xs.map .const) = (Number.product xs).map .const := by
  unfold combineProduct
  rw [constants_map_const, nonConstants_map_const]
  cases Number.product xs with
  | error err => rfl
  | ok x => simp [bind, Except.bind, Except.map, assemble]

variable [Elementary]

/-- Constants as terms are simplified. -/
theorem simplifyTerms_map_const :
    (simplifyTerms solve (xs.map .const)).result = .ok (xs.map .const) := by
  induction xs with
  | nil => rfl
  | cons x xs ih =>
    rw [List.map_cons, simplifyTerms]
    exact Logged.result_bind_eq_ok.mpr ⟨_, rfl, Logged.result_bind_eq_ok.mpr ⟨_, ih, rfl⟩⟩

/-- Constant factors are looked at up to the first zero. -/
theorem simplifyFactors_map_const :
    (simplifyFactors solve (xs.map .const)).result =
      .ok (match xs.find? Number.isZero with
        | some z => .zero z
        | none => .all (xs.map .const)) := by
  induction xs with
  | nil => rfl
  | cons x xs ih =>
    have hx : (simplifyWith solve (.const x)).result = .ok (.const x) := rfl
    rw [List.map_cons]
    cases hzero : x.isZero with
    | true => rw [simplifyFactors_cons_of_isZero hx hzero, List.find?_cons_of_pos hzero]
    | false =>
      have hne : ¬x.isZero = true := by simp [hzero]
      have hkeep : ∀ y, Expr.const x = .const y → y.isZero = false := by
        rintro y ⟨⟩
        exact hzero
      rw [simplifyFactors_cons_of_not_isZero hx hkeep, ih, List.find?_cons_of_neg hne]
      cases xs.find? Number.isZero <;> rfl

/-- A sum of constants folds to their sum. -/
theorem simplifyWith_sum_map_const :
    (simplifyWith solve (sum (xs.map .const))).result =
      ((Number.sum xs).mapError Error.numeric).map .const := by
  rw [sum, flatMap_addends_map_const, simplifyWith, Logged.result_bind, simplifyTerms_map_const]
  change ((combineSum (xs.map .const)).mapError Error.numeric) = _
  rw [combineSum_map_const]
  cases Number.sum xs <;> rfl

/-- A product of constants folds to its first zero, or to their product. -/
theorem simplifyWith_product_map_const :
    (simplifyWith solve (product (xs.map .const))).result =
      ((Number.foldedProduct xs).mapError Error.numeric).map .const := by
  rw [product, flatMap_factorsOf_map_const, simplifyWith, Logged.result_bind,
    simplifyFactors_map_const, Number.foldedProduct]
  cases xs.find? Number.isZero with
  | some z => rfl
  | none =>
    change ((combineProduct (xs.map .const)).mapError Error.numeric) = _
    rw [combineProduct_map_const]
    cases Number.product xs <;> rfl

end constants

section

variable [Elementary]

/-- The opposite of a constant is folded. -/
theorem simplifyWith_negate_const (x : Number) :
    (simplifyWith solve (negate (.const x))).result = .ok (.const (-x)) := by
  unfold negate
  by_cases h : x.isNegative = true
  · simp only [h, if_true]
    rfl
  · simp only [h]
    rfl

/-- The reciprocal of a constant is folded. -/
theorem simplifyWith_invert_const (x : Number) :
    (simplifyWith solve (invert (.const x))).result =
      (x.inv.mapError Error.numeric).map .const := by
  change ((x.inv.map Expr.const).mapError Error.numeric) = _
  cases x.inv <;> rfl

/-- A power of constants is folded. -/
theorem simplifyWith_pow_const (b p : Number) :
    (simplifyWith solve (.pow (.const b) (.const p))).result =
      ((b.pow p).mapError Error.numeric).map .const := by
  change (((b.pow p).map Expr.const).mapError Error.numeric) = _
  cases b.pow p <;> rfl

/-- A logarithm of constants is folded. -/
theorem simplifyWith_log_const (b p : Number) :
    (simplifyWith solve (.log (.const b) (.const p))).result =
      ((b.log p).mapError Error.numeric).map .const := by
  change (((b.log p).map Expr.const).mapError Error.numeric) = _
  cases b.log p <;> rfl

/-! ## trees -/

mutual

/-- **Currying with a value for every variable folds the tree to its folded
value.**  A failure is that of the folded value, too. -/
theorem curryWith_eq_foldedValue : (e : Expr) → e.seekDepth = 0 → args.Covers e.freeVars →
    (curryWith solve args e).result = (foldedValue args e).map .const
  | .var v, _, hc => by
    obtain ⟨x, hx⟩ := hc v (Variables.mem_singleton.mpr rfl)
    rw [curryWith, foldedValue, hx]
    rfl
  | .const _, _, _ => rfl
  | .add terms, hs, hc => by
    rw [curryWith, Logged.result_bind, curryAllWith_eq_foldedValues terms hs hc, foldedValue]
    cases foldedValues args terms with
    | error err => rfl
    | ok xs => exact simplifyWith_sum_map_const xs
  | .mul factors, hs, hc => by
    rw [curryWith, Logged.result_bind, curryAllWith_eq_foldedValues factors hs hc, foldedValue]
    cases foldedValues args factors with
    | error err => rfl
    | ok xs => exact simplifyWith_product_map_const xs
  | .neg e, hs, hc => by
    rw [curryWith, Logged.result_bind, curryWith_eq_foldedValue e hs hc, foldedValue]
    cases foldedValue args e with
    | error err => rfl
    | ok x => exact simplifyWith_negate_const x
  | .inv e, hs, hc => by
    rw [curryWith, Logged.result_bind, curryWith_eq_foldedValue e hs hc, foldedValue]
    cases foldedValue args e with
    | error err => rfl
    | ok x =>
      change (simplifyWith solve (invert (.const x))).result = _
      exact simplifyWith_invert_const x
  | .pow base exponent, hs, hc => by
    simp only [seekDepth, Nat.max_eq_zero_iff] at hs
    rw [freeVars, Arguments.covers_union] at hc
    rw [curryWith, Logged.result_bind, curryWith_eq_foldedValue base hs.1 hc.1, foldedValue]
    cases foldedValue args base with
    | error err => rfl
    | ok b =>
      change (curryWith solve args exponent >>= fun p => simplifyWith solve
        (.pow (.const b) p)).result = _
      rw [Logged.result_bind, curryWith_eq_foldedValue exponent hs.2 hc.2]
      cases foldedValue args exponent with
      | error err => rfl
      | ok p =>
        change (simplifyWith solve (.pow (.const b) (.const p))).result = _
        exact simplifyWith_pow_const b p
  | .log base power, hs, hc => by
    simp only [seekDepth, Nat.max_eq_zero_iff] at hs
    rw [freeVars, Arguments.covers_union] at hc
    rw [curryWith, Logged.result_bind, curryWith_eq_foldedValue base hs.1 hc.1, foldedValue]
    cases foldedValue args base with
    | error err => rfl
    | ok b =>
      change (curryWith solve args power >>= fun p => simplifyWith solve
        (.log (.const b) p)).result = _
      rw [Logged.result_bind, curryWith_eq_foldedValue power hs.2 hc.2]
      cases foldedValue args power with
      | error err => rfl
      | ok p =>
        change (simplifyWith solve (.log (.const b) (.const p))).result = _
        exact simplifyWith_log_const b p
  | .apply f e, hs, hc => by
    rw [curryWith, Logged.result_bind, curryWith_eq_foldedValue e hs hc, foldedValue]
    cases foldedValue args e with
    | error err => rfl
    | ok x => rfl
  | .goalSeek _ _ _, hs, _ => by
    rw [seekDepth] at hs
    exact absurd hs (Nat.succ_ne_zero _)

/-- The same for the members of a list. -/
theorem curryAllWith_eq_foldedValues : (es : List Expr) → seekDepthAll es = 0 →
    args.Covers (freeVarsAll es) →
    (curryAllWith solve args es).result = (foldedValues args es).map (List.map .const)
  | [], _, _ => rfl
  | e :: es, hs, hc => by
    simp only [seekDepthAll, Nat.max_eq_zero_iff] at hs
    rw [freeVarsAll, Arguments.covers_union] at hc
    rw [curryAllWith, Logged.result_bind, curryWith_eq_foldedValue e hs.1 hc.1, foldedValues]
    cases foldedValue args e with
    | error err => rfl
    | ok x =>
      change (curryAllWith solve args es >>= fun es => pure (.const x :: es)).result = _
      rw [Logged.result_bind, curryAllWith_eq_foldedValues es hs.2 hc.2]
      cases foldedValues args es <;> rfl

end

/-! ## products that fold to their values -/

/-- Where evaluation comes to a product whose factors have values, these fold to
their product. -/
def ProductsFold (solve : GoalSolver) (args : Arguments) (e : Expr) : Prop :=
  ∀ factors xs, Visits solve args e (.mul factors) →
    List.Forall₂ (HasValue solve args) factors xs →
    Number.foldedProduct xs = Number.product xs

/-- What holds of all visited products holds of those visited in an operand. -/
theorem ProductsFold.operand {e c : Expr} (h : ProductsFold solve args e)
    (hc : VisitsMember solve args (operands e) c) : ProductsFold solve args c :=
  fun factors xs hvisits => h factors xs (.operand hc hvisits)

/-- A product that evaluation finds no zero in folds to its value. -/
theorem productsFold_of_isZero_eq_false {e : Expr}
    (hz : ∀ factors f x, Visits solve args e (.mul factors) → VisitsMember solve args factors f →
      HasValue solve args f x → x.isZero = false) : ProductsFold solve args e := by
  intro factors xs hvisits hxs
  have hnone : xs.find? Number.isZero = none := by
    rw [List.find?_eq_none]
    intro x hx
    obtain ⟨f, hf, hfx⟩ := exists_visitsMember_of_mem hxs hx
    simp [hz factors f x hvisits hf hfx]
  rw [Number.foldedProduct, hnone]

mutual

/-- **Where products fold to their values, the folded value is the value.**  A
failure is that of the same operand. -/
theorem foldedValue_eq_of_productsFold : (e : Expr) → e.seekDepth = 0 →
    ProductsFold solve args e → foldedValue args e = (evaluateWith solve args e).result
  | .var v, _, _ => by
    rw [evaluateWith, foldedValue]
    cases args.get? v <;> rfl
  | .const _, _, _ => rfl
  | .add terms, hs, hz => by
    rw [evaluateWith, foldedValue, Logged.result_bind,
      foldedValues_eq_of_productsFold terms hs fun _ hc => hz.operand hc]
    rfl
  | .mul factors, hs, hz => by
    rw [evaluateWith, foldedValue, Logged.result_bind,
      foldedValues_eq_of_productsFold factors hs fun _ hc => hz.operand hc]
    cases hxs : (evaluateAllWith solve args factors).result with
    | error err => rfl
    | ok xs =>
      have hfold : Number.foldedProduct xs = Number.product xs :=
        hz factors xs (.refl _) (evaluateAllWith_eq_ok_iff.mp hxs)
      change (Number.foldedProduct xs).mapError Error.numeric = _
      rw [hfold]
      rfl
  | .neg e, hs, hz => by
    rw [evaluateWith, foldedValue, Logged.result_bind,
      foldedValue_eq_of_productsFold e hs (hz.operand .head)]
    rfl
  | .inv e, hs, hz => by
    rw [evaluateWith, foldedValue, Logged.result_bind,
      foldedValue_eq_of_productsFold e hs (hz.operand .head)]
    rfl
  | .pow base exponent, hs, hz => by
    simp only [seekDepth, Nat.max_eq_zero_iff] at hs
    rw [evaluateWith, foldedValue, Logged.result_bind,
      foldedValue_eq_of_productsFold base hs.1 (hz.operand .head)]
    cases hb : (evaluateWith solve args base).result with
    | error err => rfl
    | ok b =>
      -- evaluation comes to the exponent as the base has a value
      rw [foldedValue_eq_of_productsFold exponent hs.2 (hz.operand (.tail hb .head))]
      simp only [Logged.result_bind]
      rfl
  | .log base power, hs, hz => by
    simp only [seekDepth, Nat.max_eq_zero_iff] at hs
    rw [evaluateWith, foldedValue, Logged.result_bind,
      foldedValue_eq_of_productsFold base hs.1 (hz.operand .head)]
    cases hb : (evaluateWith solve args base).result with
    | error err => rfl
    | ok b =>
      rw [foldedValue_eq_of_productsFold power hs.2 (hz.operand (.tail hb .head))]
      simp only [Logged.result_bind]
      rfl
  | .apply f e, hs, hz => by
    rw [evaluateWith, foldedValue, Logged.result_bind,
      foldedValue_eq_of_productsFold e hs (hz.operand .head)]
    rfl
  | .goalSeek _ _ _, hs, _ => by
    rw [seekDepth] at hs
    exact absurd hs (Nat.succ_ne_zero _)

/-- The same for the values of a list. -/
theorem foldedValues_eq_of_productsFold : (es : List Expr) → seekDepthAll es = 0 →
    (∀ c, VisitsMember solve args es c → ProductsFold solve args c) →
    foldedValues args es = (evaluateAllWith solve args es).result
  | [], _, _ => rfl
  | e :: es, hs, hz => by
    simp only [seekDepthAll, Nat.max_eq_zero_iff] at hs
    rw [evaluateAllWith, foldedValues, Logged.result_bind,
      foldedValue_eq_of_productsFold e hs.1 (hz e .head)]
    cases hx : (evaluateWith solve args e).result with
    | error err => rfl
    | ok x =>
      rw [foldedValues_eq_of_productsFold es hs.2 fun c hc => hz c (.tail hx hc)]
      simp only [Logged.result_bind]
      rfl

end

/-! ## products that keep their zeros -/

mutual

/-- Every product that has a value is folded to this value: its first zero
factor, where it has one, is the product in value and representation. -/
def ZerosKept (solve : GoalSolver) (args : Arguments) : Expr → Prop
  | .var _ => True
  | .const _ => True
  | .add terms => AllZerosKept solve args terms
  | .mul factors =>
    AllZerosKept solve args factors ∧ ∀ xs, List.Forall₂ (HasValue solve args) factors xs →
      Number.foldedProduct xs = Number.product xs
  | .neg e => ZerosKept solve args e
  | .inv e => ZerosKept solve args e
  | .pow base exponent => ZerosKept solve args base ∧ ZerosKept solve args exponent
  | .log base power => ZerosKept solve args base ∧ ZerosKept solve args power
  | .apply _ e => ZerosKept solve args e
  | .goalSeek _ _ _ => True

/-- The products in all expressions of a list are folded to their values. -/
def AllZerosKept (solve : GoalSolver) (args : Arguments) : List Expr → Prop
  | [] => True
  | e :: es => ZerosKept solve args e ∧ AllZerosKept solve args es

end

/-- A list keeps its zeros if its members do. -/
theorem allZerosKept_iff {es : List Expr} :
    AllZerosKept solve args es ↔ ∀ e ∈ es, ZerosKept solve args e := by
  induction es with
  | nil => simp [AllZerosKept]
  | cons e es ih => rw [AllZerosKept, ih, List.forall_mem_cons]

/-- The operands of a tree that keeps its zeros keep theirs. -/
theorem ZerosKept.operand {e c : Expr} (h : ZerosKept solve args e) (hc : c ∈ operands e) :
    ZerosKept solve args c := by
  cases e with
  | add terms => exact allZerosKept_iff.mp h c hc
  | mul factors => exact allZerosKept_iff.mp h.1 c hc
  | pow base operand | log base operand =>
    have hboth : ∀ u ∈ [base, operand], ZerosKept solve args u := by
      simpa [ZerosKept] using h
    exact hboth c hc
  | neg e | inv e | apply f e =>
    have honly : c = e := List.mem_singleton.mp hc
    rw [honly]
    exact h
  | var _ | const _ | goalSeek _ _ _ => cases hc

/-- So does every tree that evaluation comes to. -/
theorem ZerosKept.of_visits {e s : Expr} (h : ZerosKept solve args e)
    (hs : Visits solve args e s) : ZerosKept solve args s := by
  induction hs with
  | refl => exact h
  | operand hc _ ih => exact ih (h.operand hc.mem)

/-- Products that keep their zeros fold to their values. -/
theorem ZerosKept.productsFold {e : Expr} (h : ZerosKept solve args e) :
    ProductsFold solve args e :=
  fun _ xs hvisits => (h.of_visits hvisits).2 xs

/-- **Where products keep their zeros, the folded value is the value.**  Errors
are the same, too. -/
theorem foldedValue_eq_evaluateWith (e : Expr) (hs : e.seekDepth = 0)
    (hz : ZerosKept solve args e) : foldedValue args e = (evaluateWith solve args e).result :=
  foldedValue_eq_of_productsFold e hs hz.productsFold

/-- The same for the values of a list. -/
theorem foldedValues_eq_evaluateAllWith (es : List Expr) (hs : seekDepthAll es = 0)
    (hz : AllZerosKept solve args es) :
    foldedValues args es = (evaluateAllWith solve args es).result :=
  foldedValues_eq_of_productsFold es hs fun _ hc => (allZerosKept_iff.mp hz _ hc.mem).productsFold

/-- A product whose factors have their values folds to an equal number. -/
theorem foldedValue_mul {factors : List Expr} {v : Number} (hs : seekDepthAll factors = 0)
    (hz : AllZerosKept solve args factors) (hv : HasValue solve args (.mul factors) v) :
    ∃ w, foldedValue args (.mul factors) = .ok w ∧ (w == v) = true := by
  obtain ⟨xs, hxs, hproduct⟩ := hasValue_mul.mp hv
  obtain ⟨w, hw, heq⟩ := Number.foldedProduct_beq hproduct
  have hfolded : foldedValues args factors = .ok xs := by
    rw [foldedValues_eq_evaluateAllWith factors hs hz]
    exact evaluateAllWith_eq_ok_iff.mpr hxs
  refine ⟨w, ?_, heq⟩
  rw [foldedValue, hfolded]
  change (Number.foldedProduct xs).mapError Error.numeric = _
  rw [hw]
  rfl

/-- **What currying every variable has to do with evaluation.**  Let the tree
have the value `v`.

1. Currying arrives at the folded value, or fails as it does;
2. so it agrees with evaluation exactly where the folded value equals `v`;
3. it does agree, in the representation, too, where products keep their zeros;
4. it does agree where the products in the factors of a product do. -/
theorem curry_of_covers (catalogue : Catalogue) {e : Expr} {v : Number} (hs : e.seekDepth = 0)
    (hc : args.Covers e.freeVars) (hv : (e.evaluate catalogue args).result = .ok v) :
    (e.curry catalogue args).result = (foldedValue args e).map .const ∧
      ((∃ c, (e.curry catalogue args).result = .ok (.const c) ∧ (c == v) = true) ↔
        ∃ w, foldedValue args e = .ok w ∧ (w == v) = true) ∧
      (ZerosKept (e.solver catalogue) args e →
        (e.curry catalogue args).result = .ok (.const v)) ∧
      ∀ factors, e = .mul factors → AllZerosKept (e.solver catalogue) args factors →
        ∃ c, (e.curry catalogue args).result = .ok (.const c) ∧ (c == v) = true := by
  have hcurry : (e.curry catalogue args).result = (foldedValue args e).map .const :=
    curryWith_eq_foldedValue e hs hc
  have hagree : (∃ c, (e.curry catalogue args).result = .ok (.const c) ∧ (c == v) = true) ↔
      ∃ w, foldedValue args e = .ok w ∧ (w == v) = true := by
    rw [hcurry]
    cases foldedValue args e <;> simp [Except.map]
  refine ⟨hcurry, hagree, ?_, ?_⟩
  · intro hz
    rw [hcurry, foldedValue_eq_evaluateWith e hs hz]
    change (e.evaluate catalogue args).result.map Expr.const = _
    rw [hv]
    rfl
  · rintro factors rfl hz
    exact hagree.mpr (foldedValue_mul hs hz hv)

end

/-- The integer zero among the factors is left an integer, and equal to the real
zero that is the product. -/
theorem curry_of_covers_zero :
    let e := Expr.mul [ofName "x", .const (.real (.finite (.ofInt 1)))]
    let args := Arguments.single ⟨"x"⟩ .zero
    (e.evaluate .empty args).result = .ok (.real (.finite 0)) ∧
      ∃ c, (e.curry .empty args).result = .ok (.const c) ∧
        (c == Number.real (.finite 0)) = true := by
  intro e args
  have hcovers : args.Covers e.freeVars := by
    intro v hv
    have hx : v = ⟨"x"⟩ := by simpa [e, freeVars, freeVarsAll] using hv
    exact ⟨.zero, by simp [args, hx]⟩
  have hvalue : (e.evaluate .empty args).result = .ok (.real (.finite 0)) := rfl
  have hfolded : foldedValue args e = .ok .zero := rfl
  exact ⟨hvalue, (curry_of_covers .empty (by rfl) hcovers hvalue).2.1.mpr
    ⟨.zero, hfolded, by rfl⟩⟩

/-- The zero of a real product makes a sum real and rounds it; its integer
factor does not. -/
example :
    let e := Expr.apply (.round .floor)
      (.add [.mul [ofInt 0, .const (.real (.finite (.ofInt 1)))], ofInt (2 ^ 256 + 1)])
    (e.evaluate .empty .empty).result.toOption = some (.integer (2 ^ 256)) ∧
      (e.curry .empty .empty).result = .ok (ofInt (2 ^ 256 + 1)) := by
  constructor
  · decide +kernel
  · rfl

/-- **Away from zero factors, currying every variable is evaluation.**  The value
is the same in its representation, and an error is the same error. -/
theorem curry_eq_evaluate [Elementary] (catalogue : Catalogue) {e : Expr} (hs : e.seekDepth = 0)
    (hc : args.Covers e.freeVars)
    (hz : ∀ factors f x, Visits (e.solver catalogue) args e (.mul factors) →
      VisitsMember (e.solver catalogue) args factors f →
      HasValue (e.solver catalogue) args f x → x.isZero = false) :
    (e.curry catalogue args).result = (e.evaluate catalogue args).result.map .const := by
  have hcurry : (e.curry catalogue args).result = (foldedValue args e).map .const :=
    curryWith_eq_foldedValue e hs hc
  have hfolded : foldedValue args e = (e.evaluate catalogue args).result :=
    foldedValue_eq_of_productsFold e hs (productsFold_of_isZero_eq_false hz)
  rw [hcurry, hfolded]

/-- Half of a third is a real, and half of infinity fails, in the same way. -/
theorem curry_eq_evaluate_half :
    let half := Number.real (.finite (.ofDyadic (.ofIntWithPrec 1 1)))
    let e := Expr.neg (.mul [.const half, ofName "x"])
    ∀ x ∈ [Number.rational (1 / 3), .real (.infinite false)],
      (e.curry .empty (.single ⟨"x"⟩ x)).result =
        (e.evaluate .empty (.single ⟨"x"⟩ x)).result.map .const := by
  intro half e x hx
  have hcovers : (Arguments.single ⟨"x"⟩ x).Covers e.freeVars := by
    intro v hv
    have hv : v = ⟨"x"⟩ := by simpa [e, freeVars, freeVarsAll] using hv
    exact ⟨x, by simp [hv]⟩
  have hhalf : half.isZero = false := by decide +kernel
  have hnonzero : x.isZero = false := by
    rcases List.mem_pair.mp hx with rfl | rfl
    · decide +kernel
    · rfl
  refine curry_eq_evaluate .empty (by rfl) hcovers ?_
  intro factors f y hvisits hf hy
  have hvisits : Visits _ _ (.neg (.mul [.const half, ofName "x"])) _ := hvisits
  -- the product of the two leaves is the only one
  obtain rfl : factors = [.const half, ofName "x"] := by
    cases hvisits with
    | operand hc hvisits =>
      obtain rfl := List.mem_singleton.mp hc.mem
      cases hvisits with
      | refl => rfl
      | operand hc hvisits =>
        rcases List.mem_pair.mp hc.mem with rfl | rfl <;> cases hvisits.eq_of_leaf rfl
  rcases List.mem_pair.mp hf.mem with rfl | rfl
  · rw [← hasValue_const.mp hy]
    exact hhalf
  · have hxy : x = y := by simpa [ofName] using hy
    rw [← hxy]
    exact hnonzero

end Expr

end SymCalc
