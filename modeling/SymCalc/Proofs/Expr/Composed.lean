import SymCalc.Proofs.Expr.ExactRun
import SymCalc.Proofs.Expr.WellFormed
import SymCalc.Proofs.Text.Reading

/-!
# SymCalc.Proofs.Expr.Composed

Trees of arithmetic and their rational values.

1. `Composed` trees are put together by the normalising constructors from names and exact
   constants.  They are plain, without an empty sum or product (`Composed.isPlain`), and
   well-formed (`Composed.wellFormed`);
2. `rationalValue` is the value of a tree of arithmetic at a point.  It is undefined where
   zero is inverted or an exponent is not whole;
3. evaluation finds it where it raises integers only (`rationalValue_of_hasValue`).
-/

namespace SymCalc

/-- The exact values of names. -/
def Arguments.rational (args : Arguments) (s : String) : Option Rat :=
  (args.get? ⟨s⟩).bind Number.toRat?

namespace Expr

/-! ## trees put together -/

/-- The tree is put together from names and exact constants by the constructors of sums and
products, of one operand at least, of opposites, reciprocals and powers. -/
inductive Composed : Expr → Prop
  | var {v : Variable} : Token.IsName v.name → Composed (.var v)
  | const {x : Number} : x.isExact = true → Composed (.const x)
  | sum {es : List Expr} : es ≠ [] → (∀ e ∈ es, Composed e) → Composed (sum es)
  | product {es : List Expr} : es ≠ [] → (∀ e ∈ es, Composed e) → Composed (product es)
  | negate {e : Expr} : Composed e → Composed (negate e)
  | invert {e : Expr} : Composed e → Composed (invert e)
  | pow {b p : Expr} : Composed b → Composed p → Composed (.pow b p)

mutual

/-- The tree has names and exact constants as its leaves, and no other nodes than sums and
products of one operand at least, opposites, reciprocals and powers. -/
def IsPlain : Expr → Prop
  | .var v => Token.IsName v.name
  | .const x => x.isExact = true
  | .add terms => terms ≠ [] ∧ AllPlain terms
  | .mul factors => factors ≠ [] ∧ AllPlain factors
  | .neg e => IsPlain e
  | .inv e => IsPlain e
  | .pow base exponent => IsPlain base ∧ IsPlain exponent
  | .log _ _ | .apply _ _ | .goalSeek _ _ _ => False

/-- All trees of a list are plain. -/
def AllPlain : List Expr → Prop
  | [] => True
  | e :: es => IsPlain e ∧ AllPlain es

end

variable {e : Expr} {es : List Expr}

/-- A list is plain if and only if each of its trees is. -/
theorem allPlain_iff : AllPlain es ↔ ∀ e ∈ es, IsPlain e := by
  induction es with
  | nil => simp [AllPlain]
  | cons e es ih => simp [AllPlain, ih]

/-- A list taken apart has members if it had some before, all of them plain. -/
theorem plain_flatMap {parts : Expr → List Expr} (hes : es ≠ [])
    (h : ∀ e ∈ es, parts e ≠ [] ∧ AllPlain (parts e)) :
    es.flatMap parts ≠ [] ∧ AllPlain (es.flatMap parts) := by
  constructor
  · obtain ⟨e, hmem⟩ := List.exists_mem_of_ne_nil es hes
    obtain ⟨t, ht⟩ := List.exists_mem_of_ne_nil _ (h e hmem).1
    exact List.ne_nil_of_mem (List.mem_flatMap.mpr ⟨e, hmem, ht⟩)
  · rw [allPlain_iff]
    intro t ht
    obtain ⟨e, he, ht⟩ := List.mem_flatMap.mp ht
    exact allPlain_iff.mp (h e he).2 t ht

/-- The addends of a plain tree are plain, and there is one at least. -/
theorem IsPlain.addends (h : IsPlain e) : addends e ≠ [] ∧ AllPlain (addends e) := by
  cases e with
  | add terms => exact h
  | _ => exact ⟨List.cons_ne_nil _ _, h, trivial⟩

/-- The factors of a plain tree are plain, and there is one at least. -/
theorem IsPlain.factorsOf (h : IsPlain e) : factorsOf e ≠ [] ∧ AllPlain (factorsOf e) := by
  cases e with
  | mul factors => exact h
  | _ => exact ⟨List.cons_ne_nil _ _, h, trivial⟩

theorem IsPlain.negate (h : IsPlain e) : IsPlain (negate e) := by
  cases e with
  | neg e => exact h
  | const x =>
    rw [Expr.negate]
    split
    · exact (Number.isExact_neg x).trans h
    · exact h
  | _ => exact h

theorem IsPlain.invert (h : IsPlain e) : IsPlain (invert e) := by
  fun_induction Expr.invert e with
  | case1 e => exact h
  | case2 e ih => exact (ih h).negate
  | case3 e => exact h

/-- Trees put together by the constructors are plain. -/
theorem Composed.isPlain (h : Composed e) : IsPlain e := by
  induction h with
  | var h => exact h
  | const h => exact h
  | sum hes _ ih => exact plain_flatMap hes fun e he => (ih e he).addends
  | product hes _ ih => exact plain_flatMap hes fun e he => (ih e he).factorsOf
  | negate _ ih => exact ih.negate
  | invert _ ih => exact ih.invert
  | pow _ _ ihb ihp => exact ⟨ihb, ihp⟩

/-- Trees put together by the constructors are well-formed. -/
theorem Composed.wellFormed (h : Composed e) : WellFormed e := by
  induction h with
  | var _ => exact wellFormed_var
  | const _ => exact wellFormed_const
  | sum _ _ ih => exact .sum ih
  | product _ _ ih => exact .product ih
  | negate _ ih => exact ih.negate
  | invert _ ih => exact ih.invert
  | pow _ _ ihb ihp => exact wellFormed_pow.mpr ⟨ihb, ihp⟩

/-! ## rational values -/

mutual

/-- The value of a tree of arithmetic at a point, where it is defined. -/
def rationalValue (ρ : String → Option Rat) : Expr → Option Rat
  | .var v => ρ v.name
  | .const x => x.toRat?
  | .add terms => (rationalValues ρ terms).map List.sum
  | .mul factors => (rationalValues ρ factors).map List.prod
  | .neg e => (rationalValue ρ e).map fun q => -q
  | .inv e => (rationalValue ρ e).bind fun q => if q = 0 then none else some q⁻¹
  | .pow base exponent =>
    (rationalValue ρ base).bind fun b => (rationalValue ρ exponent).bind (Operator.pow.eval b)
  | .log _ _ | .apply _ _ | .goalSeek _ _ _ => none

/-- The values of a list of trees. -/
def rationalValues (ρ : String → Option Rat) : List Expr → Option (List Rat)
  | [] => some []
  | e :: es =>
    (rationalValue ρ e).bind fun q => (rationalValues ρ es).map fun qs => q :: qs

end

section rules

variable {ρ : String → Option Rat} {b p : Expr} {q : Rat} {qs : List Rat}

/-- An opposite has a value if and only if its operand has the opposite one. -/
theorem rationalValue_neg_eq_some_iff :
    rationalValue ρ (.neg e) = some q ↔ rationalValue ρ e = some (-q) := by
  rw [rationalValue, Option.map_eq_some_iff]
  constructor
  · rintro ⟨p, hp, rfl⟩
    rwa [neg_neg]
  · exact fun h => ⟨-q, h, neg_neg q⟩

/-- A reciprocal has a value if and only if its operand has one other than zero. -/
theorem rationalValue_inv_eq_some_iff :
    rationalValue ρ (.inv e) = some q ↔ ∃ p, rationalValue ρ e = some p ∧ p ≠ 0 ∧ q = p⁻¹ := by
  rw [rationalValue, Option.bind_eq_some_iff]
  refine exists_congr fun p => and_congr_right fun _ => ?_
  by_cases hp : p = 0 <;> simp [hp, eq_comm]

/-- A power has a value if and only if base and exponent have values whose power is defined. -/
theorem rationalValue_pow_eq_some_iff :
    rationalValue ρ (.pow b p) = some q ↔ ∃ x y, rationalValue ρ b = some x ∧
      rationalValue ρ p = some y ∧ Operator.pow.eval x y = some q := by
  simp only [rationalValue, Option.bind_eq_some_iff, exists_and_left]

/-- A list has values if and only if each of its trees has one. -/
theorem rationalValues_cons_eq_some_iff :
    rationalValues ρ (e :: es) = some qs ↔ ∃ x xs, rationalValue ρ e = some x ∧
      rationalValues ρ es = some xs ∧ x :: xs = qs := by
  simp only [rationalValues, Option.bind_eq_some_iff, Option.map_eq_some_iff, exists_and_left]

end rules

/-! ## values that evaluation finds -/

section evaluation

open Number (ExactFold exactFold_sum exactFold_product)

variable {solve : GoalSolver} {args : Arguments}

/-- Powers of integers are defined as operators, too. -/
theorem eval_pow_of_powInt {b p : Int} {x : Number} (h : Number.powInt b p = .ok x) :
    Operator.pow.eval b p = some x.exactValue := by
  obtain ⟨hdefined, -⟩ := Number.powInt_eq_ok_iff.mp h
  have hcond : (p : Rat).den = 1 ∧ ((b : Rat) = 0 → (0 : Rat) < p) := by
    refine ⟨Rat.den_intCast p, fun hb => ?_⟩
    rw [Int.cast_eq_zero] at hb
    rw [Int.cast_pos]
    exact not_le.mp fun hp => hdefined ⟨hb, hp⟩
  rw [Operator.eval, if_pos hcond, Rat.num_intCast, (Number.exactValue_powInt h).1]

/-- The exact values of a list combine to that of its sum or product. -/
theorem exactValue_of_fold {fold : List Number → Except NumericError Number}
    {op : Rat → Rat → Rat} {unit : Rat} (hf : ExactFold fold op unit) {xs : List Number}
    {x : Number} (hx : fold xs = .ok x) (hexact : ∀ y ∈ xs, y.isExact = true) :
    x.isExact = true ∧ x.exactValue = (xs.map Number.exactValue).foldr op unit := by
  obtain ⟨y, hy, hye, hyv, -⟩ := hf.fold_of_isExact hexact
  cases hy.symm.trans hx
  exact ⟨hye, hyv⟩

mutual

/-- Where a plain tree has a value under exact bindings and raises integers only, the value
is exact, and it is the one of the tree at that point. -/
theorem rationalValue_of_hasValue [Elementary] (ha : args.IsExact) : (e : Expr) → IsPlain e →
    IntegerPowers solve args e → ∀ {x}, HasValue solve args e x →
    x.isExact = true ∧ rationalValue args.rational e = some x.exactValue
  | .var v, _, _, x, h => by
    have hget := hasValue_var.mp h
    have hexact := ha v x hget
    refine ⟨hexact, ?_⟩
    rw [rationalValue, Arguments.rational, hget]
    exact Number.toRat?_eq_some_iff.mpr ⟨hexact, rfl⟩
  | .const c, he, _, x, h => by
    cases hasValue_const.mp h
    exact ⟨he, Number.toRat?_eq_some_iff.mpr ⟨he, rfl⟩⟩
  | .add terms, he, hp, x, h => by
    obtain ⟨xs, hxs, hx⟩ := hasValue_add.mp h
    obtain ⟨hexact, hvalues⟩ := rationalValues_of_hasValue ha terms he.2 hp hxs
    obtain ⟨hxe, hxv⟩ := exactValue_of_fold exactFold_sum hx hexact
    refine ⟨hxe, ?_⟩
    rw [rationalValue, hvalues, hxv]
    rfl
  | .mul factors, he, hp, x, h => by
    obtain ⟨xs, hxs, hx⟩ := hasValue_mul.mp h
    obtain ⟨hexact, hvalues⟩ := rationalValues_of_hasValue ha factors he.2 hp hxs
    obtain ⟨hxe, hxv⟩ := exactValue_of_fold exactFold_product hx hexact
    refine ⟨hxe, ?_⟩
    rw [rationalValue, hvalues, hxv]
    rfl
  | .neg e, he, hp, x, h => by
    obtain ⟨y, hy, rfl⟩ := hasValue_neg.mp h
    obtain ⟨hye, hyv⟩ := rationalValue_of_hasValue ha e he hp hy
    refine ⟨(Number.isExact_neg y).trans hye, ?_⟩
    rw [rationalValue, hyv, Number.exactValue_neg]
    rfl
  | .inv e, he, hp, x, h => by
    obtain ⟨y, hy, hx⟩ := hasValue_inv.mp h
    obtain ⟨hye, hyv⟩ := rationalValue_of_hasValue ha e he hp hy
    rw [Number.inv_of_isExact hye] at hx
    split at hx
    · cases hx
    · rename_i hne
      cases hx
      exact ⟨rfl, rationalValue_inv_eq_some_iff.mpr ⟨_, hyv, hne, rfl⟩⟩
  | .pow base exponent, he, ⟨⟨hpb, hpe⟩, ⟨b, hb⟩, p, hp⟩, x, h => by
    obtain ⟨b', hb', p', hp', hx⟩ := hasValue_pow.mp h
    -- both operands are the integers that the hypothesis on powers names
    cases hb.unique hb'
    cases hp.unique hp'
    obtain ⟨-, hbv⟩ := rationalValue_of_hasValue ha base he.1 hpb hb
    obtain ⟨-, hpv⟩ := rationalValue_of_hasValue ha exponent he.2 hpe hp
    rw [Number.pow_integer] at hx
    refine ⟨Number.isExact_powInt hx, ?_⟩
    exact rationalValue_pow_eq_some_iff.mpr ⟨_, _, hbv, hpv, eval_pow_of_powInt hx⟩

/-- The same for lists. -/
theorem rationalValues_of_hasValue [Elementary] (ha : args.IsExact) : (es : List Expr) →
    AllPlain es →
    AllIntegerPowers solve args es → ∀ {xs}, List.Forall₂ (HasValue solve args) es xs →
    (∀ x ∈ xs, x.isExact = true) ∧
      rationalValues args.rational es = some (xs.map Number.exactValue)
  | [], _, _, _, .nil => ⟨by simp, rfl⟩
  | e :: es, he, hp, _, .cons hx hxs => by
    obtain ⟨hxe, hxv⟩ := rationalValue_of_hasValue ha e he.1 hp.1 hx
    obtain ⟨hxse, hxsv⟩ := rationalValues_of_hasValue ha es he.2 hp.2 hxs
    exact ⟨List.forall_mem_cons.mpr ⟨hxe, hxse⟩,
      rationalValues_cons_eq_some_iff.mpr ⟨_, _, hxv, hxsv, rfl⟩⟩

end

end evaluation

end Expr

end SymCalc
