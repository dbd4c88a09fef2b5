import SymCalc.Proofs.Expr.Arithmetic
import SymCalc.Proofs.Expr.Substitute

/-!
# SymCalc.Proofs.Expr.Operands

Sums and products as one kind of node.

1. `Nary` states what both have in common, and where they differ: a zero absorbs
   the other factors of a product;
2. such a node is put together from what `Nary.view` reads off its operands, the
   ones that are not constants and the total of the constants;
3. views of lists are joined (`Nary.view_append`), so it does not matter where a
   sum within a sum was put together (`Nary.view_parts_gather`).

Main statements: up to the representation of numbers, `Nary.gather` is what
simplification makes of a sum (`widened_combineSum`) and of a product
(`widened_combined_factors`).
-/

namespace SymCalc.Expr

/-! ## the constants of widened lists -/

/-- The numbers collected are those with a constant in the list. -/
theorem mem_constants {x : Number} {us : List Expr} : x ∈ constants us ↔ .const x ∈ us := by
  induction us with
  | nil => simp [constants]
  | cons u us ih => cases u <;> simp [constants, ih]

/-- The constants of widened operands are the widened constants. -/
theorem constants_map_widened (us : List Expr) :
    constants (us.map widened) = (constants us).map Number.widened := by
  induction us with
  | nil => rfl
  | cons u us ih => cases u <;> simp [widened, constants, ih]

/-- The other operands of a widened list are the widened other operands. -/
theorem nonConstants_map_widened (us : List Expr) :
    nonConstants (us.map widened) = (nonConstants us).map widened := by
  induction us with
  | nil => rfl
  | cons u us ih => cases u <;> simp [widened, nonConstants, ih]

/-! ## sums and products alike -/

/-- What sums and products have in common: how they take a list apart, and how
their constants combine.  An `absorbing` constant stands for the whole node. -/
structure Nary where
  node : List Expr → Expr
  parts : Expr → List Expr
  sameKind : Expr → Bool
  fold : List Number → Except NumericError Number
  op : Rat → Rat → Rat
  unit : Rat
  absorbing : Rat → Bool
  dropped : Number → Bool
  exact : Number.ExactFold fold op unit
  cases_of_sameKind : ∀ {e}, sameKind e = true → ∃ es, e = node es
  parts_node : ∀ es, parts (node es) = es
  parts_of_flat : ∀ {e}, sameKind e = false → parts e = [e]
  sameKind_const : ∀ x, sameKind (.const x) = false
  sameKind_widened : ∀ e, sameKind e.widened = sameKind e
  widened_node : ∀ es, (node es).widened = node (es.map widened)
  isArithmetic_node : ∀ es, (node es).isArithmetic = allArithmetic es
  normal_node : ∀ {es}, Normal (node es) ↔ AllNormal es ∧ NormalOperands sameKind dropped es
  absorbing_unit : absorbing unit = false
  absorbing_op : ∀ a b, absorbing (op a b) = (absorbing a || absorbing b)
  op_of_absorbing : ∀ {a} b, absorbing a = true → op a b = a
  dropped_eq : ∀ {x}, x.isExact = true →
    dropped x = (absorbing x.exactValue || decide (x.exactValue = unit))

/-- Sums: nothing absorbs, and a zero is dropped. -/
def sums : Nary where
  node := .add
  parts := addends
  sameKind := isSum
  fold := Number.sum
  op := (· + ·)
  unit := 0
  absorbing _ := false
  dropped := Number.isZero
  exact := Number.exactFold_sum
  cases_of_sameKind {e} h := by
    cases e with
    | add es => exact ⟨es, rfl⟩
    | _ => cases h
  parts_node _ := rfl
  parts_of_flat := addends_of_isSum_eq_false
  sameKind_const _ := rfl
  sameKind_widened e := by cases e <;> rfl
  widened_node es := by rw [widened, widenedAll_eq_map]
  isArithmetic_node _ := rfl
  normal_node := Iff.rfl
  absorbing_unit := rfl
  absorbing_op _ _ := rfl
  op_of_absorbing _ h := by cases h
  dropped_eq {x} hx := by
    rw [Bool.eq_iff_iff, Number.isZero_iff_of_isExact hx]
    simp

/-- Products: a zero absorbs, and a one is dropped. -/
def products : Nary where
  node := .mul
  parts := factorsOf
  sameKind := isProduct
  fold := Number.product
  op := (· * ·)
  unit := 1
  absorbing q := q = 0
  dropped x := x.isZero || x.isOne
  exact := Number.exactFold_product
  cases_of_sameKind {e} h := by
    cases e with
    | mul es => exact ⟨es, rfl⟩
    | _ => cases h
  parts_node _ := rfl
  parts_of_flat := factorsOf_of_isProduct_eq_false
  sameKind_const _ := rfl
  sameKind_widened e := by cases e <;> rfl
  widened_node es := by rw [widened, widenedAll_eq_map]
  isArithmetic_node _ := rfl
  normal_node := Iff.rfl
  absorbing_unit := by simp
  absorbing_op a b := by simp [mul_eq_zero]
  op_of_absorbing b h := by simp_all
  dropped_eq {x} hx := by
    rw [Bool.eq_iff_iff, Bool.or_eq_true, Bool.or_eq_true, Number.isZero_iff_of_isExact hx,
      Number.isOne_iff_of_isExact hx]
    simp

/-- What matters of a list of operands: those that are no constants, and the
total of the constants. -/
structure View where
  rest : List Expr
  total : Rat

namespace Nary

variable (o : Nary)

/-- The view of a list of operands.  Next to an absorbing constant, nothing else
matters. -/
def view (us : List Expr) : View :=
  let c := Number.total o.op o.unit (constants us)
  ⟨if o.absorbing c then [] else nonConstants us, c⟩

/-- The operands of two views. -/
def join (a b : View) : View :=
  let c := o.op a.total b.total
  ⟨if o.absorbing c then [] else a.rest ++ b.rest, c⟩

/-- The node over the operands of a view. -/
def outcome (a : View) : Expr :=
  assemble o.node a.rest (.rational a.total) (a.total = o.unit)

/-- The node over a list of simplified operands, as far as values go. -/
def gather (us : List Expr) : Expr := o.outcome (o.view us)

/-- An absorbing value absorbs from the right, too. -/
theorem op_of_absorbing_right {a : Rat} (b : Rat) (h : o.absorbing a = true) : o.op b a = a := by
  rw [o.exact.comm, o.op_of_absorbing b h]

/-- The unit is neutral on the right, too. -/
theorem op_unit (a : Rat) : o.op a o.unit = a := by
  rw [o.exact.comm, o.exact.unit_op]

/-- Three parts of a list can be joined in either order. -/
theorem join_assoc (a b c : View) : o.join (o.join a b) c = o.join a (o.join b c) := by
  simp only [join, o.exact.assoc, View.mk.injEq, and_true]
  simp only [o.absorbing_op]
  cases o.absorbing a.total <;> cases o.absorbing b.total <;> cases o.absorbing c.total <;> simp

/-- A constant may be joined on either side. -/
theorem join_constant (a : View) (q : Rat) : o.join ⟨[], q⟩ a = o.join a ⟨[], q⟩ := by
  simp only [join, o.exact.comm q, List.nil_append, List.append_nil]

/-- An absorbing part absorbs what stands before it. -/
theorem join_absorbing (a : View) {q : Rat} (h : o.absorbing q = true) :
    o.join a ⟨[], q⟩ = ⟨[], q⟩ := by
  simp only [join, o.op_of_absorbing_right _ h, h, if_true]

/-- The view of two lists joins the views of each. -/
theorem view_append (us vs : List Expr) : o.view (us ++ vs) = o.join (o.view us) (o.view vs) := by
  simp only [view, join, constants_append, nonConstants_append, o.exact.total_append,
    View.mk.injEq, and_true]
  simp only [o.absorbing_op]
  cases o.absorbing (Number.total o.op o.unit (constants us)) <;>
    cases o.absorbing (Number.total o.op o.unit (constants vs)) <;> simp

@[simp] theorem view_nil : o.view [] = ⟨[], o.unit⟩ := by
  simp [view, constants, nonConstants, Number.total]

@[simp] theorem view_const (q : Rat) : o.view [.const (.rational q)] = ⟨[], q⟩ := by
  simp [view, constants, nonConstants, o.exact.total_singleton, Number.exactValue]

/-- Without constants the view is the list itself. -/
theorem view_of_isConst_eq_false {us : List Expr} (h : ∀ u ∈ us, u.isConst = false) :
    o.view us = ⟨us, o.unit⟩ := by
  simp [view, constants_of_isConst_eq_false h, nonConstants_of_isConst_eq_false h, Number.total,
    o.absorbing_unit]

@[simp] theorem join_unit (us : List Expr) :
    o.join (o.view us) ⟨[], o.unit⟩ = o.view us := by
  rw [← o.view_nil, ← view_append, List.append_nil]

/-- The operands that a view keeps are no constants. -/
theorem isConst_view_rest (us : List Expr) : ∀ u ∈ (o.view us).rest, u.isConst = false := by
  intro u hu
  simp only [view] at hu
  split at hu
  · cases hu
  · exact (mem_nonConstants.mp hu).2

/-- The operands that a view keeps are those of the list. -/
theorem mem_of_mem_view_rest {us : List Expr} {u : Expr} (h : u ∈ (o.view us).rest) : u ∈ us := by
  simp only [view] at h
  split at h
  · cases h
  · exact (mem_nonConstants.mp h).1

/-- An absorbing total leaves nothing else. -/
theorem view_rest_of_absorbing (us : List Expr) (h : o.absorbing (o.view us).total = true) :
    (o.view us).rest = [] := by
  simp only [view] at h ⊢
  rw [if_pos h]

/-- The forms of what is put together from a view. -/
theorem outcome_cases {a : View} (habs : o.absorbing a.total = true → a.rest = []) :
    (a.rest = [] ∧ o.outcome a = .const (.rational a.total)) ∨
    (∃ u, a.rest = [u] ∧ a.total = o.unit ∧ o.outcome a = u) ∨
    (2 ≤ a.rest.length ∧ a.total = o.unit ∧ o.outcome a = o.node a.rest) ∨
    (1 ≤ a.rest.length ∧ a.total ≠ o.unit ∧ o.absorbing a.total = false ∧
      o.outcome a = o.node (a.rest ++ [.const (.rational a.total)])) := by
  obtain ⟨rest, c⟩ := a
  by_cases hc : c = o.unit
  · obtain _ | ⟨u, _ | ⟨v, us⟩⟩ := rest
    · exact .inl ⟨rfl, rfl⟩
    · exact .inr (.inl ⟨u, rfl, hc, by simp [outcome, assemble, hc]⟩)
    · exact .inr (.inr (.inl ⟨by simp, hc, by simp [outcome, assemble, hc]⟩))
  · cases rest with
    | nil => exact .inl ⟨rfl, rfl⟩
    | cons u us =>
      refine .inr (.inr (.inr ⟨by simp, hc, ?_, by simp [outcome, assemble, hc]⟩))
      exact eq_false_of_ne_true fun h => by cases habs h

/-- **A sum within a sum may be put together before**: its parts have the view of
the list it was put together from. -/
theorem view_parts_gather {us : List Expr} (hflat : ∀ u ∈ us, o.sameKind u = false) :
    o.view (o.parts (o.gather us)) = o.view us := by
  have hconst := o.isConst_view_rest us
  rcases o.outcome_cases (o.view_rest_of_absorbing us) with
    ⟨hrest, h⟩ | ⟨u, hrest, htotal, h⟩ | ⟨-, htotal, h⟩ | ⟨-, -, habs, h⟩
  · rw [gather, h, o.parts_of_flat (o.sameKind_const _), o.view_const, ← hrest]
  · have hu : u ∈ (o.view us).rest := by simp [hrest]
    rw [gather, h, o.parts_of_flat (hflat u (o.mem_of_mem_view_rest hu)),
      o.view_of_isConst_eq_false (by simpa using hconst u hu), ← hrest, ← htotal]
  · rw [gather, h, o.parts_node, o.view_of_isConst_eq_false hconst, ← htotal]
  · rw [gather, h, o.parts_node, o.view_append, o.view_const, o.view_of_isConst_eq_false hconst]
    simp [join, o.exact.unit_op, habs]

/-- A widened tree is taken apart as the tree is. -/
theorem parts_widened (e : Expr) : o.parts e.widened = (o.parts e).map widened := by
  cases hkind : o.sameKind e with
  | false =>
    rw [o.parts_of_flat hkind, o.parts_of_flat (by rw [o.sameKind_widened, hkind])]
    rfl
  | true =>
    obtain ⟨es, rfl⟩ := o.cases_of_sameKind hkind
    rw [o.widened_node, o.parts_node, o.parts_node]

/-- Widened trees are taken apart as the trees are. -/
theorem flatMap_parts_widened (es : List Expr) :
    (es.map widened).flatMap o.parts = (es.flatMap o.parts).map widened := by
  simp only [List.flatMap_map, List.map_flatMap, parts_widened]

/-- The operands of an arithmetic tree are arithmetic. -/
theorem isArithmetic_parts {e : Expr} (h : e.isArithmetic = true) :
    ∀ u ∈ o.parts e, u.isArithmetic = true := by
  cases hkind : o.sameKind e with
  | false =>
    rw [o.parts_of_flat hkind]
    simpa using h
  | true =>
    obtain ⟨es, rfl⟩ := o.cases_of_sameKind hkind
    rw [o.isArithmetic_node] at h
    rw [o.parts_node]
    exact allArithmetic_iff.mp h

/-- The operands of arithmetic trees are arithmetic. -/
theorem isArithmetic_flatMap_parts {es : List Expr} (h : ∀ e ∈ es, e.isArithmetic = true) :
    ∀ u ∈ es.flatMap o.parts, u.isArithmetic = true := by
  intro u hu
  obtain ⟨e, he, hu⟩ := List.mem_flatMap.mp hu
  exact o.isArithmetic_parts (h e he) u hu

/-- The total of exact constants is exact, and the one of the view. -/
theorem fold_constants_of_isArithmetic {us : List Expr} (hus : ∀ u ∈ us, u.isArithmetic = true) :
    ∃ x, o.fold (constants us) = .ok x ∧ x.isExact = true ∧
      x.exactValue = (o.view (us.map widened)).total := by
  have hexact : ∀ x ∈ constants us, x.isExact = true := fun x hx => hus _ (mem_constants.mp hx)
  obtain ⟨x, hx, hxe, hxv, -⟩ := o.exact.fold_of_isExact hexact
  refine ⟨x, hx, hxe, ?_⟩
  have htotal : Number.total o.op o.unit (constants (us.map widened)) =
      Number.total o.op o.unit (constants us) := by
    rw [constants_map_widened, Number.total, Number.total, List.map_map]
    rfl
  rw [hxv, view, htotal]

/-- A node can be put together before or after it is widened. -/
theorem widened_assemble (rest : List Expr) (x : Number) (neutral : Bool) :
    (assemble o.node rest x neutral).widened =
      assemble o.node (rest.map widened) x.widened neutral := by
  match rest, neutral with
  | [], _ => rfl
  | [u], true => rfl
  | u :: v :: us, true => simp [assemble, o.widened_node]
  | u :: us, false => simp [assemble, o.widened_node, widened]

/-- What is put together from exact constants and other operands is arithmetic
and, up to the representation of numbers, the node over the list. -/
theorem widened_combined {us : List Expr} {x : Number} {neutral : Bool}
    (hus : ∀ u ∈ us, u.isArithmetic = true) (hx : x.isExact = true)
    (htotal : x.exactValue = (o.view (us.map widened)).total)
    (hneutral : neutral = decide (x.exactValue = o.unit)) :
    let e := if o.absorbing x.exactValue then .const x
      else assemble o.node (nonConstants us) x neutral
    e.isArithmetic = true ∧ e.widened = o.gather (us.map widened) := by
  intro e
  have hrest : ∀ u ∈ nonConstants us, u.isArithmetic = true :=
    fun u hu => hus u (mem_nonConstants.mp hu).1
  cases habs : o.absorbing x.exactValue with
  | true =>
    have he : e = .const x := by simp [e, habs]
    have hview : (o.view (us.map widened)).rest = [] :=
      o.view_rest_of_absorbing _ (by rw [← htotal, habs])
    rw [he, gather, outcome, hview, ← htotal]
    exact ⟨hx, rfl⟩
  | false =>
    have he : e = assemble o.node (nonConstants us) x neutral := by simp [e, habs]
    have hview : (o.view (us.map widened)).rest = (nonConstants us).map widened := by
      simp only [htotal, view] at habs ⊢
      rw [if_neg (ne_true_of_eq_false habs), nonConstants_map_widened]
    rw [he, gather, outcome, hview, ← htotal, widened_assemble, hneutral]
    refine ⟨assemble_of_forall (fun hes => ?_) hrest hx, rfl⟩
    rw [o.isArithmetic_node]
    exact allArithmetic_iff.mpr hes

/-- An absorbing constant is all there is to see. -/
theorem view_of_mem_absorbing {us : List Expr} {q : Rat} (h : .const (.rational q) ∈ us)
    (hq : o.absorbing q = true) : o.view us = ⟨[], q⟩ := by
  obtain ⟨before, after, rfl⟩ := List.append_of_mem h
  rw [List.append_cons, o.view_append, o.view_append, o.view_const, o.join_absorbing _ hq,
    o.join_constant, o.join_absorbing _ hq]

end Nary

/-- Arithmetic terms combine, up to representation to what widened ones gather to. -/
theorem widened_combineSum {us : List Expr} (hus : ∀ u ∈ us, u.isArithmetic = true) :
    ∃ e, combineSum us = .ok e ∧ e.isArithmetic = true ∧
      e.widened = sums.gather (us.map widened) := by
  obtain ⟨x, hx, hxe, htotal⟩ := sums.fold_constants_of_isArithmetic hus
  have hneutral : x.isZero = decide (x.exactValue = 0) := by
    rw [Bool.eq_iff_iff, Number.isZero_iff_of_isExact hxe, decide_eq_true_iff]
  exact ⟨_, combineSum_eq_ok_iff.mpr ⟨x, hx, rfl⟩, sums.widened_combined hus hxe htotal hneutral⟩

/-- Arithmetic factors combine, up to representation to what widened ones gather to. -/
theorem widened_combineProduct {us : List Expr} (hus : ∀ u ∈ us, u.isArithmetic = true) :
    ∃ e, combineProduct us = .ok e ∧ e.isArithmetic = true ∧
      e.widened = products.gather (us.map widened) := by
  obtain ⟨x, hx, hxe, htotal⟩ := products.fold_constants_of_isArithmetic hus
  have hneutral : x.isOne = decide (x.exactValue = 1) := by
    rw [Bool.eq_iff_iff, Number.isOne_iff_of_isExact hxe, decide_eq_true_iff]
  have hzero : x.isZero = decide (x.exactValue = 0) := by
    rw [Bool.eq_iff_iff, Number.isZero_iff_of_isExact hxe, decide_eq_true_iff]
  have hcombined := products.widened_combined hus hxe htotal hneutral
  refine ⟨_, combineProduct_eq_ok_iff.mpr ⟨x, hx, rfl⟩, ?_⟩
  rw [hzero]
  exact hcombined

/-- What is left of simplified factors is a zero among them, or all of them. -/
theorem Factors.gather_cases (rs : List Expr) :
    (∃ x, gather rs = .zero x ∧ .const x ∈ rs ∧ x.isZero = true) ∨
      gather rs = .all (rs.flatMap factorsOf) := by
  induction rs with
  | nil => exact .inr rfl
  | cons r rs ih =>
    rcases eq_zero_const_or r with ⟨x, rfl, hx⟩ | hkeep
    · exact .inl ⟨x, by rw [gather, if_pos hx], List.mem_cons_self, hx⟩
    · rw [gather_cons hkeep]
      rcases ih with ⟨x, hx, hmem, hzero⟩ | hall
      · exact .inl ⟨x, by rw [hx]; rfl, List.mem_cons_of_mem r hmem, hzero⟩
      · exact .inr (by rw [hall]; rfl)

/-- So do factors gathered up to the first zero. -/
theorem widened_combined_factors {rs : List Expr} (hrs : ∀ r ∈ rs, r.isArithmetic = true) :
    ∃ e, (Factors.gather rs).combined = .ok e ∧ e.isArithmetic = true ∧
      e.widened = products.gather ((rs.map widened).flatMap factorsOf) := by
  have hparts : (rs.map widened).flatMap factorsOf = (rs.flatMap factorsOf).map widened :=
    products.flatMap_parts_widened rs
  rcases Factors.gather_cases rs with ⟨x, hgather, hmem, hzero⟩ | hgather
  · have hx : x.isExact = true := hrs _ hmem
    have hvalue : x.exactValue = 0 := (Number.isZero_iff_of_isExact hx).mp hzero
    have hmem' : .const (.rational 0) ∈ (rs.flatMap factorsOf).map widened := by
      rw [List.mem_map]
      refine ⟨.const x, List.mem_flatMap.mpr ⟨_, hmem, List.mem_cons_self⟩, ?_⟩
      rw [widened, Number.widened, hvalue]
    have hview := products.view_of_mem_absorbing hmem' (by simp [products])
    refine ⟨.const x, by rw [hgather]; rfl, hx, ?_⟩
    rw [hparts, Nary.gather, hview, widened, Number.widened, hvalue]
    rfl
  · rw [hgather, hparts]
    exact widened_combineProduct (products.isArithmetic_flatMap_parts hrs)

end SymCalc.Expr
