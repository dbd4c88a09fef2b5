import SymCalc.Proofs.Expr.Operands

/-!
# SymCalc.Proofs.Expr.Reduced

Currying of arithmetic trees, up to the representation of their numbers.

1. `reduced` gives the curried tree with rationals for its numbers, from the
   values of the numbers alone;
2. what it leaves is `IsReduced`: signs and reciprocals cancel in pairs and change
   places there (`IsReduced.foldInv_foldNeg`), and a sum or product is what its
   operands come to (`Nary.gather_parts_of_isReduced`).

Main statement: currying an arithmetic tree comes to `reduced`
(`curryWith_reduced`).
-/

namespace SymCalc.Expr

/-! ## single nodes -/

/-- Folding an opposite and widening it can be done in either order. -/
theorem isArithmetic_foldNeg {e : Expr} (h : e.isArithmetic = true) :
    (foldNeg e).isArithmetic = true ∧ (foldNeg e).widened = foldNeg e.widened := by
  cases e with
  | const x =>
    refine ⟨(Number.isExact_neg x).trans h, ?_⟩
    rw [foldNeg, widened, widened, foldNeg, Number.widened_neg]
  | _ => exact ⟨h, rfl⟩

/-- Taking the opposite and widening it can be done in either order. -/
theorem widened_negate {e : Expr} (h : e.isArithmetic = true) :
    (negate e).isArithmetic = true ∧ (negate e).widened = negate e.widened := by
  cases e with
  | const x =>
    have hx : x.isExact = true := h
    rw [widened, negate, negate, ← (Number.narrows_widened hx).isNegative_eq]
    cases x.isNegative with
    | true => exact isArithmetic_foldNeg h
    | false => exact ⟨h, rfl⟩
  | _ => exact ⟨h, rfl⟩

/-- Taking the reciprocal and widening it can be done in either order. -/
theorem widened_invert : {e : Expr} → e.isArithmetic = true →
    (invert e).isArithmetic = true ∧ (invert e).widened = invert e.widened
  | .neg e, h => by
    obtain ⟨harith, hwidened⟩ := widened_invert (e := e) h
    obtain ⟨harith', hwidened'⟩ := widened_negate harith
    rw [invert, widened, invert, ← hwidened]
    exact ⟨harith', hwidened'⟩
  | .inv _, h | .var _, h | .const _, h | .add _, h | .mul _, h | .apply _ _, h => ⟨h, rfl⟩

/-- Folding a reciprocal and widening it can be done in either order, and fail alike. -/
theorem widened_foldInv {e : Expr} (h : e.isArithmetic = true) :
    (∀ r, foldInv e = .ok r → r.isArithmetic = true) ∧
      (foldInv e.widened).toOption = (foldInv e).toOption.map widened := by
  cases e with
  | const x =>
    have hx : x.isExact = true := h
    rw [widened, foldInv, foldInv, Number.inv_widened hx, Number.inv_of_isExact hx]
    split
    · refine ⟨fun r hr => ?_, rfl⟩
      cases hr
    · refine ⟨?_, rfl⟩
      rintro r ⟨⟩
      rfl
  | _ =>
    obtain ⟨harith, hwidened⟩ := widened_invert h
    refine ⟨?_, congrArg some hwidened.symm⟩
    rintro r ⟨⟩
    exact harith

/-- A number may be widened before or after it is made a constant. -/
theorem toOption_map_const (r : Except Error Number) :
    (r.map Expr.const).toOption.map widened = (r.toOption.map Number.widened).map Expr.const := by
  cases r <;> rfl

/-- Folding a function leaves the same up to representation for a widened argument. -/
theorem widened_foldApply [Elementary] {f : UnaryFn} {e : Expr} (hf : f.isArithmetic = true)
    (h : e.isArithmetic = true) :
    (∀ r, foldApply f e = .ok r → r.isArithmetic = true) ∧
      (foldApply f e.widened).toOption.map widened = (foldApply f e).toOption.map widened := by
  cases e with
  | const x =>
    obtain ⟨hexact, hvalue⟩ := UnaryFn.eval_widened hf h
    rw [widened, foldApply, foldApply, toOption_map_const, toOption_map_const, hvalue]
    refine ⟨fun r hr => ?_, rfl⟩
    cases hy : f.eval x with
    | error err => rw [hy] at hr; cases hr
    | ok y =>
      rw [hy] at hr
      cases hr
      exact hexact y hy
  | _ =>
    refine ⟨?_, by simp [widened, foldApply, Except.toOption, widenedAll_widenedAll]⟩
    rintro r ⟨⟩
    exact Bool.and_eq_true_iff.mpr ⟨hf, h⟩

/-- Widening the value of the function only widens the results. -/
theorem foldApply_widened [Elementary] (f : UnaryFn) (e : Expr) :
    (foldApply f.widened e).toOption.map widened = (foldApply f e).toOption.map widened := by
  cases e with
  | const x =>
    rw [foldApply, foldApply, toOption_map_const, toOption_map_const, UnaryFn.widened_eval]
  | _ => simp [widened, foldApply, Except.toOption]

/-! ## the curried tree up to representation -/

mutual

/-- The curried tree with every number as a rational, found from the values of
the numbers alone. -/
def reduced [Elementary] (args : Arguments) : Expr → Option Expr
  | .var v =>
    match args.get? v with
    | some x => some (.const x.widened)
    | none => some (.var v)
  | .const x => some (.const x.widened)
  | .add terms => (reducedAll args terms).bind fun rs => some (sums.gather (rs.flatMap addends))
  | .mul factors =>
    (reducedAll args factors).bind fun rs => some (products.gather (rs.flatMap factorsOf))
  | .neg e => (reduced args e).bind fun r => some (foldNeg r)
  | .inv e => (reduced args e).bind fun r => (foldInv r).toOption
  | .apply f e => (reduced args e).bind fun r => (foldApply f r).toOption.map widened
  | .pow _ _ | .log _ _ | .goalSeek _ _ _ => none

/-- The curried trees of a list with every number as a rational. -/
def reducedAll [Elementary] (args : Arguments) : List Expr → Option (List Expr)
  | [] => some []
  | e :: es => (reduced args e).bind fun r => (reducedAll args es).bind fun rs => some (r :: rs)

end

/-- The run ends in `good` data that is `o` when its numbers are `widen`ed, or it
fails and `o` is nothing. -/
def Finds {α : Type} (good : α → Prop) (widen : α → α) (run : Except Error α)
    (o : Option α) : Prop :=
  (∀ a, run = .ok a → good a) ∧ o = run.toOption.map widen

/-- The run ends in an arithmetic tree, that is `o` up to the representation of
numbers. -/
abbrev FindsTree : Except Error Expr → Option Expr → Prop :=
  Finds (fun e => e.isArithmetic = true) widened

/-- The run ends in arithmetic trees, that are `o` up to the representation of
numbers. -/
abbrev FindsTrees : Except Error (List Expr) → Option (List Expr) → Prop :=
  Finds (fun es => ∀ e ∈ es, e.isArithmetic = true) (List.map widened)

namespace Finds

variable {α β : Type} {good : α → Prop} {widen : α → α} {good' : β → Prop} {widen' : β → β}

/-- A good result is found. -/
theorem ok (a : α) (h : good a) : Finds good widen (.ok a) (some (widen a)) :=
  ⟨fun _ ha => Except.ok.inj ha ▸ h, rfl⟩

/-- One step after another. -/
theorem bind {run : Logged Error α} {o : Option α} {f : α → Logged Error β} {g : α → Option β}
    (h : Finds good widen run.result o)
    (hf : ∀ a, run.result = .ok a → good a → Finds good' widen' (f a).result (g (widen a))) :
    Finds good' widen' (run >>= f).result (o.bind g) := by
  obtain ⟨hgood, rfl⟩ := h
  rw [Logged.result_bind]
  cases hrun : run.result with
  | error err => exact ⟨nofun, rfl⟩
  | ok a => exact hf a hrun (hgood a hrun)

end Finds

variable {solve : GoalSolver} {args : Arguments}

mutual

/-- **Currying an arithmetic tree comes to `reduced`**, up to the representation
of numbers. -/
theorem curryWith_reduced [Elementary] (hargs : args.IsExact) : (e : Expr) → e.isArithmetic = true →
    FindsTree (curryWith solve args e).result (reduced args e)
  | .var v, _ => by
    rw [curryWith, reduced]
    cases hv : args.get? v with
    | none => exact Finds.ok (Expr.var v) rfl
    | some x => exact Finds.ok (Expr.const x) (hargs v x hv)
  | .const x, h => Finds.ok (Expr.const x) h
  | .add terms, h => by
    rw [curryWith, reduced]
    refine (curryAllWith_reduced hargs terms h).bind fun rs hrs harith => ?_
    obtain ⟨e, he, hearith, hwidened⟩ :=
      widened_combineSum (sums.isArithmetic_flatMap_parts harith)
    have hflat : (rs.map widened).flatMap addends = (rs.flatMap addends).map widened :=
      sums.flatMap_parts_widened rs
    have hcombine : combineSum (rs.flatMap addends) = .ok e := he
    rw [simplifyWith_sum_of_normal (allNormal_curryAllWith hrs), hcombine, hflat]
    exact hwidened ▸ Finds.ok e hearith
  | .mul factors, h => by
    rw [curryWith, reduced]
    refine (curryAllWith_reduced hargs factors h).bind fun rs hrs harith => ?_
    obtain ⟨e, he, hearith, hwidened⟩ := widened_combined_factors harith
    rw [simplifyWith_product_of_normal (allNormal_curryAllWith hrs), he]
    exact hwidened ▸ Finds.ok e hearith
  | .neg e, h => by
    rw [curryWith, reduced]
    refine (curryWith_reduced hargs e h).bind fun r hr harith => ?_
    obtain ⟨hneg, hwidened⟩ := isArithmetic_foldNeg harith
    rw [simplifyWith_negate_of_normal (normal_curryWith hr), ← hwidened]
    exact Finds.ok _ hneg
  | .inv e, h => by
    rw [curryWith, reduced]
    refine (curryWith_reduced hargs e h).bind fun r hr harith => ?_
    obtain ⟨hinv, hwidened⟩ := widened_foldInv harith
    rw [simplifyWith_invert_of_normal (normal_curryWith hr), hwidened]
    cases hfold : foldInv r with
    | error err => exact ⟨nofun, rfl⟩
    | ok r' => exact Finds.ok r' (hinv r' hfold)
  | .apply f e, h => by
    obtain ⟨hf, he⟩ := Bool.and_eq_true_iff.mp h
    rw [curryWith, reduced]
    refine (curryWith_reduced hargs e he).bind fun r hr harith => ?_
    obtain ⟨happly, hwidened⟩ := widened_foldApply hf harith
    rw [simplifyWith_apply_of_normal (normal_curryWith hr), hwidened]
    exact ⟨happly, rfl⟩

/-- The same for the members of a list. -/
theorem curryAllWith_reduced [Elementary] (hargs : args.IsExact) : (es : List Expr) →
    allArithmetic es = true → FindsTrees (curryAllWith solve args es).result (reducedAll args es)
  | [], _ => Finds.ok [] fun _ he => absurd he List.not_mem_nil
  | e :: es, h => by
    obtain ⟨he, hes⟩ := Bool.and_eq_true_iff.mp h
    rw [curryAllWith, reducedAll]
    refine (curryWith_reduced hargs e he).bind fun r _ hr => ?_
    refine (curryAllWith_reduced hargs es hes).bind fun rs _ hrs => ?_
    exact Finds.ok (r :: rs) (List.forall_mem_cons.mpr ⟨hr, hrs⟩)

end

/-! ## reduced trees -/

/-- A tree as reduction leaves it: normal, with rationals for its numbers. -/
structure IsReduced (e : Expr) : Prop where
  normal : Normal e
  widened : e.widened = e

namespace IsReduced

variable {e r : Expr}

/-- Rationals are reduced. -/
theorem const (q : Rat) : IsReduced (.const (.rational q)) := ⟨trivial, rfl⟩

/-- A reduced constant is a rational. -/
theorem exists_eq_const (h : IsReduced e) (hc : e.isConst = true) :
    ∃ q, e = .const (.rational q) := by
  obtain ⟨x, rfl⟩ := isConst_eq_true_iff.mp hc
  exact ⟨x.exactValue, h.widened.symm⟩

/-- What a reduced opposite is of is reduced. -/
theorem of_neg (h : IsReduced (.neg e)) : IsReduced e := ⟨h.normal.1, Expr.neg.inj h.widened⟩

/-- What a reduced reciprocal is of is reduced. -/
theorem of_inv (h : IsReduced (.inv e)) : IsReduced e := ⟨h.normal.1, Expr.inv.inj h.widened⟩

/-- The folded opposite of a reduced tree is reduced. -/
theorem foldNeg (h : IsReduced e) : IsReduced (foldNeg e) := by
  refine ⟨normal_foldNeg h.normal, ?_⟩
  cases e with
  | const x =>
    have hx : x.widened = x := Expr.const.inj h.widened
    rw [Expr.foldNeg, Expr.widened, Number.widened_neg, hx]
  | neg e => exact h.of_neg.widened
  | _ => exact congrArg Expr.neg h.widened

/-- The opposite of a reduced tree is reduced. -/
theorem negate (h : IsReduced e) (hc : e.isConst = false) : IsReduced (negate e) := by
  rw [← foldNeg_of_isConst_eq_false hc]
  exact h.foldNeg

/-- The opposite of what is no constant is none. -/
theorem isConst_negate (h : IsReduced e) (hc : e.isConst = false) :
    (Expr.negate e).isConst = false := by
  cases e with
  | const x => cases hc
  | neg e => exact h.normal.2.1
  | _ => rfl

/-- The reciprocal of a reduced tree is reduced, and no constant if the tree is none. -/
theorem invert : {e : Expr} → IsReduced e → e.isConst = false →
    IsReduced (invert e) ∧ (Expr.invert e).isConst = false
  | .inv e, h, _ => ⟨h.of_inv, h.normal.2.1⟩
  | .neg e, h, _ => by
    obtain ⟨hinvert, hc⟩ := invert h.of_neg h.normal.2.1
    exact ⟨hinvert.negate hc, hinvert.isConst_negate hc⟩
  | .var v, h, _ | .add _, h, _ | .mul _, h, _ | .apply _ _, h, _ | .pow _ _, h, _
  | .log _ _, h, _ | .goalSeek _ _ _, h, _ =>
    ⟨⟨⟨h.normal, rfl, rfl, rfl⟩, congrArg Expr.inv h.widened⟩, rfl⟩

/-- The folded reciprocal of a reduced tree is reduced. -/
theorem of_foldInv (h : IsReduced e) (hr : foldInv e = .ok r) : IsReduced r := by
  cases hc : e.isConst with
  | true =>
    obtain ⟨q, rfl⟩ := h.exists_eq_const hc
    rw [foldInv, Number.inv_of_isExact rfl] at hr
    split at hr
    · cases hr
    · cases hr
      exact .const _
  | false =>
    rw [foldInv_of_isConst_eq_false hc] at hr
    cases hr
    exact (h.invert hc).1

/-- The folded function of a reduced tree is reduced, once it is widened. -/
theorem of_foldApply [Elementary] {f : UnaryFn} (h : IsReduced e)
    (hr : (foldApply f e).toOption.map Expr.widened = some r) : IsReduced r := by
  cases hc : e.isConst with
  | true =>
    obtain ⟨q, rfl⟩ := h.exists_eq_const hc
    rw [foldApply] at hr
    cases hy : f.eval (.rational q) with
    | error err => rw [hy] at hr; cases hr
    | ok y =>
      rw [hy] at hr
      cases hr
      exact .const _
  | false =>
    rw [foldApply_of_isConst_eq_false hc] at hr
    cases hr
    exact ⟨⟨by rw [h.widened]; exact h.normal, by rw [isConst_widened, hc]⟩,
      Expr.widened_widened _⟩

/-! ### two signs, two reciprocals -/

/-- Two changes of sign cancel. -/
theorem foldNeg_foldNeg (h : IsReduced e) : Expr.foldNeg (Expr.foldNeg e) = e := by
  cases e with
  | const x =>
    obtain ⟨q, hq⟩ := h.exists_eq_const rfl
    cases hq
    simp [Expr.foldNeg]
  | neg e => exact foldNeg_of_normal h.normal
  | _ => rfl

/-- Two reciprocals cancel. -/
theorem foldInv_foldInv (h : IsReduced e) (hr : foldInv e = .ok r) : foldInv r = .ok e := by
  cases e with
  | const x =>
    obtain ⟨q, hq⟩ := h.exists_eq_const rfl
    cases hq
    rw [foldInv, Number.inv_of_isExact rfl] at hr
    split at hr
    · cases hr
    · rename_i hne
      have hne' : (Number.rational q⁻¹).exactValue ≠ 0 := inv_ne_zero hne
      cases hr
      change (Number.rational q⁻¹).inv.map Expr.const = _
      rw [Number.inv_of_isExact rfl, if_neg hne']
      simp [Except.map, Number.exactValue]
  | inv e =>
    cases hr
    exact foldInv_of_normal h.normal
  | neg e =>
    cases hr
    cases e with
    | const x => cases h.normal.2.1
    | neg e => cases h.normal.2.2
    | inv e =>
      -- the reciprocal below is taken away, and put back
      have hneg : Expr.negate e = .neg e := negate_of_normal ⟨h.of_neg.of_inv.normal,
        h.normal.1.2.1, h.normal.1.2.2.2⟩
      have hinv : Expr.invert e = .inv e := invert_of_normal h.normal.1
      change foldInv (Expr.negate e) = _
      rw [hneg]
      change Except.ok (Expr.negate (Expr.invert e)) = _
      rw [hinv]
      rfl
    | _ => rfl
  | _ => cases hr; rfl

/-- A sign may be changed before or after taking the reciprocal. -/
theorem foldInv_foldNeg (h : IsReduced e) :
    foldInv (Expr.foldNeg e) = (foldInv e).map Expr.foldNeg := by
  cases e with
  | const x =>
    obtain ⟨q, hq⟩ := h.exists_eq_const rfl
    cases hq
    simp only [Expr.foldNeg, foldInv, Number.neg_rational]
    rw [Number.inv_of_isExact rfl, Number.inv_of_isExact rfl]
    by_cases hq : q = 0
    · simp [Number.exactValue, hq, Except.map]
    · simp [Number.exactValue, hq, Except.map, Expr.foldNeg, inv_neg]
  | neg e =>
    obtain ⟨hinvert, hc⟩ := h.of_neg.invert h.normal.2.1
    have hcancel := hinvert.foldNeg_foldNeg
    rw [foldNeg_of_isConst_eq_false hc] at hcancel
    change foldInv e = .ok (Expr.foldNeg (Expr.negate (Expr.invert e)))
    rw [hcancel, foldInv_of_isConst_eq_false h.normal.2.1]
  | inv e =>
    change Except.ok (Expr.negate e) = .ok (Expr.foldNeg e)
    rw [foldNeg_of_isConst_eq_false h.normal.2.1]
  | _ => rfl

end IsReduced

/-! ## reduced sums and products -/

namespace Nary

variable (o : Nary)

/-- A reduced tree taken apart leaves reduced operands, none of them of the same kind. -/
theorem isReduced_parts {e : Expr} (h : IsReduced e) :
    ∀ u ∈ o.parts e, IsReduced u ∧ o.sameKind u = false := by
  cases hkind : o.sameKind e with
  | false =>
    rw [o.parts_of_flat hkind]
    simpa [hkind] using h
  | true =>
    obtain ⟨es, rfl⟩ := o.cases_of_sameKind hkind
    obtain ⟨hnormal, hoperands⟩ := o.normal_node.mp h.normal
    have hwidened := congrArg o.parts h.widened
    rw [o.widened_node, o.parts_node, o.parts_node] at hwidened
    rw [o.parts_node]
    intro u hu
    have hu' : u.widened = u := List.map_eq_map_iff.mp (hwidened.trans es.map_id.symm) u hu
    exact ⟨⟨allNormal_iff.mp hnormal u hu, hu'⟩, hoperands.flat u hu⟩

/-- Reduced trees taken apart leave reduced operands, none of them of the same kind. -/
theorem isReduced_flatMap_parts {es : List Expr} (h : ∀ e ∈ es, IsReduced e) :
    ∀ u ∈ es.flatMap o.parts, IsReduced u ∧ o.sameKind u = false := by
  intro u hu
  obtain ⟨e, he, hu⟩ := List.mem_flatMap.mp hu
  exact o.isReduced_parts (h e he) u hu

/-- Reduced operands that cannot be combined make a reduced node. -/
theorem isReduced_node {us : List Expr} (hus : ∀ u ∈ us, IsReduced u)
    (hoperands : NormalOperands o.sameKind o.dropped us) : IsReduced (o.node us) where
  normal := o.normal_node.mpr ⟨allNormal_iff.mpr fun u hu => (hus u hu).normal, hoperands⟩
  widened := by
    rw [o.widened_node]
    have hmap : us.map widened = us.map id :=
      List.map_congr_left fun u hu => (hus u hu).widened
    rw [hmap, List.map_id]

/-- What is put together from reduced operands is reduced. -/
theorem isReduced_gather {us : List Expr} (hus : ∀ u ∈ us, IsReduced u ∧ o.sameKind u = false) :
    IsReduced (o.gather us) := by
  have hmem : ∀ u ∈ (o.view us).rest, IsReduced u ∧ o.sameKind u = false :=
    fun u hu => hus u (o.mem_of_mem_view_rest hu)
  have hconst := o.isConst_view_rest us
  rcases o.outcome_cases (o.view_rest_of_absorbing us) with
    ⟨-, h⟩ | ⟨u, hrest, -, h⟩ | ⟨hlen, -, h⟩ | ⟨hlen, hunit, habs, h⟩ <;> rw [gather, h]
  · exact .const _
  · exact (hmem u (by simp [hrest])).1
  · refine o.isReduced_node (fun u hu => (hmem u hu).1) ⟨hlen, fun u hu => (hmem u hu).2, ?_⟩
    exact ⟨_, hconst, .inl rfl⟩
  · have hmem' : ∀ u ∈ (o.view us).rest ++ [.const (.rational (o.view us).total)],
        IsReduced u ∧ o.sameKind u = false := by
      intro u hu
      rcases List.mem_append.mp hu with hu | hu
      · exact hmem u hu
      · rw [List.mem_singleton.mp hu]
        exact ⟨.const _, o.sameKind_const _⟩
    have hkept : o.dropped (.rational (o.view us).total) = false := by
      rw [o.dropped_eq rfl]
      simp [Number.exactValue, habs, hunit]
    refine o.isReduced_node (fun u hu => (hmem' u hu).1)
      ⟨by simpa using hlen, fun u hu => (hmem' u hu).2, ?_⟩
    exact ⟨_, hconst, .inr ⟨_, rfl, rfl, hkept⟩⟩

/-- A reduced tree is what its parts come to. -/
theorem gather_parts_of_isReduced {e : Expr} (h : IsReduced e) : o.gather (o.parts e) = e := by
  cases hkind : o.sameKind e with
  | false =>
    rw [o.parts_of_flat hkind]
    cases hc : e.isConst with
    | true =>
      obtain ⟨q, rfl⟩ := h.exists_eq_const hc
      rw [gather, o.view_const]
      rfl
    | false =>
      rw [gather, o.view_of_isConst_eq_false (by simpa using hc)]
      simp [outcome, assemble]
  | true =>
    obtain ⟨es, rfl⟩ := o.cases_of_sameKind hkind
    obtain ⟨-, hoperands⟩ := o.normal_node.mp h.normal
    rw [o.parts_node, gather, view]
    rcases hoperands.assemble_eq o.node with ⟨hnil, hall⟩ | ⟨x, hx, -, hdropped, hall⟩
    · rw [hnil]
      simpa [outcome, Number.total, o.absorbing_unit] using hall _
    · have hmem : .const x ∈ es := by
        rw [← mem_constants, hx]
        exact List.mem_cons_self
      obtain ⟨q, hq⟩ := (o.isReduced_parts h _ (by rwa [o.parts_node])).1.exists_eq_const rfl
      cases hq
      rw [o.dropped_eq rfl, Bool.or_eq_false_iff, decide_eq_false_iff_not] at hdropped
      simp only [Number.exactValue] at hdropped
      rw [hx, o.exact.total_singleton]
      simpa [outcome, Number.exactValue, hdropped] using hall

end Nary

/-! ## values -/

/-- Constants come to the constant with their total. -/
theorem Nary.gather_constants (o : Nary) (xs : List Number) :
    o.gather ((xs.map fun x => .const x.widened).flatMap o.parts) =
      .const (.rational (Number.total o.op o.unit xs)) := by
  have hview : ∀ xs : List Number, o.view ((xs.map fun x => .const x.widened).flatMap o.parts) =
      ⟨[], Number.total o.op o.unit xs⟩ := by
    intro xs
    induction xs with
    | nil => simp [view, constants, nonConstants, Number.total]
    | cons x xs ih =>
      rw [List.map_cons, List.flatMap_cons, o.view_append, ih, o.parts_of_flat (o.sameKind_const _),
        Number.widened, o.view_const]
      simp [join, Number.total]
  rw [gather, hview]
  rfl

/-- Exact constants come to the constant they fold to. -/
theorem Nary.gather_of_fold (o : Nary) {xs : List Number} {x : Number}
    (hxs : ∀ y ∈ xs, y.isExact = true) (h : o.fold xs = .ok x) :
    x.isExact = true ∧
      o.gather ((xs.map fun y => .const y.widened).flatMap o.parts) = .const x.widened := by
  obtain ⟨s, hs, hexact, hvalue, -⟩ := o.exact.fold_of_isExact hxs
  cases hs.symm.trans h
  exact ⟨hexact, by rw [o.gather_constants, Number.widened, hvalue]⟩

variable [Elementary]

mutual

/-- An arithmetic tree with a value reduces to the value. -/
theorem reduced_of_hasValue (hargs : args.IsExact) : (e : Expr) → e.isArithmetic = true →
    {x : Number} → HasValue solve args e x →
    x.isExact = true ∧ reduced args e = some (.const x.widened)
  | .var v, _, x, h => by
    have hv := hasValue_var.mp h
    exact ⟨hargs v x hv, by rw [reduced, hv]⟩
  | .const _, he, _, h => by
    cases hasValue_const.mp h
    exact ⟨he, rfl⟩
  | .add terms, he, _, h => by
    obtain ⟨xs, hxs, hsum⟩ := hasValue_add.mp h
    obtain ⟨hexact, hreduced⟩ := reducedAll_of_hasValues hargs terms he hxs
    obtain ⟨hfold, hgather⟩ := sums.gather_of_fold hexact hsum
    exact ⟨hfold, by rw [reduced, hreduced]; exact congrArg some hgather⟩
  | .mul factors, he, _, h => by
    obtain ⟨xs, hxs, hproduct⟩ := hasValue_mul.mp h
    obtain ⟨hexact, hreduced⟩ := reducedAll_of_hasValues hargs factors he hxs
    obtain ⟨hfold, hgather⟩ := products.gather_of_fold hexact hproduct
    exact ⟨hfold, by rw [reduced, hreduced]; exact congrArg some hgather⟩
  | .neg e, he, _, h => by
    obtain ⟨y, hy, rfl⟩ := hasValue_neg.mp h
    obtain ⟨hexact, hreduced⟩ := reduced_of_hasValue hargs e he hy
    refine ⟨(Number.isExact_neg y).trans hexact, ?_⟩
    rw [reduced, hreduced, Number.widened_neg]
    rfl
  | .inv e, he, x, h => by
    obtain ⟨y, hy, hinv⟩ := hasValue_inv.mp h
    obtain ⟨hexact, hreduced⟩ := reduced_of_hasValue hargs e he hy
    obtain ⟨hgood, hwidened⟩ := widened_foldInv (e := .const y) hexact
    rw [foldInv, hinv] at hgood hwidened
    exact ⟨hgood _ rfl, by rw [reduced, hreduced]; exact hwidened⟩
  | .apply f e, he, x, h => by
    obtain ⟨hf, he⟩ := Bool.and_eq_true_iff.mp he
    obtain ⟨y, hy, hvalue⟩ := hasValue_apply.mp h
    obtain ⟨hexact, hreduced⟩ := reduced_of_hasValue hargs e he hy
    obtain ⟨hgood, hwidened⟩ := widened_foldApply (e := .const y) hf hexact
    rw [foldApply, hvalue] at hgood hwidened
    exact ⟨hgood _ rfl, by rw [reduced, hreduced]; exact hwidened⟩

/-- Arithmetic trees with values reduce to the values. -/
theorem reducedAll_of_hasValues (hargs : args.IsExact) : (es : List Expr) →
    allArithmetic es = true → {xs : List Number} → List.Forall₂ (HasValue solve args) es xs →
    (∀ x ∈ xs, x.isExact = true) ∧
      reducedAll args es = some (xs.map fun x => .const x.widened)
  | [], _, _, .nil => ⟨nofun, rfl⟩
  | e :: es, h, _, .cons hx hxs => by
    obtain ⟨he, hes⟩ := Bool.and_eq_true_iff.mp h
    obtain ⟨hexact, hreduced⟩ := reduced_of_hasValue hargs e he hx
    obtain ⟨hexacts, hreduceds⟩ := reducedAll_of_hasValues hargs es hes hxs
    refine ⟨List.forall_mem_cons.mpr ⟨hexact, hexacts⟩, ?_⟩
    rw [reducedAll, hreduced, hreduceds]
    rfl

end

end SymCalc.Expr
