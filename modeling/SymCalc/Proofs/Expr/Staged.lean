import SymCalc.Proofs.Expr.Reduced
import SymCalc.Real256.Series

/-!
# SymCalc.Proofs.Expr.Staged

Currying in stages.

1. Reduction commutes with putting a node together: to reduce what operands came
   to is to put together what they reduce to (`Nary.reduced_gather_flatMap`,
   `reduced_foldNeg`, `exists_foldInv_reduced`, `exists_foldApply_reduced`);
2. so reduction under two sets of bindings is reduction under the first and then
   under the second (`reduced_append`).

Main statement: `curry_append`, for arithmetic trees.  A real number would show
the order of the stages (`curry_append_real`).
-/

namespace SymCalc

/-- The first bindings come before those appended. -/
theorem Arguments.get?_append (args more : Arguments) (v : Variable) :
    (args.append more).get? v = (args.get? v).or (more.get? v) :=
  List.lookup_append

theorem Arguments.IsExact.append {args more : Arguments} (hargs : args.IsExact)
    (hmore : more.IsExact) : (args.append more).IsExact := by
  intro v x hx
  rw [get?_append] at hx
  cases hv : args.get? v with
  | none => exact hmore v x (by simpa [hv] using hx)
  | some y => exact hargs v x (by simpa [hv] using hx)

namespace Expr

section reduction

variable [Elementary] {args : Arguments}

/-- The trees reduce one by one. -/
abbrev AllReduced (args : Arguments) : List Expr → List Expr → Prop :=
  List.Forall₂ fun e r => reduced args e = some r

/-- A list reduces tree by tree. -/
theorem reducedAll_eq_some_iff {es rs : List Expr} :
    reducedAll args es = some rs ↔ AllReduced args es rs := by
  induction es generalizing rs with
  | nil => simp [reducedAll, AllReduced, eq_comm]
  | cons e es ih =>
    simp only [reducedAll, Option.bind_eq_some_iff, ih, Option.some.injEq]
    constructor
    · rintro ⟨r, hr, rs, hrs, rfl⟩
      exact .cons hr hrs
    · rintro (_ | ⟨hr, hrs⟩)
      exact ⟨_, hr, _, hrs, rfl⟩

mutual

/-- What is left after reduction is reduced. -/
theorem isReduced_of_reduced : (e : Expr) → {r : Expr} → reduced args e = some r → IsReduced r
  | .var v, r, h => by
    rw [reduced] at h
    cases hv : args.get? v <;> rw [hv] at h <;> cases h
    · exact ⟨trivial, rfl⟩
    · exact .const _
  | .const x, _, h => by
    cases h
    exact .const _
  | .add terms, _, h => by
    obtain ⟨rs, hrs, h⟩ := Option.bind_eq_some_iff.mp h
    cases h
    exact sums.isReduced_gather (sums.isReduced_flatMap_parts (isReduced_of_reducedAll terms hrs))
  | .mul factors, _, h => by
    obtain ⟨rs, hrs, h⟩ := Option.bind_eq_some_iff.mp h
    cases h
    exact products.isReduced_gather
      (products.isReduced_flatMap_parts (isReduced_of_reducedAll factors hrs))
  | .neg e, _, h => by
    obtain ⟨r, hr, h⟩ := Option.bind_eq_some_iff.mp h
    cases h
    exact (isReduced_of_reduced e hr).foldNeg
  | .inv e, r', h => by
    obtain ⟨r, hr, h⟩ := Option.bind_eq_some_iff.mp h
    cases hfold : foldInv r with
    | error err => rw [hfold] at h; cases h
    | ok s =>
      rw [hfold] at h
      cases h
      exact (isReduced_of_reduced e hr).of_foldInv hfold
  | .apply f e, _, h => by
    obtain ⟨r, hr, h⟩ := Option.bind_eq_some_iff.mp h
    exact (isReduced_of_reduced e hr).of_foldApply h

/-- The trees a list reduces to are reduced. -/
theorem isReduced_of_reducedAll : (es : List Expr) → {rs : List Expr} →
    reducedAll args es = some rs → ∀ r ∈ rs, IsReduced r
  | [], _, h => by
    cases h
    exact fun r hr => absurd hr List.not_mem_nil
  | e :: es, _, h => by
    obtain ⟨r, hr, h⟩ := Option.bind_eq_some_iff.mp h
    obtain ⟨rs, hrs, h⟩ := Option.bind_eq_some_iff.mp h
    cases h
    exact List.forall_mem_cons.mpr
      ⟨isReduced_of_reduced e hr, isReduced_of_reducedAll es hrs⟩

end

mutual

/-- Reduction looks at the values of numbers alone. -/
theorem reduced_widened : (e : Expr) → reduced args e.widened = reduced args e
  | .var _ => rfl
  | .const _ => rfl
  | .add terms => by simp only [widened, reduced, reducedAll_widenedAll terms]
  | .mul factors => by simp only [widened, reduced, reducedAll_widenedAll factors]
  | .neg e => by simp only [widened, reduced, reduced_widened e]
  | .inv e => by simp only [widened, reduced, reduced_widened e]
  | .apply f e => by
    simp only [widened, reduced, reduced_widened e, foldApply_widened]
  | .pow _ _ | .log _ _ | .goalSeek _ _ _ => rfl

/-- The same for lists. -/
theorem reducedAll_widenedAll : (es : List Expr) →
    reducedAll args (widenedAll es) = reducedAll args es
  | [] => rfl
  | e :: es => by
    simp only [widenedAll, reducedAll, reduced_widened e, reducedAll_widenedAll es]

end

/-! ## reduction and putting together -/

namespace Nary

variable (o : Nary)

/-- The parts of a reduced tree reduce, and what they come to is seen in what the
tree reduces to. -/
theorem exists_allReduced_parts
    (hnode : ∀ es, reduced args (o.node es) =
      (reducedAll args es).bind fun rs => some (o.gather (rs.flatMap o.parts)))
    {r t : Expr} (ht : reduced args r = some t) :
    ∃ qs, AllReduced args (o.parts r) qs ∧
      o.view (qs.flatMap o.parts) = o.view (o.parts t) := by
  cases hkind : o.sameKind r with
  | false =>
    rw [o.parts_of_flat hkind]
    exact ⟨[t], .cons ht .nil, by simp⟩
  | true =>
    obtain ⟨es, rfl⟩ := o.cases_of_sameKind hkind
    rw [hnode] at ht
    obtain ⟨qs, hqs, ht⟩ := Option.bind_eq_some_iff.mp ht
    cases ht
    have hreduced := isReduced_of_reducedAll es hqs
    rw [o.parts_node]
    refine ⟨qs, reducedAll_eq_some_iff.mp hqs, ?_⟩
    rw [o.view_parts_gather fun u hu => (o.isReduced_flatMap_parts hreduced u hu).2]

/-- Reduced constants stay, and the other operands reduce by themselves. -/
theorem exists_allReduced_nonConstants {us qs : List Expr} (hus : ∀ u ∈ us, IsReduced u)
    (h : AllReduced args us qs) :
    ∃ ns, AllReduced args (nonConstants us) ns ∧
      o.view (qs.flatMap o.parts) =
        o.join (o.view (ns.flatMap o.parts)) ⟨[], Number.total o.op o.unit (constants us)⟩ := by
  induction h with
  | nil => exact ⟨[], .nil, by simp [constants, Number.total, join, o.op_unit, o.absorbing_unit]⟩
  | @cons u q us qs hu _ ih =>
    rw [List.forall_mem_cons] at hus
    obtain ⟨ns, hns, hview⟩ := ih hus.2
    rw [List.flatMap_cons, o.view_append, hview]
    cases hc : u.isConst with
    | true =>
      obtain ⟨c, rfl⟩ := hus.1.exists_eq_const hc
      cases hu
      refine ⟨ns, hns, ?_⟩
      have htotal : o.join ⟨[], Number.total o.op o.unit (constants us)⟩ ⟨[], c⟩ =
          ⟨[], Number.total o.op o.unit (.rational c :: constants us)⟩ := by
        simp [join, Number.total, Number.exactValue, o.exact.comm c]
      rw [o.parts_of_flat (o.sameKind_const _), Number.widened_rational, o.view_const,
        o.join_constant, o.join_assoc, htotal, constants]
    | false =>
      have hcons : nonConstants (u :: us) = u :: nonConstants us := by
        cases u <;> first | rfl | cases hc
      have hconst : constants (u :: us) = constants us := by
        cases u <;> first | rfl | cases hc
      rw [hcons, hconst]
      refine ⟨q :: ns, .cons hu hns, ?_⟩
      rw [List.flatMap_cons, o.view_append, o.join_assoc]

/-- What reduced operands reduce to, seen from what matters of them. -/
theorem exists_allReduced_rest {us qs : List Expr} (hus : ∀ u ∈ us, IsReduced u)
    (h : AllReduced args us qs) :
    ∃ ns, AllReduced args (o.view us).rest ns ∧
      o.view (qs.flatMap o.parts) =
        o.join (o.view (ns.flatMap o.parts)) ⟨[], (o.view us).total⟩ := by
  obtain ⟨ns, hns, hview⟩ := o.exists_allReduced_nonConstants hus h
  cases habs : o.absorbing (o.view us).total with
  | true =>
    rw [o.view_rest_of_absorbing us habs]
    refine ⟨[], .nil, ?_⟩
    rw [hview]
    exact (o.join_absorbing _ habs).trans (o.join_absorbing _ habs).symm
  | false =>
    have hrest : (o.view us).rest = nonConstants us := by
      simp only [view] at habs ⊢
      rw [if_neg (ne_true_of_eq_false habs)]
    rw [hrest]
    exact ⟨ns, hns, hview⟩

/-- To reduce what reduced operands come to is to put together what they reduce
to. -/
theorem reduced_gather
    (hnode : ∀ es, reduced args (o.node es) =
      (reducedAll args es).bind fun rs => some (o.gather (rs.flatMap o.parts)))
    {us qs : List Expr} (hus : ∀ u ∈ us, IsReduced u) (h : AllReduced args us qs) :
    reduced args (o.gather us) = some (o.gather (qs.flatMap o.parts)) := by
  obtain ⟨ns, hns, hview⟩ := o.exists_allReduced_rest hus h
  have hnode' : ∀ {es rs}, AllReduced args es rs →
      reduced args (o.node es) = some (o.gather (rs.flatMap o.parts)) := by
    intro es rs hrs
    rw [hnode, reducedAll_eq_some_iff.mpr hrs]
    rfl
  rcases o.outcome_cases (o.view_rest_of_absorbing us) with
    ⟨hrest, hout⟩ | ⟨u, hrest, hunit, hout⟩ | ⟨-, hunit, hout⟩ | ⟨-, -, -, hout⟩
  · rw [hrest] at hns
    cases hns
    have hjoin : o.view (qs.flatMap o.parts) = ⟨[], (o.view us).total⟩ := by
      simp [hview, join, o.exact.unit_op]
    rw [gather, gather, hjoin, hout]
    rfl
  · rw [hrest] at hns
    obtain _ | ⟨hq, _ | _⟩ := hns
    rename_i q
    have hjoin : o.view (qs.flatMap o.parts) = o.view (o.parts q) := by
      rw [hview, hunit, o.join_unit, List.flatMap_singleton]
    rw [gather, gather, hjoin, hout, hq]
    exact congrArg some (o.gather_parts_of_isReduced (isReduced_of_reduced u hq)).symm
  · rw [gather, gather, hview, hout, hnode' hns, hunit, o.join_unit]
    rfl
  · have hlast : reduced args (.const (.rational (o.view us).total)) =
        some (.const (.rational (o.view us).total)) := rfl
    rw [gather, gather, hview, hout, hnode' (List.rel_append hns (.cons hlast .nil)), gather,
      List.flatMap_append, o.view_append, List.flatMap_singleton,
      o.parts_of_flat (o.sameKind_const _), o.view_const]

/-- **Reduction commutes with putting a node together.** -/
theorem reduced_gather_flatMap
    (hnode : ∀ es, reduced args (o.node es) =
      (reducedAll args es).bind fun rs => some (o.gather (rs.flatMap o.parts)))
    {rs ts : List Expr} (hrs : ∀ r ∈ rs, IsReduced r) (h : AllReduced args rs ts) :
    reduced args (o.gather (rs.flatMap o.parts)) = some (o.gather (ts.flatMap o.parts)) := by
  have hparts : ∃ qs, AllReduced args (rs.flatMap o.parts) qs ∧
      o.view (qs.flatMap o.parts) = o.view (ts.flatMap o.parts) := by
    clear hrs
    induction h with
    | nil => exact ⟨[], .nil, rfl⟩
    | @cons r t rs ts hr _ ih =>
      obtain ⟨qs₁, h₁, hview₁⟩ := o.exists_allReduced_parts hnode hr
      obtain ⟨qs₂, h₂, hview₂⟩ := ih
      refine ⟨qs₁ ++ qs₂, List.rel_append h₁ h₂, ?_⟩
      rw [List.flatMap_append, o.view_append, hview₁, hview₂, List.flatMap_cons, o.view_append]
  obtain ⟨qs, hqs, hview⟩ := hparts
  rw [o.reduced_gather hnode (fun u hu => (o.isReduced_flatMap_parts hrs u hu).1) hqs, gather,
    gather, hview]

end Nary

/-- A folded opposite of a reduced tree reduces further as that tree does. -/
theorem reduced_foldNeg {r t : Expr} (hr : IsReduced r) (h : reduced args r = some t) :
    reduced args (foldNeg r) = some (foldNeg t) := by
  cases r with
  | const x =>
    obtain ⟨q, hq⟩ := hr.exists_eq_const rfl
    cases hq
    cases h
    rfl
  | neg e =>
    obtain ⟨s, hs, h⟩ := Option.bind_eq_some_iff.mp h
    cases h
    rw [(isReduced_of_reduced e hs).foldNeg_foldNeg]
    exact hs
  | _ =>
    change (reduced args _).bind _ = _
    rw [h]
    rfl

/-- A reciprocal may be taken before reduction, where it can be taken after. -/
theorem exists_foldInv_reduced : {r t s : Expr} → IsReduced r → reduced args r = some t →
    foldInv t = .ok s → ∃ r', foldInv r = .ok r' ∧ reduced args r' = some s
  | .const x, t, s, hr, h, hs => by
    obtain ⟨q, hq⟩ := hr.exists_eq_const rfl
    cases hq
    cases h
    refine ⟨s, hs, ?_⟩
    rw [foldInv, Number.inv_of_isExact rfl] at hs
    split at hs <;> cases hs
    rfl
  | .inv e, t, s, hr, h, hs => by
    obtain ⟨u, hu, h⟩ := Option.bind_eq_some_iff.mp h
    refine ⟨e, rfl, ?_⟩
    cases hfold : foldInv u with
    | error err => rw [hfold] at h; cases h
    | ok t' =>
      rw [hfold] at h
      cases h
      cases ((isReduced_of_reduced e hu).foldInv_foldInv hfold).symm.trans hs
      exact hu
  | .neg e, t, s, hr, h, hs => by
    obtain ⟨u, hu, h⟩ := Option.bind_eq_some_iff.mp h
    cases h
    rw [(isReduced_of_reduced e hu).foldInv_foldNeg] at hs
    cases hfold : foldInv u with
    | error err => rw [hfold] at hs; cases hs
    | ok v =>
      rw [hfold] at hs
      cases hs
      obtain ⟨e', he', hv⟩ := exists_foldInv_reduced hr.of_neg hu hfold
      rw [foldInv_of_isConst_eq_false hr.normal.2.1] at he'
      cases he'
      obtain ⟨hinvert, hc⟩ := hr.of_neg.invert hr.normal.2.1
      refine ⟨foldNeg (invert e), ?_, reduced_foldNeg hinvert hv⟩
      rw [foldNeg_of_isConst_eq_false hc]
      rfl
  | .var v, t, s, hr, h, hs => by
    refine ⟨.inv (.var v), rfl, ?_⟩
    rw [reduced, h, Option.bind_some, hs]
    rfl
  | .add _, t, s, hr, h, hs | .mul _, t, s, hr, h, hs | .apply _ _, t, s, hr, h, hs => by
    refine ⟨.inv _, rfl, ?_⟩
    rw [reduced, h, Option.bind_some, hs]
    rfl

/-- A function may be applied before reduction, where it can be applied after. -/
theorem exists_foldApply_reduced {f : UnaryFn} {r t s : Expr} (hr : IsReduced r)
    (h : reduced args r = some t) (hs : (foldApply f t).toOption.map widened = some s) :
    ∃ r', (foldApply f r).toOption.map widened = some r' ∧ reduced args r' = some s := by
  cases hc : r.isConst with
  | true =>
    obtain ⟨q, rfl⟩ := hr.exists_eq_const hc
    cases h
    refine ⟨s, hs, ?_⟩
    change (foldApply f (.const (.rational q))).toOption.map widened = some s at hs
    rw [foldApply, toOption_map_const] at hs
    obtain ⟨y, hy, rfl⟩ := Option.map_eq_some_iff.mp hs
    obtain ⟨x, -, rfl⟩ := Option.map_eq_some_iff.mp hy
    rfl
  | false =>
    rw [foldApply_of_isConst_eq_false hc]
    refine ⟨_, rfl, ?_⟩
    rw [reduced_widened, reduced, h]
    exact hs

/-! ## two stages -/

mutual

/-- **Reduction in two stages.**  What reduces under two sets of bindings at once
reduces under the first, and what is left then under the second, to the same
tree. -/
theorem reduced_append {more : Arguments} : (e : Expr) → {t : Expr} →
    reduced (args.append more) e = some t →
    ∃ r, reduced args e = some r ∧ reduced more r = some t
  | .var v, t, h => by
    rw [reduced, Arguments.get?_append] at h
    rw [reduced]
    cases hv : args.get? v with
    | some x =>
      rw [hv] at h
      exact ⟨_, rfl, h⟩
    | none =>
      rw [hv] at h
      exact ⟨.var v, rfl, h⟩
  | .const x, t, h => ⟨_, rfl, h⟩
  | .add terms, t, h => by
    obtain ⟨ts, hts, h⟩ := Option.bind_eq_some_iff.mp h
    cases h
    obtain ⟨rs, hrs, hmore⟩ := reducedAll_append terms hts
    refine ⟨_, by rw [reduced, hrs]; rfl, ?_⟩
    exact sums.reduced_gather_flatMap (fun _ => rfl) (isReduced_of_reducedAll terms hrs) hmore
  | .mul factors, t, h => by
    obtain ⟨ts, hts, h⟩ := Option.bind_eq_some_iff.mp h
    cases h
    obtain ⟨rs, hrs, hmore⟩ := reducedAll_append factors hts
    refine ⟨_, by rw [reduced, hrs]; rfl, ?_⟩
    exact products.reduced_gather_flatMap (fun _ => rfl) (isReduced_of_reducedAll factors hrs)
      hmore
  | .neg e, t, h => by
    obtain ⟨u, hu, h⟩ := Option.bind_eq_some_iff.mp h
    cases h
    obtain ⟨r, hr, hmore⟩ := reduced_append e hu
    refine ⟨_, by rw [reduced, hr]; rfl, ?_⟩
    exact reduced_foldNeg (isReduced_of_reduced e hr) hmore
  | .inv e, t, h => by
    obtain ⟨u, hu, h⟩ := Option.bind_eq_some_iff.mp h
    obtain ⟨r, hr, hmore⟩ := reduced_append e hu
    cases hfold : foldInv u with
    | error err => rw [hfold] at h; cases h
    | ok s =>
      rw [hfold] at h
      cases h
      obtain ⟨r', hr', hmore'⟩ :=
        exists_foldInv_reduced (isReduced_of_reduced e hr) hmore hfold
      exact ⟨r', by rw [reduced, hr, Option.bind_some, hr']; rfl, hmore'⟩
  | .apply f e, t, h => by
    obtain ⟨u, hu, h⟩ := Option.bind_eq_some_iff.mp h
    obtain ⟨r, hr, hmore⟩ := reduced_append e hu
    obtain ⟨r', hr', hmore'⟩ :=
      exists_foldApply_reduced (isReduced_of_reduced e hr) hmore h
    exact ⟨r', by rw [reduced, hr, Option.bind_some, hr'], hmore'⟩

/-- The same for lists. -/
theorem reducedAll_append {more : Arguments} : (es : List Expr) → {ts : List Expr} →
    reducedAll (args.append more) es = some ts →
    ∃ rs, reducedAll args es = some rs ∧ AllReduced more rs ts
  | [], _, h => by
    cases h
    exact ⟨[], rfl, .nil⟩
  | e :: es, _, h => by
    obtain ⟨t, ht, h⟩ := Option.bind_eq_some_iff.mp h
    obtain ⟨ts, hts, h⟩ := Option.bind_eq_some_iff.mp h
    cases h
    obtain ⟨r, hr, hmore⟩ := reduced_append e ht
    obtain ⟨rs, hrs, hmores⟩ := reducedAll_append es hts
    exact ⟨r :: rs, by rw [reducedAll, hr, hrs]; rfl, .cons hmore hmores⟩

end

end reduction

/-! ## curried in stages -/

section catalogue

variable [Elementary] (catalogue : Catalogue) {e r : Expr} {args more : Arguments}

/-- To curry an arithmetic tree is to reduce it, up to representation. -/
theorem curry_reduced (hargs : args.IsExact) (he : e.isArithmetic = true) :
    FindsTree (e.curry catalogue args).result (reduced args e) :=
  curryWith_reduced hargs e he

/-- **Currying in stages is currying at once.**  Let an arithmetic tree be curried
under the bindings of `args` and `more` together, all exact.  Then it is curried
under `args`, what is left is curried under `more`, and both trees are equal. -/
theorem curry_append (he : e.isArithmetic = true) (hargs : args.IsExact) (hmore : more.IsExact)
    (h : (e.curry catalogue (args.append more)).result = .ok r) :
    ∃ e₁ r', (e.curry catalogue args).result = .ok e₁ ∧
      (e₁.curry catalogue more).result = .ok r' ∧ (r' == r) = true := by
  obtain ⟨hr, hreduced⟩ := curry_reduced catalogue (hargs.append hmore) he
  rw [h] at hreduced
  obtain ⟨e', he', hmore'⟩ := reduced_append e hreduced
  obtain ⟨harith, hfirst⟩ := curry_reduced catalogue hargs he
  cases h₁ : (e.curry catalogue args).result with
  | error err => rw [he', h₁] at hfirst; cases hfirst
  | ok e₁ =>
    rw [he', h₁] at hfirst
    cases hfirst
    obtain ⟨harith', hsecond⟩ := curry_reduced catalogue hmore (harith e₁ h₁)
    rw [reduced_widened] at hmore'
    cases h₂ : (e₁.curry catalogue more).result with
    | error err => rw [hmore', h₂] at hsecond; cases hsecond
    | ok r' =>
      rw [hmore', h₂] at hsecond
      have hwidened : r'.widened = r.widened := (Option.some.inj hsecond).symm
      exact ⟨e₁, r', rfl, h₂, beq_of_widened_eq (harith' r' h₂) (hr r h) hwidened⟩

end catalogue

/-- With `a` bound first, the two reciprocals cancel before `b` gets its value: an
integer is left in place of a rational. -/
theorem curry_append_reciprocals :
    let e := Expr.add [.inv (.inv (ofName "b")), ofName "x", ofName "a"]
    let args := Arguments.single ⟨"a"⟩ (.integer 1)
    let more := Arguments.single ⟨"b"⟩ (.integer 2)
    (e.curry .empty (args.append more)).result =
        .ok (.add [ofName "x", .const (.rational 3)]) ∧
      ∃ e₁ r', (e.curry .empty args).result = .ok e₁ ∧ (e₁.curry .empty more).result = .ok r' ∧
        (r' == .add [ofName "x", .const (.rational 3)]) = true := by
  intro e args more
  have h : (e.curry .empty (args.append more)).result =
      .ok (.add [ofName "x", .const (.rational 3)]) := by
    with_unfolding_all rfl
  exact ⟨h, curry_append .empty rfl (Arguments.isExact_single rfl) (Arguments.isExact_single rfl) h⟩

set_option maxRecDepth 4000 in
/-- Beside a real the order of the stages shows: `2^256 + 1` is rounded, where
`2^256 - 2^256` has left nothing to add to. -/
theorem curry_append_real :
    let huge : Int := 2 ^ (256 : Nat)
    let e := Expr.add [.apply (.offIntegers (.real (.finite (.ofInt huge)))) (ofName "z"),
      ofName "y", ofInt (-huge)]
    let args := Arguments.single ⟨"z"⟩ (.rational (1 / 2))
    let more := Arguments.single ⟨"y"⟩ (.integer 1)
    (e.curry .empty (args.append more)).result = .ok (.const (.real (.finite (.ofInt 0)))) ∧
      (e.curry .empty args).result = .ok (ofName "y") ∧
      ((ofName "y").curry .empty more).result = .ok (ofInt 1) ∧
      (ofInt 1 == .const (.real (.finite (.ofInt 0)))) = false := by
  refine ⟨?_, ?_, rfl, rfl⟩ <;> with_unfolding_all rfl

end Expr

end SymCalc
