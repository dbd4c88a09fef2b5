import SymCalc.Proofs.Expr.Staged
import SymCalc.Proofs.GoalSeek.Posed
import SymCalc.Real256.Series

/-!
# SymCalc.Proofs.GoalSeek.Staged

Goal-seeks curried in stages.

1. Currying keeps the inversion of a node, and leaves the curried goal and target
   as they are (`parts_of_curry_goalSeek`);
2. an arithmetic goal has the same value, and an arithmetic target comes to the
   same tree, whether the bindings are put in at once or in two stages
   (`widened_evaluate_append`, `widened_curry_append`), and the equation follows
   from the two (`widened_sub_const`).

Main statement: `pose_append`.  As with trees, a real number would show the order
of the stages (`pose_append_real`).
-/

namespace SymCalc

theorem Arguments.IsExact.erase {args : Arguments} (h : args.IsExact) (v : Variable) :
    (args.erase v).IsExact := by
  intro w x hx
  rw [get?_erase] at hx
  split at hx
  · cases hx
  · exact h w x hx

/-- A variable is erased from each part of the bindings. -/
theorem Arguments.erase_append (args more : Arguments) (v : Variable) :
    (args.append more).erase v = (args.erase v).append (more.erase v) := by
  simp only [append, erase, List.filter_append]

namespace Expr

/-- The equation of an arithmetic target is arithmetic, and its numbers have the
values of those it is made from. -/
theorem widened_sub_const {t : Expr} {x : Number} (ht : t.isArithmetic = true)
    (hx : x.isExact = true) :
    (sub t (.const x)).isArithmetic = true ∧
      (sub t (.const x)).widened = sub t.widened (.const x.widened) := by
  obtain ⟨hnegate, hwidened⟩ := widened_negate (e := .const x) hx
  have haddends := sums.isArithmetic_parts ht
  have hparts : addends t.widened = (addends t).map widened := sums.parts_widened t
  have hconst : (Expr.const x).widened = .const x.widened := rfl
  rw [sub_const, sub_const, isArithmetic, allArithmetic_iff, widened, widenedAll_eq_map,
    List.map_append, hparts, List.map_singleton, hwidened, hconst]
  refine ⟨fun u hu => ?_, rfl⟩
  rcases List.mem_append.mp hu with hu | hu
  · exact haddends u hu
  · rw [List.mem_singleton.mp hu]
    exact hnegate

section

variable [Elementary] {catalogue : Catalogue} {goal target goal' target' : Expr}
  {inversion inversion' : Inversion} {args more : Arguments}

/-! ## curried nodes -/

/-- A node that is not solved by currying holds its curried goal and target, and
asks for the same unknown. -/
theorem parts_of_curry_goalSeek
    (h : (curry catalogue (.goalSeek goal target inversion) args).result =
      .ok (.goalSeek goal' target' inversion')) :
    (goal.curry catalogue args).result = .ok goal' ∧
      (target.curry catalogue (args.erase inversion.unknown)).result = .ok target' ∧
      inversion' = inversion := by
  rw [curry, solver, curryWith] at h
  obtain ⟨g, hg, h⟩ := Logged.result_bind_eq_ok.mp h
  obtain ⟨t, ht, h⟩ := Logged.result_bind_eq_ok.mp h
  have hgoal : goal.seekDepth ≤ seekDepth (.goalSeek goal target inversion) := by
    rw [seekDepth]
    omega
  have htarget : target.seekDepth ≤ seekDepth (.goalSeek goal target inversion) := by
    rw [seekDepth]
    omega
  rw [simplifyWith] at h
  obtain ⟨g', hg', h⟩ := Logged.result_bind_eq_ok.mp h
  obtain ⟨t', ht', h⟩ := Logged.result_bind_eq_ok.mp h
  -- both parts are simplified already
  rw [simplifyWith_of_normal g (normal_curryWith hg)] at hg'
  rw [simplifyWith_of_normal t (normal_curryWith ht)] at ht'
  cases hg'
  cases ht'
  rw [curryWith_solveAt catalogue hgoal] at hg
  rw [curryWith_solveAt catalogue htarget] at ht
  rw [foldSeek] at h
  split at h
  · obtain ⟨x, -, h⟩ := Logged.result_bind_eq_ok.mp h
    cases h
  · cases h
    exact ⟨hg, ht, rfl⟩

/-! ## goal and target in stages -/

/-- What reduces under all bindings at once is left, where it is curried by the
first of them, to reduce to the same under the others. -/
theorem reduced_of_curry {e e₁ r : Expr} (he : e.isArithmetic = true) (hargs : args.IsExact)
    (h : reduced (args.append more) e = some r)
    (h₁ : (e.curry catalogue args).result = .ok e₁) :
    e₁.isArithmetic = true ∧ reduced more e₁ = some r := by
  obtain ⟨harith, hfirst⟩ := curry_reduced catalogue hargs he
  obtain ⟨e', he', hmore'⟩ := reduced_append e h
  rw [h₁] at hfirst
  cases hfirst.symm.trans he'
  rw [reduced_widened] at hmore'
  exact ⟨harith e₁ h₁, hmore'⟩

/-- The target curried in two stages is that of one stage, up to the representation
of its numbers. -/
theorem widened_curry_append {e r e₁ r' : Expr} (he : e.isArithmetic = true)
    (hargs : args.IsExact) (hmore : more.IsExact)
    (h : (e.curry catalogue (args.append more)).result = .ok r)
    (h₁ : (e.curry catalogue args).result = .ok e₁)
    (h₂ : (e₁.curry catalogue more).result = .ok r') :
    r.isArithmetic = true ∧ r'.isArithmetic = true ∧ r.widened = r'.widened := by
  obtain ⟨hr, hreduced⟩ := curry_reduced catalogue (hargs.append hmore) he
  rw [h] at hreduced
  obtain ⟨he₁, hmore₁⟩ := reduced_of_curry he hargs hreduced h₁
  obtain ⟨hr', hsecond⟩ := curry_reduced catalogue hmore he₁
  rw [h₂] at hsecond
  exact ⟨hr r h, hr' r' h₂, Option.some.inj (hmore₁.symm.trans hsecond)⟩

/-- The value of a goal that was curried is the value of the goal, up to the
representation. -/
theorem widened_evaluate_append {e e₁ : Expr} {x y : Number} (he : e.isArithmetic = true)
    (hargs : args.IsExact) (hmore : more.IsExact)
    (h : (e.evaluate catalogue (args.append more)).result = .ok x)
    (h₁ : (e.curry catalogue args).result = .ok e₁)
    (h₂ : (e₁.evaluate catalogue more).result = .ok y) :
    x.isExact = true ∧ y.isExact = true ∧ x.widened = y.widened := by
  obtain ⟨hx, hreduced⟩ := reduced_of_hasValue (hargs.append hmore) e he h
  obtain ⟨he₁, hmore₁⟩ := reduced_of_curry he hargs hreduced h₁
  obtain ⟨hy, hsecond⟩ := reduced_of_hasValue hmore e₁ he₁ h₂
  exact ⟨hx, hy, Expr.const.inj (Option.some.inj (hmore₁.symm.trans hsecond))⟩

/-! ## equations in stages -/

/-- **Currying some of the bindings does not change the equation a node poses.**
Let goal and target be arithmetic and all bindings exact.  Where the node poses an
equation under `args` and `more` together, and the node curried by `args` poses one
under `more`, both are for the same unknown and their expressions are equal. -/
theorem pose_append (hgoal : goal.isArithmetic = true) (htarget : target.isArithmetic = true)
    (hargs : args.IsExact) (hmore : more.IsExact) {posed posed' : Posed}
    (h : (pose catalogue goal target inversion (args.append more)).result = .ok posed)
    (hcurry : (curry catalogue (.goalSeek goal target inversion) args).result =
      .ok (.goalSeek goal' target' inversion'))
    (h' : (pose catalogue goal' target' inversion' more).result = .ok posed') :
    (posed.expr == posed'.expr) = true ∧ inversion' = inversion := by
  obtain ⟨hgoal₁, htarget₁, rfl⟩ := parts_of_curry_goalSeek hcurry
  obtain ⟨-, g, hg, -, t, ht, -, hexpr⟩ := result_pose_eq_ok.mp h
  obtain ⟨-, g', hg', -, t', ht', -, hexpr'⟩ := result_pose_eq_ok.mp h'
  rw [Arguments.erase_append] at ht
  obtain ⟨hgexact, hgexact', hgvalue⟩ :=
    widened_evaluate_append hgoal hargs hmore hg hgoal₁ hg'
  obtain ⟨htarith, htarith', htvalue⟩ :=
    widened_curry_append htarget (hargs.erase _) (hmore.erase _) ht htarget₁ ht'
  obtain ⟨harith, hwidened⟩ := widened_sub_const htarith hgexact
  obtain ⟨harith', hwidened'⟩ := widened_sub_const htarith' hgexact'
  rw [hexpr, hexpr']
  refine ⟨beq_of_widened_eq harith harith' ?_, rfl⟩
  rw [hwidened, hwidened', hgvalue, htvalue]

end

/-- A target with two reciprocals, one inside the other, against the goal `c`: the
numbers are a rational if all values are at hand, and an integer if `a` comes first,
and the value of the unknown is left out either way. -/
theorem pose_append_reciprocals :
    let catalogue := Catalogue.ofList [.constant .zero]
    let target := Expr.add [.inv (.inv (ofName "b")), ofName "x", ofName "a"]
    let inversion : Inversion := ⟨⟨"x"⟩, target.freeVars, ⟨0⟩⟩
    let args := (Arguments.single ⟨"a"⟩ (.integer 1)).append (.single ⟨"x"⟩ (.integer 7))
    let more := (Arguments.single ⟨"b"⟩ (.integer 2)).append (.single ⟨"c"⟩ (.integer 4))
    let equation (x : Number) := Expr.add [ofName "x", .const x, .neg (ofInt 4)]
    ∃ target' posed posed',
      (pose catalogue (ofName "c") target inversion (args.append more)).result = .ok posed ∧
      (curry catalogue (.goalSeek (ofName "c") target inversion) args).result =
        .ok (.goalSeek (ofName "c") target' inversion) ∧
      (pose catalogue (ofName "c") target' inversion more).result = .ok posed' ∧
      posed.expr = equation (.rational 3) ∧ posed'.expr = equation (.integer 3) ∧
      (posed.expr == posed'.expr) = true := by
  intro catalogue target inversion args more equation
  have hargs : args.IsExact :=
    (Arguments.isExact_single rfl).append (Arguments.isExact_single rfl)
  have hmore : more.IsExact :=
    (Arguments.isExact_single rfl).append (Arguments.isExact_single rfl)
  have h : (pose catalogue (ofName "c") target inversion (args.append more)).result =
      .ok ⟨fun _ => pure .zero, equation (.rational 3)⟩ := by
    with_unfolding_all rfl
  have hcurry : (curry catalogue (.goalSeek (ofName "c") target inversion) args).result =
      .ok (.goalSeek (ofName "c") (.add [ofName "b", ofName "x", ofInt 1]) inversion) := by
    with_unfolding_all rfl
  have h' : (pose catalogue (ofName "c") (.add [ofName "b", ofName "x", ofInt 1]) inversion
      more).result = .ok ⟨fun _ => pure .zero, equation (.integer 3)⟩ := by
    with_unfolding_all rfl
  exact ⟨_, _, _, h, hcurry, h', rfl, rfl, (pose_append rfl rfl hargs hmore h hcurry h').1⟩

set_option maxRecDepth 4000 in
/-- Beside a real the order of the stages shows: `2^256 + 1` is rounded, so that
`x` is left when all values are at hand, and `x + 1` when `z` comes first. -/
theorem pose_append_real :
    let catalogue := Catalogue.ofList [.constant .zero]
    let huge : Int := 2 ^ (256 : Nat)
    let target := Expr.add [ofName "x", ofName "y",
      .apply (.offIntegers (.real (.finite (.ofInt huge)))) (ofName "z"), ofInt (-huge)]
    let inversion : Inversion := ⟨⟨"x"⟩, target.freeVars, ⟨0⟩⟩
    let args := Arguments.single ⟨"z"⟩ (.rational (1 / 2))
    let more := Arguments.single ⟨"y"⟩ (.integer 1)
    let target' := Expr.add [ofName "x", ofName "y"]
    let once := Expr.add [ofName "x", .neg (ofInt 0)]
    let staged := Expr.add [ofName "x", ofInt 1, .neg (ofInt 0)]
    (pose catalogue (ofInt 0) target inversion (args.append more)).result.map Posed.expr =
        .ok once ∧
      (curry catalogue (.goalSeek (ofInt 0) target inversion) args).result =
        .ok (.goalSeek (ofInt 0) target' inversion) ∧
      (pose catalogue (ofInt 0) target' inversion more).result.map Posed.expr = .ok staged ∧
      (once == staged) = false := by
  refine ⟨?_, ?_, ?_, rfl⟩ <;> with_unfolding_all rfl

end Expr

end SymCalc
