import SymCalc.Proofs.Expr.ExactRun
import SymCalc.Proofs.Expr.WellFormed
import SymCalc.Real256.Series

/-!
# SymCalc.Proofs.Expr.Rebuilt

Trees built anew by the constructors that normalise.

1. `rebuilt` puts a tree together again from its leaves, by `sum`, `product`,
   `negate` and `invert` in place of the nodes as they stand; what comes out is
   well-formed (`wellFormed_rebuilt`);
2. on a run that stays exact each constructor makes of parts that narrow others
   a tree that narrows the node over those (`rebuilt_narrows`): two reciprocals
   that cancel may turn a whole rational into an integer, and nothing else
   changes.

Main statement: `evaluate_rebuilt`.
-/

namespace SymCalc.Expr

mutual

/-- The tree built anew by the normalising constructors, from the leaves up. -/
def rebuilt : Expr → Expr
  | .var v => .var v
  | .const x => .const x
  | .add terms => sum (rebuiltAll terms)
  | .mul factors => product (rebuiltAll factors)
  | .neg e => negate (rebuilt e)
  | .inv e => invert (rebuilt e)
  | .pow base exponent => .pow (rebuilt base) (rebuilt exponent)
  | .log base power => .log (rebuilt base) (rebuilt power)
  | .apply f e => .apply f (rebuilt e)
  | .goalSeek goal target inversion => .goalSeek (rebuilt goal) (rebuilt target) inversion

/-- The members of a list built anew. -/
def rebuiltAll : List Expr → List Expr
  | [] => []
  | e :: es => rebuilt e :: rebuiltAll es

end

mutual

/-- What the constructors build is well-formed, whatever it is built from. -/
theorem wellFormed_rebuilt : (e : Expr) → WellFormed (rebuilt e)
  | .var _ => wellFormed_var
  | .const _ => wellFormed_const
  | .add terms => .sum (wellFormed_rebuiltAll terms)
  | .mul factors => .product (wellFormed_rebuiltAll factors)
  | .neg e => (wellFormed_rebuilt e).negate
  | .inv e => (wellFormed_rebuilt e).invert
  | .pow base exponent => wellFormed_pow.mpr ⟨wellFormed_rebuilt base, wellFormed_rebuilt exponent⟩
  | .log base power => wellFormed_log.mpr ⟨wellFormed_rebuilt base, wellFormed_rebuilt power⟩
  | .apply _ e => wellFormed_apply.mpr (wellFormed_rebuilt e)
  | .goalSeek goal target _ =>
    wellFormed_goalSeek.mpr ⟨wellFormed_rebuilt goal, wellFormed_rebuilt target⟩

/-- The same for lists. -/
theorem wellFormed_rebuiltAll : (es : List Expr) → ∀ e ∈ rebuiltAll es, WellFormed e
  | [] => fun _ he => absurd he List.not_mem_nil
  | e :: es => List.forall_mem_cons.mpr ⟨wellFormed_rebuilt e, wellFormed_rebuiltAll es⟩

end

mutual

/-- No goal-seek is added or lost, nor nested otherwise. -/
theorem seekDepth_rebuilt : (e : Expr) → seekDepth (rebuilt e) = seekDepth e
  | .var _ => rfl
  | .const _ => rfl
  | .add terms => (seekDepth_sum _).trans (seekDepthAll_rebuiltAll terms)
  | .mul factors => (seekDepth_product _).trans (seekDepthAll_rebuiltAll factors)
  | .neg e => (seekDepth_negate _).trans (seekDepth_rebuilt e)
  | .inv e => (seekDepth_invert _).trans (seekDepth_rebuilt e)
  | .pow base exponent | .log base exponent => by
    simp only [rebuilt, seekDepth, seekDepth_rebuilt base, seekDepth_rebuilt exponent]
  | .apply _ e => seekDepth_rebuilt e
  | .goalSeek goal target _ => by
    simp only [rebuilt, seekDepth, seekDepth_rebuilt goal, seekDepth_rebuilt target]

/-- The same for lists. -/
theorem seekDepthAll_rebuiltAll : (es : List Expr) → seekDepthAll (rebuiltAll es) = seekDepthAll es
  | [] => rfl
  | e :: es => by
    simp only [rebuiltAll, seekDepthAll, seekDepth_rebuilt e, seekDepthAll_rebuiltAll es]

end

/-! ## exact runs -/

open Number (Narrows TotalNarrows ExactFold exactFold_sum exactFold_product)

section

variable [Elementary] {solve : GoalSolver} {args : Arguments}

/-- Operands taken apart come to what they came to before. -/
theorem exists_values_flatMap {fold : List Number → Except NumericError Number}
    {op : Rat → Rat → Rat} {unit : Rat} (hf : ExactFold fold op unit) {parts : Expr → List Expr}
    (hparts : ∀ {e x y}, HasValue solve args e y → Narrows y x →
      ∃ ys, List.Forall₂ (HasValue solve args) (parts e) ys ∧ TotalNarrows op unit ys [x])
    {es : List Expr} {xs : List Number}
    (h : List.Forall₂ (fun e x => ∃ y, HasValue solve args e y ∧ Narrows y x) es xs) :
    ∃ ys, List.Forall₂ (HasValue solve args) (es.flatMap parts) ys ∧
      TotalNarrows op unit ys xs := by
  induction h with
  | nil => exact ⟨[], .nil, .nil⟩
  | cons he _ ih =>
    obtain ⟨y, hy, hyx⟩ := he
    obtain ⟨ys, hys, hfirst⟩ := hparts hy hyx
    obtain ⟨zs, hzs, hrest⟩ := ih
    exact ⟨ys ++ zs, List.rel_append hys hzs, hfirst.append hf hrest⟩

mutual

/-- The rebuilt tree has every value of the tree on an exact run, in no wider
representation. -/
theorem rebuilt_narrows (ha : args.IsExact) : (e : Expr) → e.isExact = true →
    IntegerPowers solve args e → ∀ {x}, HasValue solve args e x →
    ∃ y, HasValue solve args (rebuilt e) y ∧ Narrows y x
  | .var v, _, _, x, h => ⟨x, h, .refl (ha v x (hasValue_var.mp h))⟩
  | .const c, he, _, x, h => by
    cases hasValue_const.mp h
    exact ⟨c, h, .refl he⟩
  | .add terms, he, hp, x, h => by
    obtain ⟨xs, hxs, hx⟩ := hasValue_add.mp h
    obtain ⟨ys, hys, htotal⟩ := exists_values_flatMap exactFold_sum exists_values_addends
      (rebuiltAll_narrows ha terms he hp hxs)
    obtain ⟨y, hy, hyx⟩ := htotal.fold_eq exactFold_sum hx
    exact ⟨y, hasValue_add.mpr ⟨ys, hys, hy⟩, hyx⟩
  | .mul factors, he, hp, x, h => by
    obtain ⟨xs, hxs, hx⟩ := hasValue_mul.mp h
    obtain ⟨ys, hys, htotal⟩ := exists_values_flatMap exactFold_product exists_values_factorsOf
      (rebuiltAll_narrows ha factors he hp hxs)
    obtain ⟨y, hy, hyx⟩ := htotal.fold_eq exactFold_product hx
    exact ⟨y, hasValue_mul.mpr ⟨ys, hys, hy⟩, hyx⟩
  | .neg e, he, hp, x, h => by
    obtain ⟨u, hu, rfl⟩ := hasValue_neg.mp h
    obtain ⟨y, hy, hyu⟩ := rebuilt_narrows ha e he hp hu
    exact ⟨-y, hasValue_negate hy hyu.exact_left, hyu.neg⟩
  | .inv e, he, hp, x, h => by
    obtain ⟨u, hu, hx⟩ := hasValue_inv.mp h
    obtain ⟨y, hy, hyu⟩ := rebuilt_narrows ha e he hp hu
    exact hasValue_invert hy hyu.exact_left (hyu.inv_eq.trans hx)
  | .pow base exponent, he, ⟨⟨hpb, hpe⟩, ⟨b, hb⟩, p, hp⟩, x, h => by
    obtain ⟨heb, hee⟩ := Bool.and_eq_true_iff.mp he
    obtain ⟨b', hb', p', hp', hx⟩ := hasValue_pow.mp h
    cases hb.unique hb'
    cases hp.unique hp'
    -- below an integer there is only the integer itself
    obtain ⟨y, hy, hyb⟩ := rebuilt_narrows ha base heb hpb hb
    obtain ⟨z, hz, hzp⟩ := rebuilt_narrows ha exponent hee hpe hp
    cases hyb.eq_integer
    cases hzp.eq_integer
    refine ⟨x, hasValue_pow.mpr ⟨_, hy, _, hz, hx⟩, .refl ?_⟩
    exact Number.isExact_powInt (Number.pow_integer b p ▸ hx)
  | .apply f e, he, hp, x, h => by
    obtain ⟨hf, hee⟩ := Bool.and_eq_true_iff.mp he
    obtain ⟨u, hu, hx⟩ := hasValue_apply.mp h
    obtain ⟨y, hy, hyu⟩ := rebuilt_narrows ha e hee hp hu
    obtain ⟨w, hw, hwx⟩ := UnaryFn.eval_narrows hf hyu hx
    exact ⟨w, hasValue_apply.mpr ⟨y, hy, hw⟩, hwx⟩

/-- The same for lists. -/
theorem rebuiltAll_narrows (ha : args.IsExact) : (es : List Expr) → allExact es = true →
    AllIntegerPowers solve args es → ∀ {xs}, List.Forall₂ (HasValue solve args) es xs →
    List.Forall₂ (fun e x => ∃ y, HasValue solve args e y ∧ Narrows y x) (rebuiltAll es) xs
  | [], _, _, _, .nil => .nil
  | e :: es, he, ⟨hp, hps⟩, _, .cons hx hxs => by
    obtain ⟨hee, hees⟩ := Bool.and_eq_true_iff.mp he
    exact .cons (rebuilt_narrows ha e hee hp hx) (rebuiltAll_narrows ha es hees hps hxs)

end

/-- **The normalising constructors do not change values.**  Where an exact tree has a
value under exact bindings and raises integers to integers only, the tree they
build in its place has an equal value, which is an integer whenever the first one
is. -/
theorem evaluate_rebuilt (catalogue : Catalogue) {e : Expr} {v : Number}
    (he : e.isExact = true) (ha : args.IsExact)
    (hp : e.IntegerPowers (e.solver catalogue) args)
    (hv : (e.evaluate catalogue args).result = .ok v) :
    ∃ v', (e.rebuilt.evaluate catalogue args).result = .ok v' ∧
      (v' == v) = true ∧ (v.isInteger = true → v'.isInteger = true) := by
  obtain ⟨v', hv', hn⟩ := rebuilt_narrows ha e he hp hv
  refine ⟨v', ?_, decide_eq_true hn.order_eq, hn.integer⟩
  rw [evaluate, solver, seekDepth_rebuilt]
  exact hv'

end

/-- For the reciprocal of `-(1 / x)`, next to a sum in a sum and with a negative
constant negated, at the integer `3`: the value `-3` is rational in the tree that is
written down and an integer in the one that is built. -/
theorem evaluate_rebuilt_reciprocals :
    let x := ofName "x"
    let e := Expr.add [.inv (.neg (.inv x)), .add [.pow x (ofInt 2), .neg (ofInt (-5))],
      .neg (.neg (ofInt (-14)))]
    let args := Arguments.single ⟨"x"⟩ (.integer 3)
    (e.evaluate .empty args).result = .ok (.rational (-3)) ∧
      e.rebuilt = .add [.neg x, .pow x (ofInt 2), ofInt 5, .neg (ofInt 14)] ∧
      ∃ v', (e.rebuilt.evaluate .empty args).result = .ok v' ∧
        (v' == Number.rational (-3)) = true ∧
        ((Number.rational (-3)).isInteger = true → v'.isInteger = true) := by
  intro x e args
  have hvalue : (e.evaluate .empty args).result = .ok (.rational (-3)) := by
    with_unfolding_all rfl
  have hpowers : e.IntegerPowers (e.solver .empty) args :=
    ⟨trivial, ⟨⟨⟨trivial, trivial⟩, ⟨3, rfl⟩, ⟨2, rfl⟩⟩, trivial, trivial⟩, trivial, trivial⟩
  refine ⟨hvalue, rfl, ?_⟩
  exact evaluate_rebuilt .empty (by rfl) (Arguments.isExact_single rfl) hpowers hvalue

end SymCalc.Expr
