import SymCalc.Proofs.Expr.Substitute
import SymCalc.Proofs.Expr.Value
import SymCalc.Proofs.Number.Tower
import SymCalc.Real256.Series

/-!
# SymCalc.Proofs.Expr.Exactness

Where evaluation leaves exact arithmetic.

1. A subexpression makes the value real by what it is, not by its operands
   (`MakesReal`): a real leaf, a logarithm, an exponential or a function of an angle,
   or a power with a rational operand.  Elsewhere a value is exact when those of the
   operands are;
2. so a value is real exactly where the tree holds such a subexpression
   (`HoldsReal`), and otherwise it is the value of the tree in the rationals
   (`exactValue`).  `Settles` says both of a tree and its value; there is one rule for
   the nodes that decide by themselves (`Settles.of_makesReal`) and one for the others
   (`Settles.of_operands`).

Main statement: `evaluate_real_iff`.
-/

namespace SymCalc

/-- The function is computed in the reals. -/
def UnaryFn.isTranscendental : UnaryFn → Bool
  | .ln | .exp | .sin | .cos | .tan => true
  | _ => false

/-- The transcendental functions have real values only. -/
theorem UnaryFn.isExact_of_isTranscendental [Elementary] {f : UnaryFn} {x y : Number}
    (hf : f.isTranscendental = true) (h : f.eval x = .ok y) : y.isExact = false := by
  cases f with
  | ln => exact Number.YieldsReal.ln x y (mapError_eq_ok_iff.mp h)
  | exp => exact Number.YieldsReal.exp x y (mapError_eq_ok_iff.mp h)
  | sin => exact Number.YieldsReal.sin x y (mapError_eq_ok_iff.mp h)
  | cos => exact Number.YieldsReal.cos x y (mapError_eq_ok_iff.mp h)
  | tan => exact Number.YieldsReal.tan x y (mapError_eq_ok_iff.mp h)
  | _ => cases hf

namespace Expr

mutual

/-- The expression is put together by arithmetic, powers, logarithms, exponentials,
functions of angles and fractional parts. -/
def isElementary : Expr → Bool
  | .var _ => true
  | .const _ => true
  | .add terms => allElementary terms
  | .mul factors => allElementary factors
  | .neg e => isElementary e
  | .inv e => isElementary e
  | .pow base exponent => isElementary base && isElementary exponent
  | .log base power => isElementary base && isElementary power
  | .apply f e => (f.isTranscendental || f = .frac) && isElementary e
  | .goalSeek _ _ _ => false

/-- All expressions of a list are elementary. -/
def allElementary : List Expr → Bool
  | [] => true
  | e :: es => isElementary e && allElementary es

end

mutual

/-- The value in the rationals of an expression with exact leaves whose powers are
powers of integers.  What a fractional part is taken of is cut off toward zero. -/
def exactValue (args : Arguments) : Expr → Rat
  | .var v => ((args.get? v).map Number.exactValue).getD 0
  | .const x => x.exactValue
  | .add terms => (exactValues args terms).sum
  | .mul factors => (exactValues args factors).prod
  | .neg e => -exactValue args e
  | .inv e => (exactValue args e)⁻¹
  | .pow base exponent => exactValue args base ^ (exactValue args exponent).num
  | .apply .frac e =>
    let q := exactValue args e
    q - (q.num.tdiv q.den : Int)
  | _ => 0

/-- The values of a list of expressions. -/
def exactValues (args : Arguments) : List Expr → List Rat
  | [] => []
  | e :: es => exactValue args e :: exactValues args es

end

theorem exactValues_eq_map (args : Arguments) (es : List Expr) :
    exactValues args es = es.map (exactValue args) := by
  induction es with
  | nil => rfl
  | cons e es ih => rw [exactValues, ih, List.map_cons]

section

variable [Elementary] {solve : GoalSolver} {args : Arguments}

/-! ## what makes a value real -/

/-- The value of the expression is real, whether those of its operands are or not. -/
def MakesReal (solve : GoalSolver) (args : Arguments) : Expr → Prop
  | .var v => ∃ x, args.get? v = some (.real x)
  | .const x => ∃ y, x = .real y
  | .log _ _ => True
  | .apply f _ => f.isTranscendental = true
  | .pow base exponent =>
    ∃ q, HasValue solve args base (.rational q) ∨ HasValue solve args exponent (.rational q)
  | _ => False

/-- Some expression within makes the value real. -/
def HoldsReal (solve : GoalSolver) (args : Arguments) (e : Expr) : Prop :=
  ∃ s, Subtree s e ∧ MakesReal solve args s

/-- A node that makes its value real holds what makes it so. -/
theorem MakesReal.holdsReal {e : Expr} (h : MakesReal solve args e) : HoldsReal solve args e :=
  ⟨e, .refl e, h⟩

/-- Any other node holds what makes a value real if and only if an operand does. -/
theorem holdsReal_iff_children {e : Expr} (h : ¬MakesReal solve args e) :
    HoldsReal solve args e ↔ ∃ c ∈ children e, HoldsReal solve args c := by
  constructor
  · rintro ⟨s, hs, hreal⟩
    cases hs with
    | refl => exact absurd hreal h
    | child hc hs => exact ⟨_, hc, s, hs, hreal⟩
  · rintro ⟨c, hc, s, hs, hreal⟩
    exact ⟨s, .child hc hs, hreal⟩

/-- The value `x` of `e` is real where `e` holds what makes it so, and exact
elsewhere. -/
structure Settles (solve : GoalSolver) (args : Arguments) (e : Expr) (x : Number) : Prop where
  real : HoldsReal solve args e → x.isExact = false
  exact : ¬HoldsReal solve args e → x.isExact = true ∧ x.exactValue = e.exactValue args

namespace Settles

variable {e : Expr} {es : List Expr} {x : Number} {xs : List Number}

/-- A real value is settled at a node that makes it real. -/
theorem of_makesReal (h : MakesReal solve args e) (hx : x.isExact = false) :
    Settles solve args e x :=
  ⟨fun _ => hx, fun hnot => absurd h.holdsReal hnot⟩

/-- The values of operands are exact where none of the operands holds what makes them
real. -/
theorem exact_operands (h : List.Forall₂ (Settles solve args) es xs)
    (hnot : ∀ c ∈ es, ¬HoldsReal solve args c) :
    (∀ y ∈ xs, y.isExact = true) ∧ xs.map Number.exactValue = es.map (exactValue args) := by
  induction h with
  | nil => simp
  | cons hy _ ih =>
    rw [List.forall_mem_cons] at hnot
    obtain ⟨hexact, hvalue⟩ := hy.exact hnot.1
    obtain ⟨hexacts, hvalues⟩ := ih hnot.2
    exact ⟨List.forall_mem_cons.mpr ⟨hexact, hexacts⟩, by simp [hvalue, hvalues]⟩

/-- A node that does not decide by itself settles if its operation is exact on exact
operands and on no others. -/
theorem of_operands (xs : List Number) (hnot : ¬MakesReal solve args e)
    (h : List.Forall₂ (Settles solve args) (children e) xs)
    (honly : x.isExact = true → ∀ y ∈ xs, y.isExact = true)
    (hvalue : (∀ y ∈ xs, y.isExact = true) →
      xs.map Number.exactValue = (children e).map (exactValue args) →
      x.isExact = true ∧ x.exactValue = e.exactValue args) : Settles solve args e x := by
  constructor
  · intro hreal
    obtain ⟨c, hc, hreal⟩ := (holdsReal_iff_children hnot).mp hreal
    obtain ⟨y, hy, hsettles⟩ := exists_mem_of_forall₂ h hc
    have hyreal := hsettles.real hreal
    by_contra hx
    rw [honly (Bool.eq_true_of_not_eq_false hx) y hy] at hyreal
    cases hyreal
  · intro hnone
    rw [holdsReal_iff_children hnot] at hnone
    obtain ⟨hexact, hvalues⟩ := exact_operands h fun c hc hreal => hnone ⟨c, hc, hreal⟩
    exact hvalue hexact hvalues

/-- A node with one operand. -/
theorem of_operand {c : Expr} {y : Number} (hnot : ¬MakesReal solve args e)
    (hc : children e = [c]) (h : Settles solve args c y)
    (honly : x.isExact = true → y.isExact = true)
    (hvalue : y.isExact = true → y.exactValue = c.exactValue args →
      x.isExact = true ∧ x.exactValue = e.exactValue args) : Settles solve args e x := by
  refine of_operands [y] hnot ?_ ?_ ?_
  · rw [hc]
    exact .cons h .nil
  · simpa using honly
  · simpa [hc] using hvalue

end Settles

/-! ## one rule for each node -/

section rules

variable {e : Expr} {x y z : Number}

theorem settles_var {v : Variable} (hx : args.get? v = some x) : Settles solve args (.var v) x := by
  cases x with
  | real r => exact .of_makesReal ⟨r, hx⟩ rfl
  | _ =>
    have hnot : ¬MakesReal solve args (.var v) := by
      rintro ⟨r, hr⟩
      cases hx.symm.trans hr
    exact .of_operands [] hnot .nil (fun _ => by simp) fun _ _ => ⟨rfl, by simp [exactValue, hx]⟩

theorem settles_const : Settles solve args (.const x) x := by
  cases x with
  | real r => exact .of_makesReal ⟨r, rfl⟩ rfl
  | _ =>
    have hnot : ∀ {x : Number}, x.isExact = true → ¬MakesReal solve args (.const x) := by
      rintro _ hx ⟨r, rfl⟩
      cases hx
    exact .of_operands [] (hnot rfl) .nil (fun _ => by simp) fun _ _ => ⟨rfl, rfl⟩

/-- A list of operands, combined by an operation that is exact on exact numbers. -/
theorem settles_fold {fold : List Number → Except NumericError Number} {op : Rat → Rat → Rat}
    {unit : Rat} (hf : Number.ExactFold fold op unit) {xs : List Number}
    (hnot : ¬MakesReal solve args e) (h : List.Forall₂ (Settles solve args) (children e) xs)
    (hx : fold xs = .ok x)
    (hvalue : e.exactValue args = ((children e).map (exactValue args)).foldr op unit) :
    Settles solve args e x := by
  refine .of_operands xs hnot h (hf.isExact_of_fold hx) fun hexact hvalues => ?_
  obtain ⟨s, hs, hsexact, hsvalue, -⟩ := hf.fold_of_isExact hexact
  cases hs.symm.trans hx
  exact ⟨hsexact, by rw [hsvalue, Number.total, hvalues, hvalue]⟩

theorem settles_neg (h : Settles solve args e y) : Settles solve args (.neg e) (-y) := by
  refine .of_operand id rfl h (by simp) fun hexact hvalue => ⟨by simpa using hexact, ?_⟩
  rw [Number.exactValue_neg, hvalue, exactValue]

theorem settles_inv (h : Settles solve args e y) (hx : y.inv = .ok x) :
    Settles solve args (.inv e) x := by
  refine .of_operand id rfl h (Number.isExact_of_inv hx) fun hexact hvalue => ?_
  rw [Number.inv_of_isExact hexact] at hx
  split at hx
  · cases hx
  · cases hx
    exact ⟨rfl, by rw [exactValue, ← hvalue]; rfl⟩

theorem settles_frac (h : Settles solve args e y) (hx : y.frac = .ok x) :
    Settles solve args (.apply .frac e) x := by
  have honly : x.isExact = true → y.isExact = true := by
    obtain ⟨whole, -, hsub⟩ : ∃ whole, y.round .inward = .ok whole ∧ y.sub [whole] = .ok x := by
      unfold Number.frac at hx
      cases hw : y.round .inward with
      | error err => rw [hw] at hx; cases hx
      | ok whole =>
        rw [hw] at hx
        exact ⟨whole, rfl, hx⟩
    exact Number.isExact_of_sub hsub
  refine .of_operand Bool.false_ne_true rfl h honly fun hexact hvalue => ?_
  obtain ⟨r, hr, hrexact, -, hrvalue⟩ := Number.frac_of_isExact hexact
  cases hr.symm.trans hx
  exact ⟨hrexact, by rw [hrvalue, hvalue, exactValue]⟩

/-- A power of numbers that are not rationals is exact only if both are integers. -/
theorem settles_pow {base exponent : Expr} (hy : HasValue solve args base y)
    (hz : HasValue solve args exponent z) (hbase : Settles solve args base y)
    (hexponent : Settles solve args exponent z) (hx : y.pow z = .ok x) :
    Settles solve args (.pow base exponent) x := by
  have hiff := Number.isExact_pow_iff hx
  -- with a rational operand the power is real; without one, exact operands are integers
  by_cases hreal : MakesReal solve args (.pow base exponent)
  · apply Settles.of_makesReal hreal
    rw [Bool.eq_false_iff, Ne, hiff]
    rintro ⟨hyint, hzint⟩
    obtain ⟨q, hq | hq⟩ := hreal
    · cases hy.unique hq
      cases hyint
    · cases hz.unique hq
      cases hzint
  · have hinteger : ∀ {w : Number}, w.isExact = true → (∀ q, w ≠ .rational q) →
        ∃ n, w = .integer n := by
      intro w hw hne
      cases w with
      | integer n => exact ⟨n, rfl⟩
      | rational q => exact absurd rfl (hne q)
      | real r => cases hw
    refine .of_operands [y, z] hreal (.cons hbase (.cons hexponent .nil)) ?_ ?_
    · intro hexact
      obtain ⟨hyint, hzint⟩ := hiff.mp hexact
      obtain ⟨m, rfl⟩ := Number.eq_integer_of_isInteger hyint
      obtain ⟨n, rfl⟩ := Number.eq_integer_of_isInteger hzint
      simp [Number.isExact]
    · intro hexact hvalues
      obtain ⟨m, rfl⟩ := hinteger (hexact y (by simp)) fun q h => hreal ⟨q, .inl (h ▸ hy)⟩
      obtain ⟨n, rfl⟩ := hinteger (hexact z (by simp)) fun q h => hreal ⟨q, .inr (h ▸ hz)⟩
      obtain ⟨hm, hn⟩ :
          (m : Rat) = base.exactValue args ∧ (n : Rat) = exponent.exactValue args := by
        simpa [children, operands, Number.exactValue] using hvalues
      refine ⟨hiff.mpr ⟨rfl, rfl⟩, ?_⟩
      rw [exactValue, ← hm, ← hn, Rat.num_intCast]
      exact (Number.exactValue_powInt hx).1

end rules

/-! ## evaluation -/

mutual

/-- **Evaluation is exact as long as it can be.** -/
theorem settles_of_hasValue : (e : Expr) → e.isElementary = true → {x : Number} →
    HasValue solve args e x → Settles solve args e x
  | .var _, _, _, h => settles_var (hasValue_var.mp h)
  | .const _, _, _, h => by
    cases hasValue_const.mp h
    exact settles_const
  | .add terms, he, _, h => by
    obtain ⟨xs, hxs, hx⟩ := hasValue_add.mp h
    apply settles_fold Number.exactFold_sum id (settles_of_hasValues terms he hxs) hx
    rw [exactValue, exactValues_eq_map]
    rfl
  | .mul factors, he, _, h => by
    obtain ⟨xs, hxs, hx⟩ := hasValue_mul.mp h
    apply settles_fold Number.exactFold_product id (settles_of_hasValues factors he hxs) hx
    rw [exactValue, exactValues_eq_map]
    rfl
  | .neg e, he, _, h => by
    obtain ⟨y, hy, rfl⟩ := hasValue_neg.mp h
    exact settles_neg (settles_of_hasValue e he hy)
  | .inv e, he, _, h => by
    obtain ⟨y, hy, hx⟩ := hasValue_inv.mp h
    exact settles_inv (settles_of_hasValue e he hy) hx
  | .pow base exponent, he, _, h => by
    obtain ⟨y, hy, z, hz, hx⟩ := hasValue_pow.mp h
    obtain ⟨hbase, hexponent⟩ := Bool.and_eq_true_iff.mp he
    exact settles_pow hy hz (settles_of_hasValue base hbase hy)
      (settles_of_hasValue exponent hexponent hz) hx
  | .log base power, _, x, h => by
    obtain ⟨y, -, z, -, hx⟩ := hasValue_log.mp h
    exact .of_makesReal trivial (Number.YieldsReal.log y z x hx)
  | .apply f e, he, _, h => by
    obtain ⟨y, hy, hx⟩ := hasValue_apply.mp h
    obtain ⟨hf, he⟩ := Bool.and_eq_true_iff.mp he
    rcases Bool.or_eq_true_iff.mp hf with hf | hf
    · exact .of_makesReal hf (UnaryFn.isExact_of_isTranscendental hf hx)
    · obtain rfl : f = .frac := of_decide_eq_true hf
      exact settles_frac (settles_of_hasValue e he hy) (mapError_eq_ok_iff.mp hx)

/-- The same for lists. -/
theorem settles_of_hasValues : (es : List Expr) → allElementary es = true →
    {xs : List Number} → List.Forall₂ (HasValue solve args) es xs →
    List.Forall₂ (Settles solve args) es xs
  | [], _, _, .nil => .nil
  | e :: es, he, _, .cons hx hxs => by
    obtain ⟨he, hes⟩ := Bool.and_eq_true_iff.mp he
    exact .cons (settles_of_hasValue e he hx) (settles_of_hasValues es hes hxs)

end

/-- **The value of an elementary expression is real if and only if some leaf is, or a
logarithm, an exponential or a function of an angle occurs, or some power has an
operand whose value is a rational.**  In every other case it is an integer or a
rational, and the value of the expression in the rationals. -/
theorem evaluate_real_iff {catalogue : Catalogue} {e : Expr} {args : Arguments} {x : Number}
    (he : e.isElementary = true) (hx : (e.evaluate catalogue args).result = .ok x) :
    ((∃ r, x = .real r) ↔ HoldsReal (e.solver catalogue) args e) ∧
      (¬HoldsReal (e.solver catalogue) args e → x.toRat? = some (e.exactValue args)) := by
  have hsettles : Settles (e.solver catalogue) args e x := settles_of_hasValue e he hx
  have hreal : (∃ r, x = .real r) ↔ x.isExact = false := by
    cases x <;> simp [Number.isExact]
  rw [hreal]
  refine ⟨⟨fun hx => ?_, hsettles.real⟩, fun hnone => ?_⟩
  · by_contra hnone
    rw [(hsettles.exact hnone).1] at hx
    cases hx
  · exact Number.toRat?_eq_some_iff.mpr (hsettles.exact hnone)

end

/-- With `x = 7/2`, the fractional part of `x` and `2 ^ -3` are added exactly, but the
square of `x` is real, as `x` is a rational. -/
theorem evaluate_real_iff_half :
    let args : Arguments := .single ⟨"x"⟩ (.rational (7 / 2))
    let sum := Expr.add [.apply .frac (ofName "x"), .pow (ofInt 2) (.neg (ofInt 3))]
    let square := Expr.pow (ofName "x") (ofInt 2)
    (∃ q, (sum.evaluate .empty args).result = .ok (.rational q) ∧
      ¬HoldsReal (sum.solver .empty) args sum ∧ q = sum.exactValue args) ∧
    ∃ r, (square.evaluate .empty args).result = .ok (.real r) := by
  intro args sum square
  constructor
  · have hsum : (sum.evaluate .empty args).result = .ok (.rational (5 / 8)) :=
      eq_ok_of_toOption (by decide +kernel)
    obtain ⟨hiff, hvalue⟩ := evaluate_real_iff (by decide) hsum
    have hnone : ¬HoldsReal (sum.solver .empty) args sum := by
      intro hreal
      obtain ⟨r, hr⟩ := hiff.mpr hreal
      cases hr
    exact ⟨5 / 8, hsum, hnone, Option.some.inj (hvalue hnone)⟩
  · obtain ⟨x, hsquare⟩ : ∃ x, (square.evaluate .empty args).result = .ok x :=
      exists_eq_ok (by decide +kernel)
    have hrational : MakesReal (square.solver .empty) args square :=
      ⟨7 / 2, .inl (hasValue_var.mpr (by simp [args]))⟩
    obtain ⟨r, rfl⟩ := (evaluate_real_iff (by decide) hsquare).1.mpr hrational.holdsReal
    exact ⟨r, hsquare⟩

end Expr

end SymCalc
