import Mathlib.Algebra.Order.Ring.Rat
import Mathlib.Algebra.BigOperators.Ring.Finset
import SymCalc.Number.Factorial
import SymCalc.Number.Arith
import SymCalc.Number.Rounding

/-!
# SymCalc.Proofs.Number.Exact

Arithmetic on exact numbers, the integers and the rationals.

1. No operand is left out when operands are brought to their common domain
   (`unify_rationals`, `unify_of_not_isExact`);
2. sums and products of exact numbers are exact and do not depend on the order
   of the operands; they are integers when all operands are (`ExactFold`);
3. a number may stand in for another of the same value in a wider
   representation (`Narrows`): every operation defined on the wider one is
   defined on the narrower one, and the results are related in the same way.

Main statements: `exactFold_sum`, `exactFold_product`, `Narrows.inv_eq`,
`Narrows.round_eq`, `Narrows.frac`, `Narrows.order_eq`.
-/

namespace SymCalc.Number

/-- The representation is that of an integer. -/
def isInteger : Number → Bool
  | .integer _ => true
  | _ => false

/-- The number is an integer or a rational. -/
def isExact : Number → Bool
  | .real _ => false
  | _ => true

/-- The value of an exact number. -/
def exactValue : Number → Rat
  | .integer n => n
  | .rational q => q
  | .real _ => 0

/-- Exact numbers are those with a value as a rational. -/
theorem toRat?_eq_some_iff {x : Number} {q : Rat} :
    x.toRat? = some q ↔ x.isExact = true ∧ x.exactValue = q := by
  cases x <;> simp [toRat?, isExact, exactValue]

/-- An integer is represented as one. -/
theorem eq_integer_of_isInteger {x : Number} (h : x.isInteger = true) :
    ∃ n, x = .integer n := by
  cases x <;> simp_all [isInteger]

/-- Integers are exact. -/
theorem isExact_of_isInteger {x : Number} (h : x.isInteger = true) : x.isExact = true := by
  obtain ⟨n, rfl⟩ := eq_integer_of_isInteger h
  rfl

/-! ## common domain -/

/-- Integers as operands are a list of integers. -/
theorem exists_eq_map_integer {xs : List Number} (h : xs.all isInteger = true) :
    ∃ ns : List Int, xs = ns.map integer := by
  induction xs with
  | nil => exact ⟨[], rfl⟩
  | cons x xs ih =>
    rw [List.all_cons, Bool.and_eq_true] at h
    obtain ⟨n, rfl⟩ := eq_integer_of_isInteger h.1
    obtain ⟨ns, rfl⟩ := ih h.2
    exact ⟨n :: ns, rfl⟩

/-- A list of integers has only integers as operands. -/
theorem all_isInteger_map (ns : List Int) : (ns.map integer).all isInteger = true := by
  simp [isInteger]

/-- Exact numbers keep their values as rationals, none of them left out. -/
theorem filterMap_toRat?_of_isExact {xs : List Number} (h : ∀ x ∈ xs, x.isExact = true) :
    xs.filterMap toRat? = xs.map exactValue := by
  rw [← List.filterMap_eq_map]
  exact List.filterMap_congr fun x hx => toRat?_eq_some_iff.mpr ⟨h x hx, rfl⟩

/-- No domain is broader than the reals. -/
theorem domain_le_real (x : Number) : x.domain ≤ .real := by
  have hle : ∀ d : Domain, d ≤ .real := by
    intro d
    cases d <;> decide
  exact hle x.domain

/-- The domain of an exact number is not broader than the rationals. -/
theorem domain_le_rational_of_isExact {x : Number} (h : x.isExact = true) :
    x.domain ≤ .rational := by
  cases x with
  | integer n => exact Domain.le_trans (domain_integer_le n) (by decide)
  | rational q => exact Nat.le_refl _
  | real x => cases h

/-- Exact numbers of which one is no integer are brought together as rationals. -/
theorem unify_rationals {xs : List Number} (hex : ∀ x ∈ xs, x.isExact = true)
    (hint : xs.all isInteger = false) :
    Operands.unify xs = .ok (.rationals (xs.map exactValue)) := by
  have hbroadest : Domain.broadest (xs.map domain) = some .rational := by
    rw [Domain.broadest_eq_some_iff]
    refine ⟨?_, List.forall_mem_map.mpr fun x hx => domain_le_rational_of_isExact (hex x hx)⟩
    obtain ⟨x, hx, hxint⟩ := List.all_eq_false.mp hint
    refine List.mem_map.mpr ⟨x, hx, ?_⟩
    have hxex := hex x hx
    cases x with
    | integer n => exact absurd rfl hxint
    | rational q => rfl
    | real x => cases hxex
  unfold Operands.unify
  rw [hbroadest, filterMap_toRat?_of_isExact hex]

/-- Operands that are not all exact become reals. -/
theorem unify_of_not_isExact {xs : List Number} (h : ¬ ∀ x ∈ xs, x.isExact = true) :
    Operands.unify xs = (xs.mapM finiteReal).map .reals := by
  have hbroadest : Domain.broadest (xs.map domain) = some .real := by
    rw [Domain.broadest_eq_some_iff]
    refine ⟨?_, List.forall_mem_map.mpr fun x _ => domain_le_real x⟩
    obtain ⟨x, hx⟩ := Classical.not_forall.mp h
    obtain ⟨hx, hxex⟩ := Classical.not_imp.mp hx
    refine List.mem_map.mpr ⟨x, hx, ?_⟩
    cases x with
    | integer n => exact absurd rfl hxex
    | rational q => exact absurd rfl hxex
    | real x => rfl
  unfold Operands.unify
  rw [hbroadest]

/-- Operands that are not all exact are added as reals, from left to right. -/
theorem sum_of_not_isExact {xs : List Number} (h : ¬ ∀ x ∈ xs, x.isExact = true) :
    sum xs = (xs.mapM finiteReal).map (foldReals (· + ·) zero) := by
  rw [sum, unify_of_not_isExact h]
  cases xs.mapM finiteReal <;> rfl

/-- Operands that are not all exact are multiplied as reals, from left to right. -/
theorem product_of_not_isExact {xs : List Number} (h : ¬ ∀ x ∈ xs, x.isExact = true) :
    product xs = (xs.mapM finiteReal).map (foldReals (· * ·) one) := by
  rw [product, unify_of_not_isExact h]
  cases xs.mapM finiteReal <;> rfl

/-- Only infinities are turned away before an operation on reals. -/
theorem finiteReal_eq_ok_iff {x : Number} {r : Real256} :
    x.finiteReal = .ok r ↔ x.toReal = .finite r := by
  rcases x with n | q | r | s <;> simp [finiteReal, toReal]

/-- Conversion to reals leaves no operand out. -/
theorem mapM_finiteReal_eq_ok_iff {xs : List Number} {rs : List Real256} :
    xs.mapM finiteReal = .ok rs ↔ xs.map toReal = rs.map .finite := by
  induction xs generalizing rs with
  | nil =>
    constructor
    · rintro ⟨⟩
      rfl
    · intro h
      rw [List.map_eq_nil_iff.mp h.symm]
      rfl
  | cons x xs ih =>
    rw [List.mapM_cons, List.map_cons]
    constructor
    · intro h
      cases hx : x.finiteReal with
      | error err => rw [hx] at h; cases h
      | ok r =>
        cases hxs : xs.mapM finiteReal with
        | error err => rw [hx, hxs] at h; cases h
        | ok rs =>
          rw [hx, hxs] at h
          cases h
          rw [finiteReal_eq_ok_iff.mp hx, ih.mp hxs, List.map_cons]
    · intro h
      cases rs with
      | nil => cases h
      | cons r rs =>
        rw [List.map_cons, List.cons.injEq] at h
        rw [finiteReal_eq_ok_iff.mpr h.1, ih.mpr h.2]
        rfl

/-- What operands are brought to: integers if all of them are, rationals if all
of them are exact and one is no integer, and otherwise at least one real. -/
theorem unify_cases {xs : List Number} {o : Operands} (h : Operands.unify xs = .ok o) :
    (∃ ns, xs = ns.map integer ∧ o = .integers ns) ∨
    ((∀ x ∈ xs, x.isExact = true) ∧ xs.all isInteger = false ∧
      o = .rationals (xs.map exactValue)) ∨
    ((¬ ∀ x ∈ xs, x.isExact = true) ∧ ∃ r rs, o = .reals (r :: rs)) := by
  cases hint : xs.all isInteger with
  | true =>
    obtain ⟨ns, rfl⟩ := exists_eq_map_integer hint
    rw [unify_integers] at h
    cases h
    exact .inl ⟨ns, rfl, rfl⟩
  | false =>
    by_cases hex : ∀ x ∈ xs, x.isExact = true
    · rw [unify_rationals hex hint] at h
      cases h
      exact .inr (.inl ⟨hex, rfl, rfl⟩)
    · rw [unify_of_not_isExact hex] at h
      cases hrs : xs.mapM finiteReal with
      | error err => rw [hrs] at h; cases h
      | ok rs =>
        rw [hrs] at h
        cases h
        refine .inr (.inr ⟨hex, ?_⟩)
        cases rs with
        | nil =>
          cases List.map_eq_nil_iff.mp (mapM_finiteReal_eq_ok_iff.mp hrs)
          cases hint
        | cons r rs => exact ⟨r, rs, rfl⟩

/-- Exact operands can always be brought together. -/
theorem unify_of_isExact {xs : List Number} (h : ∀ x ∈ xs, x.isExact = true) :
    ∃ o, Operands.unify xs = .ok o := by
  cases hint : xs.all isInteger with
  | true =>
    obtain ⟨ns, rfl⟩ := exists_eq_map_integer hint
    exact ⟨_, unify_integers ns⟩
  | false => exact ⟨_, unify_rationals h hint⟩

/-! ## sums and products -/

/-- The values of exact numbers combined by an operation. -/
def total (op : Rat → Rat → Rat) (unit : Rat) (xs : List Number) : Rat :=
  (xs.map exactValue).foldr op unit

/-- `fold` combines exact numbers exactly: it combines their values by a
commutative operation, and the result is an integer when all operands are.  A
result that is exact shows that the operands were. -/
structure ExactFold (fold : List Number → Except NumericError Number)
    (op : Rat → Rat → Rat) (unit : Rat) : Prop where
  comm : ∀ a b, op a b = op b a
  assoc : ∀ a b c, op (op a b) c = op a (op b c)
  unit_op : ∀ a, op unit a = a
  fold_of_isExact : ∀ {xs : List Number}, (∀ x ∈ xs, x.isExact = true) →
    ∃ s, fold xs = .ok s ∧ s.isExact = true ∧ s.exactValue = total op unit xs ∧
      s.isInteger = xs.all isInteger
  isExact_of_fold : ∀ {xs : List Number} {s : Number}, fold xs = .ok s → s.isExact = true →
    ∀ x ∈ xs, x.isExact = true

/-- Sums are exact on exact numbers. -/
theorem exactFold_sum : ExactFold sum (· + ·) 0 where
  comm := add_comm
  assoc := add_assoc
  unit_op := zero_add
  fold_of_isExact {xs} h := by
    obtain ⟨o, ho⟩ := unify_of_isExact h
    rcases unify_cases ho with ⟨ns, rfl, rfl⟩ | ⟨-, hint, rfl⟩ | ⟨hex, -⟩
    · refine ⟨_, sum_integers ns, rfl, ?_, (all_isInteger_map ns).symm⟩
      change ((ns.foldl (· + ·) 0 : Int) : Rat) = ((ns.map integer).map exactValue).sum
      rw [← List.sum_eq_foldl, Int.cast_list_sum, List.map_map]
      rfl
    · refine ⟨.rational ((xs.map exactValue).foldl (· + ·) 0), ?_, rfl, ?_, hint.symm⟩
      · simp [sum, ho, bind, Except.bind]
      · exact (List.sum_eq_foldl).symm
    · exact absurd h hex
  isExact_of_fold {xs s} hs hex := by
    cases ho : Operands.unify xs with
    | error e => simp [sum, ho, bind, Except.bind] at hs
    | ok o =>
      rcases unify_cases ho with ⟨ns, rfl, rfl⟩ | ⟨h, -⟩ | ⟨-, r, rs, rfl⟩
      · simp [isExact]
      · exact h
      · simp only [sum, ho, bind, Except.bind, foldReals] at hs
        cases hs
        cases hex

/-- Products are exact on exact numbers. -/
theorem exactFold_product : ExactFold product (· * ·) 1 where
  comm := mul_comm
  assoc := mul_assoc
  unit_op := one_mul
  fold_of_isExact {xs} h := by
    obtain ⟨o, ho⟩ := unify_of_isExact h
    rcases unify_cases ho with ⟨ns, rfl, rfl⟩ | ⟨-, hint, rfl⟩ | ⟨hex, -⟩
    · refine ⟨_, product_integers ns, rfl, ?_, (all_isInteger_map ns).symm⟩
      change ((ns.foldl (· * ·) 1 : Int) : Rat) = ((ns.map integer).map exactValue).prod
      rw [← List.prod_eq_foldl, Int.cast_list_prod, List.map_map]
      rfl
    · refine ⟨.rational ((xs.map exactValue).foldl (· * ·) 1), ?_, rfl, ?_, hint.symm⟩
      · simp [product, ho, bind, Except.bind]
      · exact (List.prod_eq_foldl).symm
    · exact absurd h hex
  isExact_of_fold {xs s} hs hex := by
    cases ho : Operands.unify xs with
    | error e => simp [product, ho, bind, Except.bind] at hs
    | ok o =>
      rcases unify_cases ho with ⟨ns, rfl, rfl⟩ | ⟨h, -⟩ | ⟨-, r, rs, rfl⟩
      · simp [isExact]
      · exact h
      · simp only [product, ho, bind, Except.bind, foldReals] at hs
        cases hs
        cases hex

namespace ExactFold

variable {fold : List Number → Except NumericError Number} {op : Rat → Rat → Rat} {unit : Rat}

/-- The result is exact if and only if all the numbers are. -/
theorem isExact_iff (hf : ExactFold fold op unit) {xs : List Number} {s : Number}
    (h : fold xs = .ok s) : s.isExact = true ↔ ∀ x ∈ xs, x.isExact = true := by
  refine ⟨hf.isExact_of_fold h, fun hexact => ?_⟩
  obtain ⟨t, ht, htexact, -⟩ := hf.fold_of_isExact hexact
  cases ht.symm.trans h
  exact htexact

/-- The total of two lists is that of the one with that of the other. -/
theorem total_append (hf : ExactFold fold op unit) (xs ys : List Number) :
    total op unit (xs ++ ys) = op (total op unit xs) (total op unit ys) := by
  induction xs with
  | nil => exact (hf.unit_op _).symm
  | cons x xs ih =>
    change op x.exactValue (total op unit (xs ++ ys)) = _
    rw [ih, ← hf.assoc]
    rfl

/-- The total of one number is its value. -/
theorem total_singleton (hf : ExactFold fold op unit) (x : Number) :
    total op unit [x] = x.exactValue := by
  change op x.exactValue unit = x.exactValue
  rw [hf.comm, hf.unit_op]

/-- A total does not depend on the order of the numbers. -/
theorem total_perm (hf : ExactFold fold op unit) {xs ys : List Number} (h : xs.Perm ys) :
    total op unit xs = total op unit ys := by
  induction h with
  | nil => rfl
  | cons x _ ih => exact congrArg (op x.exactValue) ih
  | swap x y xs =>
    change op y.exactValue (op x.exactValue (total op unit xs)) =
      op x.exactValue (op y.exactValue (total op unit xs))
    rw [← hf.assoc, hf.comm y.exactValue, hf.assoc]
  | trans _ _ ih₁ ih₂ => exact ih₁.trans ih₂

end ExactFold

/-! ## narrower representations -/

/-- `y` has the value of `x`, in a representation that is no wider. -/
structure Narrows (y x : Number) : Prop where
  exact_left : y.isExact = true
  exact_right : x.isExact = true
  value : y.exactValue = x.exactValue
  integer : x.isInteger = true → y.isInteger = true

namespace Narrows

variable {x y : Number}

/-- An exact number is no wider than itself. -/
protected theorem refl (h : x.isExact = true) : Narrows x x := ⟨h, h, rfl, id⟩

/-- Below an integer there is only the integer itself. -/
theorem eq_integer {n : Int} (h : Narrows y (.integer n)) : y = .integer n := by
  obtain ⟨m, rfl⟩ := eq_integer_of_isInteger (h.integer rfl)
  have := h.value
  simp only [exactValue, Int.cast_inj] at this
  rw [this]

/-- Both numbers are equal in the numeric order. -/
theorem order_eq (h : Narrows y x) : y.order x = .eq := by
  obtain ⟨hy, hx, hv, -⟩ := h
  cases y <;> cases x <;> simp_all [isExact, exactValue, order, orderRat]

/-- Opposites are represented alike. -/
theorem neg (h : Narrows y x) : Narrows (-y) (-x) := by
  obtain ⟨hy, hx, hv, hi⟩ := h
  cases y <;> cases x <;> simp_all [isExact, exactValue, isInteger] <;> constructor <;>
    simp_all [isExact, exactValue, isInteger]

end Narrows

/-- The members of `ys` come to what those of `xs` come to, in no wider
representation. -/
structure TotalNarrows (op : Rat → Rat → Rat) (unit : Rat) (ys xs : List Number) : Prop where
  exact_left : ∀ y ∈ ys, y.isExact = true
  exact_right : ∀ x ∈ xs, x.isExact = true
  total : total op unit ys = total op unit xs
  integer : xs.all isInteger = true → ys.all isInteger = true

namespace TotalNarrows

variable {fold : List Number → Except NumericError Number} {op : Rat → Rat → Rat} {unit : Rat}
  {xs ys xs' ys' : List Number} {x y : Number}

/-- Exact numbers stand for themselves in a total. -/
protected theorem refl (h : ∀ x ∈ xs, x.isExact = true) : TotalNarrows op unit xs xs :=
  ⟨h, h, rfl, id⟩

/-- Nothing stands for nothing. -/
theorem nil : TotalNarrows op unit [] [] := .refl (by simp)

/-- Totals of two parts make a total of both. -/
theorem append (hf : ExactFold fold op unit) (h : TotalNarrows op unit ys xs)
    (h' : TotalNarrows op unit ys' xs') : TotalNarrows op unit (ys ++ ys') (xs ++ xs') where
  exact_left y hy := (List.mem_append.mp hy).elim (h.exact_left y) (h'.exact_left y)
  exact_right x hx := (List.mem_append.mp hx).elim (h.exact_right x) (h'.exact_right x)
  total := by rw [hf.total_append, hf.total_append, h.total, h'.total]
  integer hi := by
    rw [List.all_append, Bool.and_eq_true] at hi ⊢
    exact ⟨h.integer hi.1, h'.integer hi.2⟩

/-- The members may be put in another order. -/
theorem perm (hf : ExactFold fold op unit) (h : TotalNarrows op unit ys xs)
    (hp : ys.Perm ys') : TotalNarrows op unit ys' xs where
  exact_left y hy := h.exact_left y (hp.mem_iff.mpr hy)
  exact_right := h.exact_right
  total := by rw [← h.total, hf.total_perm hp]
  integer hi := by
    rw [← h.integer hi, Bool.eq_iff_iff, List.all_eq_true, List.all_eq_true]
    exact forall_congr' fun y => imp_congr_left hp.mem_iff.symm

/-- A member that is neutral may be left out. -/
theorem drop_unit (hf : ExactFold fold op unit) (h : TotalNarrows op unit (ys ++ [y]) xs)
    (hy : y.exactValue = unit) : TotalNarrows op unit ys xs where
  exact_left z hz := h.exact_left z (List.mem_append_left _ hz)
  exact_right := h.exact_right
  total := by
    rw [← h.total, hf.total_append, hf.total_singleton, hy, hf.comm, hf.unit_op]
  integer hi := by
    have := h.integer hi
    rw [List.all_append, Bool.and_eq_true] at this
    exact this.1

/-- Some members may be replaced by what they come to. -/
theorem collect (hf : ExactFold fold op unit) (h : TotalNarrows op unit (ys ++ ys') xs)
    (hy : fold ys' = .ok y) : TotalNarrows op unit (ys ++ [y]) xs := by
  obtain ⟨s, hs, hse, hsv, hsi⟩ :=
    hf.fold_of_isExact fun z hz => h.exact_left z (List.mem_append_right ys hz)
  cases hs.symm.trans hy
  refine ⟨?_, h.exact_right, ?_, ?_⟩
  · intro z hz
    rcases List.mem_append.mp hz with hz | hz
    · exact h.exact_left z (List.mem_append_left _ hz)
    · rwa [List.mem_singleton.mp hz]
  · rw [← h.total, hf.total_append, hf.total_append, hf.total_singleton, hsv]
  · intro hi
    have := h.integer hi
    simpa [List.all_append, hsi] using this

/-- A factor zero stands for the whole product. -/
theorem absorb (h : TotalNarrows (· * ·) 1 (y :: ys) xs) (hy : y.exactValue = 0) :
    TotalNarrows (· * ·) 1 [y] xs where
  exact_left z hz := h.exact_left z (List.mem_singleton.mp hz ▸ List.mem_cons_self)
  exact_right := h.exact_right
  total := by
    rw [← h.total]
    change y.exactValue * 1 = y.exactValue * Number.total (· * ·) 1 ys
    rw [hy, zero_mul, zero_mul]
  integer hi := by
    have := h.integer hi
    rw [List.all_cons, Bool.and_eq_true] at this
    simpa using this.1

/-- One number stands for another in a total. -/
theorem singleton (h : Narrows y x) : TotalNarrows op unit [y] [x] where
  exact_left z hz := List.mem_singleton.mp hz ▸ h.exact_left
  exact_right z hz := List.mem_singleton.mp hz ▸ h.exact_right
  total := congrArg (op · unit) h.value
  integer hi := by simpa using h.integer (by simpa using hi)

/-- Members that come to `x` narrow down to whatever `x` narrows down to. -/
theorem of_fold (hf : ExactFold fold op unit) (h : Narrows y x) (hy : fold ys = .ok y) :
    TotalNarrows op unit ys [x] := by
  have hex := hf.isExact_of_fold hy h.exact_left
  obtain ⟨s, hs, -, hv, hi⟩ := hf.fold_of_isExact hex
  cases hs.symm.trans hy
  refine ⟨hex, by simpa using h.exact_right, ?_, ?_⟩
  · rw [← hv, hf.total_singleton, h.value]
  · intro hx
    rw [← hi]
    exact h.integer (by simpa using hx)

/-- What the narrower members come to is narrower. -/
theorem fold_eq (hf : ExactFold fold op unit) (h : TotalNarrows op unit ys xs)
    (hx : fold xs = .ok x) : ∃ y, fold ys = .ok y ∧ Narrows y x := by
  obtain ⟨s, hs, hse, hsv, hsi⟩ := hf.fold_of_isExact h.exact_right
  cases hs.symm.trans hx
  obtain ⟨t, ht, hte, htv, hti⟩ := hf.fold_of_isExact h.exact_left
  refine ⟨t, ht, hte, hse, ?_, ?_⟩
  · rw [hsv, htv, h.total]
  · rw [hsi, hti]
    exact h.integer

/-- A single narrower member stands for all of `xs`. -/
theorem narrows (hf : ExactFold fold op unit) (h : TotalNarrows op unit [y] xs)
    (hx : fold xs = .ok x) : Narrows y x := by
  obtain ⟨s, hs, hse, hsv, hsi⟩ := hf.fold_of_isExact h.exact_right
  cases hs.symm.trans hx
  refine ⟨h.exact_left y List.mem_cons_self, hse, ?_, ?_⟩
  · rw [hsv, ← h.total, hf.total_singleton]
  · intro hi
    simpa using h.integer (hsi ▸ hi)

end TotalNarrows

/-! ## operations on one number -/

section

variable {x : Number}

/-- Exact numbers are finite. -/
theorem isFinite_of_isExact (h : x.isExact = true) : x.isFinite = true := by
  cases x <;> simp_all [isExact, isFinite]

@[simp] theorem isExact_neg (x : Number) : (-x).isExact = x.isExact := by
  cases x <;> rfl

@[simp] theorem exactValue_neg (x : Number) : (-x).exactValue = -x.exactValue := by
  cases x <;> simp [exactValue]

/-- The opposite of the opposite of an exact number is the number, in its representation. -/
theorem neg_neg_of_isExact (h : x.isExact = true) : -(-x) = x := by
  cases x <;> simp_all [isExact]

/-- An exact number is zero if its value is. -/
theorem isZero_iff_of_isExact (h : x.isExact = true) :
    x.isZero = true ↔ x.exactValue = 0 := by
  cases x <;> simp_all [isExact, isZero, exactValue]

/-- An exact number is one if its value is. -/
theorem isOne_iff_of_isExact (h : x.isExact = true) :
    x.isOne = true ↔ x.exactValue = 1 := by
  cases x <;> simp_all [isExact, isOne, exactValue]

/-- Whether an exact number is zero depends on its value alone. -/
theorem isZero_congr {y : Number} (hx : x.isExact = true) (hy : y.isExact = true)
    (h : x.exactValue = y.exactValue) : x.isZero = y.isZero := by
  rw [Bool.eq_iff_iff, isZero_iff_of_isExact hx, isZero_iff_of_isExact hy, h]

/-- Whether an exact number is one depends on its value alone. -/
theorem isOne_congr {y : Number} (hx : x.isExact = true) (hy : y.isExact = true)
    (h : x.exactValue = y.exactValue) : x.isOne = y.isOne := by
  rw [Bool.eq_iff_iff, isOne_iff_of_isExact hx, isOne_iff_of_isExact hy, h]

/-- An exact number is whole if the denominator of its value is one. -/
theorem isIntegral_iff_of_isExact (h : x.isExact = true) :
    x.isIntegral = true ↔ x.exactValue.den = 1 := by
  cases x <;> simp_all [isExact, isIntegral, exactValue]

/-- An exact number is below zero if the numerator of its value is. -/
theorem isNegative_iff_of_isExact (h : x.isExact = true) :
    x.isNegative = true ↔ x.exactValue.num < 0 := by
  cases x <;> simp_all [isExact, isNegative, exactValue]

/-- The whole part of an exact number divides numerator by denominator, toward zero. -/
theorem truncate_of_isExact (h : x.isExact = true) :
    x.truncate = .ok (x.exactValue.num.tdiv x.exactValue.den) := by
  cases x <;> simp_all [isExact, truncate, exactValue]

/-- The reciprocal of an exact number is a rational, also where it is whole. -/
theorem inv_of_isExact (h : x.isExact = true) :
    x.inv = if x.exactValue = 0 then .error .divisionByZero
      else .ok (.rational x.exactValue⁻¹) := by
  cases x with
  | integer n =>
    by_cases hn : n = 0
    · simp [inv, isZero, exactValue, hn]
    · simp only [inv, isZero, exactValue, hn, decide_false, Bool.false_eq_true, if_false,
        Int.cast_eq_zero]
      rw [← Rat.divInt_one, Rat.inv_divInt]
  | rational q =>
    by_cases hq : q = 0
    · simp [inv, isZero, exactValue, hq]
    · simp [inv, isZero, exactValue, hq]
  | real x => cases h

/-- Only an exact number has an exact reciprocal. -/
theorem isExact_of_inv {y : Number} (h : x.inv = .ok y) (hy : y.isExact = true) :
    x.isExact = true := by
  cases x with
  | integer n => rfl
  | rational q => rfl
  | real x =>
    unfold inv at h
    split at h
    · cases h
    · cases x <;> cases h
      cases hy

/-- An exact number is at most as wide as the reciprocal of its reciprocal. -/
theorem narrows_of_inv_inv {y z : Number} (hx : x.isExact = true) (hy : x.inv = .ok y)
    (hz : y.inv = .ok z) : Narrows x z := by
  rw [inv_of_isExact hx] at hy
  split at hy
  · cases hy
  · cases hy
    rw [inv_of_isExact rfl] at hz
    split at hz
    · cases hz
    · cases hz
      exact ⟨hx, rfl, (inv_inv _).symm, nofun⟩

/-- The reciprocal of the opposite is the opposite of the reciprocal. -/
theorem inv_neg_of_isExact {y : Number} (hx : x.isExact = true) (hy : (-x).inv = .ok y) :
    ∃ z, x.inv = .ok z ∧ z.isExact = true ∧ -z = y := by
  rw [inv_of_isExact (by simpa using hx)] at hy
  simp only [exactValue_neg, neg_eq_zero] at hy
  rw [inv_of_isExact hx]
  split at hy
  · cases hy
  · rename_i hne
    cases hy
    refine ⟨_, if_neg hne, rfl, ?_⟩
    rw [neg_rational, inv_neg]

/-- The reciprocal of an exact number is exact. -/
theorem isExact_of_eq_inv {y : Number} (hx : x.isExact = true) (h : x.inv = .ok y) :
    y.isExact = true := by
  rw [inv_of_isExact hx] at h
  split at h
  · cases h
  · cases h
    rfl

/-- Rounding leads to an integer, wherever it starts. -/
theorem isExact_of_round {mode : RoundMode} {y : Number} (h : x.round mode = .ok y) :
    y.isExact = true := by
  unfold round at h
  cases ht : x.truncate with
  | error e => simp [ht, bind, Except.bind] at h
  | ok n =>
    simp only [ht, bind, Except.bind] at h
    cases h
    rfl

/-- A factorial is an integer. -/
theorem isExact_of_factorial {y : Number} (h : x.factorial = .ok y) : y.isExact = true := by
  cases x with
  | integer n =>
    rw [(factorial_integer_eq_ok_iff.mp h).2]
    rfl
  | rational q => cases h
  | real x => cases h

/-- The fractional part of an exact number is exact, and an integer when the
number is. -/
theorem frac_of_isExact (h : x.isExact = true) :
    ∃ y, x.frac = .ok y ∧ y.isExact = true ∧ y.isInteger = x.isInteger ∧
      y.exactValue = x.exactValue - (x.exactValue.num.tdiv x.exactValue.den : Int) := by
  have hround : x.round .inward = .ok (.integer (x.exactValue.num.tdiv x.exactValue.den)) := by
    simp [round, truncate_of_isExact h, bind, Except.bind, RoundMode.step]
  have hsum : ∀ n : Int, sum [.integer n] = .ok (.integer n) := fun n => sum_singleton rfl
  cases x with
  | integer n =>
    refine ⟨.integer (n - n), ?_, rfl, rfl, ?_⟩
    · simp [frac, hround, sub, bind, Except.bind, OperandPair.unify, exactValue, hsum]
    · simp [exactValue]
  | rational q =>
    refine ⟨.rational (q - (q.num.tdiv q.den : Int)), ?_, rfl, rfl, rfl⟩
    simp [frac, hround, sub, bind, Except.bind, OperandPair.unify, exactValue, hsum]
  | real x => cases h

end

/-! ## operations on a narrower number -/

namespace Narrows

variable {x y : Number}

/-- A narrower representation is whole if the wider one is. -/
theorem isIntegral_eq (h : Narrows y x) : y.isIntegral = x.isIntegral := by
  rw [Bool.eq_iff_iff, isIntegral_iff_of_isExact h.exact_left,
    isIntegral_iff_of_isExact h.exact_right, h.value]

/-- A narrower representation has the sign of the wider one. -/
theorem isNegative_eq (h : Narrows y x) : y.isNegative = x.isNegative := by
  rw [Bool.eq_iff_iff, isNegative_iff_of_isExact h.exact_left,
    isNegative_iff_of_isExact h.exact_right, h.value]

/-- Both representations have one reciprocal. -/
theorem inv_eq (h : Narrows y x) : y.inv = x.inv := by
  rw [inv_of_isExact h.exact_left, inv_of_isExact h.exact_right, h.value]

/-- Both representations are rounded to the same integer. -/
theorem round_eq (h : Narrows y x) (mode : RoundMode) : y.round mode = x.round mode := by
  unfold round
  rw [truncate_of_isExact h.exact_left, truncate_of_isExact h.exact_right, h.value,
    h.isIntegral_eq, h.isNegative_eq]

/-- The fractional part in the narrower representation is no wider than in the other. -/
theorem frac (h : Narrows y x) {z : Number} (hz : x.frac = .ok z) :
    ∃ w, y.frac = .ok w ∧ Narrows w z := by
  obtain ⟨w, hw, hwe, hwi, hwv⟩ := frac_of_isExact h.exact_left
  obtain ⟨z', hz', hze, hzi, hzv⟩ := frac_of_isExact h.exact_right
  cases hz'.symm.trans hz
  refine ⟨w, hw, hwe, hze, ?_, ?_⟩
  · rw [hwv, hzv, h.value]
  · rw [hwi, hzi]
    exact h.integer

/-- Only an integer has a factorial, and only itself is below it. -/
theorem factorial_eq (h : Narrows y x) {z : Number} (hz : x.factorial = .ok z) : y = x := by
  cases x with
  | integer n => exact h.eq_integer
  | rational q => cases hz
  | real x => cases hz

end Narrows

end SymCalc.Number
