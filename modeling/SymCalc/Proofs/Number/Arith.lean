import SymCalc.Proofs.Number.RealArith

/-!
# SymCalc.Proofs.Number.Arith

Sums, products, differences and quotients of numbers of all three representations.

1. A list of numbers is combined without losing any of them (`CombinesAll`): exactly if
   all are exact, and otherwise as the reals they convert to, from the first to the last
   and with one rounding for each step;
2. the two operands of a difference or a quotient are brought together with none of them
   changed (`unifyPair_cases`), so that the result is real if and only if an operand is
   (`SubtractsAll`, `DividesAll`);
3. subtracting a number is adding its opposite (`sub_eq_sum_neg`).

Main statement: `arithmetic_loses_no_operand`.
-/

namespace SymCalc.Number

/-! ## conversion -/

/-- The infinite numbers alone are not converted. -/
theorem finiteReal_eq_error_iff {x : Number} {err : NumericError} :
    x.finiteReal = .error err ↔ err = .nonFiniteOperand ∧ x.isFinite = false := by
  rcases x with n | q | r | s <;> simp [finiteReal, isFinite, ExtReal.isFinite, eq_comm]

/-- A list is converted unless one of its numbers is infinite. -/
theorem mapM_finiteReal_eq_error_iff {xs : List Number} {err : NumericError} :
    xs.mapM finiteReal = .error err ↔
      err = .nonFiniteOperand ∧ ∃ x ∈ xs, x.isFinite = false := by
  induction xs with
  | nil => exact iff_of_false (by simp [pure, Except.pure]) (by simp)
  | cons x xs ih =>
    rw [List.mapM_cons, List.exists_mem_cons_iff]
    cases hx : x.finiteReal with
    | error err' =>
      obtain ⟨rfl, hinfinite⟩ := finiteReal_eq_error_iff.mp hx
      have hbind : (do let r ← Except.error NumericError.nonFiniteOperand
                       let rs ← xs.mapM finiteReal
                       pure (r :: rs) : Except NumericError (List Real256)) =
          .error .nonFiniteOperand := rfl
      rw [hbind, Except.error.injEq]
      exact ⟨fun h => ⟨h.symm, .inl hinfinite⟩, fun h => h.1.symm⟩
    | ok r =>
      have hfinite : x.isFinite ≠ false := fun h => by
        rw [finiteReal_eq_error_iff.mpr ⟨rfl, h⟩] at hx
        cases hx
      rw [or_iff_right hfinite, ← ih]
      cases xs.mapM finiteReal with
      | error err' => exact Iff.rfl
      | ok rs => exact iff_of_false (by rintro ⟨⟩) (by simp)

/-! ## lists -/

/-- A list holds a real if and only if not all of it is exact. -/
theorem exists_isExact_eq_false_iff {xs : List Number} :
    (∃ x ∈ xs, x.isExact = false) ↔ ¬∀ x ∈ xs, x.isExact = true := by
  simp

/-- Reals combined from the first to the last, by an exact operation that is rounded to
the nearest real after each step. -/
def foldRounded (op : Rat → Rat → Rat) (r : Real256) (rs : List Real256) : Real256 :=
  rs.foldl (fun s x => .nearest (op s.value.toRat x.value.toRat)) r

/-- `fold` combines all the numbers of a list.

1. Exact numbers come to the exact total, which is an integer if and only if all of them
   are;
2. the list is refused if and only if one of its numbers is infinite, and for that reason;
3. otherwise, with a real among them, all are converted to reals and these are combined. -/
structure CombinesAll (fold : List Number → Except NumericError Number)
    (op : Rat → Rat → Rat) (unit : Rat) (xs : List Number) : Prop where
  exact : (∀ x ∈ xs, x.isExact = true) → ∃ s, fold xs = .ok s ∧ s.isExact = true ∧
    s.exactValue = total op unit xs ∧ s.isInteger = xs.all isInteger
  infinite : ∀ err, fold xs = .error err ↔
    err = .nonFiniteOperand ∧ ∃ x ∈ xs, x.isFinite = false
  real : (∃ x ∈ xs, x.isExact = false) → (∀ x ∈ xs, x.isFinite = true) →
    ∃ r rs, xs.map toReal = (r :: rs).map .finite ∧
      fold xs = .ok (.real (.finite (foldRounded op r rs)))

section lists

variable {fold : List Number → Except NumericError Number} {op : Rat → Rat → Rat} {unit : Rat}

/-- A list is combined as reals by an operation that rounds the exact one. -/
theorem combinesAll_of_exactFold {round : Real256 → Real256 → Real256} {empty : Number}
    (hf : ExactFold fold op unit)
    (hround : ∀ x y, round x y = .nearest (op x.value.toRat y.value.toRat))
    (hreals : ∀ xs : List Number, (¬∀ x ∈ xs, x.isExact = true) →
      fold xs = (xs.mapM finiteReal).map (foldReals round empty))
    (xs : List Number) : CombinesAll fold op unit xs where
  exact := hf.fold_of_isExact
  infinite err := by
    rw [← mapM_finiteReal_eq_error_iff]
    by_cases hexact : ∀ x ∈ xs, x.isExact = true
    · obtain ⟨s, hs, -⟩ := hf.fold_of_isExact hexact
      refine iff_of_false (by simp [hs]) fun h => ?_
      obtain ⟨x, hx, hinfinite⟩ := (mapM_finiteReal_eq_error_iff.mp h).2
      rw [isFinite_of_isExact (hexact x hx)] at hinfinite
      cases hinfinite
    · rw [hreals xs hexact]
      cases xs.mapM finiteReal <;> simp [Except.map]
  real hreal hfinite := by
    have hinexact := exists_isExact_eq_false_iff.mp hreal
    rw [hreals xs hinexact]
    cases hrs : xs.mapM finiteReal with
    | error err =>
      obtain ⟨y, hy, hinfinite⟩ := (mapM_finiteReal_eq_error_iff.mp hrs).2
      rw [hfinite y hy] at hinfinite
      cases hinfinite
    | ok rs =>
      have hmap := mapM_finiteReal_eq_ok_iff.mp hrs
      cases rs with
      | nil =>
        rw [List.map_eq_nil_iff.mp hmap] at hinexact
        exact absurd nofun hinexact
      | cons r rs =>
        have hop : round = fun s x => .nearest (op s.value.toRat x.value.toRat) :=
          funext fun s => funext fun x => hround s x
        refine ⟨r, rs, hmap, ?_⟩
        rw [foldRounded, ← hop]
        rfl

theorem combinesAll_sum (xs : List Number) : CombinesAll sum (· + ·) 0 xs :=
  combinesAll_of_exactFold exactFold_sum Real256.add_eq_nearest (fun _ => sum_of_not_isExact) xs

theorem combinesAll_product (xs : List Number) : CombinesAll product (· * ·) 1 xs :=
  combinesAll_of_exactFold exactFold_product Real256.mul_eq_nearest
    (fun _ => product_of_not_isExact) xs

end lists

/-! ## pairs -/

/-- Next to a real, an operand becomes real. -/
theorem unifyPair_of_not_isExact {a b : Number} (h : a.isExact = false ∨ b.isExact = false) :
    OperandPair.unify a b = (do
      let r ← a.finiteReal
      let s ← b.finiteReal
      .ok (.reals r s)) := by
  cases a <;> cases b <;> first | rfl | simp [isExact] at h

/-- What two operands are brought to: integers if both of them are, rationals if both
are exact and one is no integer, and otherwise the reals they convert to. -/
theorem unifyPair_cases (a b : Number) :
    (∃ m n, a = .integer m ∧ b = .integer n ∧
      OperandPair.unify a b = .ok (.integers m n)) ∨
    ((a.isExact = true ∧ b.isExact = true) ∧ (a.isInteger && b.isInteger) = false ∧
      OperandPair.unify a b = .ok (.rationals a.exactValue b.exactValue)) ∨
    (¬(a.isExact = true ∧ b.isExact = true) ∧
      (OperandPair.unify a b = .error .nonFiniteOperand ∨
        ∃ r s, OperandPair.unify a b = .ok (.reals r s))) := by
  obtain ⟨ha, hb⟩ | hreal := isExact_cases a b
  · cases a with
    | real x => cases ha
    | integer m =>
      cases b with
      | real y => cases hb
      | integer n => exact .inl ⟨m, n, rfl, rfl, rfl⟩
      | rational q => exact .inr (.inl ⟨⟨rfl, rfl⟩, rfl, rfl⟩)
    | rational p =>
      cases b with
      | real y => cases hb
      | integer n => exact .inr (.inl ⟨⟨rfl, rfl⟩, rfl, rfl⟩)
      | rational q => exact .inr (.inl ⟨⟨rfl, rfl⟩, rfl, rfl⟩)
  · refine .inr (.inr ⟨fun hexact => by simp [hexact] at hreal, ?_⟩)
    rw [unifyPair_of_not_isExact hreal]
    cases hr : a.finiteReal with
    | error err =>
      rw [(finiteReal_eq_error_iff.mp hr).1]
      exact .inl rfl
    | ok r =>
      cases hs : b.finiteReal with
      | error err =>
        rw [(finiteReal_eq_error_iff.mp hs).1]
        exact .inl rfl
      | ok s => exact .inr ⟨r, s, rfl⟩

/-! ## differences -/

/-- The difference is exact if all the numbers are, and it is real if and only if one of
them is. -/
structure SubtractsAll (a : Number) (bs : List Number) : Prop where
  exact : (∀ x ∈ a :: bs, x.isExact = true) → ∃ y, sub a bs = .ok y ∧ y.isExact = true ∧
    y.exactValue = a.exactValue - total (· + ·) 0 bs ∧ y.isInteger = (a :: bs).all isInteger
  real : ∀ y, sub a bs = .ok y → (y.isExact = false ↔ ∃ x ∈ a :: bs, x.isExact = false)

section

variable {a y : Number} {bs : List Number}

/-- A difference fails as the sum of what is subtracted does. -/
theorem sub_of_sum_eq_error {err : NumericError} (hbs : bs ≠ []) (hs : sum bs = .error err) :
    sub a bs = .error err := by
  rw [sub, if_neg (by simpa using hbs), hs]
  rfl

/-- The ways a difference ends: among integers, among exact numbers, among reals. -/
theorem sub_cases (a : Number) {s : Number} (hbs : bs ≠ []) (hs : sum bs = .ok s) :
    (∃ m n, a = .integer m ∧ s = .integer n ∧ sub a bs = .ok (.integer (m - n))) ∨
    ((a.isExact = true ∧ s.isExact = true) ∧ (a.isInteger && s.isInteger) = false ∧
      sub a bs = .ok (.rational (a.exactValue - s.exactValue))) ∨
    (¬(a.isExact = true ∧ s.isExact = true) ∧
      (sub a bs = .error .nonFiniteOperand ∨
        ∃ r t, sub a bs = .ok (.real (.finite (r - t))))) := by
  rw [sub, if_neg (by simpa using hbs), hs]
  simp only [bind, Except.bind]
  rcases unifyPair_cases a s with ⟨m, n, ha, hs, h⟩ | ⟨hexact, hint, h⟩ | ⟨hreal, h | ⟨r, t, h⟩⟩
  · rw [h]
    exact .inl ⟨m, n, ha, hs, rfl⟩
  · rw [h]
    exact .inr (.inl ⟨hexact, hint, rfl⟩)
  · rw [h]
    exact .inr (.inr ⟨hreal, .inl rfl⟩)
  · rw [h]
    exact .inr (.inr ⟨hreal, .inr ⟨r, t, rfl⟩⟩)

/-- A difference is exact if and only if all the numbers are. -/
theorem isExact_sub_iff (hbs : bs ≠ []) (h : sub a bs = .ok y) :
    y.isExact = true ↔ ∀ x ∈ a :: bs, x.isExact = true := by
  cases hs : sum bs with
  | error err => cases h.symm.trans (sub_of_sum_eq_error hbs hs)
  | ok s =>
    rw [List.forall_mem_cons, ← exactFold_sum.isExact_iff hs]
    rcases sub_cases a hbs hs with ⟨m, n, rfl, rfl, hy⟩ | ⟨hexact, -, hy⟩ |
      ⟨hreal, hy | ⟨r, t, hy⟩⟩
    · cases h.symm.trans hy
      exact iff_of_true rfl ⟨rfl, rfl⟩
    · cases h.symm.trans hy
      exact iff_of_true rfl hexact
    · cases h.symm.trans hy
    · cases h.symm.trans hy
      exact iff_of_false nofun hreal

/-- An exact difference has an exact minuend. -/
theorem isExact_of_sub (h : sub a bs = .ok y) (hy : y.isExact = true) : a.isExact = true := by
  cases bs with
  | nil =>
    cases h
    exact hy
  | cons b bs => exact (isExact_sub_iff (List.cons_ne_nil b bs) h).mp hy a List.mem_cons_self

/-- Differences of any length. -/
theorem subtractsAll (a : Number) (hbs : bs ≠ []) : SubtractsAll a bs where
  exact h := by
    obtain ⟨ha, hexact⟩ := List.forall_mem_cons.mp h
    obtain ⟨s, hs, hsexact, hvalue, hint⟩ := exactFold_sum.fold_of_isExact hexact
    rw [List.all_cons, ← hvalue, ← hint]
    rcases sub_cases a hbs hs with ⟨m, n, rfl, rfl, hy⟩ | ⟨-, hrational, hy⟩ | ⟨hreal, -⟩
    · exact ⟨_, hy, rfl, Int.cast_sub m n, rfl⟩
    · exact ⟨_, hy, rfl, rfl, hrational.symm⟩
    · exact absurd ⟨ha, hsexact⟩ hreal
  real y hy := by
    rw [← Bool.not_eq_true, isExact_sub_iff hbs hy, exists_isExact_eq_false_iff]

end

/-- An exact number is its representation and its value. -/
theorem eq_of_isExact {x y : Number} (hx : x.isExact = true) (hy : y.isExact = true)
    (hint : x.isInteger = y.isInteger) (hvalue : x.exactValue = y.exactValue) : x = y := by
  cases x with
  | real x => cases hx
  | integer m =>
    obtain ⟨n, rfl⟩ := eq_integer_of_isInteger hint.symm
    rw [Int.cast_injective (show (m : Rat) = n from hvalue)]
  | rational p =>
    cases y with
    | real y => cases hy
    | integer n => cases hint
    | rational q => rw [show p = q from hvalue]

@[simp] theorem isInteger_neg (x : Number) : (-x).isInteger = x.isInteger := by
  cases x <;> rfl

@[simp] theorem isFinite_neg (x : Number) : (-x).isFinite = x.isFinite := by
  rcases x with n | q | r | s <;> rfl

theorem finiteReal_neg (x : Number) : (-x).finiteReal = x.finiteReal.map fun r => -r := by
  rcases x with n | q | r | s
  · exact congrArg Except.ok (Real256.ofInt_neg n)
  · exact congrArg Except.ok (realOfRat_neg q)
  · rfl
  · rfl

/-- Subtracting a number is adding its opposite. -/
theorem sub_eq_sum_neg (a b : Number) : sub a [b] = sum [a, -b] := by
  obtain ⟨ha, hb⟩ | hreal := isExact_cases a b
  · obtain ⟨y, hy, hyexact, hyvalue, hyint⟩ :=
      (subtractsAll a (List.cons_ne_nil b [])).exact (by simp [ha, hb])
    obtain ⟨s, hs, hsexact, hsvalue, hsint⟩ :=
      (combinesAll_sum [a, -b]).exact (by simp [ha, hb])
    rw [hy, hs]
    refine congrArg Except.ok (eq_of_isExact hyexact hsexact ?_ ?_)
    · rw [hyint, hsint]
      simp
    · rw [hyvalue, hsvalue]
      simp [total, sub_eq_add_neg]
  · have hinexact : ¬∀ x ∈ [a, -b], x.isExact = true := by
      rw [← exists_isExact_eq_false_iff]
      simpa using hreal
    cases hfinite : b.isFinite with
    | false =>
      have hsum : sum [b] = .error .nonFiniteOperand :=
        ((combinesAll_sum [b]).infinite _).mpr ⟨rfl, b, List.mem_singleton_self b, hfinite⟩
      have hsum' : sum [a, -b] = .error .nonFiniteOperand :=
        ((combinesAll_sum [a, -b]).infinite _).mpr ⟨rfl, -b, by simp, by simpa using hfinite⟩
      rw [sub_of_sum_eq_error (List.cons_ne_nil b []) hsum, hsum']
    | true =>
      rw [sum_of_not_isExact hinexact]
      simp only [sub, sum_singleton hfinite, unifyPair_of_not_isExact hreal, bind, Except.bind,
        List.mapM_cons, finiteReal_neg]
      cases a.finiteReal <;> cases b.finiteReal <;> rfl

/-! ## quotients -/

/-- The quotient of exact numbers is a rational, it is real if and only if one of the
numbers is, and it is refused as a division by zero if and only if the product of the
divisors is found, and found to be zero. -/
structure DividesAll (a : Number) (bs : List Number) : Prop where
  exact : (∀ x ∈ a :: bs, x.isExact = true) → total (· * ·) 1 bs ≠ 0 →
    div a bs = .ok (.rational (a.exactValue / total (· * ·) 1 bs))
  real : ∀ y, div a bs = .ok y → (y.isExact = false ↔ ∃ x ∈ a :: bs, x.isExact = false)
  divisionByZero : div a bs = .error .divisionByZero ↔
    (∀ b ∈ bs, b.isFinite = true) ∧ ∃ p, product bs = .ok p ∧ p.isZero = true

section

variable {a p y : Number} {bs : List Number}

/-- A quotient fails as the product of the divisors does. -/
theorem div_of_product_eq_error {err : NumericError} (hbs : bs ≠ [])
    (hp : product bs = .error err) : div a bs = .error err := by
  rw [div, if_neg (by simpa using hbs), hp]
  rfl

/-- The ways a quotient ends: at a zero, among exact numbers, among reals. -/
theorem div_cases (a : Number) (hbs : bs ≠ []) (hp : product bs = .ok p) :
    (p.isZero = true ∧ div a bs = .error .divisionByZero) ∨
    (p.isZero = false ∧
      ((a.isExact = true ∧ p.isExact = true) ∧
          div a bs = .ok (.rational (a.exactValue / p.exactValue)) ∨
        ¬(a.isExact = true ∧ p.isExact = true) ∧
          (div a bs = .error .nonFiniteOperand ∨
            ∃ r s, div a bs = .ok (.real (.finite (r / s)))))) := by
  rw [div, if_neg (by simpa using hbs), hp]
  simp only [bind, Except.bind]
  cases hzero : p.isZero with
  | true => exact .inl ⟨rfl, rfl⟩
  | false =>
    refine .inr ⟨rfl, ?_⟩
    rw [if_neg Bool.false_ne_true]
    rcases unifyPair_cases a p with ⟨m, n, rfl, rfl, h⟩ | ⟨hexact, -, h⟩ | ⟨hreal, h | ⟨r, s, h⟩⟩
    · rw [h]
      have hquotient : Rat.divInt m n = (integer m).exactValue / (integer n).exactValue :=
        Rat.divInt_eq_div m n
      rw [← hquotient]
      exact .inl ⟨⟨rfl, rfl⟩, rfl⟩
    · rw [h]
      exact .inl ⟨hexact, rfl⟩
    · rw [h]
      exact .inr ⟨hreal, .inl rfl⟩
    · rw [h]
      exact .inr ⟨hreal, .inr ⟨r, s, rfl⟩⟩

/-- A quotient is exact if and only if all the numbers are. -/
theorem isExact_div_iff (hbs : bs ≠ []) (h : div a bs = .ok y) :
    y.isExact = true ↔ ∀ x ∈ a :: bs, x.isExact = true := by
  cases hp : product bs with
  | error err => cases h.symm.trans (div_of_product_eq_error hbs hp)
  | ok p =>
    rw [List.forall_mem_cons, ← exactFold_product.isExact_iff hp]
    rcases div_cases a hbs hp with ⟨-, hy⟩ | ⟨-, ⟨hexact, hy⟩ | ⟨hreal, hy | ⟨r, s, hy⟩⟩⟩
    · cases h.symm.trans hy
    · cases h.symm.trans hy
      exact iff_of_true rfl hexact
    · cases h.symm.trans hy
    · cases h.symm.trans hy
      exact iff_of_false nofun hreal

/-- A quotient is one by zero if and only if the divisors have a product that is zero. -/
theorem div_eq_divisionByZero_iff (hbs : bs ≠ []) :
    div a bs = .error .divisionByZero ↔ ∃ p, product bs = .ok p ∧ p.isZero = true := by
  cases hp : product bs with
  | error err =>
    obtain ⟨rfl, -⟩ := ((combinesAll_product bs).infinite err).mp hp
    rw [div_of_product_eq_error hbs hp]
    exact iff_of_false nofun nofun
  | ok p =>
    rcases div_cases a hbs hp with ⟨hzero, h⟩ | ⟨hzero, ⟨-, h⟩ | ⟨-, h | ⟨r, s, h⟩⟩⟩
    all_goals simp [h, hzero]

/-- A divisor that is not zero is not found to be zero, either.  It is its own
product, in its own representation, unless it is infinite. -/
theorem div_ne_divisionByZero (a : Number) {b : Number} (hb : b.isZero = false) :
    div a [b] ≠ .error .divisionByZero := by
  rw [Ne, div_eq_divisionByZero_iff (List.cons_ne_nil b [])]
  rintro ⟨p, hp, hzero⟩
  cases hfinite : b.isFinite with
  | true =>
    cases hp.symm.trans (product_singleton hfinite)
    rw [hb] at hzero
    cases hzero
  | false =>
    have herror : product [b] = .error .nonFiniteOperand :=
      ((combinesAll_product [b]).infinite _).mpr ⟨rfl, b, List.mem_singleton_self b, hfinite⟩
    cases herror.symm.trans hp

/-- Quotients of any length. -/
theorem dividesAll (a : Number) (hbs : bs ≠ []) : DividesAll a bs where
  exact h hne := by
    obtain ⟨ha, hexact⟩ := List.forall_mem_cons.mp h
    obtain ⟨p, hp, hpexact, hvalue, -⟩ := exactFold_product.fold_of_isExact hexact
    rw [← hvalue] at hne ⊢
    rcases div_cases a hbs hp with ⟨hzero, -⟩ | ⟨-, ⟨-, hy⟩ | ⟨hreal, -⟩⟩
    · exact absurd ((isZero_iff_of_isExact hpexact).mp hzero) hne
    · exact hy
    · exact absurd ⟨ha, hpexact⟩ hreal
  real y hy := by
    rw [← Bool.not_eq_true, isExact_div_iff hbs hy, exists_isExact_eq_false_iff]
  divisionByZero := by
    rw [div_eq_divisionByZero_iff hbs, iff_and_self]
    rintro ⟨p, hp, -⟩ b hb
    by_contra hinfinite
    have herror : product bs = .error .nonFiniteOperand :=
      ((combinesAll_product bs).infinite _).mpr ⟨rfl, b, hb, by simpa using hinfinite⟩
    cases herror.symm.trans hp

end

/-- **Arithmetic loses no operand.**  Sums and products take in every number of a list,
differences and quotients every number on either side, and the difference of two numbers
is the sum of the first and the opposite of the second, errors included. -/
theorem arithmetic_loses_no_operand (xs : List Number) (a b : Number) (bs : List Number) :
    CombinesAll sum (· + ·) 0 xs ∧ CombinesAll product (· * ·) 1 xs ∧
      SubtractsAll a (b :: bs) ∧ DividesAll a (b :: bs) ∧ sub a [b] = sum [a, -b] :=
  ⟨combinesAll_sum xs, combinesAll_product xs, subtractsAll a (List.cons_ne_nil b bs),
    dividesAll a (List.cons_ne_nil b bs), sub_eq_sum_neg a b⟩

end SymCalc.Number
