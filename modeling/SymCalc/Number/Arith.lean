import SymCalc.Number.Basic

/-!
# SymCalc.Number.Arith

Sums, products, differences and quotients of numbers.

1. Operands are brought to the representation of their common domain
   (`Operands.unify`), and the operation is carried out there: integers stay
   integers, one rational makes all operands rational, one real makes them real;
2. in the reals a list is folded from its first operand to its last, with one
   rounding per step; exact operations do not round;
3. an infinite operand is turned away before any operation.

Main statements: `sum_integers`, `product_integers`, and that a finite number
is the sum and the product of itself alone (`sum_singleton`,
`product_singleton`).
-/

namespace SymCalc

/-! ## common representation -/

/-- Operands in one representation. -/
inductive Operands where
  | integers (values : List Int)
  | rationals (values : List Rat)
  | reals (values : List Real256)

namespace Operands

/-- Operands in the representation of the narrowest domain that holds all of them:
each is converted to it, and what has no such conversion is left out. -/
def unify (xs : List Number) : Except NumericError Operands :=
  match Domain.broadest (xs.map Number.domain) with
  | some .real => (xs.mapM Number.finiteReal).map .reals
  | some .rational => .ok (.rationals (xs.filterMap Number.toRat?))
  | _ => .ok (.integers (xs.filterMap Number.toInt?))

end Operands

/-- Two operands in one representation. -/
inductive OperandPair where
  | integers (a b : Int)
  | rationals (a b : Rat)
  | reals (a b : Real256)

/-- Two operands in the narrowest representation that holds both. -/
def OperandPair.unify : Number → Number → Except NumericError OperandPair
  | .integer a, .integer b => .ok (.integers a b)
  | .integer a, .rational b => .ok (.rationals a b)
  | .rational a, .integer b => .ok (.rationals a b)
  | .rational a, .rational b => .ok (.rationals a b)
  | a, b => do
    let a ← a.finiteReal
    let b ← b.finiteReal
    .ok (.reals a b)

namespace Number

/-- The reals of a list combined from the first to the last, one rounding for
each after the first; `empty` where there is none. -/
def foldReals (op : Real256 → Real256 → Real256) (empty : Number) : List Real256 → Number
  | [] => empty
  | x :: xs => .real (.finite (xs.foldl op x))

/-! ## sums and products -/

/-- The sum of a list; the empty sum is the integer `0`. -/
def sum (xs : List Number) : Except NumericError Number := do
  match ← Operands.unify xs with
  | .integers ns => .ok (.integer (ns.foldl (· + ·) 0))
  | .rationals qs => .ok (.rational (qs.foldl (· + ·) 0))
  | .reals rs => .ok (foldReals (· + ·) zero rs)

/-- The product of a list; the empty product is the integer `1`. -/
def product (xs : List Number) : Except NumericError Number := do
  match ← Operands.unify xs with
  | .integers ns => .ok (.integer (ns.foldl (· * ·) 1))
  | .rationals qs => .ok (.rational (qs.foldl (· * ·) 1))
  | .reals rs => .ok (foldReals (· * ·) one rs)

/-- `a` less the sum of `bs`; with nothing to subtract, `a` itself. -/
def sub (a : Number) (bs : List Number) : Except NumericError Number :=
  if bs.isEmpty then .ok a
  else do
    let b ← sum bs
    match ← OperandPair.unify a b with
    | .integers a b => .ok (.integer (a - b))
    | .rationals a b => .ok (.rational (a - b))
    | .reals a b => .ok (.real (.finite (a - b)))

/-- `a` over the product of `bs`; with nothing to divide by, `a` itself.  A
quotient of integers is a rational. -/
def div (a : Number) (bs : List Number) : Except NumericError Number :=
  if bs.isEmpty then .ok a
  else do
    let b ← product bs
    if b.isZero then .error .divisionByZero
    else
      match ← OperandPair.unify a b with
      | .integers a b => .ok (.rational (Rat.divInt a b))
      | .rationals a b => .ok (.rational (a / b))
      | .reals a b => .ok (.real (.finite (a / b)))

/-- The reciprocal.  That of an integer is a rational. -/
def inv (x : Number) : Except NumericError Number :=
  if x.isZero then .error .divisionByZero
  else
    match x with
    | .integer n => .ok (.rational (Rat.divInt 1 n))
    | .rational q => .ok (.rational q⁻¹)
    | .real (.finite x) => .ok (.real (.finite (1 / x)))
    | .real (.infinite _) => .error .nonFiniteOperand

/-- `a` and `b` are at most `epsilon` apart. -/
def near (a b epsilon : Number) : Except NumericError Bool := do
  let distance ← sub a [b]
  .ok (distance.abs ≤ epsilon)

/-! ## common domain -/

/-- The domain of an integer is inside the integers. -/
theorem domain_integer_le (n : Int) : (integer n).domain ≤ .integer := by
  have h : (integer n).domain = if 0 < n then .positive else if n = 0 then .natural else .integer :=
    rfl
  rw [h]
  split
  · decide
  · split <;> decide

/-- Integers are brought together as they are. -/
theorem unify_integers (ns : List Int) :
    Operands.unify (ns.map integer) = .ok (.integers ns) := by
  have hfilter : (ns.map integer).filterMap toInt? = ns := by
    rw [List.filterMap_map]
    exact List.filterMap_some
  have hle : ∀ d, Domain.broadest ((ns.map integer).map domain) = some d → d ≤ .integer := by
    intro d hd
    obtain ⟨x, hx, rfl⟩ := List.mem_map.mp (Domain.broadest_eq_some_iff.mp hd).1
    obtain ⟨n, -, rfl⟩ := List.mem_map.mp hx
    exact domain_integer_le n
  unfold Operands.unify
  split
  · rename_i h
    exact absurd (hle _ h) (by decide)
  · rename_i h
    exact absurd (hle _ h) (by decide)
  · rw [hfilter]

/-! ## integers stay integers -/

/-- The sum of integers is their exact sum. -/
theorem sum_integers (ns : List Int) :
    sum (ns.map integer) = .ok (.integer (ns.foldl (· + ·) 0)) := by
  simp [sum, unify_integers, bind, Except.bind]

/-- The product of integers is their exact product. -/
theorem product_integers (ns : List Int) :
    product (ns.map integer) = .ok (.integer (ns.foldl (· * ·) 1)) := by
  simp [product, unify_integers, bind, Except.bind]

/-! ## one operand -/

/-- The sum of one finite number is the number, in its own representation. -/
theorem sum_singleton {x : Number} (h : x.isFinite = true) : sum [x] = .ok x := by
  cases x with
  | integer n => simpa using sum_integers [n]
  | rational q =>
    have hsum : sum [.rational q] = .ok (.rational (0 + q)) := rfl
    rw [hsum, Rat.zero_add]
  | real x =>
    cases x with
    | finite x => rfl
    | infinite s => cases h

/-- The product of one finite number is the number, in its own representation. -/
theorem product_singleton {x : Number} (h : x.isFinite = true) : product [x] = .ok x := by
  cases x with
  | integer n => simpa using product_integers [n]
  | rational q =>
    have hproduct : product [.rational q] = .ok (.rational (1 * q)) := rfl
    rw [hproduct, Rat.one_mul]
  | real x =>
    cases x with
    | finite x => rfl
    | infinite s => cases h

end Number

end SymCalc
