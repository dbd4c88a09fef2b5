import SymCalc.Number.Basic

/-!
# SymCalc.Number.Factorial

Factorials of small natural numbers.  The argument has to be an integer by its
representation: the rational `4` and the real `4` have no factorial.

Main statement: `factorial_integer_eq_ok_iff`.
-/

namespace SymCalc

/-- The product of the numbers from `1` to `n`. -/
def natFactorial : Nat → Nat
  | 0 => 1
  | n + 1 => natFactorial n * (n + 1)

namespace Number

/-- The factorial of an integer from `0` to `factorialLimit`. -/
def factorial : Number → Except NumericError Number
  | .integer n =>
    if 0 ≤ n ∧ n ≤ factorialLimit then .ok (.integer (natFactorial n.toNat))
    else .error .invalidFactorialArgument
  | _ => .error .invalidFactorialArgument

/-- The integers with a factorial are those from `0` to `factorialLimit`. -/
theorem factorial_integer_eq_ok_iff {n : Int} {x : Number} :
    factorial (.integer n) = .ok x ↔
      (0 ≤ n ∧ n ≤ factorialLimit) ∧ x = .integer (natFactorial n.toNat) := by
  unfold factorial
  simp only
  split
  · rename_i h
    simp [h, eq_comm]
  · rename_i h
    simp [h]

end Number

end SymCalc
