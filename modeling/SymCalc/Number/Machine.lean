import SymCalc.Decimal.Shortest
import SymCalc.Number.Basic

/-!
# SymCalc.Number.Machine

Numbers as machine words and as text:

1. `toDouble` is the double of a number's real, narrowed in two steps;
2. `toInt64?` and `toUInt64?` are the whole part toward zero where it fits.
   A real passes through its double first;
3. `text` writes exact numbers in full and reals with the shortest digits of
   their double.
-/

namespace SymCalc

attribute [local instance] Binary.corePow

/-- A real as a double. -/
def ExtReal.toDouble : ExtReal → Double
  | .finite x => .narrow x.value
  | .infinite s => .infinity s

namespace Number

/-- The double of the number as a real. -/
def toDouble (x : Number) : Double := x.toReal.toDouble

/-- The whole part toward zero as machine conversions see it: that of a real is
the whole part of its double. -/
def machineWhole? : Number → Option Int
  | .integer n => some n
  | .rational q => some (q.num.tdiv q.den)
  | .real x =>
    let d := x.toDouble
    if d.isFinite then some (Binary.truncate d.value) else none

/-- The whole part as a signed word, where it fits. -/
def toInt64? (x : Number) : Option Int64 :=
  x.machineWhole?.bind fun n =>
    if -(2 ^ (63 : Nat) : Int) ≤ n ∧ n < 2 ^ (63 : Nat) then some (.ofInt n) else none

/-- The whole part as an unsigned word, where it fits. -/
def toUInt64? (x : Number) : Option UInt64 :=
  x.machineWhole?.bind fun n =>
    if 0 ≤ n ∧ n < 2 ^ (64 : Nat) then some (.ofNat n.toNat) else none

/-! ## text -/

/-- Decimal digits with a leading minus for negative integers. -/
def intText (n : Int) : String := (if n < 0 then "-" else "") ++ Nat.repr n.natAbs

/-- Exact numbers in full, a rational with its denominator unless that is `1`;
reals as their double. -/
def text : Number → String
  | .integer n => intText n
  | .rational q => if q.den = 1 then intText q.num else intText q.num ++ "/" ++ Nat.repr q.den
  | .real x => x.toDouble.text

end Number

end SymCalc
