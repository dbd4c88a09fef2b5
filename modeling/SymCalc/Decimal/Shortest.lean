import SymCalc.Binary.Double

/-!
# SymCalc.Decimal.Shortest

The shortest decimal that identifies a double, and its two written forms.

1. `Decimal` is a number of decimal digits with an exponent of ten;
2. `shortest` is the decimal with the fewest digits that rounds to a given
   double, and of those the nearest to it;
3. `Decimal.positional` writes all places out, `Decimal.scientific` one digit
   before the point and an exponent.

With `n` digits the candidates are the two neighbours of the number on the grid
of that many digits: if any point of the grid rounds to the double, so does one
of them.
-/

namespace SymCalc

attribute [local instance] Binary.corePow

/-- The number `digits * 10 ^ exponent`. -/
structure Decimal where
  digits : Nat
  exponent : Int
deriving DecidableEq

namespace Decimal

/-! ## search -/

/-- The numbers that round to a double, as the open interval between
`low / scale` and `high / scale` with its ends where `closed`. -/
structure Interval where
  low : Nat
  value : Nat
  high : Nat
  scale : Nat
  closed : Bool

/-- The interval around `m * 2 ^ place`.  Its ends lie half a place away, or a
quarter below a power of two, where the places get finer. -/
def Interval.around (m : Nat) (place : Int) : Interval :=
  let up := place.toNat
  let fine := m = 2 ^ Double.fractionBits ∧ Double.leastPlace < place
  { low := (4 * m - if fine then 1 else 2) <<< up
    value := (4 * m) <<< up
    high := (4 * m + 2) <<< up
    scale := 4 <<< (-place).toNat
    closed := m % 2 = 0 }

/-- `n * 10 ^ e` lies in the interval. -/
def Interval.holds (i : Interval) (n : Nat) (e : Int) : Bool :=
  let x := n * 10 ^ e.toNat * i.scale
  let unit := 10 ^ (-e).toNat
  if i.closed then i.low * unit ≤ x && x ≤ i.high * unit
  else i.low * unit < x && x < i.high * unit

/-- The candidate on the grid of multiples of `10 ^ e`: the nearer of the two
neighbours of the value, the upper one when both are equally near, as far as
they lie in the interval. -/
def Interval.onGrid? (i : Interval) (e : Int) : Option Nat :=
  let den := i.scale * 10 ^ e.toNat
  let num := i.value * 10 ^ (-e).toNat
  let lower := num / den
  let nearer := if 2 * (num % den) < den then lower else lower + 1
  let farther := if nearer = lower then lower + 1 else lower
  if i.holds nearer e then some nearer
  else if i.holds farther e then some farther
  else none

/-- The candidate on the coarsest grid that has one, among the grid of multiples
of `10 ^ e` and so many finer ones; after the last of them the value is cut
off. -/
def Interval.coarsest (i : Interval) : Nat → Int → Decimal
  | 0, e => ⟨i.value * 10 ^ (-e).toNat / (i.scale * 10 ^ e.toNat), e⟩
  | grids + 1, e =>
    match i.onGrid? e with
    | some n => ⟨n, e⟩
    | none => i.coarsest grids (e - 1)

/-- `digits * 10 ^ exponent` with the zeros at the end of the digits moved to the
exponent. -/
def stripZeros (digits : Nat) (exponent : Int) : Decimal :=
  if digits ≠ 0 ∧ digits % 10 = 0 then stripZeros (digits / 10) (exponent + 1)
  else ⟨digits, exponent⟩
termination_by digits
decreasing_by omega

/-- An exponent of ten above that of every double with the leading bit at
`top`: three tenths of a binary place are less than a decimal one. -/
def gridAbove (top : Int) : Int := top * 30103 / 100000 + 2

/-- The shortest decimal for the magnitude of a finite double.  Twenty grids are
enough: no more than two lie above the leading digit, and seventeen digits
identify every double. -/
def shortest (d : Double) : Decimal :=
  let m := d.significand
  if m = 0 then ⟨0, 0⟩
  else
    let found := (Interval.around m d.place).coarsest 20 (gridAbove (m.log2 + d.place))
    stripZeros found.digits found.exponent

/-! ## text -/

/-- `n` zeros. -/
def zeros (n : Nat) : String := String.ofList (List.replicate n '0')

/-- The digits with the point before the last `places` of them. -/
def withPoint (digits : String) (places : Nat) : String :=
  let padded := zeros (places + 1 - digits.length) ++ digits
  let whole := padded.length - places
  String.ofList (padded.toList.take whole) ++ "." ++ String.ofList (padded.toList.drop whole)

/-- All places written out; a whole number has no point. -/
def positional (d : Decimal) : String :=
  if 0 ≤ d.exponent then
    if d.digits = 0 then "0" else Nat.repr d.digits ++ zeros d.exponent.toNat
  else withPoint (Nat.repr d.digits) (-d.exponent).toNat

/-- One digit before the point and the exponent of ten after an `e`. -/
def scientific (d : Decimal) : String :=
  let digits := Nat.repr d.digits
  let places := digits.length - 1
  let exponent : Int := d.exponent + places
  let mantissa := if places = 0 then digits else withPoint digits places
  mantissa ++ "e" ++ (if exponent < 0 then "-" else "") ++ Nat.repr exponent.natAbs

end Decimal

namespace Double

/-- The sign and the shortest decimal, all places written out; infinities are
written `inf`. -/
def text (d : Double) : String :=
  (if d.isNegative then "-" else "") ++
    if d.isNaN then "NaN"
    else if d.isInfinite then "inf"
    else (Decimal.shortest d).positional

/-- The form that shows a number to be a double: whole numbers get the place
`.0`, and magnitudes below `10 ^ -4` or from `10 ^ 16` on an exponent. -/
def literal (d : Double) : String :=
  let x := Decimal.shortest d
  let top : Int := x.exponent + (Nat.repr x.digits).length
  if d.isNaN || d.isInfinite then d.text
  else (if d.isNegative then "-" else "") ++
    if x.digits = 0 then "0.0"
    else if top ≤ -4 || 16 < top then x.scientific
    else if 0 ≤ x.exponent then x.positional ++ ".0"
    else x.positional

end Double

end SymCalc
