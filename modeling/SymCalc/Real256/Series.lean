import SymCalc.Real256.Elementary

/-!
# SymCalc.Real256.Series

Logarithm and exponential of reals, computed in fixed point on integers with
guard bits and rounded once:

1. `ln x` splits off the power of two next to `x` and sums the series of
   `artanh` at `(m - 1) / (m + 1)` for the remaining factor `m`;
2. `exp x` splits off the multiple of `ln 2` below `x` and sums the series of
   the remaining factor.

A fixed-point number of `w` bits is an integer `n` that stands for
`n / 2 ^ w`.  Every series has a number of terms fixed by its width, enough to
push the remainder below the last bit.

Main statement: the series are elementary functions (`elementary`), with which
programs run.
-/

namespace SymCalc.Real256.Series

open Binary

/-- Bits kept beyond the working precision in every intermediate result. -/
def guardBits : Nat := 64

/-! ## series -/

/-- The tail of the series of `artanh`: `term / k + term * square / (k + 2) + …`
over the given number of terms, in fixed point. -/
def artanhTail (width : Nat) (square : Int) : Nat → Int → Nat → Int
  | 0, _, _ => 0
  | terms + 1, term, k =>
    term / k + artanhTail width square terms ((term * square) >>> width) (k + 2)

/-- `artanh z` in fixed point, for `|z| ≤ 1/3`.  Each term gains more than three
bits on the one before. -/
def artanh (width : Nat) (z : Int) : Int :=
  artanhTail width ((z * z) >>> width) (width / 3 + 2) z 1

/-- `ln 2` in fixed point, as `2 * artanh (1/3)`. -/
def lnTwo (width : Nat) : Int := 2 * artanh width ((1 <<< width : Nat) / 3 : Nat)

/-- The tail of the exponential series:
`term + term * r / k + term * r ^ 2 / (k * (k + 1)) + …`, in fixed point. -/
def expTail (width r : Nat) : Nat → Nat → Nat → Nat
  | 0, term, _ => term
  | terms + 1, term, k =>
    term + expTail width r terms (((term * r) >>> width) / k) (k + 1)

/-- `exp r` in fixed point, for `0 ≤ r < 1` and at most 320 bits: the eightieth
term is below `2 ^ -390`. -/
def expSeries (width r : Nat) : Nat := expTail width r 80 (1 <<< width) 1

/-! ## logarithm -/

/-- The natural logarithm of `n * 2 ^ (-k)`, for `n > 0`.

With `m = n / 2 ^ j` in `[3/4, 3/2)` the answer is `ln m + (j - k) * ln 2`.  If
the power of two is `1` the logarithm is as small as `m - 1`, and the width
grows by the bits that `m - 1` is short of `1`. -/
def lnScaled (n : Nat) (k : Int) : Real256 :=
  let top := n.log2
  let j := if 3 <<< top ≤ 2 * n then top + 1 else top
  let e : Int := j - k
  let offset : Int := n - (1 <<< j : Nat)
  let short := if e = 0 then j - offset.natAbs.log2 else 0
  let width := workingPrecision + guardBits + short
  let z := offset * (1 <<< width : Nat) / (n + 1 <<< j : Nat)
  ofQuotient (2 * artanh width z + e * lnTwo width) 1 (-width)

/-- The natural logarithm of a positive real; `0` otherwise. -/
def ln (x : Real256) : Real256 :=
  match x.value with
  | .zero => 0
  | .ofOdd n k _ => if 0 < n then lnScaled n.natAbs k else 0

/-! ## exponential -/

/-- The exponential of `n * 2 ^ (-k)`.

The argument is taken with as many further bits as it has before the point, and
split as `q * ln 2 + r` with `0 ≤ r < ln 2`; then `exp x = 2 ^ q * exp r`. -/
def expScaled (n k : Int) : Real256 :=
  let base := workingPrecision + guardBits
  let more := (n.natAbs.log2 - k + 2).toNat
  let width := base + more
  let x : Int := (n * (1 <<< (width - k).toNat : Nat)) >>> (k - width).toNat
  let q := x / lnTwo width
  let r := (x % lnTwo width).toNat >>> more
  ofQuotient (expSeries base r) 1 (q - base)

/-- The exponential. -/
def exp (x : Real256) : Real256 :=
  match x.value with
  | .zero => 1
  | .ofOdd n k _ => expScaled n k

/-- The tail of the exponential series is no less than its first term. -/
theorem le_expTail (width r terms term k : Nat) : term ≤ expTail width r terms term k := by
  cases terms with
  | zero => exact Nat.le_refl _
  | succ terms => exact Nat.le_add_right _ _

/-- The exponential is positive: its series starts with one. -/
theorem isPositive_exp (x : Real256) : (exp x).isPositive = true := by
  have hseries : ∀ width r, 0 < expSeries width r := fun width r => by
    refine Nat.lt_of_lt_of_le ?_ (le_expTail width r 80 (1 <<< width) 1)
    rw [Nat.one_shiftLeft]
    exact Nat.two_pow_pos width
  unfold exp
  split
  · decide
  · unfold expScaled isPositive
    simp only [sign_ofQuotient _ _ (by decide : (1 : Nat) ≠ 0)]
    rw [Int.sign_eq_one_of_pos (Int.natCast_pos.mpr (hseries _ _))]
    rfl

/-- The elementary functions as sums of their series. -/
instance elementary : Elementary where
  ln := ln
  exp := exp
  ln_one := by decide +kernel
  exp_zero := rfl
  isPositive_exp := isPositive_exp

end SymCalc.Real256.Series
