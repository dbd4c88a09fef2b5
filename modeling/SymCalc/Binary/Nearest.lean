import SymCalc.Binary.Scale

/-!
# SymCalc.Binary.Nearest

Rounding to the nearest binary number of a given number of significant bits,
ties to the even neighbour:

1. `nearestEven a b` is the natural number nearest to `a / b`;
2. `roundQuotient bits num den scale` is the dyadic number with `bits`
   significant bits nearest to `num / den * 2 ^ scale`;
3. `roundTo bits x` is the dyadic number with `bits` significant bits nearest
   to `x`.

Main statements: a rounded number fits in its bits (`fits_roundQuotient`,
`fits_roundTo`), a rounded quotient keeps its sign (`sign_roundQuotient`), and a
number that fits is not changed (`roundTo_of_fits`).
-/

namespace SymCalc.Binary

attribute [local instance] Binary.corePow

/-! ## whole quotients -/

/-- The natural number nearest to `a / b`; of two nearest ones the even one. -/
def nearestEven (a b : Nat) : Nat :=
  let q := a / b
  let r := a % b
  if 2 * r < b then q
  else if b < 2 * r then q + 1
  else if q % 2 = 0 then q
  else q + 1

/-- The quotient is rounded up by one at most. -/
theorem nearestEven_le_succ (a b : Nat) : nearestEven a b ≤ a / b + 1 := by
  unfold nearestEven
  simp only
  split
  · omega
  · split
    · omega
    · split <;> omega

/-- The nearest number is no less than the whole part of the quotient. -/
theorem le_nearestEven (a b : Nat) : a / b ≤ nearestEven a b := by
  unfold nearestEven
  simp only
  split
  · omega
  · split
    · omega
    · split <;> omega

/-- A quotient below a bound rounds to at most that bound. -/
theorem nearestEven_le {a b n : Nat} (h : a < b * n) : nearestEven a b ≤ n := by
  have hq : a / b < n := Nat.div_lt_of_lt_mul h
  have := nearestEven_le_succ a b
  omega

/-- A whole quotient is its own nearest number. -/
theorem nearestEven_one (a : Nat) : nearestEven a 1 = a := by
  unfold nearestEven
  simp [Nat.mod_one]

/-! ## numbers of bounded size -/

/-- `Fits bits x` says that `x` has at most `bits` significant bits: its odd
part is below `2 ^ bits`. -/
def Fits (bits : Nat) : Dyadic → Prop
  | .zero => True
  | .ofOdd n _ _ => n.natAbs < 2 ^ bits

instance (bits : Nat) : (x : Dyadic) → Decidable (Fits bits x)
  | .zero => inferInstanceAs (Decidable True)
  | .ofOdd n _ _ => inferInstanceAs (Decidable (n.natAbs < 2 ^ bits))

@[simp] theorem fits_zero (bits : Nat) : Fits bits 0 := trivial

/-- Whether a number in its normal form fits depends on its significand alone. -/
theorem fits_ofOdd {bits : Nat} {n k : Int} {hn : n % 2 = 1} :
    Fits bits (.ofOdd n k hn) ↔ n.natAbs < 2 ^ bits := Iff.rfl

/-- The opposite has the same bits. -/
theorem fits_neg {bits : Nat} {x : Dyadic} (h : Fits bits x) : Fits bits (-x) := by
  cases x with
  | zero => trivial
  | ofOdd n k hn =>
    change (-n).natAbs < 2 ^ bits
    rw [Int.natAbs_neg]
    exact h

/-- An integer of magnitude at most `2 ^ bits` fits at every scale: the bound
itself is a power of two, whose odd part is `1`. -/
theorem fits_ofIntWithPrec {bits : Nat} (hbits : 0 < bits) {i : Int} (k : Int)
    (h : i.natAbs ≤ 2 ^ bits) : Fits bits (.ofIntWithPrec i k) := by
  unfold Dyadic.ofIntWithPrec
  split
  · trivial
  · rename_i hi
    rw [fits_ofOdd]
    have hodd := Int.shiftRight_trailingZeros_mod_two hi
    have hdvd := Int.two_pow_trailingZeros_dvd hi
    generalize i.trailingZeros = t at hodd hdvd
    obtain ⟨m, rfl⟩ := hdvd
    have hpos : (2 : Int) ^ t ≠ 0 := Int.pow_ne_zero (by decide)
    rw [Int.shiftRight_eq_div_pow, Int.natCast_pow, Int.cast_ofNat_Int,
      Int.mul_ediv_cancel_left _ hpos] at hodd ⊢
    have hm : m.natAbs ≤ 2 ^ bits := by
      rw [Int.natAbs_mul, Int.natAbs_pow] at h
      have : 1 ≤ Int.natAbs 2 ^ t := Nat.one_le_two_pow
      exact Nat.le_trans (Nat.le_mul_of_pos_left _ this) h
    have heven : 2 ^ bits % 2 = 0 := by
      obtain ⟨b, rfl⟩ := Nat.exists_eq_succ_of_ne_zero (Nat.ne_of_gt hbits)
      rw [Nat.pow_succ]
      omega
    omega

/-! ## quotients and dyadic numbers -/

/-- The shift that brings `a / b` to exactly `bits` bits before the point:
`2 ^ (bits - 1) ≤ a / b * 2 ^ s < 2 ^ bits`.  The bit lengths of `a` and `b`
leave two candidates, and one comparison decides. -/
def quotientShift (bits a b : Nat) : Int :=
  let s : Int := bits - 1 - (a.log2 - b.log2)
  if (b <<< (-s).toNat) <<< (bits - 1) ≤ a <<< s.toNat then s else s + 1

/-- The number of `bits` significant bits nearest to `num / den * 2 ^ scale`. -/
def roundQuotient (bits : Nat) (num : Int) (den : Nat) (scale : Int) : Dyadic :=
  let s := quotientShift bits num.natAbs den
  .ofIntWithPrec
    (num.sign * nearestEven (num.natAbs <<< s.toNat) (den <<< (-s).toNat)) (s - scale)

/-- The number of `bits` significant bits nearest to `x`. -/
def roundTo (bits : Nat) (x : Dyadic) : Dyadic :=
  match x with
  | .zero => .zero
  | .ofOdd n k _ => if n.natAbs < 2 ^ bits then x else roundQuotient bits n 1 (-k)

/-- Shifted as `roundQuotient` shifts it, a quotient has no more than `bits` bits. -/
theorem scaled_lt (bits a b : Nat) (hbits : 0 < bits) (hb : b ≠ 0) :
    a <<< (quotientShift bits a b).toNat
      < (b <<< (-(quotientShift bits a b)).toNat) * 2 ^ bits := by
  have ha : a < 2 ^ (a.log2 + 1) := Nat.lt_log2_self
  have hlb : 2 ^ b.log2 ≤ b := Nat.log2_self_le hb
  generalize hs : ((bits : Int) - 1 - (a.log2 - b.log2)) = s
  have hbits2 : 2 ^ bits = 2 * 2 ^ (bits - 1) := by
    rw [← Nat.pow_succ']
    congr 1
    omega
  unfold quotientShift
  simp only [hs]
  split
  · rw [Nat.shiftLeft_eq, Nat.shiftLeft_eq]
    calc a * 2 ^ s.toNat
        < 2 ^ (a.log2 + 1) * 2 ^ s.toNat := Nat.mul_lt_mul_of_pos_right ha (Nat.two_pow_pos _)
      _ = 2 ^ (a.log2 + 1 + s.toNat) := (Nat.pow_add ..).symm
      _ = 2 ^ (b.log2 + (-s).toNat + bits) := by congr 1; omega
      _ = 2 ^ b.log2 * 2 ^ (-s).toNat * 2 ^ bits := by rw [Nat.pow_add, Nat.pow_add]
      _ ≤ b * 2 ^ (-s).toNat * 2 ^ bits :=
          Nat.mul_le_mul_right _ (Nat.mul_le_mul_right _ hlb)
  · rename_i hlt
    rw [Nat.not_le] at hlt
    simp only [Nat.shiftLeft_eq] at hlt ⊢
    by_cases hsign : 0 ≤ s
    · have e1 : (s + 1).toNat = s.toNat + 1 := by omega
      have e2 : (-(s + 1)).toNat = 0 := by omega
      have e3 : (-s).toNat = 0 := by omega
      rw [e3] at hlt
      rw [e1, e2, Nat.pow_succ, hbits2]
      simp only [Nat.pow_zero, Nat.mul_one] at hlt ⊢
      calc a * (2 ^ s.toNat * 2) = 2 * (a * 2 ^ s.toNat) := by
            rw [← Nat.mul_assoc, Nat.mul_comm]
        _ < 2 * (b * 2 ^ (bits - 1)) := by omega
        _ = b * (2 * 2 ^ (bits - 1)) := Nat.mul_left_comm ..
    · have e1 : (s + 1).toNat = 0 := by omega
      have e2 : s.toNat = 0 := by omega
      have e3 : (-s).toNat = (-(s + 1)).toNat + 1 := by omega
      rw [e2, e3] at hlt
      rw [e1, hbits2]
      simp only [Nat.pow_zero, Nat.mul_one, Nat.pow_succ] at hlt ⊢
      calc a < b * (2 ^ (-(s + 1)).toNat * 2) * 2 ^ (bits - 1) := hlt
        _ = b * 2 ^ (-(s + 1)).toNat * (2 * 2 ^ (bits - 1)) := by
            simp only [Nat.mul_assoc]

/-- Shifted as `roundQuotient` shifts it, a quotient has no fewer than `bits` bits. -/
theorem le_scaled (bits a b : Nat) (hbits : 0 < bits) (ha : a ≠ 0) :
    (b <<< (-(quotientShift bits a b)).toNat) * 2 ^ (bits - 1)
      ≤ a <<< (quotientShift bits a b).toNat := by
  have hla : 2 ^ a.log2 ≤ a := Nat.log2_self_le ha
  have hb : b < 2 ^ (b.log2 + 1) := Nat.lt_log2_self
  generalize hs : ((bits : Int) - 1 - (a.log2 - b.log2)) = s
  unfold quotientShift
  simp only [hs]
  split
  · rename_i h
    rwa [Nat.shiftLeft_eq _ (bits - 1)] at h
  · rw [Nat.shiftLeft_eq, Nat.shiftLeft_eq]
    calc b * 2 ^ (-(s + 1)).toNat * 2 ^ (bits - 1)
        ≤ 2 ^ (b.log2 + 1) * 2 ^ (-(s + 1)).toNat * 2 ^ (bits - 1) :=
          Nat.mul_le_mul_right _ (Nat.mul_le_mul_right _ (Nat.le_of_lt hb))
      _ = 2 ^ (b.log2 + 1 + (-(s + 1)).toNat + (bits - 1)) := by
          rw [Nat.pow_add 2 _ (bits - 1), Nat.pow_add 2 (b.log2 + 1)]
      _ = 2 ^ (a.log2 + (s + 1).toNat) := by congr 1; omega
      _ = 2 ^ a.log2 * 2 ^ (s + 1).toNat := Nat.pow_add ..
      _ ≤ a * 2 ^ (s + 1).toNat := Nat.mul_le_mul_right _ hla

/-- A rounded quotient fits. -/
theorem fits_roundQuotient {bits : Nat} (hbits : 0 < bits) (num : Int) (den : Nat)
    (scale : Int) (hden : den ≠ 0) : Fits bits (roundQuotient bits num den scale) := by
  unfold roundQuotient
  apply fits_ofIntWithPrec hbits
  have h := nearestEven_le (scaled_lt bits num.natAbs den hbits hden)
  rw [Int.natAbs_mul, Int.natAbs_natCast]
  by_cases h0 : num = 0
  · simp [h0]
  · rw [Int.natAbs_sign_of_ne_zero h0, Nat.one_mul]
    exact h

/-- Rounding keeps the sign: a quotient of `bits` bits before the point is at
least one. -/
theorem sign_roundQuotient {bits : Nat} (hbits : 0 < bits) (num : Int) (den : Nat)
    (scale : Int) (hden : den ≠ 0) : sign (roundQuotient bits num den scale) = num.sign := by
  unfold roundQuotient
  rw [sign_ofIntWithPrec]
  by_cases h0 : num = 0
  · simp [h0]
  · have hnum : num.natAbs ≠ 0 := Int.natAbs_ne_zero.mpr h0
    have hle := le_scaled bits num.natAbs den hbits hnum
    generalize quotientShift bits num.natAbs den = s at hle ⊢
    have hpos : 0 < den <<< (-s).toNat := by
      rw [Nat.shiftLeft_eq]
      exact Nat.mul_pos (Nat.pos_of_ne_zero hden) (Nat.two_pow_pos _)
    have hone : 1 ≤ nearestEven (num.natAbs <<< s.toNat) (den <<< (-s).toNat) := by
      refine Nat.le_trans ?_ (le_nearestEven _ _)
      rw [Nat.le_div_iff_mul_le hpos, Nat.one_mul]
      exact Nat.le_trans (Nat.le_mul_of_pos_right _ (Nat.two_pow_pos _)) hle
    rw [Int.sign_mul, Int.sign_sign,
      Int.sign_eq_one_of_pos (Int.natCast_pos.mpr hone), Int.mul_one]

/-- A rounded number fits. -/
theorem fits_roundTo {bits : Nat} (hbits : 0 < bits) (x : Dyadic) :
    Fits bits (roundTo bits x) := by
  cases x with
  | zero => trivial
  | ofOdd n k hn =>
    unfold roundTo
    simp only
    split
    · assumption
    · exact fits_roundQuotient hbits n 1 (-k) (by decide)

/-- A number that fits is its own rounding. -/
theorem roundTo_of_fits {bits : Nat} {x : Dyadic} (h : Fits bits x) : roundTo bits x = x := by
  cases x with
  | zero => rfl
  | ofOdd n k hn => exact if_pos h

end SymCalc.Binary
