import Mathlib.Algebra.Ring.Parity
import Mathlib.Tactic.Ring
import SymCalc.Number.Power
import SymCalc.Proofs.Number.Exact
import SymCalc.Real256.Series

/-!
# SymCalc.Proofs.Number.IntegerPower

Powers of integers.

1. A round of squaring keeps `result * factor ^ e` (`mul_pow_round`), so that all
   rounds together come to it (`squareMultiply_eq`);
2. the powers of `0`, `1` and `-1` follow from the parity of the exponent
   (`trivialPower?_of_le_one`);
3. of the three checks of size the limit itself is the tightest (`tooLong_iff`), and a
   power that passes them takes no more bits (`bitLength_pow_le_max`).

Main statements: `powInt_eq`, `exactValue_powInt`, `pow_integer_outcome`.
-/

namespace SymCalc.Number

/-! ## square and multiply -/

/-- One round keeps what the result, the factor and the exponent stand for. -/
theorem mul_pow_round (result factor : Int) (e : Nat) :
    (if e % 2 = 1 then result * factor else result) *
        (if e / 2 = 0 then factor else factor * factor) ^ (e / 2) =
      result * factor ^ e := by
  have hsquare : (if e / 2 = 0 then factor else factor * factor) ^ (e / 2) =
      factor ^ (2 * (e / 2)) := by
    split
    · rename_i h
      rw [h]
    · rw [pow_mul, pow_two]
  rw [hsquare]
  split
  · rename_i h
    have he : e = 2 * (e / 2) + 1 := by omega
    conv_rhs => rw [he, pow_succ']
    rw [mul_assoc]
  · rename_i h
    have he : 2 * (e / 2) = e := by omega
    rw [he]

/-- As many rounds as the exponent has digits use it up. -/
theorem squareMultiply_eq {digits e : Nat} (h : e < 2 ^ digits) (result factor : Int) :
    squareMultiply digits result factor e = result * factor ^ e := by
  induction digits generalizing result factor e with
  | zero =>
    have he : e = 0 := by simpa using h
    rw [squareMultiply, he, pow_zero, mul_one]
  | succ digits ih =>
    have hrest : e / 2 < 2 ^ digits := by
      rw [pow_succ] at h
      omega
    rw [squareMultiply, ih hrest, mul_pow_round]

/-- `(-2) ^ 5` in three rounds. -/
example : squareMultiply (bitLength 5) 1 (-2) 5 = -32 := by decide

/-! ## bit lengths -/

/-- A number has no more than `k` bits if and only if it is below `2 ^ k`. -/
theorem bitLength_le_iff {n k : Nat} : bitLength n ≤ k ↔ n < 2 ^ k := by
  unfold bitLength
  split
  · rename_i h
    rw [h]
    exact iff_of_true (Nat.zero_le _) (Nat.two_pow_pos _)
  · rename_i h
    exact Nat.log2_lt h

/-- A number is below the power of two of its bits. -/
theorem lt_two_pow_bitLength (n : Nat) : n < 2 ^ bitLength n := bitLength_le_iff.mp le_rfl

/-- The bits of a power are at most those of its factors together. -/
theorem bitLength_pow_le (n : Nat) {e : Nat} (he : e ≠ 0) :
    bitLength (n ^ e) ≤ bitLength n * e := by
  rw [bitLength_le_iff, pow_mul]
  exact Nat.pow_lt_pow_left (lt_two_pow_bitLength n) he

/-! ## the limit -/

/-- The power `b ^ e` is not written down: its exponent or the bits of its factors
together cannot be counted in a word, or these bits are over the limit.  The powers of
`0`, `1` and `-1` always are. -/
def TooLong (b : Int) (e : Nat) : Prop :=
  2 ≤ b.natAbs ∧ e ≠ 0 ∧
    (2 ^ wordBits ≤ e ∨ 2 ^ wordBits ≤ bitLength b.natAbs * e ∨
      maxExactPowerBits < bitLength b.natAbs * e)

instance (b : Int) (e : Nat) : Decidable (TooLong b e) :=
  inferInstanceAs (Decidable (_ ∧ _ ∧ (_ ∨ _ ∨ _)))

section

variable {b : Int} {e : Nat}

/-- What cannot be counted in a word is over the limit. -/
theorem tooLong_iff :
    TooLong b e ↔ 2 ≤ b.natAbs ∧ maxExactPowerBits < bitLength b.natAbs * e := by
  have hlimit : maxExactPowerBits < 2 ^ wordBits := by decide
  constructor
  · rintro ⟨hb, -, h⟩
    have hpos : 1 ≤ bitLength b.natAbs := by
      by_contra hzero
      have hlt : b.natAbs < 2 ^ 0 := bitLength_le_iff.mp (by omega)
      omega
    have hle : e ≤ bitLength b.natAbs * e := Nat.le_mul_of_pos_left e hpos
    refine ⟨hb, ?_⟩
    rcases h with h | h | h <;> omega
  · rintro ⟨hb, h⟩
    refine ⟨hb, ?_, .inr (.inr h)⟩
    rintro rfl
    exact absurd h (Nat.not_lt_zero _)

/-- A power that is not too long takes no more bits than the limit. -/
theorem bitLength_pow_le_max (h : ¬TooLong b e) :
    bitLength (b ^ e).natAbs ≤ maxExactPowerBits := by
  rw [Int.natAbs_pow]
  by_cases hb : 2 ≤ b.natAbs
  · by_cases he : e = 0
    · rw [he, pow_zero]
      decide
    · have hbits : ¬maxExactPowerBits < bitLength b.natAbs * e := fun hlt =>
        h (tooLong_iff.mpr ⟨hb, hlt⟩)
      exact (bitLength_pow_le _ he).trans (not_lt.mp hbits)
  · have hpow : b.natAbs ^ e ≤ 1 := pow_le_one₀ (Nat.zero_le _) (by omega)
    exact (bitLength_le_iff.mpr (by omega : b.natAbs ^ e < 2 ^ 1)).trans (by decide)

/-- Only the parity of the exponent counts for `0`, `1` and `-1`. -/
theorem trivialPower?_of_le_one (hb : b.natAbs ≤ 1) (he : e ≠ 0) :
    trivialPower? b e = some (b ^ e) := by
  obtain rfl | rfl | rfl : b = 0 ∨ b = 1 ∨ b = -1 := by omega
  · rw [zero_pow he]
    rfl
  · rw [one_pow]
    rfl
  · rcases Nat.even_or_odd e with h | h
    · rw [h.neg_one_pow, trivialPower?, Nat.even_iff.mp h]
      rfl
    · rw [h.neg_one_pow, trivialPower?, Nat.odd_iff.mp h]
      rfl

/-- The powers of a base of magnitude two or more are not known beforehand. -/
theorem trivialPower?_of_two_le (hb : 2 ≤ b.natAbs) : trivialPower? b e = none := by
  have hsmall : ¬(b = 0 ∨ b = 1) := by omega
  have hminus : b ≠ -1 := by omega
  rw [trivialPower?, if_neg hsmall, if_neg hminus]

/-- The three checks of size refuse exactly what is too long. -/
theorem exactPower_eq (he : e ≠ 0) :
    exactPower b e =
      if TooLong b e then .error .precisionLimitExceeded else .ok (b ^ e) := by
  unfold exactPower
  by_cases hb : 2 ≤ b.natAbs
  · rw [trivialPower?_of_two_le hb]
    simp only
    by_cases hlong : TooLong b e
    · rw [if_pos hlong]
      by_cases hword : 2 ^ wordBits ≤ e
      · rw [if_pos hword]
      · rw [if_neg hword, wordMul?]
        by_cases hsize : bitLength b.natAbs * e < 2 ^ wordBits
        · rw [if_pos hsize]
          exact if_pos (tooLong_iff.mp hlong).2
        · rw [if_neg hsize]
    · have hword : ¬2 ^ wordBits ≤ e := fun h => hlong ⟨hb, he, .inl h⟩
      have hsize : bitLength b.natAbs * e < 2 ^ wordBits :=
        not_le.mp fun h => hlong ⟨hb, he, .inr (.inl h)⟩
      have hbits : ¬maxExactPowerBits < bitLength b.natAbs * e :=
        fun h => hlong ⟨hb, he, .inr (.inr h)⟩
      rw [if_neg hword, wordMul?, if_pos hsize, if_neg hlong]
      simp only
      rw [if_neg hbits, squareMultiply_eq (lt_two_pow_bitLength e), one_mul]
  · have hshort : ¬TooLong b e := fun h => hb h.1
    rw [trivialPower?_of_le_one (by omega) he, if_neg hshort]

end

/-! ## powers -/

/-- A power of integers is taken in the integers. -/
theorem pow_integer [Elementary] (b e : Int) : (integer b).pow (.integer e) = powInt b e := rfl

/-- The ends of a power of integers, in the order in which they are looked for. -/
theorem powInt_eq (b e : Int) : powInt b e =
    if b = 0 ∧ e = 0 then .error .invalidPower
    else if b = 0 ∧ e < 0 then .error .divisionByZero
    else if TooLong b e.natAbs then .error .precisionLimitExceeded
    else .ok (if e < 0 then .rational (1 / (b ^ e.natAbs : Int)) else .integer (b ^ e.natAbs)) := by
  unfold powInt
  by_cases he : e = 0
  · subst he
    rw [if_pos rfl]
    by_cases hb : b = 0
    · rw [if_pos hb, if_pos ⟨hb, rfl⟩]
    · rw [if_neg hb, if_neg (fun h => hb h.1), if_neg (fun h => hb h.1), Int.natAbs_zero,
        if_neg (fun h : TooLong b 0 => h.2.1 rfl), pow_zero]
      rfl
  · rw [if_neg he, if_neg (fun h : b = 0 ∧ e = 0 => he h.2)]
    by_cases hzero : b = 0 ∧ e < 0
    · rw [if_pos hzero, if_pos hzero.symm]
    · rw [if_neg hzero, if_neg (mt And.symm hzero), exactPower_eq (Int.natAbs_ne_zero.mpr he)]
      have hinv : Rat.divInt 1 (b ^ e.natAbs) = 1 / (b ^ e.natAbs : Int) := by
        rw [Rat.divInt_eq_div, Int.cast_one]
      rw [← hinv]
      split <;> rfl

/-- A power succeeds unless it is one of zero to an exponent that is not above zero, or
too long. -/
theorem powInt_eq_ok_iff {b e : Int} {x : Number} : powInt b e = .ok x ↔
    ¬(b = 0 ∧ e ≤ 0) ∧ ¬TooLong b e.natAbs ∧
      (if e < 0 then .rational (1 / (b ^ e.natAbs : Int)) else .integer (b ^ e.natAbs)) = x := by
  rw [powInt_eq]
  by_cases hzero : b = 0 ∧ e = 0
  · rw [if_pos hzero]
    exact iff_of_false (by simp) fun h => h.1 ⟨hzero.1, hzero.2.le⟩
  · rw [if_neg hzero]
    by_cases hneg : b = 0 ∧ e < 0
    · rw [if_pos hneg]
      exact iff_of_false (by simp) fun h => h.1 ⟨hneg.1, hneg.2.le⟩
    · have hbase : ¬(b = 0 ∧ e ≤ 0) := fun h =>
        h.2.lt_or_eq.elim (fun hlt => hneg ⟨h.1, hlt⟩) fun heq => hzero ⟨h.1, heq⟩
      rw [if_neg hneg]
      by_cases hlong : TooLong b e.natAbs
      · rw [if_pos hlong]
        exact iff_of_false (by simp) fun h => h.2.1 hlong
      · rw [if_neg hlong, Except.ok.injEq]
        exact ⟨fun h => ⟨hbase, hlong, h⟩, fun h => h.2.2⟩

/-- A power is refused for its size if and only if it is too long. -/
theorem powInt_eq_precisionLimitExceeded_iff {b e : Int} :
    powInt b e = .error .precisionLimitExceeded ↔ TooLong b e.natAbs := by
  have hbase : TooLong b e.natAbs → b ≠ 0 := by
    rintro ⟨hb, -⟩ rfl
    exact absurd hb (by decide)
  rw [powInt_eq]
  split_ifs with h h' h''
  · exact iff_of_false (by simp) fun hlong => hbase hlong h.1
  · exact iff_of_false (by simp) fun hlong => hbase hlong h'.1
  · exact iff_of_true rfl h''
  · exact iff_of_false (by simp) h''

/-- A power of integers is exact. -/
theorem isExact_powInt {b e : Int} {x : Number} (h : powInt b e = .ok x) :
    x.isExact = true := by
  obtain ⟨-, -, rfl⟩ := powInt_eq_ok_iff.mp h
  split <;> rfl

/-- **A power of integers has the exact value**, and is an integer unless the
exponent is negative. -/
theorem exactValue_powInt {b e : Int} {x : Number} (h : powInt b e = .ok x) :
    x.exactValue = (b : Rat) ^ e ∧ (0 ≤ e → x.isInteger = true) := by
  obtain ⟨-, -, rfl⟩ := powInt_eq_ok_iff.mp h
  split
  · rename_i hneg
    refine ⟨?_, fun h => absurd hneg (not_lt.mpr h)⟩
    obtain ⟨n, rfl⟩ : ∃ n : Nat, e = -n := ⟨e.natAbs, by omega⟩
    simp [exactValue]
  · rename_i hneg
    obtain ⟨n, rfl⟩ : ∃ n : Nat, e = n := ⟨e.natAbs, by omega⟩
    exact ⟨by simp [exactValue], fun _ => rfl⟩

/-- A power to an exponent from zero on is an integer, or too long, or `0 ^ 0`. -/
theorem powInt_cases (b : Int) {n : Int} (hn : 0 ≤ n) :
    (∃ m : Int, powInt b n = .ok (.integer m) ∧ (m : Rat) = (b : Rat) ^ n) ∨
      powInt b n = .error .precisionLimitExceeded ∨
      powInt b n = .error .invalidPower ∧ b = 0 ∧ n = 0 := by
  have hneg : ¬(b = 0 ∧ n < 0) := fun h => absurd h.2 (not_lt.mpr hn)
  have heq := powInt_eq b n
  rw [if_neg hneg] at heq
  by_cases hzero : b = 0 ∧ n = 0
  · rw [if_pos hzero] at heq
    exact .inr (.inr ⟨heq, hzero⟩)
  · rw [if_neg hzero] at heq
    by_cases hlong : TooLong b n.natAbs
    · rw [if_pos hlong] at heq
      exact .inr (.inl heq)
    · rw [if_neg hlong, if_neg (not_lt.mpr hn)] at heq
      exact .inl ⟨_, heq, (exactValue_powInt heq).1⟩

/-- The first power is the base. -/
theorem eq_integer_of_powInt_one {b : Int} {x : Number} (h : powInt b 1 = .ok x) :
    x = .integer b := by
  obtain ⟨-, -, rfl⟩ := powInt_eq_ok_iff.mp h
  rw [if_neg (by decide), Int.natAbs_one, pow_one]

/-- **A power of integers is exact, and fails for three reasons only**: `0 ^ 0`, zero to
an exponent below zero, and a power that is too long.  Otherwise it is `b ^ e` as an
integer, or `1 / b ^ (-e)` as a rational where the exponent is below zero, and what is
written down stays within the limit. -/
theorem pow_integer_outcome [Elementary] (b e : Int) :
    ((integer b).pow (integer e) = .error .invalidPower ↔ b = 0 ∧ e = 0) ∧
    ((integer b).pow (integer e) = .error .divisionByZero ↔ b = 0 ∧ e < 0) ∧
    ((integer b).pow (integer e) = .error .precisionLimitExceeded ↔ TooLong b e.natAbs) ∧
    (¬(b = 0 ∧ e ≤ 0) → ¬TooLong b e.natAbs →
      (integer b).pow (integer e) =
          .ok (if 0 ≤ e then .integer (b ^ e.natAbs) else .rational (1 / (b : Rat) ^ e.natAbs)) ∧
        bitLength (b ^ e.natAbs).natAbs ≤ maxExactPowerBits) := by
  rw [pow_integer]
  refine ⟨?_, ?_, powInt_eq_precisionLimitExceeded_iff,
    fun hzero hlong => ⟨?_, bitLength_pow_le_max hlong⟩⟩
  · rw [powInt_eq]
    split_ifs with h
    · exact iff_of_true rfl h
    all_goals exact iff_of_false (by simp) h
  · rw [powInt_eq]
    split_ifs with h h'
    · exact iff_of_false (by simp) fun hneg => hneg.2.ne h.2
    · exact iff_of_true rfl h'
    all_goals exact iff_of_false (by simp) h'
  · refine powInt_eq_ok_iff.mpr ⟨hzero, hlong, ?_⟩
    rcases lt_or_ge e 0 with he | he
    · rw [if_pos he, if_neg (not_le.mpr he), Int.cast_pow]
    · rw [if_neg (not_lt.mpr he), if_pos he]

/-- `(-3) ^ (-5)` is `-1/243`, of eight bits. -/
theorem pow_integer_outcome_reciprocal :
    ¬TooLong (-3) 5 ∧ (integer (-3)).pow (integer (-5)) = .ok (.rational (-1 / 243)) ∧
      bitLength ((-3 : Int) ^ 5).natAbs ≤ maxExactPowerBits := by
  have hshort : ¬TooLong (-3) (-5 : Int).natAbs := by decide
  obtain ⟨hpow, hbits⟩ := (pow_integer_outcome (-3) (-5)).2.2.2 (by decide) hshort
  have hvalue : (1 : Rat) / ((-3 : Int) : Rat) ^ (-5 : Int).natAbs = -1 / 243 := by norm_num
  rw [if_neg (by decide), hvalue] at hpow
  exact ⟨hshort, hpow, hbits⟩

end SymCalc.Number
