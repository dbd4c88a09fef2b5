import SymCalc.Number.Machine
import SymCalc.Proofs.Binary.Double
import SymCalc.Proofs.Number.Rounding

/-!
# SymCalc.Proofs.Number.Machine

The whole part of a number as a machine word, seen from its value.

1. Rounding to fewer bits moves the whole part toward zero only by landing on another
   whole number (`Binary.roundRat_inward_roundTo_iff`);
2. of the double that a real passes through only the rounding to its bits can be seen
   (`machineWhole?_bind_within?`): where places are missing the whole part is zero, and
   what is too large for a double is too large for a word.

Main statement: `machine_words_of_value`.
-/

namespace SymCalc

/-! ## whole parts of rounded numbers -/

/-- Less than one in magnitude is rounded to zero. -/
theorem RoundMode.roundRat_inward_of_abs_lt_one {q : Rat} (h : |q| < 1) :
    inward.roundRat q = 0 := by
  obtain ⟨hlow, hhigh⟩ := abs_lt.mp h
  by_cases hq : 0 ≤ q
  · rw [roundRat, if_pos hq, Int.floor_eq_zero_iff]
    exact ⟨hq, hhigh⟩
  · rw [roundRat, if_neg hq, Int.ceil_eq_zero_iff]
    exact ⟨hlow, (not_le.mp hq).le⟩

/-- The whole part of a number between two neighbouring integers is the one on the side of
zero. -/
theorem RoundMode.roundRat_inward_of_between {q : Rat} {n : Int} (h : n < q) (h' : q < n + 1) :
    inward.roundRat q = if 0 ≤ n then n else n + 1 := by
  by_cases hn : 0 ≤ n
  · have hq : 0 ≤ q := (Int.cast_nonneg hn).trans h.le
    rw [roundRat, if_pos hq, if_pos hn, Int.floor_eq_iff]
    exact ⟨h.le, h'⟩
  · have hn' : ((n + 1 : Int) : Rat) ≤ 0 := Int.cast_nonpos.mpr (by omega)
    push_cast at hn'
    rw [roundRat, if_neg (by linarith), if_neg hn, Int.ceil_eq_iff]
    push_cast
    exact ⟨by linarith, h'.le⟩

namespace Binary

/-- A number with bits below the point leaves room for the integers on its two sides. -/
theorem natAbs_floor_le_of_fits {bits : Nat} {y : Dyadic} (hy : Fits bits y)
    (hwhole : ¬∃ n : Int, y.toRat = n) :
    ⌊y.toRat⌋.natAbs ≤ 2 ^ bits ∧ (⌊y.toRat⌋ + 1).natAbs ≤ 2 ^ bits := by
  obtain h | ⟨n, j, hn, rfl, hvalue⟩ := toRat_cases y
  · exact absurd (isWhole_iff.mp h) hwhole
  · have hbits : n.natAbs < 2 ^ bits := hy
    have hfloor : ⌊(Dyadic.ofOdd n j hn).toRat⌋.natAbs ≤ n.natAbs := by
      rw [hvalue, Rat.floor_intCast_div_natCast]
      exact Int.natAbs_ediv_le_natAbs _ _
    omega

/-- Rounding to fewer bits moves the whole part toward zero only by landing on another
whole number: between two whole numbers that fit the nearest number is between them,
too. -/
theorem roundRat_inward_roundTo_iff {bits : Nat} (hbits : 0 < bits) (x : Dyadic) :
    RoundMode.inward.roundRat (roundTo bits x).toRat = RoundMode.inward.roundRat x.toRat ↔
      ∀ n : Int, (roundTo bits x).toRat = n → n = RoundMode.inward.roundRat x.toRat := by
  constructor
  · intro h n hn
    rw [← h, hn, RoundMode.roundRat_intCast]
  · intro h
    by_cases hwhole : ∃ n : Int, (roundTo bits x).toRat = n
    · obtain ⟨n, hn⟩ := hwhole
      rw [hn, RoundMode.roundRat_intCast]
      exact h n hn
    · obtain ⟨hlow, hhigh⟩ := natAbs_floor_le_of_fits (fits_roundTo hbits x) hwhole
      have hbelow := abs_sub_roundTo_le hbits x (fits_ofIntWithPrec hbits 0 hlow)
      have habove := abs_sub_roundTo_le hbits x (fits_ofIntWithPrec hbits 0 hhigh)
      rw [Dyadic.toRat_ofIntWithPrec_eq_mul_two_pow, neg_zero, zpow_zero, mul_one] at hbelow habove
      generalize (roundTo bits x).toRat = y at hwhole hbelow habove ⊢
      have hlt : (⌊y⌋ : Rat) < y :=
        lt_of_le_of_ne (Int.floor_le y) fun heq => hwhole ⟨_, heq.symm⟩
      have hlt' : y < ⌊y⌋ + 1 := Int.lt_floor_add_one y
      push_cast at habove
      -- an integer between the two numbers would be nearer than the rounding
      have hlow : (⌊y⌋ : Rat) < x.toRat := by
        by_contra hle
        rw [abs_of_nonpos (by linarith), abs_of_nonpos (by linarith)] at hbelow
        linarith
      have hhigh : x.toRat < ⌊y⌋ + 1 := by
        by_contra hle
        rw [abs_of_nonneg (by linarith), abs_of_nonneg (by linarith)] at habove
        linarith
      rw [RoundMode.roundRat_inward_of_between hlt hlt',
        RoundMode.roundRat_inward_of_between hlow hhigh]

end Binary

namespace Number

/-! ## words -/

/-- The integer, if it is one of those from `lo` to below `hi`. -/
def within? (lo hi n : Int) : Option Int := if lo ≤ n ∧ n < hi then some n else none

/-- A signed word is the whole part, if that is in its range. -/
theorem map_toInt64? (x : Number) :
    x.toInt64?.map Int64.toInt = x.machineWhole?.bind (within? (-2 ^ 63) (2 ^ 63)) := by
  unfold toInt64?
  cases x.machineWhole? with
  | none => rfl
  | some n =>
    simp only [Option.bind_some, within?]
    split
    · rename_i h
      rw [Option.map_some, Int64.toInt_ofInt_of_le h.1 h.2]
    · rfl

/-- An unsigned word is the whole part, if that is in its range. -/
theorem map_toUInt64? (x : Number) :
    x.toUInt64?.map (fun w => (w.toNat : Int)) = x.machineWhole?.bind (within? 0 (2 ^ 64)) := by
  unfold toUInt64?
  cases x.machineWhole? with
  | none => rfl
  | some n =>
    simp only [Option.bind_some, within?]
    split
    · rename_i h
      rw [Option.map_some, UInt64.toNat_ofNat_of_lt' (by change _ < 2 ^ 64; omega),
        Int.toNat_of_nonneg h.1]
    · rfl

/-- The value whose whole part becomes a word: a real is rounded to the bits of a double
before. -/
def narrowed? : Number → Option Rat
  | .integer n => some n
  | .rational q => some q
  | .real (.finite x) => some (Binary.roundTo Double.precision x.value).toRat
  | .real (.infinite _) => none

section words

variable {lo hi : Int}

/-- No machine word reaches that far. -/
theorem within?_of_large (hlo : -2 ^ 64 ≤ lo) (hhi : hi ≤ 2 ^ 64) {q : Rat}
    (h : (2 : Rat) ^ (65 : Int) ≤ |q|) : within? lo hi (RoundMode.inward.roundRat q) = none := by
  have hrest := RoundMode.abs_sub_roundRat_inward_lt q
  generalize RoundMode.inward.roundRat q = n at hrest ⊢
  refine if_neg ?_
  rintro ⟨hlow, hhigh⟩
  have hlow' : ((-2 ^ 64 : Int) : Rat) ≤ n := Int.cast_le.mpr (hlo.trans hlow)
  have hhigh' : (n : Rat) < ((2 ^ 64 : Int) : Rat) := Int.cast_lt.mpr (hhigh.trans_le hhi)
  push_cast at hlow' hhigh'
  rw [abs_sub_lt_iff] at hrest
  norm_num at h hlow' hhigh'
  obtain hq | hq := le_abs.mp h <;> linarith [hrest.1, hrest.2]

/-- Where the places of a double are missing, or the number is too large for one, the
difference to the number rounded to its bits cannot be seen in a word. -/
theorem within?_narrow (hlo : -2 ^ 64 ≤ lo) (hhi : hi ≤ 2 ^ 64) (x : Dyadic) :
    (if (Double.narrow x).isFinite = true then some (Binary.truncate (Double.narrow x).value)
      else none).bind (within? lo hi) =
      within? lo hi (RoundMode.inward.roundRat (Binary.roundTo Double.precision x).toRat) := by
  rcases lt_or_ge (Binary.ilog2 (Binary.roundTo Double.precision x)) (-1022) with hsmall | hlow
  · obtain ⟨hfinite, hvalue⟩ := Double.narrow_of_small hsmall
    have hrounded : |(Binary.roundTo Double.precision x).toRat| < 1 := by
      calc |(Binary.roundTo Double.precision x).toRat|
          < 2 ^ (Binary.ilog2 (Binary.roundTo Double.precision x) + 1) :=
            Binary.lt_zpow_ilog2_add_one _
        _ ≤ 2 ^ (0 : Int) := zpow_le_zpow_right₀ one_le_two (by omega)
        _ = 1 := zpow_zero 2
    rw [if_pos hfinite, Option.bind_some, Binary.truncate_eq_roundRat,
      RoundMode.roundRat_inward_of_abs_lt_one hvalue,
      RoundMode.roundRat_inward_of_abs_lt_one hrounded]
  rcases lt_or_ge (Binary.ilog2 (Binary.roundTo Double.precision x)) 1024 with hhigh | hlarge
  · obtain ⟨hfinite, hvalue⟩ := Double.narrow_of_normal hlow hhigh
    rw [if_pos hfinite, Option.bind_some, hvalue, Binary.truncate_eq_roundRat]
  · have hne : Binary.roundTo Double.precision x ≠ 0 := by
      intro h
      rw [h] at hlarge
      exact absurd hlarge (by decide)
    have hrounded : (2 : Rat) ^ (65 : Int) ≤ |(Binary.roundTo Double.precision x).toRat| :=
      (zpow_le_zpow_right₀ one_le_two (by omega)).trans (Binary.zpow_ilog2_le hne)
    rw [Double.narrow_of_large hlarge, if_neg Bool.false_ne_true, Option.bind_none,
      within?_of_large hlo hhi hrounded]

/-- A word shows the whole part of the narrowed value. -/
theorem machineWhole?_bind_within? (hlo : -2 ^ 64 ≤ lo) (hhi : hi ≤ 2 ^ 64) (x : Number) :
    x.machineWhole?.bind (within? lo hi) =
      x.narrowed?.bind fun y => within? lo hi (RoundMode.inward.roundRat y) := by
  rcases x with n | q | r | s
  · simp [machineWhole?, narrowed?, RoundMode.roundRat_intCast]
  · simp [machineWhole?, narrowed?, RoundMode.roundRat_inward_eq_tdiv]
  · exact within?_narrow hlo hhi r.value
  · cases s <;> rfl

end words

/-- A finite number has a value to be cut off, its own unless it is a real of more bits
than a double. -/
theorem exists_narrowed_of_value {x : Number} {q : Rat} (h : x.value? = some q) :
    ∃ y, x.narrowed? = some y ∧
      (RoundMode.inward.roundRat y = RoundMode.inward.roundRat q ↔
        ∀ n : Int, y = n → n = RoundMode.inward.roundRat q) ∧
      (x.isExact = true ∨ (∃ z, Binary.Fits Double.precision z ∧ z.toRat = q) → y = q) := by
  have hexact : RoundMode.inward.roundRat q = RoundMode.inward.roundRat q ↔
      ∀ n : Int, q = n → n = RoundMode.inward.roundRat q := by
    refine iff_of_true rfl ?_
    rintro n rfl
    rw [RoundMode.roundRat_intCast]
  rcases x with n | p | r | s
  · cases h
    exact ⟨_, rfl, hexact, fun _ => rfl⟩
  · cases h
    exact ⟨_, rfl, hexact, fun _ => rfl⟩
  · cases h
    refine ⟨_, rfl, Binary.roundRat_inward_roundTo_iff (by decide) r.value, ?_⟩
    rintro (h | ⟨z, hz, hvalue⟩)
    · cases h
    · rw [← Dyadic.toRat_inj.mp hvalue, Binary.roundTo_of_fits hz]
  · cases h

/-- **Conversion to machine words** takes the whole part toward zero of a value `y`, where
that fits the word, and gives nothing where it does not.

1. For exact numbers, and for reals of at most the bits of a double, `y` is the value;
2. for a real of more bits it is the nearest number of the bits of a double.  Its whole
   part is that of the value, unless `y` is itself a whole number, and another one. -/
theorem machine_words_of_value {x : Number} {q : Rat} (h : x.value? = some q) :
    ∃ y, x.narrowed? = some y ∧
      x.toInt64?.map Int64.toInt =
        within? (-2 ^ 63) (2 ^ 63) (RoundMode.inward.roundRat y) ∧
      x.toUInt64?.map (fun w => (w.toNat : Int)) =
        within? 0 (2 ^ 64) (RoundMode.inward.roundRat y) ∧
      (x.isExact = true ∨ (∃ z, Binary.Fits Double.precision z ∧ z.toRat = q) → y = q) ∧
      (RoundMode.inward.roundRat y = RoundMode.inward.roundRat q ↔
        ∀ n : Int, y = n → n = RoundMode.inward.roundRat q) := by
  obtain ⟨y, hy, hwhole, hexact⟩ := exists_narrowed_of_value h
  refine ⟨y, hy, ?_, ?_, hexact, hwhole⟩
  · rw [map_toInt64?, machineWhole?_bind_within? (by decide) (by decide), hy, Option.bind_some]
  · rw [map_toUInt64?, machineWhole?_bind_within? (by decide) (by decide), hy, Option.bind_some]

/-- The largest signed word as a real of 63 bits: rounded to those of a double it is no
such word any more.  As an integer it is converted as it stands. -/
theorem machine_words_of_value_largest :
    (real (.finite (.ofInt (2 ^ 63 - 1)))).value? = some (2 ^ 63 - 1) ∧
      (real (.finite (.ofInt (2 ^ 63 - 1)))).toInt64?.map Int64.toInt = none ∧
      (real (.finite (.ofInt (2 ^ 63 - 1)))).toUInt64?.map (fun w => (w.toNat : Int)) =
        some (2 ^ 63) ∧
      (integer (2 ^ 63 - 1)).toInt64?.map Int64.toInt = some (2 ^ 63 - 1) := by
  have hvalue : (real (.finite (.ofInt (2 ^ 63 - 1)))).value? = some (2 ^ 63 - 1) := by
    decide +kernel
  have hnarrowed : (real (.finite (.ofInt (2 ^ 63 - 1)))).narrowed? = some ((2 ^ 63 : Int) : Rat) :=
    by decide +kernel
  obtain ⟨y, hy, hsigned, hunsigned, -⟩ := machine_words_of_value hvalue
  cases hnarrowed.symm.trans hy
  rw [RoundMode.roundRat_intCast] at hsigned hunsigned
  have hinteger : (integer (2 ^ 63 - 1)).value? = some ((2 ^ 63 - 1 : Int) : Rat) := rfl
  obtain ⟨z, -, hsigned', -, hexact, -⟩ := machine_words_of_value hinteger
  rw [hexact (.inl rfl), RoundMode.roundRat_intCast] at hsigned'
  exact ⟨hvalue, hsigned, hunsigned, hsigned'⟩

end Number

end SymCalc
