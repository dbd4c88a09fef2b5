import Mathlib.Order.WithBot
import SymCalc.Proofs.Binary.Rounding
import SymCalc.Proofs.Number.Exact

/-!
# SymCalc.Proofs.Number.Order

How far equality and order of numbers agree with each other, where each pair
is compared in a domain of its own.

1. Exact numbers are compared by value (`order_of_isExact`), and a real with any
   number by the reals they convert to (`order_of_not_isExact`); either way the
   order is that of a linear order;
2. converting to a real is one rounding, to nearest (`Real256.abs_sub_nearest_le`),
   for integers and for rationals of short parts (`roundsOnce_rational_of_fits`).
   It keeps the order of two numbers though it may make them equal
   (`toReal_le_toReal`);
3. equal numbers convert to the same real, whatever their representations
   (`toReal_eq_of_beq`).

Main statement: `order_consistent`, on three numbers of any representation.
Beyond the bits of a real the three laws fail (`order_inconsistent`).
-/

namespace SymCalc

/-! ## reals -/

namespace Real256

/-- The real nearest to a rational. -/
def nearest (q : Rat) : Real256 := ofQuotient q.num q.den 0

/-- A quotient becomes the real that is nearest to it. -/
theorem value_ofQuotient {num : Int} {den : Nat} {scale : Int} (hden : den ≠ 0) :
    (ofQuotient num den scale).value = Binary.roundQuotient workingPrecision num den scale := by
  rw [ofQuotient, dif_neg hden]

/-- A rational is the quotient of its numerator and denominator, without scale. -/
theorem cast_num_div_den (q : Rat) : (q.num : Rat) / q.den * 2 ^ (0 : Int) = q := by
  rw [Rat.num_div_den, zpow_zero, mul_one]

/-- Rounding to a real depends on nothing but the value. -/
theorem ofQuotient_eq_nearest {num : Int} {den : Nat} {scale : Int} (hden : den ≠ 0) :
    ofQuotient num den scale = nearest (num / den * 2 ^ scale) := by
  apply ext
  rw [nearest, value_ofQuotient hden, value_ofQuotient (Rat.den_nz _)]
  exact Binary.roundQuotient_congr (by decide) hden (Rat.den_nz _) (cast_num_div_den _).symm

/-- The nearest reals are ordered as the rationals are, or equal. -/
theorem nearest_mono {p q : Rat} (h : p ≤ q) :
    (nearest p).value.toRat ≤ (nearest q).value.toRat := by
  rw [nearest, nearest, value_ofQuotient (Rat.den_nz _), value_ofQuotient (Rat.den_nz _)]
  apply Binary.toRat_roundQuotient_mono (by decide) (Rat.den_nz _) (Rat.den_nz _)
  rwa [cast_num_div_den, cast_num_div_den]

/-- No real is nearer. -/
theorem abs_sub_nearest_le (q : Rat) (x : Real256) :
    |q - (nearest q).value.toRat| ≤ |q - x.value.toRat| := by
  have h : |(q.num : Rat) / q.den * 2 ^ (0 : Int) - (nearest q).value.toRat| ≤
      |q.num / q.den * 2 ^ (0 : Int) - x.value.toRat| := by
    rw [nearest, value_ofQuotient (Rat.den_nz _)]
    exact Binary.abs_sub_roundQuotient_le (by decide) (Rat.den_nz q) x.fits
  rwa [cast_num_div_den] at h

/-- A real is the one nearest to its value. -/
theorem nearest_toRat (x : Real256) : nearest x.value.toRat = x := by
  apply ext
  rw [nearest, value_ofQuotient (Rat.den_nz _)]
  exact Binary.roundQuotient_of_fits (by decide) x.fits (Rat.den_nz _) (cast_num_div_den _)

/-- A number that fits is the real nearest to it. -/
theorem ofDyadic_of_fits {x : Dyadic} (h : Binary.Fits workingPrecision x) :
    ofDyadic x = nearest x.toRat := by
  conv_rhs => rw [← value_ofDyadic_of_fits h, nearest_toRat]

/-- An integer becomes the real nearest to it, whichever way it is rounded. -/
theorem ofInt_eq_nearest (n : Int) : ofInt n = nearest n := by
  unfold ofInt
  split
  · rename_i h
    have hfits : Binary.Fits workingPrecision (.ofInt n) :=
      Binary.fits_ofIntWithPrec (by decide) 0 h.le
    rw [ofDyadic_of_fits hfits]
    exact congrArg nearest (Dyadic.toRat_intCast n)
  · rw [ofQuotient_eq_nearest one_ne_zero, Nat.cast_one, div_one, zpow_zero, mul_one]

/-- A quotient of reals is the real nearest to the exact quotient. -/
theorem div_eq_nearest (x y : Real256) :
    x / y = nearest (x.value.toRat / y.value.toRat) := by
  have hzero : (0 : Real256) = nearest 0 := ofInt_eq_nearest 0
  change div x y = _
  unfold div
  cases hx : x.value with
  | zero => rw [hzero, Dyadic.toRat, zero_div]
  | ofOdd n j hn =>
    cases hy : y.value with
    | zero => rw [hzero, Dyadic.toRat, div_zero]
    | ofOdd m k hm =>
      have hm0 : m ≠ 0 := by omega
      simp only
      have hm' : (m : Rat) ≠ 0 := Int.cast_ne_zero.mpr hm0
      have hs : (m.sign : Rat) ≠ 0 := Int.cast_ne_zero.mpr (mt Int.sign_eq_zero_iff_zero.mp hm0)
      have habs : (m.natAbs : Rat) = m * m.sign := by
        rw [← Int.cast_mul, Int.mul_sign_self, Int.cast_natCast]
      rw [ofQuotient_eq_nearest (Int.natAbs_ne_zero.mpr hm0), Binary.toRat_ofOdd,
        Binary.toRat_ofOdd, habs, Int.cast_mul, mul_div_mul_right _ _ hs,
        zpow_sub₀ two_ne_zero, zpow_neg, zpow_neg]
      congr 1
      field_simp

end Real256

namespace ExtReal

/-- The value on the line of the rationals with a point at either end. -/
def extended : ExtReal → WithBot (WithTop Rat)
  | .finite x => (x.value.toRat : WithTop Rat)
  | .infinite false => (⊤ : WithTop Rat)
  | .infinite true => ⊥

/-- Rationals keep their order between the infinities. -/
theorem strictMono_coe : StrictMono fun q : Rat => ((q : WithTop Rat) : WithBot (WithTop Rat)) :=
  WithBot.coe_strictMono.comp WithTop.coe_strictMono

/-- The infinities lie at the two ends of the order. -/
theorem order_eq_cmp (x y : ExtReal) : x.order y = cmp x.extended y.extended := by
  have hbot : ∀ q : WithTop Rat, (⊥ : WithBot (WithTop Rat)) < q := WithBot.bot_lt_coe
  have htop : ∀ q : Rat, ((q : WithTop Rat) : WithBot (WithTop Rat)) < (⊤ : WithTop Rat) :=
    fun q => WithBot.coe_lt_coe.mpr (WithTop.coe_lt_top q)
  obtain x | ⟨_ | _⟩ := x <;> obtain y | ⟨_ | _⟩ := y
  · exact (Binary.order_eq_cmp _ _).trans (strictMono_coe.cmp_map_eq _ _).symm
  · exact (htop _).cmp_eq_lt.symm
  · exact (hbot _).cmp_eq_gt.symm
  · exact (htop _).cmp_eq_gt.symm
  · exact (cmp_self_eq_eq _).symm
  · exact (hbot _).cmp_eq_gt.symm
  · exact (hbot _).cmp_eq_lt.symm
  · exact (hbot _).cmp_eq_lt.symm
  · exact (cmp_self_eq_eq _).symm

/-- A real is known by its place among the rationals and infinities. -/
theorem extended_injective : Function.Injective extended := by
  intro x y h
  obtain x | ⟨_ | _⟩ := x <;> obtain y | ⟨_ | _⟩ := y
  · have hvalue := Dyadic.toRat_inj.mp (strictMono_coe.injective h)
    rw [Real256.ext hvalue]
  all_goals first | rfl | cases h

end ExtReal

namespace Number

/-! ## domains of comparison -/

/-- Either both numbers are exact, or one of them is real. -/
theorem isExact_cases (a b : Number) :
    a.isExact = true ∧ b.isExact = true ∨ (a.isExact = false ∨ b.isExact = false) := by
  cases a.isExact <;> cases b.isExact <;> simp

/-- Exact numbers are compared by value. -/
theorem order_of_isExact {a b : Number} (ha : a.isExact = true) (hb : b.isExact = true) :
    a.order b = cmp a.exactValue b.exactValue := by
  have hint : ∀ m n : Int, compare m n = cmp (m : Rat) n := fun m n =>
    (cmp_eq_compare m n).symm.trans (Int.cast_strictMono.cmp_map_eq m n).symm
  cases a <;> cases b <;> first | exact hint _ _ | rfl | simp [isExact] at ha hb

/-- A real is compared with the other number as a real. -/
theorem order_of_not_isExact {a b : Number} (h : a.isExact = false ∨ b.isExact = false) :
    a.order b = cmp a.toReal.extended b.toReal.extended := by
  rw [← ExtReal.order_eq_cmp]
  cases a <;> cases b <;> first | rfl | simp [isExact] at h

/-- Numbers are equal if neither is above the other. -/
theorem beq_iff (a b : Number) : (a == b) = true ↔ a.order b = .eq := decide_eq_true_iff

section pairs

variable {a b : Number}

/-- Exact numbers are ordered as their values are. -/
theorem lt_iff_of_isExact (ha : a.isExact = true) (hb : b.isExact = true) :
    a < b ↔ a.exactValue < b.exactValue := by
  change a.order b = .lt ↔ _
  rw [order_of_isExact ha hb, cmp_eq_lt_iff]

/-- Exact numbers are equal if their values are. -/
theorem beq_iff_of_isExact (ha : a.isExact = true) (hb : b.isExact = true) :
    (a == b) = true ↔ a.exactValue = b.exactValue := by
  rw [beq_iff, order_of_isExact ha hb, cmp_eq_eq_iff]

/-- Next to a real, numbers are ordered as the reals they become. -/
theorem lt_iff_of_not_isExact (h : a.isExact = false ∨ b.isExact = false) :
    a < b ↔ a.toReal.extended < b.toReal.extended := by
  change a.order b = .lt ↔ _
  rw [order_of_not_isExact h, cmp_eq_lt_iff]

/-- Next to a real, numbers are equal if they become the same real. -/
theorem beq_iff_of_not_isExact (h : a.isExact = false ∨ b.isExact = false) :
    (a == b) = true ↔ a.toReal.extended = b.toReal.extended := by
  rw [beq_iff, order_of_not_isExact h, cmp_eq_eq_iff]

end pairs

/-! ## conversion -/

/-- The number converts to the real nearest to its value (`RoundsOnce.toReal_eq`).
A rational may not: its parts are rounded, and then their quotient. -/
def RoundsOnce : Number → Prop
  | .integer _ | .real _ => True
  | .rational q => realOfRat q = .nearest q

/-- The number converts to a real of the same value. -/
def ConvertsExactly : Number → Prop
  | .integer n => (Real256.ofInt n).value.toRat = n
  | .rational q => (realOfRat q).value.toRat = q
  | .real _ => True

/-- An integer that fits is not rounded. -/
theorem toRat_ofInt_of_fits {n : Int} (h : Binary.Fits workingPrecision (.ofInt n)) :
    (Real256.ofInt n).value.toRat = n := by
  have hvalue : (Dyadic.ofInt n).toRat = n := Dyadic.toRat_intCast n
  have hnearest := Real256.nearest_toRat ⟨.ofInt n, h⟩
  rw [hvalue] at hnearest
  rw [Real256.ofInt_eq_nearest, hnearest, hvalue]

/-- Parts that fit are not rounded, so that their quotient is rounded alone. -/
theorem roundsOnce_rational_of_fits {q : Rat} (hnum : Binary.Fits workingPrecision (.ofInt q.num))
    (hden : Binary.Fits workingPrecision (.ofInt q.den)) : RoundsOnce (.rational q) := by
  change realOfRat q = _
  rw [realOfRat, Real256.div_eq_nearest, toRat_ofInt_of_fits hnum, toRat_ofInt_of_fits hden,
    Int.cast_natCast, Rat.num_div_den]

/-- A whole rational converts like the integer. -/
theorem realOfRat_intCast (n : Int) : realOfRat n = Real256.ofInt n := by
  have hone : Real256.ofInt ((1 : Nat) : Int) = Real256.ofInt 1 := rfl
  have hfits : Binary.Fits workingPrecision (.ofInt 1) := by decide
  rw [realOfRat, Rat.num_intCast, Rat.den_intCast, hone, Real256.div_eq_nearest,
    toRat_ofInt_of_fits hfits, Int.cast_one, div_one, Real256.nearest_toRat]

section pairs

variable {a b : Number}

/-- Exact numbers of one value convert to one real. -/
theorem toReal_eq_of_exactValue_eq (ha : a.isExact = true) (hb : b.isExact = true)
    (h : a.exactValue = b.exactValue) : a.toReal = b.toReal := by
  cases a with
  | real x => cases ha
  | integer m =>
    cases b with
    | real y => cases hb
    | integer n => rw [Int.cast_injective (show (m : Rat) = n from h)]
    | rational q =>
      obtain rfl : (m : Rat) = q := h
      exact congrArg ExtReal.finite (realOfRat_intCast m).symm
  | rational p =>
    cases b with
    | real y => cases hb
    | integer n =>
      obtain rfl : p = (n : Rat) := h
      exact congrArg ExtReal.finite (realOfRat_intCast n)
    | rational q => rw [show p = q from h]

/-- Equal numbers convert to one real, whatever their representations. -/
theorem toReal_eq_of_beq (h : (a == b) = true) : a.toReal = b.toReal := by
  obtain ⟨ha, hb⟩ | hreal := isExact_cases a b
  · exact toReal_eq_of_exactValue_eq ha hb ((beq_iff_of_isExact ha hb).mp h)
  · exact ExtReal.extended_injective ((beq_iff_of_not_isExact hreal).mp h)

/-- An exact number rounded once becomes the real nearest to its value. -/
theorem RoundsOnce.toReal_eq (h : a.RoundsOnce) (ha : a.isExact = true) :
    a.toReal = .finite (.nearest a.exactValue) := by
  cases a with
  | real x => cases ha
  | integer n => exact congrArg ExtReal.finite (Real256.ofInt_eq_nearest n)
  | rational q => exact congrArg ExtReal.finite h

/-- Rounding once keeps the order of exact numbers, though it may make two of
them equal. -/
theorem toReal_le_toReal (ha : a.isExact = true) (hb : b.isExact = true) (hra : a.RoundsOnce)
    (hrb : b.RoundsOnce) (h : a.exactValue ≤ b.exactValue) :
    a.toReal.extended ≤ b.toReal.extended := by
  rw [hra.toReal_eq ha, hrb.toReal_eq hb]
  exact ExtReal.strictMono_coe.monotone (Real256.nearest_mono h)

/-- What is below stays so in the reals, or becomes equal. -/
theorem toReal_le_of_lt (hra : a.RoundsOnce) (hrb : b.RoundsOnce) (h : a < b) :
    a.toReal.extended ≤ b.toReal.extended := by
  obtain ⟨ha, hb⟩ | hreal := isExact_cases a b
  · exact toReal_le_toReal ha hb hra hrb ((lt_iff_of_isExact ha hb).mp h).le
  · exact ((lt_iff_of_not_isExact hreal).mp h).le

/-- An exact number that needs no rounding keeps its value. -/
theorem ConvertsExactly.extended_eq (h : a.ConvertsExactly) (ha : a.isExact = true) :
    a.toReal.extended = ((a.exactValue : WithTop Rat) : WithBot (WithTop Rat)) := by
  cases a with
  | real x => cases ha
  | integer n => exact congrArg (fun q : Rat => ((q : WithTop Rat) : WithBot (WithTop Rat))) h
  | rational q => exact congrArg (fun q : Rat => ((q : WithTop Rat) : WithBot (WithTop Rat))) h

end pairs

/-! ## three numbers -/

/-- Each pair of the three numbers is compared in the same domain: all of them
are exact, or no two of them are. -/
def ComparedAlike (a b c : Number) : Prop :=
  (a.isExact = true ∧ b.isExact = true ∧ c.isExact = true) ∨
    ((a.isExact = false ∨ b.isExact = false) ∧ (b.isExact = false ∨ c.isExact = false) ∧
      (a.isExact = false ∨ c.isExact = false))

section triples

variable {a b c : Number}

/-- Numbers compared in one domain are ordered like their places there. -/
theorem ComparedAlike.exists_places (h : ComparedAlike a b c) :
    ∃ x y z : WithBot (WithTop Rat),
      a.order b = cmp x y ∧ b.order c = cmp y z ∧ a.order c = cmp x z := by
  obtain ⟨ha, hb, hc⟩ | ⟨hab, hbc, hac⟩ := h
  · refine ⟨(a.exactValue : WithTop Rat), (b.exactValue : WithTop Rat),
      (c.exactValue : WithTop Rat), ?_⟩
    rw [order_of_isExact ha hb, order_of_isExact hb hc, order_of_isExact ha hc]
    exact ⟨(ExtReal.strictMono_coe.cmp_map_eq _ _).symm,
      (ExtReal.strictMono_coe.cmp_map_eq _ _).symm,
      (ExtReal.strictMono_coe.cmp_map_eq _ _).symm⟩
  · exact ⟨_, _, _, order_of_not_isExact hab, order_of_not_isExact hbc,
      order_of_not_isExact hac⟩

/-- Equality is passed on, unless a single real stands between two exact
numbers that it is nearest to. -/
theorem beq_of_beq_of_beq (hab : (a == b) = true) (hbc : (b == c) = true)
    (h : b.isExact = true ∨ a.isExact = false ∨ c.isExact = false ∨
      a.ConvertsExactly ∧ c.ConvertsExactly) : (a == c) = true := by
  have hreal : a.toReal = c.toReal := (toReal_eq_of_beq hab).trans (toReal_eq_of_beq hbc)
  obtain ⟨ha, hc⟩ | hac := isExact_cases a c
  · rw [beq_iff_of_isExact ha hc]
    obtain hb | ha' | hc' | ⟨hea, hec⟩ := h
    · exact ((beq_iff_of_isExact ha hb).mp hab).trans ((beq_iff_of_isExact hb hc).mp hbc)
    · exact absurd ha (by simp [ha'])
    · exact absurd hc (by simp [hc'])
    · apply ExtReal.strictMono_coe.injective
      calc ((a.exactValue : WithTop Rat) : WithBot (WithTop Rat))
          = a.toReal.extended := (hea.extended_eq ha).symm
        _ = c.toReal.extended := by rw [hreal]
        _ = _ := hec.extended_eq hc
  · rw [beq_iff_of_not_isExact hac, hreal]

/-- Rounding once does not turn the order round. -/
theorem lt_of_toReal_lt (hra : a.RoundsOnce) (hrb : b.RoundsOnce)
    (h : a.toReal.extended < b.toReal.extended) : a < b := by
  obtain ⟨ha, hb⟩ | hreal := isExact_cases a b
  · rw [lt_iff_of_isExact ha hb]
    exact lt_of_not_ge fun hle => (toReal_le_toReal hb ha hrb hra hle).not_gt h
  · exact (lt_iff_of_not_isExact hreal).mpr h

/-- The order is passed on by numbers that are rounded once: their reals are in
order, and strictly so next to a real. -/
theorem lt_of_lt_of_lt (hab : a < b) (hbc : b < c)
    (h : ComparedAlike a b c ∨ a.RoundsOnce ∧ b.RoundsOnce ∧ c.RoundsOnce) : a < c := by
  obtain halike | ⟨hra, hrb, hrc⟩ := h
  · obtain ⟨x, y, z, hxy, hyz, hxz⟩ := halike.exists_places
    have hlt : x < z := calc
      x < y := (cmp_eq_lt_iff ..).mp (hxy ▸ hab)
      _ < z := (cmp_eq_lt_iff ..).mp (hyz ▸ hbc)
    exact hxz.trans hlt.cmp_eq_lt
  · cases hb : b.isExact with
    | false =>
      apply lt_of_toReal_lt hra hrc
      calc a.toReal.extended
          < b.toReal.extended := (lt_iff_of_not_isExact (.inr hb)).mp hab
        _ < c.toReal.extended := (lt_iff_of_not_isExact (.inl hb)).mp hbc
    | true =>
      obtain ⟨ha, hc⟩ | ha | hc := isExact_cases a c
      · rw [lt_iff_of_isExact ha hc]
        exact ((lt_iff_of_isExact ha hb).mp hab).trans ((lt_iff_of_isExact hb hc).mp hbc)
      · apply lt_of_toReal_lt hra hrc
        calc a.toReal.extended
            < b.toReal.extended := (lt_iff_of_not_isExact (.inl ha)).mp hab
          _ ≤ c.toReal.extended := toReal_le_of_lt hrb hrc hbc
      · apply lt_of_toReal_lt hra hrc
        calc a.toReal.extended
            ≤ b.toReal.extended := toReal_le_of_lt hra hrb hab
          _ < c.toReal.extended := (lt_iff_of_not_isExact (.inr hc)).mp hbc

/-- The order is passed on to an equal number, unless a single real stands last
that both the others are nearest to. -/
theorem lt_of_lt_of_beq (hab : a < b) (hbc : (b == c) = true)
    (h : ComparedAlike a b c ∨ a.isExact = false ∨
      (a.RoundsOnce ∧ b.RoundsOnce ∧ c.RoundsOnce) ∧ (b.isExact = false ∨ a.toReal ≠ b.toReal)) :
    a < c := by
  have hreal : b.toReal = c.toReal := toReal_eq_of_beq hbc
  obtain halike | ha | ⟨⟨hra, hrb, hrc⟩, hb | hne⟩ := h
  · obtain ⟨x, y, z, hxy, hyz, hxz⟩ := halike.exists_places
    have hlt : x < z := calc
      x < y := (cmp_eq_lt_iff ..).mp (hxy ▸ hab)
      _ = z := (cmp_eq_eq_iff ..).mp (hyz ▸ (beq_iff b c).mp hbc)
    exact hxz.trans hlt.cmp_eq_lt
  · rw [lt_iff_of_not_isExact (.inl ha), ← hreal]
    exact (lt_iff_of_not_isExact (.inl ha)).mp hab
  · apply lt_of_toReal_lt hra hrc
    rw [← hreal]
    exact (lt_iff_of_not_isExact (.inr hb)).mp hab
  · apply lt_of_toReal_lt hra hrc
    rw [← hreal]
    exact (toReal_le_of_lt hra hrb hab).lt_of_ne (ExtReal.extended_injective.ne hne)

end triples

/-- How far three numbers of any representation agree.

1. Equality is transitive, except across a single real between two exact numbers
   that it does not represent both;
2. the order is transitive where all three are exact or no two of them are, and
   otherwise where no rational among them is rounded more than once;
3. so it is along an equality, except to a single real at the end that the two
   exact numbers both convert to. -/
theorem order_consistent (a b c : Number) :
    ((a == b) = true → (b == c) = true →
      (b.isExact = true ∨ a.isExact = false ∨ c.isExact = false ∨
        a.ConvertsExactly ∧ c.ConvertsExactly) → (a == c) = true) ∧
    (a < b → b < c →
      (ComparedAlike a b c ∨ a.RoundsOnce ∧ b.RoundsOnce ∧ c.RoundsOnce) → a < c) ∧
    (a < b → (b == c) = true →
      (ComparedAlike a b c ∨ a.isExact = false ∨
        (a.RoundsOnce ∧ b.RoundsOnce ∧ c.RoundsOnce) ∧
          (b.isExact = false ∨ a.toReal ≠ b.toReal)) → a < c) :=
  ⟨beq_of_beq_of_beq, lt_of_lt_of_lt, lt_of_lt_of_beq⟩

/-- Integers beyond the bits of a real keep their order across one, a third its
order with a half and the real of the half, and the forms of `2` are one. -/
theorem order_consistent_rounded :
    (integer 2 == rational 2) = true ∧
    integer (2 ^ 256 + 1) < integer (2 ^ 257 + 3) ∧
    rational (1 / 3) < real (rational (1 / 2)).toReal := by
  have hfits : ∀ n ∈ [1, 2, 3], Binary.Fits workingPrecision (.ofInt n) := by decide +kernel
  have hthird : (rational (1 / 3)).RoundsOnce := by
    apply roundsOnce_rational_of_fits <;> exact hfits _ (by decide +kernel)
  have hhalf : (rational (1 / 2)).RoundsOnce := by
    apply roundsOnce_rational_of_fits <;> exact hfits _ (by decide +kernel)
  have htwo : (Real256.ofInt 2).value.toRat = (2 : Int) := by decide +kernel
  have htwo' : (realOfRat 2).value.toRat = 2 := by decide +kernel
  refine ⟨?_, ?_, ?_⟩
  · exact (order_consistent (integer 2) (real (integer 2).toReal) (rational 2)).1
      (by decide +kernel) (by decide +kernel) (.inr (.inr (.inr ⟨htwo, htwo'⟩)))
  · exact (order_consistent (integer (2 ^ 256 + 1)) (real (integer (2 ^ 257)).toReal)
      (integer (2 ^ 257 + 3))).2.1 (by decide +kernel) (by decide +kernel)
      (.inr ⟨trivial, trivial, trivial⟩)
  · exact (order_consistent (rational (1 / 3)) (rational (1 / 2))
      (real (rational (1 / 2)).toReal)).2.2 (by decide +kernel) (by decide +kernel)
      (.inr (.inr ⟨⟨hthird, hhalf, trivial⟩, .inr (by decide +kernel)⟩))

/-- Each of the three laws fails for some numbers of more bits than a real has. -/
theorem order_inconsistent :
    ((integer (2 ^ 256 + 1) == real (integer (2 ^ 256)).toReal) = true ∧
      (real (integer (2 ^ 256)).toReal == integer (2 ^ 256)) = true ∧
      (integer (2 ^ 256 + 1) == integer (2 ^ 256)) = false) ∧
    (rational ((2 ^ 256 + 1) / (2 ^ 256 + 3)) <
        real (.finite (.ofQuotient (2 ^ 256 - 3) 1 (-256))) ∧
      real (.finite (.ofQuotient (2 ^ 256 - 3) 1 (-256))) < rational ((2 ^ 255 - 1) / 2 ^ 255) ∧
      ¬rational ((2 ^ 256 + 1) / (2 ^ 256 + 3)) < rational ((2 ^ 255 - 1) / 2 ^ 255)) ∧
    (integer (2 ^ 256) < integer (2 ^ 256 + 1) ∧
      (integer (2 ^ 256 + 1) == real (integer (2 ^ 256)).toReal) = true ∧
      ¬integer (2 ^ 256) < real (integer (2 ^ 256)).toReal) := by
  decide +kernel

end Number

end SymCalc
