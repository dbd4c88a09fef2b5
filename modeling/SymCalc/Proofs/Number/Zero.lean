import SymCalc.Proofs.Number.Order

/-!
# SymCalc.Proofs.Number.Zero

Zeros among the factors of a product.

All zeros are equal as numbers (`beq_of_isZero`), and a product with a zero
factor is a zero (`isZero_of_product_eq_ok`): it may differ from this factor in
its representation, but not in its value.
-/

namespace SymCalc.Number

/-! ## zeros are equal -/

/-- There is one zero of each representation. -/
theorem isZero_cases {x : Number} (h : x.isZero = true) :
    x = .integer 0 ∨ x = .rational 0 ∨ ∃ r, x = .real (.finite r) ∧ r.value = 0 := by
  cases x with
  | integer n => simpa [isZero] using h
  | rational q => simpa [isZero] using h
  | real x =>
    cases x with
    | finite r => exact .inr (.inr ⟨r, rfl, of_decide_eq_true h⟩)
    | infinite s => cases h

/-- A zero among the operands of an inexact operation becomes the real zero. -/
theorem finiteReal_of_isZero {x : Number} (h : x.isZero = true) :
    ∃ r : Real256, x.finiteReal = .ok r ∧ x.toReal = .finite r ∧ r.value = 0 := by
  rcases isZero_cases h with rfl | rfl | ⟨r, rfl, hr⟩
  · exact ⟨.ofInt 0, rfl, rfl, by decide +kernel⟩
  · exact ⟨realOfRat 0, rfl, rfl, by decide +kernel⟩
  · exact ⟨r, rfl, rfl, hr⟩

/-- All zeros are equal. -/
theorem beq_of_isZero {x y : Number} (hx : x.isZero = true) (hy : y.isZero = true) :
    (x == y) = true := by
  obtain ⟨hxe, hye⟩ | hreal := isExact_cases x y
  · rw [beq_iff_of_isExact hxe hye, (isZero_iff_of_isExact hxe).mp hx,
      (isZero_iff_of_isExact hye).mp hy]
  · obtain ⟨r, -, hr, hr0⟩ := finiteReal_of_isZero hx
    obtain ⟨s, -, hs, hs0⟩ := finiteReal_of_isZero hy
    rw [beq_iff_of_not_isExact hreal, hr, hs, Real256.ext (hr0.trans hs0.symm)]

/-- A number is equal to itself. -/
theorem beq_self (x : Number) : (x == x) = true := by
  obtain ⟨hx, -⟩ | hreal := isExact_cases x x
  · exact (beq_iff_of_isExact hx hx).mpr rfl
  · exact (beq_iff_of_not_isExact hreal).mpr rfl

/-! ## products with a zero factor -/

/-- The operands of an inexact operation are converted one by one. -/
theorem mem_of_mapM_finiteReal {xs : List Number} {rs : List Real256} {x : Number}
    {r : Real256} (h : xs.mapM finiteReal = .ok rs) (hx : x ∈ xs)
    (hr : x.finiteReal = .ok r) : r ∈ rs := by
  have hmem : x.toReal ∈ xs.map toReal := List.mem_map_of_mem hx
  rw [mapM_finiteReal_eq_ok_iff.mp h, finiteReal_eq_ok_iff.mp hr] at hmem
  obtain ⟨s, hs, hrs⟩ := List.mem_map.mp hmem
  cases hrs
  exact hs

/-- A real product with a zero factor is zero. -/
theorem value_mul_of_zero {x y : Real256} (h : x.value = 0 ∨ y.value = 0) :
    (x * y).value = 0 := by
  have hzero : x.value * y.value = 0 := by
    rcases h with h | h
    · rw [h, Dyadic.zero_mul]
    · rw [h, Dyadic.mul_zero]
  rw [Real256.value_mul_of_fits] <;> rw [hzero]
  exact Binary.fits_zero _

/-- A zero on the way makes a product of reals zero. -/
theorem value_foldl_mul_of_zero {rs : List Real256} {r : Real256}
    (h : r.value = 0 ∨ ∃ s ∈ rs, s.value = 0) : (rs.foldl (· * ·) r).value = 0 := by
  induction rs generalizing r with
  | nil => simpa using h
  | cons s rs ih =>
    rw [List.foldl_cons]
    apply ih
    rcases h with h | ⟨t, ht, h⟩
    · exact .inl (value_mul_of_zero (.inl h))
    · rcases List.mem_cons.mp ht with rfl | ht
      · exact .inl (value_mul_of_zero (.inr h))
      · exact .inr ⟨t, ht, h⟩

/-- **A product with a zero factor is zero.** -/
theorem isZero_of_product_eq_ok {xs : List Number} {z p : Number} (hz : z ∈ xs)
    (hzero : z.isZero = true) (h : product xs = .ok p) : p.isZero = true := by
  by_cases hex : ∀ x ∈ xs, x.isExact = true
  · obtain ⟨s, hs, hse, hsv, -⟩ := exactFold_product.fold_of_isExact hex
    rw [h] at hs
    cases hs
    rw [isZero_iff_of_isExact hse, hsv]
    apply List.prod_eq_zero
    rw [← (isZero_iff_of_isExact (hex z hz)).mp hzero]
    exact List.mem_map_of_mem hz
  · rw [product_of_not_isExact hex] at h
    cases hrs : xs.mapM finiteReal with
    | error err => rw [hrs] at h; cases h
    | ok rs =>
      rw [hrs] at h
      cases h
      obtain ⟨r, hr, -, hr0⟩ := finiteReal_of_isZero hzero
      have hmem : r ∈ rs := mem_of_mapM_finiteReal hrs hz hr
      cases rs with
      | nil => cases hmem
      | cons s rs =>
        apply decide_eq_true
        apply value_foldl_mul_of_zero
        rcases List.mem_cons.mp hmem with rfl | hmem
        · exact .inl hr0
        · exact .inr ⟨r, hmem, hr0⟩

end SymCalc.Number
