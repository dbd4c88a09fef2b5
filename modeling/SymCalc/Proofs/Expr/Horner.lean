import SymCalc.Proofs.Expr.ExactRun
import SymCalc.Proofs.Expr.Polynomial
import SymCalc.Real256.Series

/-!
# SymCalc.Proofs.Expr.Horner

The value of a polynomial at an integer.

1. Horner's scheme comes to the sum of the coefficients times the powers
   (`horner_eq_polynomialValue`);
2. where each tree of a list has a value or fails with the same error, the list fails with
   it if one of them does (`evaluateAllWith_eq_error`), and so does the tree they are put
   together to (`failsWith_assemble`);
3. a monomial has the value of its coefficient times the power (`hasValue_monomial`), unless
   the power is written down and too long (`failsWith_monomial`).

Main statement: `evaluate_polynomial`.
-/

namespace SymCalc.Expr

open Number (TooLong TotalNarrows exactFold_sum exactFold_product)

/-! ## Horner's scheme -/

/-- Horner's scheme at `k`: from the highest coefficient on, what has come together is
multiplied by `k`, and the next coefficient added. -/
def horner (k : Rat) (cs : List Number) : Rat := cs.foldl (fun s c => s * k + c.exactValue) 0

/-- The coefficients times the powers of `k`; the degree of the first is the number of
coefficients after it. -/
def polynomialValue (k : Rat) : List Number → Rat
  | [] => 0
  | c :: cs => c.exactValue * k ^ cs.length + polynomialValue k cs

/-- What has come together is multiplied by `k` once for each coefficient that is left. -/
theorem foldl_horner (k s : Rat) (cs : List Number) :
    cs.foldl (fun s c => s * k + c.exactValue) s = s * k ^ cs.length + polynomialValue k cs := by
  induction cs generalizing s with
  | nil => simp [polynomialValue]
  | cons c cs ih =>
    rw [List.foldl_cons, ih, polynomialValue, List.length_cons]
    ring

/-- The scheme has the value of the polynomial. -/
theorem horner_eq_polynomialValue (k : Rat) (cs : List Number) :
    horner k cs = polynomialValue k cs := by
  rw [horner, foldl_horner, zero_mul, zero_add]

/-- `2 * 3 ^ 2 + 5` at `3`. -/
example : horner 3 [.integer 2, .integer 0, .integer 5] = 23 := by decide +kernel

section

variable [Elementary] {solve : GoalSolver} {args : Arguments} {v : Variable} {k : Int}

/-! ## trees without a value -/

/-- The evaluation of `e` fails with `err`. -/
def FailsWith (solve : GoalSolver) (args : Arguments) (err : Error) (e : Expr) : Prop :=
  (evaluateWith solve args e).result = .error err

section failures

variable {err : Error} {es : List Expr}

/-- One error in a list is that of the list, if there is no other. -/
theorem evaluateAllWith_eq_error
    (hall : ∀ e ∈ es, (∃ x, HasValue solve args e x) ∨ FailsWith solve args err e)
    (hfails : ∃ e ∈ es, FailsWith solve args err e) :
    (evaluateAllWith solve args es).result = .error err := by
  induction es with
  | nil =>
    obtain ⟨e, he, -⟩ := hfails
    cases he
  | cons e es ih =>
    rw [List.forall_mem_cons] at hall
    rw [evaluateAllWith, Logged.result_bind_eq_error]
    rcases hall.1 with ⟨x, hx⟩ | herror
    · obtain ⟨u, hu, herror⟩ := hfails
      rcases List.mem_cons.mp hu with rfl | hu
      · cases hx.symm.trans herror
      · exact .inr ⟨x, hx, Logged.result_bind_eq_error.mpr (.inl (ih hall.2 ⟨u, hu, herror⟩))⟩
    · exact .inl herror

/-- A sum fails as its addends do. -/
theorem failsWith_add (h : (evaluateAllWith solve args es).result = .error err) :
    FailsWith solve args err (.add es) := by
  rw [FailsWith, evaluateWith]
  exact Logged.result_bind_eq_error.mpr (.inl h)

/-- A product fails as its factors do. -/
theorem failsWith_mul (h : (evaluateAllWith solve args es).result = .error err) :
    FailsWith solve args err (.mul es) := by
  rw [FailsWith, evaluateWith]
  exact Logged.result_bind_eq_error.mpr (.inl h)

/-- What is put together fails with the one error of its operands. -/
theorem failsWith_assemble {node : List Expr → Expr}
    (hnode : ∀ {es}, (evaluateAllWith solve args es).result = .error err →
      FailsWith solve args err (node es))
    (hall : ∀ e ∈ es, (∃ x, HasValue solve args e x) ∨ FailsWith solve args err e)
    (hfails : ∃ e ∈ es, FailsWith solve args err e) (x : Number) (neutral : Bool) :
    FailsWith solve args err (assemble node es x neutral) := by
  cases es with
  | nil =>
    obtain ⟨e, he, -⟩ := hfails
    cases he
  | cons e es =>
    cases neutral with
    | true =>
      cases es with
      | nil =>
        obtain ⟨u, hu, herror⟩ := hfails
        rwa [List.mem_singleton.mp hu] at herror
      | cons e' es => exact hnode (evaluateAllWith_eq_error hall hfails)
    | false =>
      refine hnode (evaluateAllWith_eq_error ?_ ?_)
      · rw [List.forall_mem_append, List.forall_mem_singleton]
        exact ⟨hall, .inl ⟨x, hasValue_const.mpr rfl⟩⟩
      · obtain ⟨u, hu, herror⟩ := hfails
        exact ⟨u, List.mem_append_left _ hu, herror⟩

end failures

/-! ## powers -/

section powers

variable (solve) {n : Nat}

/-- The power written for a degree has its exact value unless it is too long. -/
theorem hasValue_power (hk : args.get? v = some (.integer k))
    (hshort : 1 ≤ n → ¬TooLong k (n + 1)) :
    HasValue solve args (power v n) (.integer (k ^ (n + 1))) := by
  cases n with
  | zero =>
    rw [zero_add, pow_one]
    exact hasValue_var.mpr hk
  | succ n =>
    have hpos : (0 : Int) < ↑(n + 2) := by omega
    refine hasValue_pow.mpr ⟨_, hasValue_var.mpr hk, _, hasValue_const.mpr rfl, ?_⟩
    rw [Number.pow_integer, Number.powInt_eq_ok_iff]
    refine ⟨fun h => absurd h.2 (not_le.mpr hpos), hshort (by omega), ?_⟩
    rw [if_neg hpos.le.not_gt, Int.natAbs_natCast]

/-- The power written for a degree fails where it is too long. -/
theorem failsWith_power (hk : args.get? v = some (.integer k)) (hn : 1 ≤ n)
    (hlong : TooLong k (n + 1)) :
    FailsWith solve args (.numeric .precisionLimitExceeded) (power v n) := by
  obtain ⟨n, rfl⟩ := Nat.exists_eq_add_of_le' hn
  have hpow : (Number.integer k).pow (.integer ↑(n + 2)) = .error .precisionLimitExceeded := by
    rw [Number.pow_integer, Number.powInt_eq_precisionLimitExceeded_iff, Int.natAbs_natCast]
    exact hlong
  rw [FailsWith, power, evaluateWith]
  refine Logged.result_bind_eq_error.mpr (.inr ⟨_, hasValue_var.mpr hk, ?_⟩)
  refine Logged.result_bind_eq_error.mpr (.inr ⟨_, hasValue_const.mpr rfl, ?_⟩)
  exact Logged.result_numeric_eq_error.mpr ⟨_, hpow, rfl⟩

/-- The power as a list of factors has the value `k ^ n`. -/
theorem exists_values_powers (hk : args.get? v = some (.integer k))
    (hshort : 2 ≤ n → ¬TooLong k n) :
    ∃ ps, List.Forall₂ (HasValue solve args) (powers v n) ps ∧ ps.all Number.isInteger = true ∧
      Number.total (· * ·) 1 ps = (k : Rat) ^ n := by
  cases n with
  | zero => exact ⟨[], .nil, rfl, (pow_zero _).symm⟩
  | succ n =>
    have hvalue := hasValue_power solve hk fun hn => hshort (by omega)
    refine ⟨[.integer (k ^ (n + 1))], .cons hvalue .nil, rfl, ?_⟩
    rw [exactFold_product.total_singleton, Number.exactValue, Int.cast_pow]

end powers

/-! ## monomials -/

/-- A power is written down for the coefficient `c` of degree `n`, and it is too long at
`k`. -/
def LongTerm (k : Int) (n : Nat) (c : Number) : Prop :=
  2 ≤ n ∧ c.isZero = false ∧ TooLong k n

instance (k : Int) (n : Nat) (c : Number) : Decidable (LongTerm k n c) :=
  inferInstanceAs (Decidable (_ ∧ _ ∧ _))

section monomials

variable (solve) {n : Nat} {c : Number}

/-- A monomial has its exact value unless its power is too long. -/
theorem hasValue_monomial (hk : args.get? v = some (.integer k)) (hc : c.isExact = true)
    (hshort : ¬LongTerm k n c) :
    ∃ y, HasValue solve args (monomial v n c) y ∧ y.isExact = true ∧
      y.exactValue = c.exactValue * (k : Rat) ^ n ∧ (c.isInteger = true → y.isInteger = true) := by
  unfold monomial
  cases hzero : c.isZero with
  | true =>
    refine ⟨c, hasValue_const.mpr rfl, hc, ?_, id⟩
    rw [(Number.isZero_iff_of_isExact hc).mp hzero, zero_mul]
  | false =>
    obtain ⟨ps, hps, hint, htotal⟩ := exists_values_powers solve hk
      fun hn hlong => hshort ⟨hn, hzero, hlong⟩
    have hexact : ∀ x ∈ ps ++ [c], x.isExact = true := by
      rw [List.forall_mem_append, List.forall_mem_singleton]
      exact ⟨fun p hp => Number.isExact_of_isInteger (List.all_eq_true.mp hint p hp), hc⟩
    obtain ⟨x, hx, -, hvalue, hxint⟩ := exactFold_product.fold_of_isExact hexact
    obtain ⟨y, hy, hnarrows⟩ := hasValue_assemble exactFold_product hasValue_mul hps
      (.refl hexact) hx (Number.isOne_iff_of_isExact hc).mp
    refine ⟨y, hy, hnarrows.exact_left, ?_, fun hcint => hnarrows.integer ?_⟩
    · rw [hnarrows.value, hvalue, exactFold_product.total_append, htotal,
        exactFold_product.total_singleton, mul_comm]
    · rw [hxint, List.all_append, hint, List.all_cons, hcint]
      rfl

/-- A monomial fails where its power is too long. -/
theorem failsWith_monomial (hk : args.get? v = some (.integer k)) (hlong : LongTerm k n c) :
    FailsWith solve args (.numeric .precisionLimitExceeded) (monomial v n c) := by
  obtain ⟨hn, hzero, hlong⟩ := hlong
  obtain ⟨n, rfl⟩ := Nat.exists_eq_add_of_le' hn
  have hpower := failsWith_power solve hk (by omega) hlong
  rw [monomial_succ hzero]
  exact failsWith_assemble failsWith_mul (List.forall_mem_singleton.mpr (.inr hpower))
    ⟨_, List.mem_singleton_self _, hpower⟩ c c.isOne

end monomials

/-! ## polynomials -/

/-- Some term of the polynomial has a power that is too long at `k`. -/
def HasLongTerm (k : Int) : List Number → Prop
  | [] => False
  | c :: cs => LongTerm k cs.length c ∨ HasLongTerm k cs

instance decidableHasLongTerm (k : Int) : (cs : List Number) → Decidable (HasLongTerm k cs)
  | [] => inferInstanceAs (Decidable False)
  | c :: cs =>
    have := decidableHasLongTerm k cs
    inferInstanceAs (Decidable (LongTerm k cs.length c ∨ HasLongTerm k cs))

section polynomials

variable (solve) {cs : List Number}

/-- The monomials have values which come to that of the polynomial. -/
theorem exists_values_monomials (hk : args.get? v = some (.integer k))
    (hcs : ∀ c ∈ cs, c.isExact = true) (hshort : ¬HasLongTerm k cs) :
    ∃ ys, List.Forall₂ (HasValue solve args) (monomials v cs) ys ∧
      (∀ y ∈ ys, y.isExact = true) ∧ Number.total (· + ·) 0 ys = polynomialValue k cs ∧
      (cs.all Number.isInteger = true → ys.all Number.isInteger = true) := by
  induction cs with
  | nil => exact ⟨[], .nil, by simp, rfl, id⟩
  | cons c cs ih =>
    rw [List.forall_mem_cons] at hcs
    rw [HasLongTerm, not_or] at hshort
    obtain ⟨y, hy, hyexact, hyvalue, hyint⟩ := hasValue_monomial solve hk hcs.1 hshort.1
    obtain ⟨ys, hys, hexact, hvalue, hint⟩ := ih hcs.2 hshort.2
    refine ⟨y :: ys, .cons hy hys, List.forall_mem_cons.mpr ⟨hyexact, hexact⟩, ?_, fun hall => ?_⟩
    · rw [polynomialValue, ← hyvalue, ← hvalue]
      rfl
    · rw [List.all_cons, Bool.and_eq_true] at hall ⊢
      exact ⟨hyint hall.1, hint hall.2⟩

/-- A monomial has a value, or its power is too long. -/
theorem hasValue_or_failsWith_of_mem (hk : args.get? v = some (.integer k))
    (hcs : ∀ c ∈ cs, c.isExact = true) :
    ∀ m ∈ monomials v cs, (∃ x, HasValue solve args m x) ∨
      FailsWith solve args (.numeric .precisionLimitExceeded) m := by
  induction cs with
  | nil => simp [monomials]
  | cons c cs ih =>
    rw [List.forall_mem_cons] at hcs
    rw [monomials, List.forall_mem_cons]
    refine ⟨?_, ih hcs.2⟩
    by_cases hlong : LongTerm k cs.length c
    · exact .inr (failsWith_monomial solve hk hlong)
    · obtain ⟨y, hy, -⟩ := hasValue_monomial solve hk hcs.1 hlong
      exact .inl ⟨y, hy⟩

/-- A term with a power that is too long is kept, and fails. -/
theorem exists_failsWith_of_hasLongTerm (hk : args.get? v = some (.integer k))
    (hlong : HasLongTerm k cs) :
    ∃ m ∈ nonConstants (monomials v cs),
      FailsWith solve args (.numeric .precisionLimitExceeded) m := by
  induction cs with
  | nil => cases hlong
  | cons c cs ih =>
    rcases hlong with hlong | hlong
    · refine ⟨_, mem_nonConstants.mpr ⟨List.mem_cons_self, ?_⟩, failsWith_monomial solve hk hlong⟩
      obtain ⟨hn, hzero, -⟩ := hlong
      obtain ⟨n, hn⟩ := Nat.exists_eq_add_of_le' hn
      rw [hn]
      exact isConst_monomial hzero
    · obtain ⟨m, hm, hfails⟩ := ih hlong
      obtain ⟨hm, hconst⟩ := mem_nonConstants.mp hm
      exact ⟨m, mem_nonConstants.mpr ⟨List.mem_cons_of_mem _ hm, hconst⟩, hfails⟩

/-- **A polynomial evaluates to its exact value**, that of Horner's scheme, at every
integer, zero included.  It fails only where a term has a power too long to write down,
and for that reason. -/
theorem evaluate_polynomial (catalogue : Catalogue) (hcs : ∀ c ∈ cs, c.isExact = true)
    (hk : args.get? v = some (.integer k)) :
    ∃ p, (polynomial v cs).result = .ok p ∧
      (HasLongTerm k cs → (p.evaluate catalogue args).result =
        .error (.numeric .precisionLimitExceeded)) ∧
      (¬HasLongTerm k cs → ∃ y, (p.evaluate catalogue args).result = .ok y ∧
        y.isExact = true ∧ y.exactValue = horner k cs ∧
        (cs.all Number.isInteger = true → y.isInteger = true)) := by
  obtain ⟨p, -, hp, -, -⟩ := (sumsAlike_monomials (v := v) hcs).combineSum
  have hpolynomial := (result_polynomial hcs).trans (Logged.result_numeric_eq_ok.mpr hp)
  refine ⟨p, hpolynomial, fun hlong => ?_, fun hshort => ?_⟩
  · obtain ⟨s, -, rfl⟩ := combineSum_eq_ok_iff.mp hp
    exact failsWith_assemble failsWith_add
      (fun m hm => hasValue_or_failsWith_of_mem _ hk hcs m (mem_nonConstants.mp hm).1)
      (exists_failsWith_of_hasLongTerm _ hk hlong) s s.isZero
  · obtain ⟨ys, hys, hexact, hvalue, hint⟩ :=
      exists_values_monomials (p.solver catalogue) hk hcs hshort
    obtain ⟨x, hx, -, hxvalue, hxint⟩ := exactFold_sum.fold_of_isExact hexact
    obtain ⟨q, hq, y, hy, hnarrows⟩ := hasValue_combineSum hys (.refl hexact) hx
    cases hq.symm.trans hp
    refine ⟨y, hy, hnarrows.exact_left, ?_, fun hall => hnarrows.integer ?_⟩
    · rw [hnarrows.value, hxvalue, hvalue, horner_eq_polynomialValue]
    · rw [hxint, hint hall]

end polynomials

end

/-- `x^2 * 1/2 - 5` is `-1/2` at `3`, and `-5` at `0`. -/
theorem evaluate_polynomial_half :
    let x : Variable := ⟨"x"⟩
    let cs := [Number.rational (1 / 2), .integer 0, .integer (-5)]
    (∀ c ∈ cs, c.isExact = true) ∧ ¬HasLongTerm 3 cs ∧ ¬HasLongTerm 0 cs ∧
      ∃ p, (polynomial x cs).result = .ok p ∧
        (∃ y, (p.evaluate .empty (.single x (.integer 3))).result = .ok y ∧
          y.isExact = true ∧ y.exactValue = -1 / 2) ∧
        (∃ y, (p.evaluate .empty (.single x (.integer 0))).result = .ok y ∧
          y.isExact = true ∧ y.exactValue = -5) := by
  intro x cs
  have hexact : ∀ c ∈ cs, c.isExact = true := by simp [cs, Number.isExact]
  have hlong : ∀ k ∈ [3, 0], ¬HasLongTerm k cs := by decide +kernel
  have hlong₃ := hlong 3 (by decide)
  have hlong₀ := hlong 0 (by decide)
  have hget : ∀ k, (Arguments.single x (.integer k)).get? x = some (.integer k) := fun _ => rfl
  obtain ⟨p, hp, -, hthree⟩ := evaluate_polynomial .empty hexact (hget 3)
  obtain ⟨q, hq, -, hzero⟩ := evaluate_polynomial .empty hexact (hget 0)
  cases hp.symm.trans hq
  obtain ⟨y, hy, hyexact, hyvalue, -⟩ := hthree hlong₃
  obtain ⟨z, hz, hzexact, hzvalue, -⟩ := hzero hlong₀
  refine ⟨hexact, hlong₃, hlong₀, p, hp, ⟨y, hy, hyexact, ?_⟩, ⟨z, hz, hzexact, ?_⟩⟩
  · rw [hyvalue]
    decide +kernel
  · rw [hzvalue]
    decide +kernel

end SymCalc.Expr
