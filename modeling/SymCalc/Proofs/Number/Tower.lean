import SymCalc.Number.Angle
import SymCalc.Proofs.Number.Arith
import SymCalc.Proofs.Number.IntegerPower

/-!
# SymCalc.Proofs.Number.Tower

What holds of numbers in all three representations.

1. The order is total: exchanging two numbers turns their order round
   (`order_swap`), so that a number is above another or at most as large
   (`not_le`);
2. a power is real unless it is one of integers (`isExact_pow_iff`), and logarithms,
   exponentials and functions of angles are real whatever their operands are
   (`YieldsReal`).
-/

namespace SymCalc.Number

/-! ## order -/

/-- Exchanging two numbers turns their order round. -/
theorem order_swap (a b : Number) : (a.order b).swap = b.order a := by
  obtain ⟨ha, hb⟩ | hreal := isExact_cases a b
  · rw [order_of_isExact ha hb, order_of_isExact hb ha, cmp_swap]
  · rw [order_of_not_isExact hreal, order_of_not_isExact hreal.symm, cmp_swap]

/-- What is not at most as large is above. -/
theorem not_le {a b : Number} : ¬a ≤ b ↔ b < a := by
  change ¬a.order b ≠ .gt ↔ b.order a = .lt
  rw [← order_swap a b]
  cases a.order b <;> simp

/-! ## representation of powers -/

/-- Where the operation succeeds, its result is real. -/
def YieldsReal (r : Except NumericError Number) : Prop := ∀ y, r = .ok y → y.isExact = false

namespace YieldsReal

theorem real (x : ExtReal) : YieldsReal (.ok (.real x)) := by
  rintro y ⟨⟩
  rfl

theorem error (e : NumericError) : YieldsReal (.error e) := by
  rintro y ⟨⟩

theorem bind {α : Type} {r : Except NumericError α} {f : α → Except NumericError Number}
    (h : ∀ a, YieldsReal (f a)) : YieldsReal (r >>= f) := by
  intro y hy
  cases r with
  | error e => cases hy
  | ok a => exact h a y hy

theorem ofDouble (d : Double) : YieldsReal (ofDouble d) := by
  unfold Number.ofDouble
  split
  · exact error _
  · split
    · exact real _
    · exact real _

theorem ln [Elementary] (x : Number) : YieldsReal x.ln := bind fun _ => bind fun _ => real _

theorem exp [Elementary] (x : Number) : YieldsReal x.exp := bind fun _ => real _

theorem log [Elementary] (base power : Number) : YieldsReal (base.log power) := by
  refine bind fun _ => bind fun _ => bind fun _ => bind fun _ => ?_
  split
  · exact error _
  · exact real _

theorem sin (x : Number) : YieldsReal x.sin := bind fun _ => ofDouble _

theorem cos (x : Number) : YieldsReal x.cos := bind fun _ => ofDouble _

theorem tan (x : Number) : YieldsReal x.tan := by
  refine bind fun _ => ?_
  split
  · exact error _
  · exact ofDouble _

end YieldsReal

/-- A power of integers is exact, and every other power is real. -/
theorem isExact_pow_iff [Elementary] {b p x : Number} (h : b.pow p = .ok x) :
    x.isExact = true ↔ b.isInteger = true ∧ p.isInteger = true := by
  unfold pow at h
  rcases unifyPair_cases b p with ⟨m, n, rfl, rfl, hpair⟩ | ⟨-, hint, hpair⟩ |
    ⟨hexact, hpair | ⟨r, s, hpair⟩⟩
  · exact iff_of_true (isExact_powInt h) ⟨rfl, rfl⟩
  · rw [hpair] at h
    have hreal := YieldsReal.bind (fun y => .real (.finite y)) x h
    refine iff_of_false (Bool.eq_false_iff.mp hreal) fun hboth => ?_
    rw [hboth.1, hboth.2] at hint
    cases hint
  · rw [hpair] at h
    cases h
  · rw [hpair] at h
    have hreal := YieldsReal.bind (fun y => .real (.finite y)) x h
    refine iff_of_false (Bool.eq_false_iff.mp hreal) fun hboth => hexact ?_
    exact ⟨isExact_of_isInteger hboth.1, isExact_of_isInteger hboth.2⟩

end SymCalc.Number
