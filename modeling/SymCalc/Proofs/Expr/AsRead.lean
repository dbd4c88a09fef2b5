import Mathlib.Data.Rat.Defs
import Mathlib.Tactic.ByContra
import SymCalc.Proofs.Expr.Substitute

/-!
# SymCalc.Proofs.Expr.AsRead

The tree that the text of a tree of arithmetic reads as.

Behind the first factor of a product a reciprocal is written as a division, and what it
divides by is put in parentheses if it is a sum or a product.  A fraction is not: `x / (1/2)`
is written `x / 1/2`, and reads as `x / (1 * 2)`.

Main statement: `asRead_eq_self_iff`, by which nothing else is changed.
-/

namespace SymCalc.Expr

/-! ## the tree that is read -/

/-- What is read for a factor `f` behind the first one, if `r` is read for it by itself. -/
def factorAsRead (f r : Expr) : Expr :=
  match f with
  | .inv (.const (.rational q)) => .inv (.const (.rational (q.num * q.den)))
  | _ => r

mutual

/-- The tree as its text reads: behind the first factor of a product a reciprocal of a
fraction divides by the numerator and by the denominator. -/
def asRead : Expr → Expr
  | .var v => .var v
  | .const x => .const x
  | .add terms => .add (asReadAll terms)
  | .mul [] => .mul []
  | .mul (f :: fs) => .mul (asRead f :: asReadFactors fs)
  | .neg e => .neg (asRead e)
  | .inv e => .inv (asRead e)
  | .pow base exponent => .pow (asRead base) (asRead exponent)
  | .log base power => .log (asRead base) (asRead power)
  | .apply f e => .apply f (asRead e)
  | .goalSeek goal target inversion => .goalSeek (asRead goal) (asRead target) inversion

/-- The trees of a list as their texts read. -/
def asReadAll : List Expr → List Expr
  | [] => []
  | e :: es => asRead e :: asReadAll es

/-- The factors behind the first one as their texts read. -/
def asReadFactors : List Expr → List Expr
  | [] => []
  | f :: fs => factorAsRead f (asRead f) :: asReadFactors fs

end

/-- A product divides by a fraction that is not whole. -/
def FractionDivides (e : Expr) : Prop :=
  ∃ f fs q, Subtree (.mul (f :: fs)) e ∧ .inv (.const (.rational q)) ∈ fs ∧ q.den ≠ 1

/-- A tree divides by a fraction if one of its operands does. -/
theorem FractionDivides.of_child {c e : Expr} (hc : c ∈ children e) (h : FractionDivides c) :
    FractionDivides e := by
  obtain ⟨f, fs, q, hsub, hq⟩ := h
  exact ⟨f, fs, q, .child hc hsub, hq⟩

/-- Only the reciprocal of a fraction that is not whole is read as another factor. -/
theorem factorAsRead_self {f : Expr} (h : ∀ q, f = .inv (.const (.rational q)) → q.den = 1) :
    factorAsRead f f = f := by
  unfold factorAsRead
  split
  · rename_i q
    rw [h q rfl, Nat.cast_one, mul_one, (Rat.den_eq_one_iff q).mp (h q rfl)]
  · rfl

mutual

/-- Without such products the text of a tree reads as the tree. -/
theorem asRead_of_not_fractionDivides : (e : Expr) → ¬FractionDivides e → asRead e = e
  | .var _, _ | .const _, _ | .mul [], _ => rfl
  | .add terms, h => congrArg Expr.add (asReadAll_of_not_fractionDivides terms fun _ hc hf =>
      h (.of_child hc hf))
  | .mul (f :: fs), h => by
    have hfirst := asRead_of_not_fractionDivides f fun hf => h (.of_child List.mem_cons_self hf)
    have hothers : ∀ g ∈ fs, ¬FractionDivides g := fun g hg hf =>
      h (.of_child (List.mem_cons_of_mem f hg) hf)
    have hwhole : ∀ q, .inv (.const (.rational q)) ∈ fs → q.den = 1 := fun q hq =>
      by_contra fun hden => h ⟨f, fs, q, .refl _, hq, hden⟩
    rw [asRead, hfirst, asReadFactors_of_not_fractionDivides fs hothers hwhole]
  | .neg e, h | .inv e, h | .apply f e, h => by
    rw [asRead, asRead_of_not_fractionDivides e fun hf => h (.of_child List.mem_cons_self hf)]
  | .pow b p, h | .log b p, h | .goalSeek b p _, h => by
    have hfirst := asRead_of_not_fractionDivides b fun hf => h (.of_child List.mem_cons_self hf)
    have hsecond := asRead_of_not_fractionDivides p fun hf =>
      h (.of_child (List.mem_cons_of_mem _ List.mem_cons_self) hf)
    rw [asRead, hfirst, hsecond]

/-- Lists in which no product divides by a fraction are read as they are. -/
theorem asReadAll_of_not_fractionDivides : (es : List Expr) →
    (∀ e ∈ es, ¬FractionDivides e) → asReadAll es = es
  | [], _ => rfl
  | e :: es, h => by
    rw [List.forall_mem_cons] at h
    rw [asReadAll, asRead_of_not_fractionDivides e h.1, asReadAll_of_not_fractionDivides es h.2]

/-- The same for the factors behind the first one, none of which is the reciprocal of a
fraction. -/
theorem asReadFactors_of_not_fractionDivides : (es : List Expr) →
    (∀ e ∈ es, ¬FractionDivides e) → (∀ q, .inv (.const (.rational q)) ∈ es → q.den = 1) →
    asReadFactors es = es
  | [], _, _ => rfl
  | e :: es, h, hwhole => by
    rw [List.forall_mem_cons] at h
    have hself : factorAsRead e e = e := factorAsRead_self fun q hq =>
      hwhole q (hq ▸ List.mem_cons_self)
    rw [asReadFactors, asRead_of_not_fractionDivides e h.1, hself,
      asReadFactors_of_not_fractionDivides es h.2 fun q hq => hwhole q (List.mem_cons_of_mem e hq)]

end

/-- If a list is read as it is, so is each of its trees. -/
theorem asRead_eq_of_mem_all {es : List Expr} (h : asReadAll es = es) :
    ∀ e ∈ es, asRead e = e := by
  induction es with
  | nil => nofun
  | cons e es ih =>
    obtain ⟨he, hes⟩ := List.cons.inj h
    exact List.forall_mem_cons.mpr ⟨he, ih hes⟩

/-- If factors are read as they are, so is each of them. -/
theorem factorAsRead_eq_of_mem {fs : List Expr} (h : asReadFactors fs = fs) :
    ∀ f ∈ fs, factorAsRead f (asRead f) = f := by
  induction fs with
  | nil => nofun
  | cons f fs ih =>
    obtain ⟨hf, hfs⟩ := List.cons.inj h
    exact List.forall_mem_cons.mpr ⟨hf, ih hfs⟩

/-- A factor read as it is behind others is read so by itself. -/
theorem asRead_eq_of_factorAsRead_eq {f : Expr} (h : factorAsRead f (asRead f) = f) :
    asRead f = f := by
  unfold factorAsRead at h
  split at h
  · rfl
  · exact h

/-- If a tree is read as it is, so are its operands. -/
theorem asRead_eq_of_mem_children {c e : Expr} (h : asRead e = e) (hc : c ∈ children e) :
    asRead c = c := by
  cases e with
  | var v | const x => cases hc
  | add terms => exact asRead_eq_of_mem_all (Expr.add.inj h) c hc
  | mul factors =>
    cases factors with
    | nil => cases hc
    | cons f fs =>
      obtain ⟨hf, hfs⟩ := List.cons.inj (Expr.mul.inj h)
      rcases List.mem_cons.mp hc with rfl | hc
      · exact hf
      · exact asRead_eq_of_factorAsRead_eq (factorAsRead_eq_of_mem hfs c hc)
  | neg e | inv e | apply f e =>
    simp only [asRead, Expr.neg.injEq, Expr.inv.injEq, Expr.apply.injEq, true_and] at h
    rwa [List.mem_singleton.mp hc]
  | pow b p | log b p | goalSeek b p inversion =>
    simp only [asRead, Expr.pow.injEq, Expr.log.injEq, Expr.goalSeek.injEq, and_true] at h
    simp only [children, operands, List.mem_cons, List.not_mem_nil, or_false] at hc
    rcases hc with rfl | rfl
    · exact h.1
    · exact h.2

/-- If a tree is read as it is, so are all its subtrees. -/
theorem asRead_eq_of_subtree {s e : Expr} (hs : Subtree s e) (h : asRead e = e) :
    asRead s = s := by
  induction hs with
  | refl => exact h
  | child hc _ ih => exact ih (asRead_eq_of_mem_children h hc)

/-- The text of a tree reads as the tree if and only if no product in it divides by a
fraction. -/
theorem asRead_eq_self_iff {e : Expr} : asRead e = e ↔ ¬FractionDivides e := by
  refine ⟨?_, asRead_of_not_fractionDivides e⟩
  rintro h ⟨f, fs, q, hs, hq, hden⟩
  have hmul := asRead_eq_of_subtree hs h
  have hfactor := factorAsRead_eq_of_mem (List.cons.inj (Expr.mul.inj hmul)).2 _ hq
  have hvalue : (q.num * q.den : Rat) = q :=
    Number.rational.inj (Expr.const.inj (Expr.inv.inj hfactor))
  apply hden
  rw [← hvalue, ← Int.cast_natCast, ← Int.cast_mul]
  exact Rat.den_intCast _

end SymCalc.Expr
