import SymCalc.Proofs.Expr.AsRead
import SymCalc.Proofs.Expr.Composed
import SymCalc.Proofs.Text.ReadValue
import SymCalc.Real256.Series

/-!
# SymCalc.Proofs.Expr.ReadBack

Texts of trees of arithmetic, read again.

1. The text of a tree can be read at the level of its root (`textLevel`), and in
   parentheses anywhere.  It has the value of the tree `asRead`, one node at a time
   (`Reads`);
2. this is the tree itself, but for reciprocals of fractions behind the first factor of a
   product: `x / (1/2)` is written `x / 1/2`.  Where no such factor occurs
   (`FractionDivides`) the text reads back with the value of the tree.

Main statement: `read_text`.
-/

namespace SymCalc.Expr

open Token (tokens Parted Separates)

/-! ## levels -/

/-- The level at which the text of a tree can be read. -/
def textLevel : Expr → Nat
  | .var _ => 4
  | .const x => if (Expr.const x).isSelfContained then 4 else if x.isIntegral then 3 else 2
  | .add _ => 1
  | .mul _ | .neg _ => 2
  | .inv _ | .pow _ _ => 3
  | .log _ _ | .apply _ _ | .goalSeek _ _ _ => 4

variable {e : Expr} {ρ : String → Option Rat} {us : List Token} {V : Rat → Prop}

/-- Texts of all nodes but sums can be factors. -/
theorem two_le_textLevel (h : e.isSum = false) : 2 ≤ e.textLevel := by
  cases e with
  | add terms => cases h
  | const x =>
    rw [textLevel]
    split_ifs <;> decide
  | _ => simp [textLevel]

/-- Every text can be read by itself. -/
theorem one_le_textLevel (e : Expr) : 1 ≤ e.textLevel := by
  cases h : e.isSum with
  | false => exact Nat.le_of_succ_le (two_le_textLevel h)
  | true =>
    cases e with
    | add terms => exact le_rfl
    | _ => cases h

/-- Texts that never need parentheses are single operands. -/
theorem four_le_textLevel (h : e.isSelfContained = true) : 4 ≤ e.textLevel := by
  cases e with
  | const x => exact (if_pos h).ge
  | var | log | apply | goalSeek => exact le_rfl
  | _ => cases h

/-! ## one node -/

/-- A term behind the first one, as it is written. -/
def laterTerm : Expr → String
  | .neg e => " - " ++ enclose e.isSum (text e)
  | t => " + " ++ text t

/-- A factor behind the first one, as it is written. -/
def laterFactor : Expr → String
  | .inv e => " / " ++ enclose e.isSumOrProduct (text e)
  | f => " * " ++ enclose f.isSum (text f)

/-- The text of a tree can be read with the value of the tree `asRead`, by itself, behind a
sum and behind a product. -/
structure Reads (ρ : String → Option Rat) (e : Expr) : Prop where
  text : ReadsAt ρ e.textLevel (tokens e.text) fun q => e.asRead.rationalValue ρ = some q
  laterTerm : e.isSum = false → ∀ {us V}, ReadsAs ρ 1 us V →
    ReadsAs ρ 1 (us ++ tokens e.laterTerm) fun q =>
      ∃ x y, V x ∧ e.asRead.rationalValue ρ = some y ∧ q = x + y
  laterFactor : ∀ {us V}, ReadsTerm ρ us V →
    ReadsTerm ρ (us ++ tokens e.laterFactor) fun q =>
      ∃ x y, V x ∧ (factorAsRead e e.asRead).rationalValue ρ = some y ∧ q = x * y

/-- In parentheses, or where its level is high enough. -/
theorem readsAt_enclose (h : ReadsAt ρ e.textLevel (tokens e.text) V) {l : Nat} {wanted : Bool}
    (hl : l ≤ 4) (hwanted : wanted = false → l ≤ e.textLevel) :
    ReadsAt ρ l (tokens (enclose wanted e.text)) V :=
  h.enclose e.one_le_textLevel hl hwanted

/-- Behind a sum, with a plus sign. -/
theorem readsAs_add {W : Rat → Prop} (h : ReadsAs ρ 1 us V)
    (he : ReadsAt ρ e.textLevel (tokens e.text) W) (hsum : e.isSum = false) :
    ReadsAs ρ 1 (us ++ tokens (" + " ++ e.text)) fun q => ∃ x y, V x ∧ W y ∧ q = x + y := by
  rw [Token.separates_plus.tokens_append]
  refine ReadsAs.binary (o := .add) h (he.term (two_le_textLevel hsum)).readsAs ?_
  rintro q ⟨x, y, hx, hy, rfl⟩
  exact ⟨x, y, hx, hy, rfl⟩

/-- Behind a product, with a multiplication sign. -/
theorem readsTerm_mul {W : Rat → Prop} (h : ReadsTerm ρ us V)
    (he : ReadsAt ρ e.textLevel (tokens e.text) W) :
    ReadsTerm ρ (us ++ tokens (" * " ++ enclose e.isSum e.text))
      fun q => ∃ x y, V x ∧ W y ∧ q = x * y := by
  rw [Token.separates_times.tokens_append]
  exact h.mul ((readsAt_enclose he (by decide) two_le_textLevel).term le_rfl) fun _ => id

/-- A tree that is neither an opposite nor a reciprocal is joined with a plus or a
multiplication sign. -/
theorem Reads.of_text
    (h : ReadsAt ρ e.textLevel (tokens e.text) fun q => e.asRead.rationalValue ρ = some q)
    (hneg : e.isNegation = false) (hinv : e.isReciprocal = false) : Reads ρ e where
  text := h
  laterTerm hsum _ _ hus := by
    have hlater : e.laterTerm = " + " ++ e.text := by
      cases e <;> first | rfl | cases hneg
    rw [hlater]
    exact readsAs_add hus h hsum
  laterFactor hus := by
    have hlater : e.laterFactor = " * " ++ enclose e.isSum e.text := by
      cases e <;> first | rfl | cases hinv
    have hread : factorAsRead e e.asRead = e.asRead := by
      cases e <;> first | rfl | cases hinv
    rw [hlater, hread]
    exact readsTerm_mul hus h

/-! ## leaves -/

/-- A variable reads back if its name is a word. -/
theorem reads_var {v : Variable} (h : Token.IsName v.name) : Reads ρ (.var v) := by
  refine .of_text ?_ rfl rfl
  rw [text, Token.tokens_of_isName h]
  exact (ReadsAs.name ρ v.name).readsAt (by decide)

/-- The digits of an integer read as its value, with a sign as an opposite. -/
theorem readsAt_intText (ρ : String → Option Rat) (n : Int) :
    ReadsAt ρ (if n < 0 then 3 else 4) (tokens (Number.intText n)) fun q => q = n := by
  rw [Token.tokens_intText]
  by_cases hn : n < 0
  · rw [if_pos hn, if_pos hn]
    have habs : ((n.natAbs : Nat) : Rat) = -n := by
      rw [Nat.cast_natAbs, abs_of_neg hn, Int.cast_neg]
    refine (((ReadsAs.number ρ n.natAbs).of_le (by decide)).neg.mono ?_).readsAt (by decide)
    rintro q rfl
    exact habs.symm
  · rw [if_neg hn, if_neg hn]
    have habs : ((n.natAbs : Nat) : Rat) = n := by
      rw [Nat.cast_natAbs, abs_of_nonneg (not_lt.mp hn)]
    refine ((ReadsAs.number ρ n.natAbs).mono ?_).readsAt (by decide)
    rintro q rfl
    exact habs.symm

/-- The two parts of a fraction, read as a division. -/
theorem readsTerm_fraction (ρ : String → Option Rat) {q : Rat} (h : q.den ≠ 1) :
    ReadsTerm ρ (tokens (Number.rational q).text) fun p => p = q := by
  have htext : (Number.rational q).text =
      Number.intText q.num ++ "/" ++ Nat.repr q.den := if_neg h
  have hnum : ReadsTerm ρ (tokens (Number.intText q.num)) fun p => p = q.num :=
    (readsAt_intText ρ q.num).term (by split <;> decide)
  rw [htext, Token.separates_slash.tokens_between, Token.tokens_repr]
  refine hnum.div ((ReadsAs.number ρ q.den).of_le (by decide)) ?_
  rintro p rfl
  refine ⟨_, _, rfl, rfl, Nat.cast_ne_zero.mpr p.den_nz, ?_⟩
  rw [← div_eq_mul_inv, Rat.num_div_den]

/-- A constant reads as its value, a fraction as a quotient. -/
theorem readsAt_const {x : Number} (hx : x.isExact = true) :
    ReadsAt ρ (Expr.const x).textLevel (tokens x.text) fun q => q = x.exactValue := by
  cases x with
  | integer n =>
    have hlevel : (Expr.const (.integer n)).textLevel = if n < 0 then 3 else 4 := by
      by_cases hn : n < 0 <;>
        simp [textLevel, isSelfContained, Number.isNegative, Number.isIntegral, hn]
    rw [hlevel]
    exact readsAt_intText ρ n
  | rational q =>
    by_cases hden : q.den = 1
    · have hlevel : (Expr.const (.rational q)).textLevel = if q.num < 0 then 3 else 4 := by
        by_cases hn : q.num < 0 <;>
          simp [textLevel, isSelfContained, Number.isNegative, Number.isIntegral, hn, hden]
      have htext : (Number.rational q).text = Number.intText q.num := if_pos hden
      have hvalue : (Number.rational q).exactValue = q.num :=
        ((Rat.den_eq_one_iff q).mp hden).symm
      rw [hlevel, htext, hvalue]
      exact readsAt_intText ρ q.num
    · have hlevel : (Expr.const (.rational q)).textLevel = 2 := by
        simp [textLevel, isSelfContained, Number.isIntegral, hden]
      rw [hlevel]
      exact (readsTerm_fraction ρ hden).readsAt
  | real x => cases hx

/-- Exact constants read back. -/
theorem reads_const {x : Number} (hx : x.isExact = true) : Reads ρ (.const x) := by
  have hvalue : (fun q => (Expr.const x).asRead.rationalValue ρ = some q) =
      fun q => q = x.exactValue := by
    funext q
    exact propext ((Number.toRat?_eq_some_iff.trans (and_iff_right hx)).trans eq_comm)
  refine .of_text ?_ rfl rfl
  rw [hvalue]
  exact readsAt_const hx

/-! ## opposites, reciprocals and powers -/

/-- A tree as the operand of a power. -/
theorem Reads.operand (h : Reads ρ e) :
    ReadsAs ρ 4 (tokens (enclose (!e.isSelfContained) e.text)) fun q =>
      e.asRead.rationalValue ρ = some q :=
  (readsAt_enclose h.text le_rfl fun hself => four_le_textLevel (by simpa using hself)).readsAs

/-- An opposite behind a sum is subtracted. -/
theorem reads_neg (h : Reads ρ e) : Reads ρ (.neg e) := by
  have hterm := readsAt_enclose h.text (by decide) (two_le_textLevel (e := e))
  have htext : ReadsAt ρ (Expr.neg e).textLevel (tokens (Expr.neg e).text)
      fun q => (Expr.neg e).asRead.rationalValue ρ = some q := by
    rw [text, Token.separates_sign.tokens_append]
    refine ((hterm.term le_rfl).neg.mono fun q hq => ?_).readsAt
    exact rationalValue_neg_eq_some_iff.mp hq
  refine ⟨htext, fun _ us V hus => ?_, fun hus => readsTerm_mul hus htext⟩
  rw [laterTerm, Token.separates_minus.tokens_append]
  refine ReadsAs.binary (o := .sub) hus hterm.readsAs ?_
  rintro q ⟨x, y, hx, hy, rfl⟩
  refine ⟨x, -y, hx, rationalValue_neg_eq_some_iff.mp hy, ?_⟩
  rw [Operator.eval, sub_neg_eq_add]

/-- The power to minus one is the reciprocal. -/
theorem eval_pow_neg_one {p : Rat} (h : p ≠ 0) : Operator.pow.eval p (-1) = some p⁻¹ := by
  have hpow : p ^ (-1 : Rat).num = p⁻¹ := zpow_neg_one p
  rw [Operator.eval, if_pos ⟨rfl, fun h0 => absurd h0 h⟩, hpow]

/-- Behind a product a reciprocal divides. -/
theorem readsTerm_div (h : ReadsTerm ρ us V) (he : Reads ρ e)
    (hlevel : e.isSumOrProduct = false → 3 ≤ e.textLevel) :
    ReadsTerm ρ (us ++ tokens (" / " ++ enclose e.isSumOrProduct e.text)) fun q =>
      ∃ x y, V x ∧ (Expr.inv e.asRead).rationalValue ρ = some y ∧ q = x * y := by
  rw [Token.separates_over.tokens_append]
  refine h.div (readsAt_enclose he.text (by decide) hlevel).readsAs ?_
  rintro q ⟨x, y, hx, hy, rfl⟩
  obtain ⟨p, hp, hne, rfl⟩ := rationalValue_inv_eq_some_iff.mp hy
  exact ⟨x, p, hx, hp, hne, rfl⟩

/-- Behind a product the reciprocal of a fraction divides by the two parts of the fraction,
which is not put in parentheses. -/
theorem readsTerm_div_rational (h : ReadsTerm ρ us V) (p : Rat) :
    ReadsTerm ρ (us ++ tokens (" / " ++ (Number.rational p).text)) fun q =>
      ∃ x, V x ∧ (p.num * p.den : Rat) ≠ 0 ∧ q = x * (p.num * p.den : Rat)⁻¹ := by
  have hnum : ReadsAs ρ 3 (tokens (Number.intText p.num)) fun q => q = p.num :=
    (readsAt_intText ρ p.num).readsAs.of_le (by split <;> decide)
  rw [Token.separates_over.tokens_append]
  by_cases hden : p.den = 1
  · have htext : (Number.rational p).text = Number.intText p.num := if_pos hden
    rw [htext, hden]
    refine h.div hnum ?_
    rintro q ⟨x, hx, hne, rfl⟩
    rw [Nat.cast_one, mul_one] at hne ⊢
    exact ⟨x, _, hx, rfl, hne, rfl⟩
  · have htext : (Number.rational p).text =
        Number.intText p.num ++ "/" ++ Nat.repr p.den := if_neg hden
    have hbynum : ReadsTerm ρ (us ++ .operator .div :: tokens (Number.intText p.num)) fun q =>
        ∃ x, V x ∧ (p.num : Rat) ≠ 0 ∧ q = x * (p.num : Rat)⁻¹ :=
      h.div hnum fun _ ⟨x, hx, hne, hq⟩ => ⟨x, _, hx, rfl, hne, hq⟩
    rw [htext, Token.separates_slash.tokens_between, Token.tokens_repr, ← List.cons_append,
      ← List.append_assoc]
    refine hbynum.div ((ReadsAs.number ρ p.den).of_le (by decide)) ?_
    rintro q ⟨x, hx, hne, rfl⟩
    refine ⟨_, _, ⟨x, hx, left_ne_zero_of_mul hne, rfl⟩, rfl, right_ne_zero_of_mul hne, ?_⟩
    rw [mul_inv, mul_assoc]

/-- A reciprocal behind other factors reads as a division. -/
theorem readsTerm_laterFactor_inv (he : IsPlain e) (hwf : clashes (.inv e) e = false)
    (hr : Reads ρ e) (h : ReadsTerm ρ us V) :
    ReadsTerm ρ (us ++ tokens (" / " ++ enclose e.isSumOrProduct e.text)) fun q =>
      ∃ x y, V x ∧ (factorAsRead (.inv e) (.inv e.asRead)).rationalValue ρ = some y ∧
        q = x * y := by
  cases e with
  | const x =>
    cases x with
    | integer n =>
      refine readsTerm_div h hr fun _ => ?_
      rw [textLevel]
      split_ifs <;> first | decide | contradiction
    | rational p =>
      -- no parentheses: the parts of the fraction divide one after the other
      refine (readsTerm_div_rational h p).mono ?_
      rintro q ⟨x, y, hx, hy, rfl⟩
      obtain ⟨r, hr, hne, rfl⟩ := rationalValue_inv_eq_some_iff.mp hy
      cases hr
      exact ⟨x, hx, hne, rfl⟩
    | real x => cases he
  | var v | pow b p => exact readsTerm_div h hr fun _ => by simp [textLevel]
  | add es | mul es => exact readsTerm_div h hr fun hnot => by cases hnot
  -- `invert` takes these apart
  | neg e | inv e => cases hwf
  | log b p | apply f e | goalSeek goal target inversion => exact he.elim

/-- A reciprocal by itself reads as a power to minus one. -/
theorem reads_inv (he : IsPlain e) (hwf : clashes (.inv e) e = false) (h : Reads ρ e) :
    Reads ρ (.inv e) := by
  have hparted : Parted "^-1" := by simp [Parted, Token.isWordChar, Token.ofSymbol?]
  have htokens : tokens "^-1" = [.operator .pow, .operator .sub, .number 1] := by
    decide +kernel
  have htext : ReadsAt ρ (Expr.inv e).textLevel (tokens (Expr.inv e).text)
      fun q => (Expr.inv e).asRead.rationalValue ρ = some q := by
    rw [text, Token.tokens_append _ hparted, htokens]
    refine (ReadsAs.binary (o := .pow) h.operand
      ((ReadsAs.number ρ 1).of_le (by decide)).neg ?_).readsAt (by decide)
    intro q hq
    obtain ⟨p, hp, hne, rfl⟩ := rationalValue_inv_eq_some_iff.mp hq
    exact ⟨p, -1, hp, by norm_num, eval_pow_neg_one hne⟩
  refine ⟨htext, fun hsum _ _ hus => readsAs_add hus htext hsum, fun hus => ?_⟩
  exact readsTerm_laterFactor_inv he hwf h hus

/-- A power reads back if base and exponent do. -/
theorem reads_pow {b p : Expr} (hb : Reads ρ b) (hp : Reads ρ p) : Reads ρ (.pow b p) := by
  refine .of_text ?_ rfl rfl
  rw [text, Token.separates_caret.tokens_between]
  refine (ReadsAs.binary (o := .pow) hb.operand (hp.operand.of_le (by decide))
    fun q hq => ?_).readsAt (by decide)
  exact rationalValue_pow_eq_some_iff.mp hq

/-! ## sums and products -/

/-- The later terms of a sum are written one after the other. -/
theorem sumTail_cons (t : Expr) (ts : List Expr) :
    sumTail (t :: ts) = t.laterTerm ++ sumTail ts := by
  cases t <;> rfl

/-- The later factors of a product are written one after the other. -/
theorem productTail_cons (f : Expr) (fs : List Expr) :
    productTail (f :: fs) = f.laterFactor ++ productTail fs := by
  cases f <;> rfl

/-- The later terms begin with a blank, if there are any. -/
theorem parted_sumTail (es : List Expr) : Parted (sumTail es) := by
  cases es with
  | nil => exact Token.parted_empty
  | cons t ts =>
    rw [sumTail_cons, laterTerm.eq_def]
    split <;> rw [String.append_assoc]
    · exact Token.separates_minus.parted _
    · exact Token.separates_plus.parted _

/-- The later factors begin with a blank, if there are any. -/
theorem parted_productTail (es : List Expr) : Parted (productTail es) := by
  cases es with
  | nil => exact Token.parted_empty
  | cons f fs =>
    rw [productTail_cons, laterFactor.eq_def]
    split <;> rw [String.append_assoc]
    · exact Token.separates_over.parted _
    · exact Token.separates_times.parted _

/-- The terms behind the first one are added one by one. -/
theorem readsAs_sumTail {es : List Expr} (h : ∀ e ∈ es, e.isSum = false ∧ Reads ρ e)
    (hus : ReadsAs ρ 1 us V) :
    ReadsAs ρ 1 (us ++ tokens (sumTail es)) fun q =>
      ∃ x ys, V x ∧ rationalValues ρ (asReadAll es) = some ys ∧ q = x + ys.sum := by
  induction es generalizing us V with
  | nil =>
    have hempty : us ++ tokens (sumTail []) = us := List.append_nil us
    rw [hempty]
    refine hus.mono ?_
    rintro q ⟨x, ys, hx, hys, rfl⟩
    cases hys
    rwa [List.sum_nil, add_zero]
  | cons t ts ih =>
    obtain ⟨⟨hsum, ht⟩, hts⟩ := List.forall_mem_cons.mp h
    rw [sumTail_cons, Token.tokens_append _ (parted_sumTail ts), ← List.append_assoc]
    refine (ih hts (ht.laterTerm hsum hus)).mono ?_
    rintro q ⟨x, ys, hx, hys, rfl⟩
    obtain ⟨y, zs, hy, hzs, rfl⟩ := rationalValues_cons_eq_some_iff.mp hys
    exact ⟨x + y, zs, ⟨x, y, hx, hy, rfl⟩, hzs, by rw [List.sum_cons, add_assoc]⟩

/-- The factors behind the first one are multiplied one by one. -/
theorem readsTerm_productTail {es : List Expr} (h : ∀ e ∈ es, Reads ρ e)
    (hus : ReadsTerm ρ us V) :
    ReadsTerm ρ (us ++ tokens (productTail es)) fun q =>
      ∃ x ys, V x ∧ rationalValues ρ (asReadFactors es) = some ys ∧ q = x * ys.prod := by
  induction es generalizing us V with
  | nil =>
    have hempty : us ++ tokens (productTail []) = us := List.append_nil us
    rw [hempty]
    refine hus.mono ?_
    rintro q ⟨x, ys, hx, hys, rfl⟩
    cases hys
    rwa [List.prod_nil, mul_one]
  | cons f fs ih =>
    obtain ⟨hf, hfs⟩ := List.forall_mem_cons.mp h
    rw [productTail_cons, Token.tokens_append _ (parted_productTail fs), ← List.append_assoc]
    refine (ih hfs (hf.laterFactor hus)).mono ?_
    rintro q ⟨x, ys, hx, hys, rfl⟩
    obtain ⟨y, zs, hy, hzs, rfl⟩ := rationalValues_cons_eq_some_iff.mp hys
    exact ⟨x * y, zs, ⟨x, y, hx, hy, rfl⟩, hzs, by rw [List.prod_cons, mul_assoc]⟩

/-- A sum reads back if its terms do. -/
theorem reads_add {es : List Expr} (hne : es ≠ [])
    (h : ∀ e ∈ es, e.isSum = false ∧ Reads ρ e) : Reads ρ (.add es) := by
  refine .of_text (ReadsAs.readsAt ?_ (by simp [textLevel])) rfl rfl
  cases es with
  | nil => exact absurd rfl hne
  | cons t ts =>
    obtain ⟨⟨-, ht⟩, hts⟩ := List.forall_mem_cons.mp h
    rw [text, Token.tokens_append _ (parted_sumTail ts)]
    refine (readsAs_sumTail hts (ht.text.readsAs.of_le t.one_le_textLevel)).mono fun q hq => ?_
    obtain ⟨ys, hys, rfl⟩ := Option.map_eq_some_iff.mp hq
    obtain ⟨x, xs, hx, hxs, rfl⟩ := rationalValues_cons_eq_some_iff.mp hys
    exact ⟨x, xs, hx, hxs, List.sum_cons⟩

/-- A product reads back if its factors do. -/
theorem reads_mul {es : List Expr} (hne : es ≠ []) (h : ∀ e ∈ es, Reads ρ e) :
    Reads ρ (.mul es) := by
  refine .of_text (ReadsTerm.readsAt ?_) rfl rfl
  cases es with
  | nil => exact absurd rfl hne
  | cons f fs =>
    obtain ⟨hf, hfs⟩ := List.forall_mem_cons.mp h
    have hfirst := readsAt_enclose hf.text (by decide) (two_le_textLevel (e := f))
    rw [text, Token.tokens_append _ (parted_productTail fs)]
    refine (readsTerm_productTail hfs (hfirst.term le_rfl)).mono fun q hq => ?_
    obtain ⟨ys, hys, rfl⟩ := Option.map_eq_some_iff.mp hq
    obtain ⟨x, xs, hx, hxs, rfl⟩ := rationalValues_cons_eq_some_iff.mp hys
    exact ⟨x, xs, hx, hxs, List.prod_cons⟩

/-! ## whole trees -/

mutual

/-- **Well-formed trees of arithmetic read back.** -/
theorem reads_of_isPlain (ρ : String → Option Rat) : (e : Expr) → IsPlain e → WellFormed e →
    Reads ρ e
  | .var _, h, _ => reads_var h
  | .const _, h, _ => reads_const h
  | .add terms, h, hwf =>
    reads_add h.1 fun t ht => ⟨(wellFormed_add.mp hwf t ht).1,
      allRead_of_allPlain ρ terms h.2 (fun t ht => (wellFormed_add.mp hwf t ht).2) t ht⟩
  | .mul factors, h, hwf =>
    reads_mul h.1 (allRead_of_allPlain ρ factors h.2 fun f hf => (wellFormed_mul.mp hwf f hf).2)
  | .neg e, h, hwf => reads_neg (reads_of_isPlain ρ e h (wellFormed_neg.mp hwf).2)
  | .inv e, h, hwf =>
    reads_inv h (wellFormed_inv.mp hwf).1 (reads_of_isPlain ρ e h (wellFormed_inv.mp hwf).2)
  | .pow base exponent, h, hwf =>
    reads_pow (reads_of_isPlain ρ base h.1 (wellFormed_pow.mp hwf).1)
      (reads_of_isPlain ρ exponent h.2 (wellFormed_pow.mp hwf).2)

/-- The same for the members of a list. -/
theorem allRead_of_allPlain (ρ : String → Option Rat) : (es : List Expr) → AllPlain es →
    (∀ e ∈ es, WellFormed e) → ∀ e ∈ es, Reads ρ e
  | [], _, _ => fun _ he => absurd he List.not_mem_nil
  | e :: es, h, hwf => by
    rw [List.forall_mem_cons] at hwf ⊢
    exact ⟨reads_of_isPlain ρ e h.1 hwf.1, allRead_of_allPlain ρ es h.2 hwf.2⟩

end

/-- **Texts read back with the value of the tree**, by the ordinary rules: at every point the
value of the tree `asRead`, where it is defined.  This is the value of the tree itself
unless a product in it divides by a fraction, and it is what evaluation finds. -/
theorem read_text [Elementary] {e : Expr} (h : Composed e) :
    ∃ a, read e.text = some a ∧
      (∀ ρ q, e.asRead.rationalValue ρ = some q → a.value ρ = some q) ∧
      (¬FractionDivides e →
        (∀ ρ q, e.rationalValue ρ = some q → a.value ρ = some q) ∧
        ∀ (catalogue : Catalogue) (args : Arguments) (x : Number), args.IsExact →
          e.IntegerPowers (e.solver catalogue) args →
          (e.evaluate catalogue args).result = .ok x →
          a.value args.rational = some x.exactValue) := by
  have hreads := fun ρ =>
    (reads_of_isPlain ρ e h.isPlain h.wellFormed).text.readsAs.of_le e.one_le_textLevel
  obtain ⟨a, ha, -⟩ := hreads fun _ => none
  have hvalue : ∀ ρ q, e.asRead.rationalValue ρ = some q → a.value ρ = some q := by
    intro ρ q hq
    -- what is read does not depend on the point
    obtain ⟨b, hb, hvalue⟩ := hreads ρ
    rw [ha.unique hb]
    exact hvalue q hq
  refine ⟨a, read_eq_some_of_parses ha, hvalue, fun hwhole => ?_⟩
  rw [asRead_of_not_fractionDivides e hwhole] at hvalue
  refine ⟨hvalue, fun catalogue args x hargs hpowers hx => hvalue _ _ ?_⟩
  exact (rationalValue_of_hasValue hargs e h.isPlain hpowers hx).2

/-- A product with an opposite product and a negative fraction among its factors, an opposite
power of a negative number, and a reciprocal. -/
theorem read_text_nested :
    let a := ofName "a"
    let e := sum [
      product [a, negate (product [ofInt 2, invert (sum [a, ofInt 1])]),
        .const (.rational (-1 / 2))],
      negate (.pow (ofInt (-3)) (ofInt (-2))), invert a]
    e.text = "a * -2 / (a + 1) * -1/2 - (-3)^(-2) + a^-1" ∧ Composed e ∧ ¬FractionDivides e ∧
      ∃ r, read e.text = some r ∧
        r.value (Arguments.single ⟨"a"⟩ (.integer 1)).rational = some (25 / 18) := by
  intro a e
  have ha : Composed a := .var (by decide)
  have hint : ∀ n, Composed (ofInt n) := fun n => .const rfl
  have hsum : Composed (sum [a, ofInt 1]) := .sum (by simp) (by simp [ha, hint])
  have hinner : Composed (product [ofInt 2, invert (sum [a, ofInt 1])]) :=
    .product (by simp) (by simp [hint, hsum.invert])
  have hhalf : Composed (.const (.rational (-1 / 2))) := .const rfl
  have hproduct : Composed (product [a, negate (product [ofInt 2, invert (sum [a, ofInt 1])]),
      .const (.rational (-1 / 2))]) :=
    .product (by simp) (by simp [ha, hinner.negate, hhalf])
  have hpow : Composed (.pow (ofInt (-3)) (ofInt (-2))) := .pow (hint _) (hint _)
  have he : Composed e := .sum (by simp) (by simp [hproduct, hpow.negate, ha.invert])
  have hwhole : ¬FractionDivides e := asRead_eq_self_iff.mp rfl
  have hpowers : e.IntegerPowers (e.solver .empty) (.single ⟨"a"⟩ (.integer 1)) :=
    ⟨⟨trivial, ⟨trivial, ⟨trivial, trivial, trivial⟩, trivial⟩, trivial, trivial⟩,
      ⟨⟨trivial, trivial⟩, ⟨-3, rfl⟩, ⟨-2, rfl⟩⟩, trivial, trivial⟩
  have hvalue : (e.evaluate .empty (.single ⟨"a"⟩ (.integer 1))).result =
      .ok (.rational (25 / 18)) := by
    with_unfolding_all rfl
  obtain ⟨r, hr, -, hevaluate⟩ := read_text he
  refine ⟨by decide +kernel, he, hwhole, r, hr, ?_⟩
  exact (hevaluate hwhole).2 .empty _ _ (Arguments.isExact_single rfl) hpowers hvalue

/-- A fraction is not put in parentheses where a product divides by it. -/
example : read (div (ofName "x") (.const (.rational (1 / 2)))).text =
    some (.binary .div (.binary .div (.name "x") (.number 1)) (.number 2)) := by
  decide +kernel

end SymCalc.Expr
