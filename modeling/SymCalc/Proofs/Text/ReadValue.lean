import SymCalc.Proofs.Text.Reading

/-!
# SymCalc.Proofs.Text.ReadValue

Values of what is read, for texts put together from parts.

1. `ReadsAs ρ l ts V` says that the tokens `ts` can be read as an expression of level `l`
   whose value under `ρ` is the one that satisfies `V`, if there is one;
2. of a product, its first factor may be read with what stands before: in `a * -b / c`
   no expression `-b / c` is read.  It is enough that what stands before multiplies by a
   number (`Leads`), and `ReadsTerm` says that then the product counts with its value;
3. `ReadsAt` is the one or the other, depending on the level.

There is one rule for each way to put texts together (`ReadsAs.binary`, `ReadsTerm.mul` and
so on).
-/

namespace SymCalc

variable {ρ : String → Option Rat} {l m : Nat} {ts us : List Token} {U V W : Rat → Prop}

/-- The value of an opposite. -/
theorem Arith.value_neg {a : Arith} {q : Rat} (h : a.value ρ = some q) :
    (Arith.neg a).value ρ = some (-q) := by
  rw [value, h]
  rfl

/-- The value of an operation is that of its operator on the values of the operands. -/
theorem Arith.value_binary {o : Operator} {a b : Arith} {p q : Rat} (ha : a.value ρ = some p)
    (hb : b.value ρ = some q) : (Arith.binary o a b).value ρ = o.eval p q := by
  rw [value, ha, hb]
  rfl

/-! ## expressions of a level -/

/-- The tokens can be read as an expression of level `l` with the value that satisfies
`V`. -/
def ReadsAs (ρ : String → Option Rat) (l : Nat) (ts : List Token) (V : Rat → Prop) : Prop :=
  ∃ a, Parses l ts a ∧ ∀ q, V q → a.value ρ = some q

namespace ReadsAs

/-- What is asked of the value may be relaxed. -/
theorem mono (h : ReadsAs ρ l ts V) (hV : ∀ q, U q → V q) : ReadsAs ρ l ts U := by
  obtain ⟨a, ha, hvalue⟩ := h
  exact ⟨a, ha, fun q hq => hvalue q (hV q hq)⟩

/-- What stands at a level stands at every level below it. -/
theorem of_le (h : ReadsAs ρ m ts V) (hle : l ≤ m) : ReadsAs ρ l ts V := by
  obtain ⟨a, ha, hvalue⟩ := h
  exact ⟨a, ha.of_le hle, hvalue⟩

/-- A number counts as itself. -/
theorem number (ρ : String → Option Rat) (n : Nat) : ReadsAs ρ 4 [.number n] fun q => q = n :=
  ⟨.number n, .number n, fun _ hq => congrArg some hq.symm⟩

/-- A name counts with the value at the point. -/
theorem name (ρ : String → Option Rat) (s : String) :
    ReadsAs ρ 4 [.name s] fun q => ρ s = some q :=
  ⟨.name s, .name s, fun _ hq => hq⟩

/-- A text in parentheses is a single operand. -/
theorem enclosed (h : ReadsAs ρ 1 ts V) : ReadsAs ρ 4 (.lparen :: (ts ++ [.rparen])) V := by
  obtain ⟨a, ha, hvalue⟩ := h
  exact ⟨a, ha.enclosed, hvalue⟩

/-- A sign before an operand turns the sign of the value. -/
theorem neg (h : ReadsAs ρ 3 ts V) :
    ReadsAs ρ 3 (.operator .sub :: ts) fun q => V (-q) := by
  obtain ⟨a, ha, hvalue⟩ := h
  refine ⟨.neg a, ha.neg, fun q hq => ?_⟩
  rw [Arith.value_neg (hvalue _ hq), neg_neg]

/-- Two expressions of the levels that an operator asks for. -/
theorem binary {o : Operator} (h : ReadsAs ρ o.left ts V) (h' : ReadsAs ρ o.right us W)
    (hU : ∀ q, U q → ∃ x y, V x ∧ W y ∧ o.eval x y = some q) :
    ReadsAs ρ o.level (ts ++ .operator o :: us) U := by
  obtain ⟨a, ha, hva⟩ := h
  obtain ⟨b, hb, hvb⟩ := h'
  refine ⟨.binary o a b, ha.binary hb, fun q hq => ?_⟩
  obtain ⟨x, y, hx, hy, heval⟩ := hU q hq
  rw [Arith.value_binary (hva x hx) (hvb y hy), heval]

end ReadsAs

/-! ## products in a context -/

/-- In front of a sign or a power the tokens multiply by the number that satisfies `K`. -/
def Leads (ρ : String → Option Rat) (ts : List Token) (K : Rat → Prop) : Prop :=
  ∀ us b, Parses 3 us b → ∃ c, Parses 2 (ts ++ us) c ∧
    ∀ k q, K k → b.value ρ = some q → c.value ρ = some (k * q)

/-- Where nothing stands before, nothing multiplies. -/
theorem leads_nil (ρ : String → Option Rat) : Leads ρ [] fun k => k = 1 := by
  intro us b hb
  refine ⟨b, hb.weaken, fun k q hk hq => ?_⟩
  rw [hk, one_mul, hq]

/-- A sign behind what leads turns the sign of its number. -/
theorem Leads.neg (h : Leads ρ ts V) : Leads ρ (ts ++ [.operator .sub]) fun k => V (-k) := by
  intro us b hb
  obtain ⟨c, hc, hvalue⟩ := h _ _ hb.neg
  refine ⟨c, by simpa using hc, fun k q hk hq => ?_⟩
  rw [hvalue _ _ hk (Arith.value_neg hq), neg_mul_neg]

/-- A product and a sign of multiplication lead with the value of the product. -/
theorem Parses.leads_mul {a : Arith} (h : Parses 2 ts a) :
    Leads ρ (ts ++ [.operator .mul]) fun k => a.value ρ = some k := by
  intro us b hb
  refine ⟨.binary .mul a b, ?_, fun k q hk hq => Arith.value_binary hk hq⟩
  rw [List.append_assoc]
  exact Parses.binary (o := .mul) h hb

/-- Behind whatever multiplies, the tokens can be read, and count with the value that
satisfies `V`. -/
def ReadsTerm (ρ : String → Option Rat) (ts : List Token) (V : Rat → Prop) : Prop :=
  ∀ ls K, Leads ρ ls K → ∃ c, Parses 2 (ls ++ ts) c ∧
    ∀ k q, K k → V q → c.value ρ = some (k * q)

/-- What is read by itself counts as a factor. -/
theorem ReadsAs.term (h : ReadsAs ρ 3 ts V) : ReadsTerm ρ ts V := by
  intro ls K hls
  obtain ⟨a, ha, hvalue⟩ := h
  obtain ⟨c, hc, hvaluec⟩ := hls _ _ ha
  exact ⟨c, hc, fun k q hk hq => hvaluec k q hk (hvalue q hq)⟩

namespace ReadsTerm

/-- What is asked of the value of a factor may be relaxed. -/
theorem mono (h : ReadsTerm ρ ts V) (hV : ∀ q, U q → V q) : ReadsTerm ρ ts U := by
  intro ls K hls
  obtain ⟨c, hc, hvalue⟩ := h _ _ hls
  exact ⟨c, hc, fun k q hk hq => hvalue k q hk (hV q hq)⟩

/-- A factor with nothing before it is a product. -/
theorem readsAs (h : ReadsTerm ρ ts V) : ReadsAs ρ 2 ts V := by
  obtain ⟨c, hc, hvalue⟩ := h _ _ (leads_nil ρ)
  refine ⟨c, hc, fun q hq => ?_⟩
  rw [hvalue 1 q rfl hq, one_mul]

/-- A sign before a factor turns the sign of its value. -/
theorem neg (h : ReadsTerm ρ ts V) :
    ReadsTerm ρ (.operator .sub :: ts) fun q => V (-q) := by
  intro ls K hls
  obtain ⟨c, hc, hvalue⟩ := h _ _ hls.neg
  refine ⟨c, by simpa using hc, fun k q hk hq => ?_⟩
  rw [hvalue (-k) (-q) (by rwa [neg_neg]) hq, neg_mul_neg]

/-- Two factors with a sign of multiplication between them count with the product of their
values. -/
theorem mul (h : ReadsTerm ρ ts V) (h' : ReadsTerm ρ us W)
    (hU : ∀ q, U q → ∃ x y, V x ∧ W y ∧ q = x * y) :
    ReadsTerm ρ (ts ++ .operator .mul :: us) U := by
  intro ls K hls
  -- what leads the first product leads, with it, the second one
  obtain ⟨c, hc, hvalue⟩ := h _ _ hls
  obtain ⟨d, hd, hvalued⟩ := h' _ _ hc.leads_mul
  refine ⟨d, by simpa using hd, fun k q hk hq => ?_⟩
  obtain ⟨x, y, hx, hy, rfl⟩ := hU q hq
  rw [hvalued _ y (hvalue k x hk hx) hy, mul_assoc]

/-- What stands behind a division is read by itself. -/
theorem div (h : ReadsTerm ρ ts V) (h' : ReadsAs ρ 3 us W)
    (hU : ∀ q, U q → ∃ x y, V x ∧ W y ∧ y ≠ 0 ∧ q = x * y⁻¹) :
    ReadsTerm ρ (ts ++ .operator .div :: us) U := by
  intro ls K hls
  obtain ⟨c, hc, hvalue⟩ := h _ _ hls
  obtain ⟨b, hb, hvalueb⟩ := h'
  refine ⟨.binary .div c b, ?_, fun k q hk hq => ?_⟩
  · rw [← List.append_assoc]
    exact Parses.binary (o := .div) hc hb
  · obtain ⟨x, y, hx, hy, hy0, rfl⟩ := hU q hq
    rw [Arith.value_binary (hvalue k x hk hx) (hvalueb y hy), Operator.eval, if_neg hy0,
      div_eq_mul_inv, mul_assoc]

end ReadsTerm

/-! ## both -/

/-- The tokens can be read as an expression of level `l`, products in a context. -/
def ReadsAt (ρ : String → Option Rat) (l : Nat) (ts : List Token) (V : Rat → Prop) : Prop :=
  if l = 2 then ReadsTerm ρ ts V else ReadsAs ρ l ts V

namespace ReadsAt

/-- In either form the tokens can be read by themselves. -/
theorem readsAs (h : ReadsAt ρ l ts V) : ReadsAs ρ l ts V := by
  unfold ReadsAt at h
  split at h
  · subst l
    exact h.readsAs
  · exact h

/-- What stands at a level stands at every level below it, as a factor or by itself. -/
theorem of_le (h : ReadsAt ρ m ts V) (hle : l ≤ m) : ReadsAt ρ l ts V := by
  by_cases hl : l = 2
  · by_cases hm : m = 2
    · rwa [hl, ← hm]
    · rw [ReadsAt, if_pos hl]
      exact (h.readsAs.of_le (by omega)).term
  · rw [ReadsAt, if_neg hl]
    exact h.readsAs.of_le hle

/-- From the level of products on, tokens count as factors. -/
theorem term (h : ReadsAt ρ m ts V) (hm : 2 ≤ m) : ReadsTerm ρ ts V := by
  have htwo := h.of_le hm
  rwa [ReadsAt, if_pos rfl] at htwo

/-- In parentheses a text can be read anywhere; without them it has to be of the level. -/
theorem enclose {s : String} {wanted : Bool} (h : ReadsAt ρ m (Token.tokens s) V)
    (hm : 1 ≤ m) (hl : l ≤ 4) (hwanted : wanted = false → l ≤ m) :
    ReadsAt ρ l (Token.tokens (Expr.enclose wanted s)) V := by
  rw [Token.tokens_enclose]
  cases wanted with
  | false => exact h.of_le (hwanted rfl)
  | true =>
    have hfour : ReadsAt ρ 4 (.lparen :: (Token.tokens s ++ [.rparen])) V :=
      (h.readsAs.of_le hm).enclosed
    exact hfour.of_le hl

end ReadsAt

/-- Outside the level of products the two forms are one. -/
theorem ReadsAs.readsAt (h : ReadsAs ρ l ts V) (hl : l ≠ 2) : ReadsAt ρ l ts V := by
  rwa [ReadsAt, if_neg hl]

/-- At the level of products the tokens are factors. -/
theorem ReadsTerm.readsAt (h : ReadsTerm ρ ts V) : ReadsAt ρ 2 ts V := by
  rwa [ReadsAt, if_pos rfl]

end SymCalc
