import SymCalc.Expr.Text

/-!
# SymCalc.Proofs.Text.Token

Texts of arithmetic, cut into tokens.

1. A symbol is a token by itself; what stands between blanks and symbols is a word, a
   number if it has only digits and a name otherwise (`tokens`);
2. a text may be cut in front of every blank and every symbol (`tokens_append`), so
   that the tokens of a text put together from parts are those of the parts.

Main statements: the tokens of decimal digits (`tokens_repr`, `tokens_intText`), of a
name (`tokens_of_isName`) and of a text in parentheses (`tokens_enclose`).
-/

namespace SymCalc

/-- An operator between two operands. -/
inductive Operator where
  | add
  | sub
  | mul
  | div
  | pow
deriving DecidableEq

/-- A token of a text.  The minus sign is the operator `sub` also where no operand stands
before it. -/
inductive Token where
  | number (n : Nat)
  | name (s : String)
  | operator (o : Operator)
  | lparen
  | rparen
deriving DecidableEq

namespace Token

/-! ## scanning -/

/-- The token of a symbol. -/
def ofSymbol? : Char → Option Token
  | '+' => some (.operator .add)
  | '-' => some (.operator .sub)
  | '*' => some (.operator .mul)
  | '/' => some (.operator .div)
  | '^' => some (.operator .pow)
  | '(' => some .lparen
  | ')' => some .rparen
  | _ => none

/-- The character belongs to a word: it is neither a blank nor a symbol. -/
def isWordChar (c : Char) : Bool := c ≠ ' ' && (ofSymbol? c).isNone

/-- The token of a word, if there is one. -/
def ofWord? (word : List Char) : Option Token :=
  if word = [] then none
  else if word.all Char.isDigit then some (.number (Nat.ofDigitChars 10 word 0))
  else some (.name (String.ofList word))

/-- The tokens of a list of characters behind the beginning of a word. -/
def scan (word : List Char) : List Char → List Token
  | [] => (ofWord? word).toList
  | c :: cs =>
    if isWordChar c then scan (word ++ [c]) cs
    else (ofWord? word).toList ++ (ofSymbol? c).toList ++ scan [] cs

/-- The tokens of a text.  Blanks count for nothing but that they end words. -/
def tokens (s : String) : List Token := scan [] s.toList

/-- The text is a name: a word that is not a number. -/
def IsName (s : String) : Prop :=
  s.toList.all isWordChar = true ∧ s.toList.all Char.isDigit = false

instance (s : String) : Decidable (IsName s) := inferInstanceAs (Decidable (_ ∧ _))

/-- The text does not begin in the middle of a word. -/
def Parted (s : String) : Prop := ∀ c ∈ s.toList.head?, isWordChar c = false

/-! ## texts put together -/

/-- The empty text begins nowhere. -/
theorem parted_empty : Parted "" := by
  intro c hc
  cases hc

/-- Characters of a word end up in one token, with those before them. -/
theorem scan_word {word : List Char} (h : ∀ c ∈ word, isWordChar c = true)
    (before : List Char) : scan before word = (ofWord? (before ++ word)).toList := by
  induction word generalizing before with
  | nil => rw [scan, List.append_nil]
  | cons c cs ih =>
    obtain ⟨hc, hcs⟩ := List.forall_mem_cons.mp h
    rw [scan, if_pos hc, ih hcs, List.append_assoc, List.singleton_append]

/-- Scanning goes through the first text and begins afresh with the second, if this does
not continue a word. -/
theorem scan_append (word cs : List Char) {ds : List Char}
    (h : ∀ c ∈ ds.head?, isWordChar c = false) :
    scan word (cs ++ ds) = scan word cs ++ scan [] ds := by
  induction cs generalizing word with
  | nil =>
    cases ds with
    | nil => simp [scan, ofWord?]
    | cons d ds => simp [scan, ofWord?, h d rfl]
  | cons c cs ih =>
    simp only [List.cons_append, scan, ih]
    split <;> simp

/-- **A text may be cut in front of every blank and every symbol.** -/
theorem tokens_append (s : String) {t : String} (h : Parted t) :
    tokens (s ++ t) = tokens s ++ tokens t := by
  rw [tokens, String.toList_append, scan_append _ _ h]
  rfl

/-- The text of a symbol, with blanks around it or without. -/
structure Separates (sep : String) (t : Token) : Prop where
  parted : ∀ s, Parted (sep ++ s)
  tokens_append : ∀ s, tokens (sep ++ s) = t :: tokens s

/-- A symbol, after its first character, is scanned by computation. -/
theorem separates_of_toList {sep : String} {t : Token} {c : Char} {cs : List Char}
    (h : sep.toList = c :: cs) (hc : isWordChar c = false)
    (hscan : ∀ ds, scan [] (c :: (cs ++ ds)) = t :: scan [] ds) : Separates sep t where
  parted s := by
    rw [Parted, String.toList_append, h]
    rintro d ⟨⟩
    exact hc
  tokens_append s := by
    rw [tokens, String.toList_append, h]
    exact hscan s.toList

/-- The sign of a sum, with blanks around it. -/
theorem separates_plus : Separates " + " (.operator .add) :=
  separates_of_toList rfl rfl fun _ => rfl

/-- The sign of a difference, with blanks around it. -/
theorem separates_minus : Separates " - " (.operator .sub) :=
  separates_of_toList rfl rfl fun _ => rfl

/-- The sign of a product, with blanks around it. -/
theorem separates_times : Separates " * " (.operator .mul) :=
  separates_of_toList rfl rfl fun _ => rfl

/-- The sign of a quotient, with blanks around it. -/
theorem separates_over : Separates " / " (.operator .div) :=
  separates_of_toList rfl rfl fun _ => rfl

/-- The sign of an opposite stands right before its operand. -/
theorem separates_sign : Separates "-" (.operator .sub) :=
  separates_of_toList rfl rfl fun _ => rfl

/-- The stroke of a fraction has no blanks around it. -/
theorem separates_slash : Separates "/" (.operator .div) :=
  separates_of_toList rfl rfl fun _ => rfl

/-- The sign of a power has no blanks around it. -/
theorem separates_caret : Separates "^" (.operator .pow) :=
  separates_of_toList rfl rfl fun _ => rfl

/-- A parenthesis that opens is a symbol. -/
theorem separates_lparen : Separates "(" .lparen :=
  separates_of_toList rfl rfl fun _ => rfl

/-- A parenthesis that closes is a symbol. -/
theorem separates_rparen : Separates ")" .rparen :=
  separates_of_toList rfl rfl fun _ => rfl

/-- Two texts with a symbol between them. -/
theorem Separates.tokens_between {sep : String} {t : Token} (h : Separates sep t)
    (s u : String) : tokens (s ++ sep ++ u) = tokens s ++ t :: tokens u := by
  rw [String.append_assoc, Token.tokens_append _ (h.parted u), h.tokens_append]

/-! ## numbers, names and parentheses -/

/-- Digits are neither blanks nor symbols. -/
theorem isWordChar_of_isDigit {c : Char} (h : c.isDigit = true) : isWordChar c = true := by
  have hblank : c ≠ ' ' := by
    rintro rfl
    cases h
  have hsymbol : ofSymbol? c = none := by
    unfold ofSymbol?
    split <;> first | rfl | cases h
  simp [isWordChar, hblank, hsymbol]

/-- The decimal digits of a number are its token. -/
theorem tokens_repr (n : Nat) : tokens (Nat.repr n) = [.number n] := by
  have hdigits : ∀ c ∈ Nat.toDigits 10 n, c.isDigit = true := fun c hc =>
    Nat.isDigit_of_mem_toDigits (by decide) (by decide) hc
  have hword : ∀ c ∈ Nat.toDigits 10 n, isWordChar c = true := fun c hc =>
    isWordChar_of_isDigit (hdigits c hc)
  rw [tokens, Nat.toList_repr, scan_word hword, List.nil_append, ofWord?,
    if_neg Nat.toDigits_ne_nil, if_pos (List.all_eq_true.mpr hdigits),
    Nat.ofDigitChars_toDigits (by decide) (by decide)]
  rfl

/-- A name is its own token. -/
theorem tokens_of_isName {s : String} (h : IsName s) : tokens s = [.name s] := by
  obtain ⟨hword, hdigits⟩ := h
  have hne : s.toList ≠ [] := by
    intro hnil
    rw [hnil] at hdigits
    cases hdigits
  rw [tokens, scan_word (List.all_eq_true.mp hword), List.nil_append, ofWord?, if_neg hne,
    if_neg (Bool.eq_false_iff.mp hdigits), String.ofList_toList]
  rfl

/-- An integer below zero is read as the opposite of its magnitude. -/
theorem tokens_intText (n : Int) :
    tokens (Number.intText n) =
      if n < 0 then [.operator .sub, .number n.natAbs] else [.number n.natAbs] := by
  rw [Number.intText, ← tokens_repr]
  split
  · exact separates_sign.tokens_append _
  · rw [tokens, String.toList_append]
    rfl

/-- Parentheses around a text are put around its tokens. -/
theorem tokens_enclose (wanted : Bool) (s : String) :
    tokens (Expr.enclose wanted s) =
      if wanted then .lparen :: (tokens s ++ [.rparen]) else tokens s := by
  cases wanted with
  | false => rfl
  | true =>
    have hclose := separates_rparen.tokens_between ("(" ++ s) ""
    rw [String.append_empty, separates_lparen.tokens_append] at hclose
    exact hclose

end Token

end SymCalc
