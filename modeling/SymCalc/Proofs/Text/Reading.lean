import Mathlib.Algebra.Field.Rat
import Mathlib.Algebra.GroupWithZero.Basic
import Mathlib.Algebra.Order.Ring.Rat
import SymCalc.Proofs.Text.Token

/-!
# SymCalc.Proofs.Text.Reading

Texts of arithmetic, read by the ordinary rules.

1. `Parses l ts a` says that the tokens `ts` can be read as the expression `a` of level
   `l`: `1` for sums, `2` for products, `3` for signs and powers, and `4` for single
   operands and all that stands in parentheses.  An operator says of which levels its
   own operands are (`Operator.left`, `Operator.right`);
2. `read` finds this expression from left to right.  What has been read lies on a stack
   of frames, the latest one on top, until it is known where its last operand ends.

Main statement: what can be read by the rules is what `read` finds
(`read_eq_some_of_parses`), and so a text can be read in one way at most
(`Parses.unique`).
-/

namespace SymCalc

/-- An arithmetic expression. -/
inductive Arith where
  | number (n : Nat)
  | name (s : String)
  | neg (a : Arith)
  | binary (o : Operator) (a b : Arith)
deriving DecidableEq

namespace Operator

/-- The result of an operator.  It is defined unless it divides by zero or raises to an
exponent that is not whole, or zero to one that is not positive. -/
def eval : Operator → Rat → Rat → Option Rat
  | add, p, q => some (p + q)
  | sub, p, q => some (p - q)
  | mul, p, q => some (p * q)
  | div, p, q => if q = 0 then none else some (p / q)
  | pow, p, q => if q.den = 1 ∧ (p = 0 → 0 < q) then some (p ^ q.num) else none

/-- The level of what an operator makes of its operands. -/
def level : Operator → Nat
  | add | sub => 1
  | mul | div => 2
  | pow => 3

/-- The level of the operand on the left. -/
def left : Operator → Nat
  | add | sub => 1
  | mul | div => 2
  | pow => 4

/-- The level of the operand on the right. -/
def right : Operator → Nat
  | add | sub => 2
  | mul | div | pow => 3

end Operator

/-- The value of an arithmetic expression, where it is defined. -/
def Arith.value (ρ : String → Option Rat) : Arith → Option Rat
  | .number n => some n
  | .name s => ρ s
  | .neg a => (a.value ρ).map fun q => -q
  | .binary o a b => (a.value ρ).bind fun p => (b.value ρ).bind (o.eval p)

/-! ## rules -/

/-- The tokens can be read as the expression of the given level. -/
inductive Parses : Nat → List Token → Arith → Prop
  | number (n : Nat) : Parses 4 [.number n] (.number n)
  | name (s : String) : Parses 4 [.name s] (.name s)
  | enclosed {ts a} : Parses 1 ts a → Parses 4 (.lparen :: (ts ++ [.rparen])) a
  | neg {ts a} : Parses 3 ts a → Parses 3 (.operator .sub :: ts) (.neg a)
  | binary {o : Operator} {ts us a b} : Parses o.left ts a → Parses o.right us b →
    Parses o.level (ts ++ .operator o :: us) (.binary o a b)
  | weaken {l ts a} : Parses (l + 1) ts a → Parses l ts a

/-- What is of a level is of every level below it. -/
theorem Parses.of_le {l m : Nat} {ts : List Token} {a : Arith} (h : Parses m ts a)
    (hle : l ≤ m) : Parses l ts a := by
  induction m, hle using Nat.le_induction with
  | base => exact h
  | succ m _ ih => exact ih h.weaken

/-! ## reading from left to right -/

/-- What waits for its last operand. -/
inductive Frame where
  | neg
  | binary (o : Operator) (a : Arith)
  | paren

namespace Frame

/-- The level of the expression that the frame becomes. -/
def level : Frame → Nat
  | neg => 3
  | binary o _ => o.level
  | paren => 0

/-- The frame with its last operand. -/
def close : Frame → Arith → Arith
  | neg, b => .neg b
  | binary o a, b => .binary o a b
  | paren, b => b

end Frame

/-- The frames left when those of a level or above it, down to the first one that is not,
have got their operands. -/
def waiting (l : Nat) : List Frame → List Frame
  | [] => []
  | f :: fs => if l ≤ f.level then waiting l fs else f :: fs

/-- The operand that these frames come to, with the last one at hand. -/
def finish (l : Nat) : List Frame → Arith → Arith
  | [], a => a
  | f :: fs, a => if l ≤ f.level then finish l fs (f.close a) else a

mutual

/-- Reads on where an operand has to begin. -/
def expectOperand : List Token → List Frame → Option Arith
  | .number n :: ts, fs => expectOperator ts fs (.number n)
  | .name s :: ts, fs => expectOperator ts fs (.name s)
  | .operator .sub :: ts, fs => expectOperand ts (.neg :: fs)
  | .lparen :: ts, fs => expectOperand ts (.paren :: fs)
  | _, _ => none

/-- Reads on behind an operand. -/
def expectOperator : List Token → List Frame → Arith → Option Arith
  | [], fs, a =>
    match waiting 1 fs with
    | [] => some (finish 1 fs a)
    | _ => none
  | .operator o :: ts, fs, a =>
    expectOperand ts (.binary o (finish o.left fs a) :: waiting o.left fs)
  | .rparen :: ts, fs, a =>
    match waiting 1 fs with
    | .paren :: gs => expectOperator ts gs (finish 1 fs a)
    | _ => none
  | _, _, _ => none

end

/-- The expression that a text is read as. -/
def read (s : String) : Option Arith := expectOperand (Token.tokens s) []

/-- Signs and powers group to the right, quotients and differences to the left. -/
example : read "-x^-2^3 / 4 / y - 5" = some
    (.binary .sub
      (.binary .div
        (.binary .div
          (.neg (.binary .pow (.name "x") (.neg (.binary .pow (.number 2) (.number 3)))))
          (.number 4))
        (.name "y"))
      (.number 5)) := by
  decide +kernel

/-! ## one reading -/

/-- The latest frame waits for an operand of the level or above it. -/
def Settled (l : Nat) (fs : List Frame) : Prop := ∀ f ∈ fs.head?, f.level < l

section frames

variable {l m : Nat} {fs : List Frame}

/-- A frame below one level is below every higher one. -/
theorem Settled.mono (h : Settled l fs) (hle : l ≤ m) : Settled m fs :=
  fun f hf => (h f hf).trans_le hle

/-- No frame is finished by an operand of this level. -/
theorem Settled.waiting_eq (h : Settled l fs) : waiting l fs = fs := by
  cases fs with
  | nil => rfl
  | cons f fs => exact if_neg (h f rfl).not_ge

/-- An operand of this level is not taken up by a frame. -/
theorem Settled.finish_eq (h : Settled l fs) (a : Arith) : finish l fs a = a := by
  cases fs with
  | nil => rfl
  | cons f fs => exact if_neg (h f rfl).not_ge

/-- No frame is of the level of single operands. -/
theorem settled_four (fs : List Frame) : Settled 4 fs := by
  rintro (_ | ⟨o, a⟩ | _) -
  · decide
  · cases o <;> simp [Frame.level, Operator.level]
  · decide

/-- No operator asks on its right for less than it gives. -/
theorem Operator.level_le_right (o : Operator) : o.level ≤ o.right := by cases o <;> decide

/-- Where an operator may stand, its left operand may begin. -/
theorem settled_left {o : Operator} (h : o.level ≤ 2 → Settled o.level fs) :
    Settled o.left fs := by
  cases o with
  | pow => exact settled_four fs
  | _ => exact h (by decide)

/-- Behind an operator its right operand may begin. -/
theorem settled_binary (o : Operator) (a : Arith) (fs : List Frame) (h : o.right ≤ 2) :
    Settled o.right (.binary o a :: fs) := by
  rintro f ⟨⟩
  cases o <;> simp_all [Frame.level, Operator.level, Operator.right]

end frames

/-- What can be read by the rules is read so, on top of whatever waits for an expression of
its level. -/
theorem Parses.expectOperand_append {l : Nat} {ts : List Token} {a : Arith}
    (h : Parses l ts a) (fs : List Frame) (hfs : l ≤ 2 → Settled l fs) :
    ∃ gs b, (∀ rest, expectOperand (ts ++ rest) fs = expectOperator rest gs b) ∧
      ∀ m ≤ l, waiting m gs = waiting m fs ∧ finish m gs b = finish m fs a := by
  induction h generalizing fs with
  | number n => exact ⟨fs, .number n, fun _ => rfl, fun _ _ => ⟨rfl, rfl⟩⟩
  | name s => exact ⟨fs, .name s, fun _ => rfl, fun _ _ => ⟨rfl, rfl⟩⟩
  | @enclosed ts a _ ih =>
    have hparen : Settled 1 (.paren :: fs) := by
      rintro f ⟨⟩
      decide
    obtain ⟨gs, b, hrun, hends⟩ := ih (.paren :: fs) fun _ => hparen
    -- a closing parenthesis finishes all frames above its own
    obtain ⟨hwaiting, hfinish⟩ := hends 1 le_rfl
    rw [hparen.waiting_eq] at hwaiting
    rw [hparen.finish_eq] at hfinish
    refine ⟨fs, a, fun rest => ?_, fun _ _ => ⟨rfl, rfl⟩⟩
    rw [List.cons_append, List.append_assoc, expectOperand, hrun, List.singleton_append,
      expectOperator, hwaiting, hfinish]
  | neg _ ih =>
    obtain ⟨gs, b, hrun, hends⟩ := ih (.neg :: fs) fun h => absurd h (by decide)
    refine ⟨gs, b, hrun, fun m hm => ?_⟩
    rw [(hends m hm).1, (hends m hm).2]
    exact ⟨if_pos hm, if_pos hm⟩
  | @binary o ts us a c _ _ iha ihc =>
    have hleft := settled_left hfs
    obtain ⟨gs, b, hrun, hends⟩ := iha fs fun _ => hleft
    -- the operator finishes what lies on `fs` to `a`, and leaves `fs` as it is
    obtain ⟨hwaiting, hfinish⟩ := hends o.left le_rfl
    rw [hleft.waiting_eq] at hwaiting
    rw [hleft.finish_eq] at hfinish
    obtain ⟨gs', b', hrun', hends'⟩ := ihc (.binary o a :: fs) (settled_binary o a fs)
    refine ⟨gs', b', fun rest => ?_, fun m hm => ?_⟩
    · rw [List.append_assoc, hrun, List.cons_append, expectOperator, hwaiting, hfinish, hrun']
    · obtain ⟨hwaiting', hfinish'⟩ := hends' m (hm.trans o.level_le_right)
      rw [hwaiting', hfinish']
      exact ⟨if_pos hm, if_pos hm⟩
  | @weaken l ts a _ ih =>
    have hsucc : l + 1 ≤ 2 → Settled (l + 1) fs := fun hl =>
      (hfs (Nat.le_of_succ_le hl)).mono (Nat.le_succ l)
    obtain ⟨gs, b, hrun, hends⟩ := ih fs hsucc
    exact ⟨gs, b, hrun, fun m hm => hends m (Nat.le_succ_of_le hm)⟩

/-- **What can be read by the rules is what is read.** -/
theorem read_eq_some_of_parses {s : String} {a : Arith} (h : Parses 1 (Token.tokens s) a) :
    read s = some a := by
  have hnil : Settled 1 [] := nofun
  obtain ⟨gs, b, hrun, hends⟩ := h.expectOperand_append [] fun _ => hnil
  obtain ⟨hwaiting, hfinish⟩ := hends 1 le_rfl
  have hread := hrun []
  rw [List.append_nil, expectOperator, hwaiting, hfinish] at hread
  exact hread

/-- A text can be read in one way at most. -/
theorem Parses.unique {s : String} {a b : Arith} (ha : Parses 1 (Token.tokens s) a)
    (hb : Parses 1 (Token.tokens s) b) : a = b :=
  Option.some.inj ((read_eq_some_of_parses ha).symm.trans (read_eq_some_of_parses hb))

end SymCalc
