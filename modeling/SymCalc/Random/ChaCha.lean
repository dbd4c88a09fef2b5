/-!
# SymCalc.Random.ChaCha

A reproducible stream of 64-bit draws: the ChaCha block function with eight
rounds, keyed from a 64-bit seed.

1. A block is four rows of four words; a round works on the columns, all four
   at once, and the next one on the diagonals, which rotating three of the rows
   turns into columns;
2. the output is the blocks with the counters `0, 1, 2, …`, read word by word; a
   draw takes two words, the low one first;
3. a `ChaCha` is the key and the number of draws taken, so that the `n`-th draw
   is a function of the seed and `n`.

Main statement: `ChaCha.draw_drop`.
-/

namespace SymCalc

/-- A kind of generator that yields one draw after another. -/
class DrawSource (G : Type) where
  /-- The next draw and the generator after it. -/
  draw : G → UInt64 × G

namespace ChaCha

/-! ## block function -/

/-- Four words side by side. -/
structure Row where
  w0 : UInt32
  w1 : UInt32
  w2 : UInt32
  w3 : UInt32
deriving DecidableEq

namespace Row

/-- An operation on each of the four places. -/
def zip (f : UInt32 → UInt32 → UInt32) (a b : Row) : Row :=
  ⟨f a.w0 b.w0, f a.w1 b.w1, f a.w2 b.w2, f a.w3 b.w3⟩

/-- Sums of the words, modulo `2 ^ 32`. -/
def add (a b : Row) : Row := zip (· + ·) a b

/-- Exclusive disjunctions of the words. -/
def xor (a b : Row) : Row := zip (· ^^^ ·) a b

/-- Every word rotated left by `n` bits, `0 < n < 32`. -/
def rotate (n : UInt32) (a : Row) : Row :=
  let f := fun w : UInt32 => w <<< n ||| w >>> (32 - n)
  ⟨f a.w0, f a.w1, f a.w2, f a.w3⟩

/-- The words moved one place to the left, the first to the end. -/
def turn (a : Row) : Row := ⟨a.w1, a.w2, a.w3, a.w0⟩

/-- The words from left to right. -/
def toList (a : Row) : List UInt32 := [a.w0, a.w1, a.w2, a.w3]

end Row

/-- The sixteen words of a block. -/
structure Block where
  a : Row
  b : Row
  c : Row
  d : Row
deriving DecidableEq

namespace Block

/-- One round on the columns. -/
def columns (s : Block) : Block :=
  let a := s.a.add s.b
  let d := (s.d.xor a).rotate 16
  let c := s.c.add d
  let b := (s.b.xor c).rotate 12
  let a := a.add b
  let d := (d.xor a).rotate 8
  let c := c.add d
  let b := (b.xor c).rotate 7
  ⟨a, b, c, d⟩

/-- A round on the columns and one on the diagonals. -/
def doubleRound (s : Block) : Block :=
  let s := s.columns
  let s := columns ⟨s.a, s.b.turn, s.c.turn.turn, s.d.turn.turn.turn⟩
  ⟨s.a, s.b.turn.turn.turn, s.c.turn.turn, s.d.turn⟩

/-- Word by word sums. -/
def add (s t : Block) : Block := ⟨s.a.add t.a, s.b.add t.b, s.c.add t.c, s.d.add t.d⟩

/-- The words row by row. -/
def toList (s : Block) : List UInt32 := s.a.toList ++ s.b.toList ++ s.c.toList ++ s.d.toList

/-- The output block for an input block, after eight rounds. -/
def mix (s : Block) : Block := s.doubleRound.doubleRound.doubleRound.doubleRound.add s

end Block

/-! ## key -/

/-- One word of the key and the state after it. -/
def keyWord (state : UInt64) : UInt32 × UInt64 :=
  let s := state * 6364136223846793005 + 11634580027462260723
  let word := (((s >>> 18) ^^^ s) >>> 27).toUInt32
  let n := (s >>> 59).toUInt32
  (word >>> n ||| word <<< ((32 - n) % 32), s)

/-- Four words of the key and the state after them. -/
def keyRow (state : UInt64) : Row × UInt64 :=
  let (w0, s) := keyWord state
  let (w1, s) := keyWord s
  let (w2, s) := keyWord s
  let (w3, s) := keyWord s
  (⟨w0, w1, w2, w3⟩, s)

end ChaCha

/-! ## generator -/

/-- A generator: its key and how many draws were taken. -/
structure ChaCha where
  keyLow : ChaCha.Row
  keyHigh : ChaCha.Row
  taken : Nat
deriving DecidableEq

namespace ChaCha

/-- The generator for a seed. -/
def ofSeed (seed : UInt64) : ChaCha :=
  let (low, s) := keyRow seed
  let (high, _) := keyRow s
  ⟨low, high, 0⟩

/-- The words of the block with the given counter. -/
def words (g : ChaCha) (counter : Nat) : List UInt32 :=
  let c := UInt64.ofNat counter
  (Block.mix ⟨⟨0x61707865, 0x3320646e, 0x79622d32, 0x6b206574⟩, g.keyLow, g.keyHigh,
    ⟨c.toUInt32, (c >>> 32).toUInt32, 0, 0⟩⟩).toList

/-- The draw with the given number; a block holds eight. -/
def nth (g : ChaCha) (n : Nat) : UInt64 :=
  match (g.words (n / 8)).drop (2 * (n % 8)) with
  | low :: high :: _ => low.toUInt64 ||| high.toUInt64 <<< 32
  | _ => 0

/-- The generator after `n` more draws. -/
def drop (g : ChaCha) (n : Nat) : ChaCha := { g with taken := g.taken + n }

instance : DrawSource ChaCha := ⟨fun g => (g.nth g.taken, g.drop 1)⟩

/-- After `n` draws the generator yields the draw with the number `n`, counted
from where it stood. -/
theorem draw_drop (g : ChaCha) (n : Nat) :
    DrawSource.draw (g.drop n) = (g.nth (g.taken + n), g.drop (n + 1)) := rfl

end ChaCha

end SymCalc
