import SymCalc.Decimal.Shortest

/-!
# SymCalc.Newton.Config

The limits of a root search: how near to zero is near enough, how many steps
may be taken, and how often a vanishing derivative may be dodged within one of
them.

A `Config` holds only limits under which a search can succeed; `Config.make`
tells which limit of three is at fault, the first one first.

Main statement: `Config.make_eq_ok_iff`.
-/

namespace SymCalc.Newton

attribute [local instance] Binary.corePow

/-- The double is a number above zero. -/
def IsTolerance (d : Double) : Prop :=
  d.isFinite = true ∧ d.isNegative = false ∧ d.code ≠ 0

instance (d : Double) : Decidable (IsTolerance d) := inferInstanceAs (Decidable (_ ∧ _))

/-- The limits of a root search. -/
structure Config where
  /-- The largest magnitude of the function that counts as zero. -/
  epsilon : Double
  /-- The most points at which the function is looked at. -/
  maxIters : Nat
  /-- The most shifts within one step. -/
  maxCorrections : Nat
  epsilon_tolerance : IsTolerance epsilon
  maxIters_pos : 0 < maxIters
  maxCorrections_pos : 0 < maxCorrections
deriving DecidableEq

/-- Which limit is at fault. -/
inductive ConfigError where
  | epsilon
  | maxIters
  | maxCorrections
deriving DecidableEq

/-- The wording of each fault. -/
def ConfigError.message : ConfigError → String
  | .epsilon => "epsilon must be finite and positive"
  | .maxIters => "max_iters must be at least 1"
  | .maxCorrections => "max_arg_corrections must be at least 1"

namespace Config

/-- Limits, if each of them allows a search. -/
def make (epsilon : Double) (maxIters maxCorrections : Nat) : Except ConfigError Config :=
  if he : IsTolerance epsilon then
    if hi : 0 < maxIters then
      if hc : 0 < maxCorrections then .ok ⟨epsilon, maxIters, maxCorrections, he, hi, hc⟩
      else .error .maxCorrections
    else .error .maxIters
  else .error .epsilon

/-- A configuration is made of the settings themselves. -/
theorem make_eq_ok_iff {epsilon : Double} {maxIters maxCorrections : Nat} {c : Config} :
    make epsilon maxIters maxCorrections = .ok c ↔
      c.epsilon = epsilon ∧ c.maxIters = maxIters ∧ c.maxCorrections = maxCorrections := by
  constructor
  · unfold make
    split <;> try split <;> try split
    · rintro ⟨⟩
      exact ⟨rfl, rfl, rfl⟩
    all_goals nofun
  · rintro ⟨rfl, rfl, rfl⟩
    simp [make, c.epsilon_tolerance, c.maxIters_pos, c.maxCorrections_pos]

/-- `10 ^ -10`, a hundred points, ten shifts. -/
def standard : Config :=
  ⟨Double.ofRatio 1 (10 ^ (10 : Nat)), 100, 10, by decide +kernel, by decide, by decide⟩

/-- The limits, listed by name. -/
def text (c : Config) : String :=
  "Config \x7b epsilon: " ++ c.epsilon.literal ++ ", max_iters: " ++ Nat.repr c.maxIters ++
    ", max_arg_corrections: " ++ Nat.repr c.maxCorrections ++ " \x7d"

end Config

/-- `10 ^ -digits`, a tolerance of so many decimal places and at least one. -/
def tolerance (digits : Nat) : Double :=
  (Double.mulPow (Double.ofRatio 1 1) (Double.ofRatio 10 1) (max digits 1)).inv

end SymCalc.Newton
