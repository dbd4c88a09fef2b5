import SymCalc.Newton.Search

/-!
# SymCalc.Newton.Method

Newton's method as an algorithm for goal-seeks, and the factory that sets it up
from the bindings of an evaluation.

Every root search starts a generator of its own from the seed of the method, so
that a goal-seek evaluated twice gives the same root.
-/

namespace SymCalc.Newton

/-- Newton's method with a fixed guess, limits and seed. -/
structure Method where
  guess : Number
  config : Config
  seed : UInt64
deriving DecidableEq

namespace Method

/-- The root of an equation and how it was found. -/
def solution (m : Method) (equation : Equation) : Logged SolveError Solution :=
  (search equation m.guess m.config (ChaCha.ofSeed m.seed)).1

/-- The root of an equation. -/
def findRoot (m : Method) (equation : Equation) : Logged SolveError Number := do
  let s ← m.solution equation
  pure s.x

/-- The method as an algorithm for goal-seeks. -/
def algorithm (m : Method) : Algorithm := fun equation =>
  (m.findRoot equation).mapError .search

end Method

/-- What a goal-seek may choose about its search. -/
structure Parameters where
  guess : Number
  epsilon : Double
  maxIters : Nat
  maxCorrections : Nat
deriving DecidableEq

/-- The limits of `Config.standard` and the guess `0`. -/
def Parameters.standard : Parameters :=
  ⟨.zero, Config.standard.epsilon, Config.standard.maxIters, Config.standard.maxCorrections⟩

/-- The factory of the method with the parameters that `provider` derives from
the bindings of an evaluation. -/
def factory (provider : Arguments → Parameters) (seed : UInt64) : Factory :=
  fun args unknown _ => do
    let p := provider args
    let config ← Logged.ofExcept
      ((Config.make p.epsilon p.maxIters p.maxCorrections).mapError Failure.config)
    .report (.configured unknown p.guess config)
    pure (Method.algorithm ⟨p.guess, config, seed⟩)

end SymCalc.Newton
