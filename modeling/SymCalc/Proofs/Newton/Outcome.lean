import SymCalc.Proofs.Newton.Course
import SymCalc.Real256.Series

/-!
# SymCalc.Proofs.Newton.Outcome

What the outcomes of a Newton search say.

A search that succeeds has found an answer (`Converged`), a search that is
exhausted has looked at all its points (`Exhausted`), and one that fails for want
of shifts has seen the derivative vanish at each of them (`StuckAt`).  No step
divides by zero.

Main statement: `search_outcome`.
-/

namespace SymCalc.Newton

open Drawing SymCalc.Expr

variable {G : Type} [DrawSource G]

section

variable [Elementary] (catalogue : Catalogue) (e : Expr) (v : Variable) (guess : Number)
  (config : Config)
  (g : G)

/-! ## outcomes -/

/-- From the guess and the generator `g`, iterations from the samples `starts` lead
to `c`.  At each of these the magnitude of `e` is above the tolerance; `d` is the
derivative of `e`. -/
structure Reaches (d : Expr) (starts : List Sample) (corrections : Nat) (c : G × Number) :
    Prop where
  derivative : (e.derivative catalogue v).result = .ok d
  iterations : Iterations (problem catalogue e d v config) (g, .real guess.toReal) starts
    corrections c
  far : ∀ s ∈ starts, (e.evaluate catalogue (.single v s.x)).result = .ok s.fx ∧
    config.residualBound < s.fx.abs

/-- The solution is a real point at which `e` has the residual as its value, which
is within the tolerance, after as many iterations and shifts as it says. -/
structure Converged (s : Solution) (g' : G) : Prop where
  real : ∃ x, s.x = .real x
  residual : (e.evaluate catalogue (.single v s.x)).result = .ok s.residual
  near : s.residual.abs ≤ config.residualBound
  iters_lt : s.iters < config.maxIters
  corrections_le : s.corrections ≤ s.iters * config.maxCorrections
  course : ∃ d starts, Reaches catalogue e v guess config g d starts s.corrections (g', s.x) ∧
    starts.length = s.iters

/-- All points that may be looked at have been, and iterations started from each
of them. -/
structure Exhausted (maxIters : Nat) (g' : G) : Prop where
  maxIters_eq : maxIters = config.maxIters
  course : ∃ d starts corrections x,
    Reaches catalogue e v guess config g d starts corrections (g', x) ∧
      starts.length = config.maxIters

/-- After `iter` iterations the next one has taken all the shifts it may, from
points at which the derivative vanishes, and ends in `x`, where it vanishes,
too. -/
structure StuckAt (x : Number) (iter : Nat) (g' : G) : Prop where
  iter_lt : iter < config.maxIters
  course : ∃ d starts corrections c s t path,
    Reaches catalogue e v guess config g d starts corrections c ∧ starts.length = iter ∧
      (problem catalogue e d v config).Starts c.2 s ∧
      Shifts (problem catalogue e d v config) (c.1, s) path (g', t) ∧
      path.length = config.maxCorrections ∧ t.x = x ∧ t ∈ s :: path ∧
      ∀ u ∈ s :: path, (d.evaluate catalogue (.single v u.x)).result = .ok u.slope ∧
        u.slope.isZero = true

end

/-! ## outcomes are what they claim -/

section

variable [Elementary] {catalogue : Catalogue} {e d : Expr} {v : Variable} {guess : Number}
  {config : Config}
  {g g' : G} {starts : List Sample} {n : Nat} {c : G × Number}

/-- Iterations start above the tolerance. -/
theorem Reaches.of_iterations (hd : (e.derivative catalogue v).result = .ok d)
    (h : Iterations (problem catalogue e d v config) (g, .real guess.toReal) starts n c) :
    Reaches catalogue e v guess config g d starts n c where
  derivative := hd
  iterations := h
  far s hs := by
    obtain ⟨-, hsampled, hfar⟩ := h.starts_of_mem s hs
    exact ⟨hsampled.fx, Number.not_le.mp hfar⟩

/-- The point reached is a real. -/
theorem Reaches.isExact_eq_false (h : Reaches catalogue e v guess config g d starts n c) :
    c.2.isExact = false := h.iterations.isExact_eq_false rfl

/-- A search that ends with a solution converged. -/
theorem converged_of_ends {s : Solution}
    (h : (search (e.equation catalogue v) guess config).Ends g (.ok s) g') :
    Converged catalogue e v guess config g s g' := by
  obtain ⟨d, hd, h⟩ := ends_search_ok.mp h
  obtain ⟨starts, n, hiterations, hlt, hresidual, hnear, hiters, hcorrections⟩ :=
    ends_iterate_ok.mp h
  rw [Nat.zero_add] at hiters hcorrections
  subst hcorrections
  have hreaches := Reaches.of_iterations hd hiterations
  have hreal := hreaches.isExact_eq_false
  have hle := hiterations.corrections_le
  constructor
  · cases hx : s.x with
    | real x => exact ⟨x, rfl⟩
    | integer _ | rational _ =>
      rw [hx] at hreal
      cases hreal
  · exact hresidual
  · exact hnear
  · rw [← hiters]
    exact hlt
  · rw [← hiters]
    exact hle
  · exact ⟨d, starts, hreaches, hiters⟩

/-- A search that ends without iterations left is exhausted. -/
theorem exhausted_of_ends {m : Nat}
    (h : (search (e.equation catalogue v) guess config).Ends g
      (.error (.iterationsExhausted m)) g') :
    Exhausted catalogue e v guess config g m g' := by
  obtain ⟨d, hd, h⟩ := (ends_search_error (by simp)).mp h
  obtain ⟨hmax, x, starts, n, hiterations, hlength⟩ := ends_iterate_exhausted.mp h
  exact ⟨hmax.symm, d, starts, n, x, .of_iterations hd hiterations, hlength⟩

/-- A search that ends without corrections left is stuck. -/
theorem stuckAt_of_ends {x : Number} {iter : Nat}
    (h : (search (e.equation catalogue v) guess config).Ends g
      (.error (.maxCorrectionsExceeded x iter)) g') :
    StuckAt catalogue e v guess config g x iter g' := by
  obtain ⟨d, hd, h⟩ := (ends_search_error (by simp)).mp h
  obtain ⟨c, starts, n, hiterations, hlt, hiter, hstuck⟩ := ends_iterate_stuck.mp h
  obtain ⟨s, hstarts, t, path, hshifts, hlength, hzero, hx⟩ := hstuck
  rw [Nat.zero_add] at hiter
  subst hiter
  have hsampled := hshifts.sampled hstarts.sampled
  have hvanishing := hshifts.vanishing hzero
  refine ⟨hlt, d, starts, n, c, s, t, path, .of_iterations hd hiterations, rfl, hstarts, hshifts,
    hlength, hx, hshifts.mem, fun u hu => ⟨(hsampled u hu).slope, hvanishing u hu⟩⟩

/-- A step is taken from a sample whose slope, the value of the derivative, does
not vanish. -/
theorem div_ne_divisionByZero_of_settle {iter left : Nat} {s t : Sample}
    (hs : (problem catalogue e d v config).Sampled s)
    (h : (settle (problem catalogue e d v config) iter left 0 s).Ends g (.ok (t, n)) g') :
    (d.evaluate catalogue (.single v t.x)).result = .ok t.slope ∧ t.slope.isZero = false ∧
      Number.div t.fx [t.slope] ≠ .error .divisionByZero := by
  obtain ⟨path, hshifts, -, -, hzero⟩ := ends_settle_ok.mp h
  have hsampled := hshifts.sampled hs t hshifts.mem
  exact ⟨hsampled.slope, hzero, Number.div_ne_divisionByZero t.fx hzero⟩

/-! ## searches on a parabola -/

/-- Half a unit is near enough to zero, and one shift is allowed in a step. -/
def coarse (maxIters : Nat) (h : 0 < maxIters) : Config :=
  ⟨Double.ofRatio 1 2, maxIters, 1, by decide +kernel, h, by decide⟩

/-- The square less four, which is level at zero. -/
def parabola : Expr := .add [.mul [ofName "x", ofName "x"], .neg (ofInt 4)]

/-- The slope of the parabola, as the rules leave it. -/
theorem derivative_parabola :
    (parabola.derivative .empty ⟨"x"⟩).result = .ok (.add [ofName "x", ofName "x"]) := by
  have h : (derive .none ⟨"x"⟩ parabola).result =
      .ok (.add [.mul [.one, ofName "x"], .mul [.one, ofName "x"], Expr.zero]) := by
    simp only [parabola, ofName, ofInt, derive, deriveTerms, deriveFactors, isConstant,
      allConstant]
    rfl
  exact derivativeWith_of_derive_eq_ok h

theorem derivative_one : (Expr.one.derivative .empty ⟨"x"⟩).result = .ok Expr.zero := by
  have h : (derive .none ⟨"x"⟩ Expr.one).result = .ok Expr.zero := by
    simp only [Expr.one, derive, isConstant]
    rfl
  exact derivativeWith_of_derive_eq_ok h

/-- The problem of a root of the parabola. -/
def parabolaProblem (maxIters : Nat) (h : 0 < maxIters) : Problem :=
  problem .empty parabola (.add [ofName "x", ofName "x"]) ⟨"x"⟩ (coarse maxIters h)

/-! ## all outcomes -/

/-- **Every outcome of a search is what it claims.**

1. A solution is one: the residual is the value at the root and within the
   tolerance, and no iteration before started at such a point;
2. a search is exhausted only after as many iterations as are allowed;
3. a search fails for want of shifts only in an iteration that has taken all of
   them and found the derivative zero at every point;
4. where an iteration arrives at a point to step from, the value of the derivative
   is not zero, so that the step does not fail as a division by zero. -/
theorem search_outcome (catalogue : Catalogue) (e : Expr) (v : Variable) (guess : Number)
    (config : Config) (g : G) :
    let run := search (e.equation catalogue v) guess config g
    (∀ s, run.1.result = .ok s → Converged catalogue e v guess config g s run.2) ∧
      (∀ m, run.1.result = .error (.iterationsExhausted m) →
        Exhausted catalogue e v guess config g m run.2) ∧
      (∀ x iter, run.1.result = .error (.maxCorrectionsExceeded x iter) →
        StuckAt catalogue e v guess config g x iter run.2) ∧
      ∀ d starts corrections c s t n g',
        Reaches catalogue e v guess config g d starts corrections c →
        (problem catalogue e d v config).Starts c.2 s →
        (settle (problem catalogue e d v config) starts.length config.maxCorrections 0 s).Ends c.1
          (.ok (t, n)) g' →
        (d.evaluate catalogue (.single v t.x)).result = .ok t.slope ∧ t.slope.isZero = false ∧
          Number.div t.fx [t.slope] ≠ .error .divisionByZero := by
  intro run
  refine ⟨?_, ?_, ?_, ?_⟩
  · intro s h
    exact converged_of_ends ⟨h, rfl⟩
  · intro m h
    exact exhausted_of_ends ⟨h, rfl⟩
  · intro x iter h
    exact stuckAt_of_ends ⟨h, rfl⟩
  · intro d starts corrections c s t n g' _ hstarts h
    exact div_ne_divisionByZero_of_settle hstarts.sampled h

end

/-- From zero, where the parabola is level, a shift and six steps lead to a root;
from five one step is not enough; and a constant has no slope to follow.  The step
after the shift at zero divides by a number other than zero. -/
theorem search_outcome_parabola :
    (∃ s g', Converged .empty parabola ⟨"x"⟩ .zero (coarse 20 (by decide)) (ChaCha.ofSeed 0) s g' ∧
      s.iters = 6 ∧ s.corrections = 1) ∧
    (∃ g', Exhausted .empty parabola ⟨"x"⟩ (.integer 5) (coarse 1 (by decide)) (ChaCha.ofSeed 0) 1
      g') ∧
    (∃ x g', StuckAt .empty .one ⟨"x"⟩ .zero (coarse 1 (by decide)) (ChaCha.ofSeed 0) x 0 g') ∧
    ∃ s t n g', (parabolaProblem 20 (by decide)).Starts (.real Number.zero.toReal) s ∧
      s.slope.isZero = true ∧
      (settle (parabolaProblem 20 (by decide)) 0 1 0 s).Ends (ChaCha.ofSeed 0) (.ok (t, n)) g' ∧
      t.slope.isZero = false ∧ Number.div t.fx [t.slope] ≠ .error .divisionByZero := by
  have outcome (e : Expr) (guess : Number) (config : Config) :=
    search_outcome .empty e ⟨"x"⟩ guess config (ChaCha.ofSeed 0)
  refine ⟨?_, ?_, ?_, ?_⟩
  · have hrun : (iterate (parabolaProblem 20 (by decide)) 20 0 0 (.real Number.zero.toReal)
        (ChaCha.ofSeed 0)).1.result.toOption.any
          (fun s => decide (s.iters = 6 ∧ s.corrections = 1)) = true := by decide +kernel
    obtain ⟨s, g', hend, hs⟩ := exists_ends_ok hrun
    have hend := ends_search_ok.mpr ⟨_, derivative_parabola, hend⟩
    exact ⟨s, _, (outcome _ _ _).1 s hend.1, of_decide_eq_true hs⟩
  · have hrun : (iterate (parabolaProblem 1 (by decide)) 1 0 0
        (.real (Number.integer 5).toReal)).Ends (ChaCha.ofSeed 0)
          (.error (.iterationsExhausted 1)) _ := ⟨rfl, rfl⟩
    have hend := (ends_search_error (by simp)).mpr ⟨_, derivative_parabola, hrun⟩
    exact ⟨_, (outcome _ _ _).2.1 1 hend.1⟩
  · have hrun : (iterate (problem .empty .one .zero ⟨"x"⟩ (coarse 1 (by decide))) 1 0 0
        (.real Number.zero.toReal)).Ends (ChaCha.ofSeed 0)
          (.error (.maxCorrectionsExceeded _ 0)) _ := ⟨rfl, rfl⟩
    have hend := (ends_search_error (by simp)).mpr ⟨_, derivative_one, hrun⟩
    exact ⟨_, _, (outcome _ _ _).2.2.1 _ 0 hend.1⟩
  · have hstarts : (parabolaProblem 20 (by decide)).Starts (.real Number.zero.toReal)
        ⟨.real Number.zero.toReal, .real (.finite (.ofInt (-4))), .real Number.zero.toReal⟩ :=
      ⟨rfl, ⟨rfl, rfl⟩, by decide +kernel⟩
    have hrun : (settle (parabolaProblem 20 (by decide)) 0 1 0
        ⟨.real Number.zero.toReal, .real (.finite (.ofInt (-4))), .real Number.zero.toReal⟩
        (ChaCha.ofSeed 0)).1.result.toOption.any (fun _ => true) = true := by decide +kernel
    obtain ⟨⟨t, n⟩, g', hend, -⟩ := exists_ends_ok hrun
    have hreaches : Reaches .empty parabola ⟨"x"⟩ .zero (coarse 20 (by decide)) (ChaCha.ofSeed 0)
        (.add [ofName "x", ofName "x"]) [] 0 (ChaCha.ofSeed 0, .real Number.zero.toReal) :=
      .of_iterations derivative_parabola (.nil _)
    exact ⟨_, t, n, g', hstarts, by decide +kernel, hend,
      ((outcome _ _ _).2.2.2 _ [] 0 _ _ t n g' hreaches hstarts hend).2⟩

end SymCalc.Newton
