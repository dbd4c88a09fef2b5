import SymCalc.GoalSeek.Level
import SymCalc.Newton.Search
import SymCalc.Proofs.Number.Tower

/-!
# SymCalc.Proofs.Newton.Course

The course of a Newton search, as relations between the states it runs through:
a point together with the generator at hand.

1. `Shift` moves on from a sample whose slope vanishes; `Shifts` is a chain of
   shifts;
2. `Iteration` starts at a point that is no answer, shifts until the slope does
   not vanish, and takes Newton's step from there; `Iterations` is a chain of
   them.  `Stuck` is the iteration that runs out of shifts;
3. a search ends in one of three ways, or with the error of an evaluation: after
   some iterations at an answer (`ends_iterate_ok`), after all of them
   (`ends_iterate_exhausted`), or in one that is stuck (`ends_iterate_stuck`);
4. the search for a root of an expression is that of a `problem` stated by the
   values of the expression and of its derivative (`ends_search_ok`).

The chains list the samples they pass, and count the shifts.
-/

namespace SymCalc.Newton

open Drawing

variable {G : Type}

/-! ## samples -/

/-- The sample holds the values of the function and the derivative at its
point. -/
structure Problem.Sampled (p : Problem) (s : Sample) : Prop where
  fx : (p.f.valueAt s.x).result = .ok s.fx
  slope : (p.derivative.valueAt s.x).result = .ok s.slope

/-- The sample at `x`, from which an iteration starts: the point is no
answer. -/
structure Problem.Starts (p : Problem) (x : Number) (s : Sample) : Prop where
  x_eq : s.x = x
  sampled : p.Sampled s
  far : ¬s.fx.abs ≤ p.epsilon

/-- To start from a sample is to evaluate the function, to compare, and to
evaluate the derivative. -/
theorem exists_starts {p : Problem} {x : Number} {P : Sample → Prop} :
    (∃ s, p.Starts x s ∧ P s) ↔
      ∃ fx, (p.f.valueAt x).result = .ok fx ∧ ¬fx.abs ≤ p.epsilon ∧
        ∃ slope, (p.derivative.valueAt x).result = .ok slope ∧ P ⟨x, fx, slope⟩ := by
  constructor
  · rintro ⟨s, ⟨rfl, ⟨hfx, hslope⟩, hfar⟩, hP⟩
    exact ⟨s.fx, hfx, hfar, s.slope, hslope, hP⟩
  · rintro ⟨fx, hfx, hfar, slope, hslope, hP⟩
    exact ⟨_, ⟨rfl, ⟨hfx, hslope⟩, hfar⟩, hP⟩

variable [DrawSource G] {p : Problem} {g g' : G} {iter left attempts n : Nat}

/-! ## shifts -/

/-- One shift: the next draw moves the point, and both functions are evaluated
again. -/
structure Shift (p : Problem) (c c' : G × Sample) : Prop where
  vanishing : c.2.slope.isZero = true
  drawn : (DrawSource.draw c.1).2 = c'.1
  moved : ∃ d, Number.ofDouble (shift p.config.epsilon (DrawSource.draw c.1).1) = .ok d ∧
    Number.sum [c.2.x, d] = .ok c'.2.x
  sampled : p.Sampled c'.2

/-- Shifts one after another, with the samples they lead to. -/
inductive Shifts (p : Problem) : G × Sample → List Sample → G × Sample → Prop
  | nil (c) : Shifts p c [] c
  | cons {c c₁ c₂ path} : Shift p c c₁ → Shifts p c₁ path c₂ → Shifts p c (c₁.2 :: path) c₂

section shifts

variable {c c' : G × Sample} {s t : Sample}

/-- A shift, written out: the slope vanishes, and the point moved by a draw is sampled. -/
theorem exists_shift {P : G × Sample → Prop} :
    (∃ c', Shift p c c' ∧ P c') ↔ c.2.slope.isZero = true ∧
      ∃ d, Number.ofDouble (shift p.config.epsilon (DrawSource.draw c.1).1) = .ok d ∧
        ∃ x, Number.sum [c.2.x, d] = .ok x ∧ ∃ fx, (p.f.valueAt x).result = .ok fx ∧
          ∃ slope, (p.derivative.valueAt x).result = .ok slope ∧
            P ((DrawSource.draw c.1).2, ⟨x, fx, slope⟩) := by
  constructor
  · rintro ⟨⟨_, t⟩, ⟨hzero, rfl, ⟨d, hd, hx⟩, hfx, hslope⟩, hP⟩
    exact ⟨hzero, d, hd, t.x, hx, t.fx, hfx, t.slope, hslope, hP⟩
  · rintro ⟨hzero, d, hd, x, hx, fx, hfx, slope, hslope, hP⟩
    exact ⟨_, ⟨hzero, rfl, ⟨d, hd, hx⟩, hfx, hslope⟩, hP⟩

/-- There is no shift where the slope does not vanish. -/
theorem Shifts.eq_nil {path : List Sample} (h : Shifts p c path c')
    (hc : c.2.slope.isZero = false) : path = [] ∧ c = c' := by
  cases h with
  | nil => exact ⟨rfl, rfl⟩
  | cons h _ =>
    rw [h.vanishing] at hc
    cases hc

/-- Shifts lead from samples to samples. -/
theorem Shifts.sampled {path : List Sample} (h : Shifts p c path c') (hc : p.Sampled c.2) :
    ∀ u ∈ c.2 :: path, p.Sampled u := by
  induction h with
  | nil => simpa using hc
  | cons h _ ih => exact List.forall_mem_cons.mpr ⟨hc, ih h.sampled⟩

/-- Where the slope vanishes at the end of a chain, it vanishes all along. -/
theorem Shifts.vanishing {path : List Sample} (h : Shifts p c path c')
    (hc : c'.2.slope.isZero = true) : ∀ u ∈ c.2 :: path, u.slope.isZero = true := by
  induction h with
  | nil => simpa using hc
  | cons h _ ih => exact List.forall_mem_cons.mpr ⟨h.vanishing, ih hc⟩

/-- The end of a chain is one of the samples on it. -/
theorem Shifts.mem {path : List Sample} (h : Shifts p c path c') : c'.2 ∈ c.2 :: path := by
  induction h with
  | nil => exact List.mem_cons_self
  | cons _ _ ih => exact List.mem_cons_of_mem _ ih

/-- A real point is shifted to real points. -/
theorem Shifts.isExact_eq_false {path : List Sample} (h : Shifts p c path c')
    (hc : c.2.x.isExact = false) : c'.2.x.isExact = false := by
  induction h with
  | nil => exact hc
  | cons h _ ih =>
    obtain ⟨d, -, hsum⟩ := h.moved
    have hreal := Number.exactFold_sum.isExact_of_fold hsum
    apply ih
    grind

/-! ## settling -/

/-- Where the slope does not vanish there is nothing to correct. -/
theorem settle_of_isZero_eq_false (hs : s.slope.isZero = false) :
    (settle p iter left attempts s : Drawing G SolveError _) = pure (s, attempts) := by
  rw [settle.eq_def]
  simp [hs]

/-- Where the slope does not vanish there is nothing to settle, and no shift. -/
theorem ends_settle_of_isZero_eq_false (hs : s.slope.isZero = false) :
    (settle p iter left attempts s).Ends g (.ok (t, n)) g' ↔
      ∃ path, Shifts p (g, s) path (g', t) ∧ path.length ≤ left ∧ attempts + path.length = n ∧
        t.slope.isZero = false := by
  rw [settle_of_isZero_eq_false hs, ends_pure]
  constructor
  · rintro ⟨⟨⟩, rfl⟩
    exact ⟨[], .nil _, Nat.zero_le left, rfl, hs⟩
  · rintro ⟨path, hpath, -, rfl, -⟩
    obtain ⟨rfl, ⟨⟩⟩ := hpath.eq_nil hs
    exact ⟨rfl, rfl⟩

/-- Where the slope does not vanish settling does not fail, whatever chain of shifts is
asked for. -/
theorem ends_settle_error_of_isZero_eq_false {e : SolveError} (hs : s.slope.isZero = false) :
    (settle p iter left attempts s).Ends g (.error e) g' ↔
      ∃ t path, Shifts p (g, s) path (g', t) ∧ path.length = left ∧ t.slope.isZero = true ∧
        .maxCorrectionsExceeded t.x iter = e := by
  rw [settle_of_isZero_eq_false hs, ends_pure]
  constructor
  · rintro ⟨⟨⟩, -⟩
  · rintro ⟨t, path, hpath, -, ht, -⟩
    obtain ⟨-, ⟨⟩⟩ := hpath.eq_nil hs
    rw [hs] at ht
    cases ht

/-- Where the slope vanishes, settling shifts once and goes on. -/
theorem ends_settle_succ_ok {r : Sample × Nat} (hs : s.slope.isZero = true) :
    (settle p iter (left + 1) attempts s).Ends g (.ok r) g' ↔
      ∃ c, Shift p (g, s) c ∧ (settle p iter left (attempts + 1) c.2).Ends c.1 (.ok r) g' := by
  rw [settle, exists_shift]
  simp [hs]

/-- Where the slope vanishes, settling fails as it does after the first shift. -/
theorem ends_settle_succ_error {e : SolveError} (hs : s.slope.isZero = true)
    (he : ∀ cause, .expression cause ≠ e) :
    (settle p iter (left + 1) attempts s).Ends g (.error e) g' ↔
      ∃ c, Shift p (g, s) c ∧ (settle p iter left (attempts + 1) c.2).Ends c.1 (.error e) g' := by
  rw [settle, exists_shift]
  simp [hs, he]

/-- **Settling succeeds at the end of a chain of shifts, none too many, where the
slope does not vanish.** -/
theorem ends_settle_ok : (settle p iter left attempts s).Ends g (.ok (t, n)) g' ↔
    ∃ path, Shifts p (g, s) path (g', t) ∧ path.length ≤ left ∧ attempts + path.length = n ∧
      t.slope.isZero = false := by
  induction left generalizing g s attempts with
  | zero =>
    cases hs : s.slope.isZero with
    | false => exact ends_settle_of_isZero_eq_false hs
    | true =>
      rw [settle, if_pos hs]
      constructor
      · simp
      · rintro ⟨path, hpath, hle, -, ht⟩
        -- a chain without shifts ends where it starts
        cases hpath with
        | nil => rw [hs] at ht; cases ht
        | cons _ _ => cases hle
  | succ left ih =>
    cases hs : s.slope.isZero with
    | false => exact ends_settle_of_isZero_eq_false hs
    | true =>
      rw [ends_settle_succ_ok hs]
      constructor
      · rintro ⟨c, hshift, hrun⟩
        obtain ⟨path, hpath, hle, hn, ht⟩ := ih.mp hrun
        have hlength : attempts + (c.2 :: path).length = n := by
          rw [List.length_cons]
          omega
        exact ⟨c.2 :: path, .cons hshift hpath, Nat.succ_le_succ hle, hlength, ht⟩
      · rintro ⟨path, hpath, hle, hn, ht⟩
        cases hpath with
        | nil => rw [hs] at ht; cases ht
        | cons hshift hpath =>
          rw [List.length_cons] at hle hn
          exact ⟨_, hshift, ih.mpr ⟨_, hpath, by omega, by omega, ht⟩⟩

/-- Settling fails, other than in an evaluation, where a chain of all shifts ends
at a slope that vanishes. -/
theorem ends_settle_error {e : SolveError} (he : ∀ cause, .expression cause ≠ e) :
    (settle p iter left attempts s).Ends g (.error e) g' ↔
      ∃ t path, Shifts p (g, s) path (g', t) ∧ path.length = left ∧ t.slope.isZero = true ∧
        .maxCorrectionsExceeded t.x iter = e := by
  induction left generalizing g s attempts with
  | zero =>
    cases hs : s.slope.isZero with
    | false => exact ends_settle_error_of_isZero_eq_false hs
    | true =>
      rw [settle, if_pos hs]
      constructor
      · intro hrun
        obtain ⟨rfl, rfl⟩ : .maxCorrectionsExceeded s.x iter = e ∧ g = g' := by simpa using hrun
        exact ⟨s, [], .nil _, rfl, hs, rfl⟩
      · rintro ⟨t, path, hpath, hlength, -, rfl⟩
        cases hpath with
        | nil => simp
        | cons _ _ => cases hlength
  | succ left ih =>
    cases hs : s.slope.isZero with
    | false => exact ends_settle_error_of_isZero_eq_false hs
    | true =>
      rw [ends_settle_succ_error hs he]
      constructor
      · rintro ⟨c, hshift, hrun⟩
        obtain ⟨t, path, hpath, hlength, ht, hcause⟩ := ih.mp hrun
        exact ⟨t, c.2 :: path, .cons hshift hpath, congrArg Nat.succ hlength, ht, hcause⟩
      · rintro ⟨t, path, hpath, hlength, ht, hcause⟩
        cases hpath with
        | nil => cases hlength
        | cons hshift hpath =>
          exact ⟨_, hshift, ih.mpr ⟨t, _, hpath, Nat.succ.inj hlength, ht, hcause⟩⟩

end shifts

/-! ## iterations -/

/-- One iteration with `n` shifts, from the sample `s` to the point of `c'`. -/
structure Iteration (p : Problem) (c : G × Number) (s : Sample) (n : Nat) (c' : G × Number) :
    Prop where
  starts : p.Starts c.2 s
  settled : ∃ t path, Shifts p (c.1, s) path (c'.1, t) ∧
    path.length ≤ p.config.maxCorrections ∧ path.length = n ∧ t.slope.isZero = false ∧
      next t = .ok c'.2

/-- Iterations one after another, with the samples they start from and the number
of all shifts. -/
inductive Iterations (p : Problem) : G × Number → List Sample → Nat → G × Number → Prop
  | nil (c) : Iterations p c [] 0 c
  | cons {c s n c₁ starts m c₂} : Iteration p c s n c₁ → Iterations p c₁ starts m c₂ →
    Iterations p c (s :: starts) (n + m) c₂

/-- The iteration from `c` shifts as often as it may, and ends at a point where
the slope still vanishes. -/
def Stuck (p : Problem) (c c' : G × Number) : Prop :=
  ∃ s, p.Starts c.2 s ∧ ∃ t path, Shifts p (c.1, s) path (c'.1, t) ∧
    path.length = p.config.maxCorrections ∧ t.slope.isZero = true ∧ t.x = c'.2

section iterations

variable {c c' : G × Number} {starts : List Sample} {corrections : Nat} {x : Number}
  {s : Sample} {solution : Solution}

/-- An iteration, written out: the point is sampled, corrected and moved along the tangent. -/
theorem exists_iteration (iter : Nat) {P : Sample → Nat → G × Number → Prop} :
    (∃ s n c', Iteration p c s n c' ∧ P s n c') ↔
      ∃ s, p.Starts c.2 s ∧ ∃ t n g',
        (settle p iter p.config.maxCorrections 0 s).Ends c.1 (.ok (t, n)) g' ∧
          ∃ y, next t = .ok y ∧ P s n (g', y) := by
  simp only [ends_settle_ok]
  constructor
  · rintro ⟨s, n, c', ⟨hs, t, path, hpath, hle, hn, ht, hnext⟩, hP⟩
    exact ⟨s, hs, t, n, c'.1, ⟨path, hpath, hle, by omega, ht⟩, c'.2, hnext, hP⟩
  · rintro ⟨s, hs, t, n, g', ⟨path, hpath, hle, hn, ht⟩, y, hnext, hP⟩
    exact ⟨s, n, (g', y), ⟨hs, t, path, hpath, hle, by omega, ht, hnext⟩, hP⟩

/-- Iterations start from samples that are no answers. -/
theorem Iterations.starts_of_mem (h : Iterations p c starts n c') :
    ∀ s ∈ starts, p.Starts s.x s := by
  induction h with
  | nil => simp
  | cons h _ ih => exact List.forall_mem_cons.mpr ⟨⟨rfl, h.starts.sampled, h.starts.far⟩, ih⟩

/-- Every iteration takes its share of shifts at most. -/
theorem Iterations.corrections_le (h : Iterations p c starts n c') :
    n ≤ starts.length * p.config.maxCorrections := by
  induction h with
  | nil => simp
  | cons h _ ih =>
    obtain ⟨t, path, -, hle, hn, -⟩ := h.settled
    rw [List.length_cons, Nat.succ_mul]
    omega

/-- From a real the iteration goes on to a real. -/
theorem isExact_of_next {s : Sample} {y : Number} (h : next s = .ok y)
    (hs : s.x.isExact = false) : y.isExact = false := by
  unfold next at h
  cases hstep : Number.div s.fx [s.slope] with
  | error e => rw [hstep] at h; cases h
  | ok step =>
    rw [hstep] at h
    have hsub : Number.sub s.x [step] = .ok y := h
    have hexact := Number.isExact_of_sub hsub
    grind

/-- Iterations lead from real points to real points. -/
theorem Iterations.isExact_eq_false (h : Iterations p c starts n c')
    (hc : c.2.isExact = false) : c'.2.isExact = false := by
  induction h with
  | nil => exact hc
  | cons h _ ih =>
    obtain ⟨t, path, hpath, -, -, -, hnext⟩ := h.settled
    apply ih
    apply isExact_of_next hnext
    apply hpath.isExact_eq_false
    rw [h.starts.x_eq]
    exact hc

/-! ## iterating -/

/-- A search looks at a point: the point is the answer, or the search goes on
from where an iteration leads. -/
theorem ends_iterate_succ_ok :
    (iterate p (left + 1) iter corrections x).Ends g (.ok solution) g' ↔
      (∃ fx, (p.f.valueAt x).result = .ok fx ∧ fx.abs ≤ p.epsilon ∧
        ⟨x, fx, iter, corrections⟩ = solution ∧ g = g') ∨
      ∃ s n c, Iteration p (g, x) s n c ∧
        (iterate p left (iter + 1) (corrections + n) c.2).Ends c.1 (.ok solution) g' := by
  rw [iterate, exists_iteration iter, exists_starts]
  simp [ends_ite, and_or_left, exists_or]

/-- The search fails in its first iteration, or as it does after it. -/
theorem ends_iterate_succ_error {e : SolveError} (he : ∀ cause, .expression cause ≠ e) :
    (iterate p (left + 1) iter corrections x).Ends g (.error e) g' ↔
      (∃ y, Stuck p (g, x) (g', y) ∧ .maxCorrectionsExceeded y iter = e) ∨
      ∃ s n c, Iteration p (g, x) s n c ∧
        (iterate p left (iter + 1) (corrections + n) c.2).Ends c.1 (.error e) g' := by
  have hstuck : (∃ y, Stuck p (g, x) (g', y) ∧ .maxCorrectionsExceeded y iter = e) ↔
      ∃ s, p.Starts x s ∧ (settle p iter p.config.maxCorrections 0 s).Ends g (.error e) g' := by
    simp only [ends_settle_error he, Stuck]
    grind
  rw [hstuck, iterate, exists_iteration iter, exists_starts, exists_starts]
  simp [ends_ite, he, and_or_left, exists_or]

/-- **A search succeeds where iterations, fewer than there are points to look at,
lead to an answer.** -/
theorem ends_iterate_ok : (iterate p left iter corrections x).Ends g (.ok solution) g' ↔
    ∃ starts n, Iterations p (g, x) starts n (g', solution.x) ∧ starts.length < left ∧
      (p.f.valueAt solution.x).result = .ok solution.residual ∧
      solution.residual.abs ≤ p.epsilon ∧
      iter + starts.length = solution.iters ∧ corrections + n = solution.corrections := by
  induction left generalizing g x iter corrections with
  | zero => simp [iterate]
  | succ left ih =>
    rw [ends_iterate_succ_ok]
    constructor
    · rintro (⟨fx, hfx, hnear, rfl, rfl⟩ | ⟨s, n, c, h, hrun⟩)
      · exact ⟨[], 0, .nil _, Nat.succ_pos left, hfx, hnear, rfl, rfl⟩
      · obtain ⟨starts, m, hs, hlt, hfx, hnear, hiters, hcorrections⟩ := ih.mp hrun
        have hlength : iter + (s :: starts).length = solution.iters := by
          rw [List.length_cons]
          omega
        exact ⟨s :: starts, n + m, .cons h hs, Nat.succ_lt_succ hlt, hfx, hnear, hlength, by omega⟩
    · rintro ⟨starts, n, h, hlt, hfx, hnear, hiters, hcorrections⟩
      cases h with
      | nil =>
        obtain ⟨y, fy, iters, total⟩ := solution
        obtain rfl : iter = iters := hiters
        obtain rfl : corrections = total := hcorrections
        exact .inl ⟨fy, hfx, hnear, rfl, rfl⟩
      | cons h hs =>
        rw [List.length_cons] at hlt hiters
        exact .inr ⟨_, _, _, h, ih.mpr ⟨_, _, hs, by omega, hfx, hnear, by omega, by omega⟩⟩

/-- **A search is exhausted after as many iterations as there are points to look
at.** -/
theorem ends_iterate_exhausted :
    (iterate p left iter corrections x).Ends g (.error (.iterationsExhausted n)) g' ↔
      p.config.maxIters = n ∧
        ∃ y starts m, Iterations p (g, x) starts m (g', y) ∧ starts.length = left := by
  induction left generalizing g x iter corrections with
  | zero =>
    constructor
    · intro hrun
      obtain ⟨hmax, rfl⟩ : p.config.maxIters = n ∧ g = g' := by simpa [iterate] using hrun
      exact ⟨hmax, x, [], 0, .nil _, rfl⟩
    · rintro ⟨hmax, y, starts, m, h, hlength⟩
      cases h with
      | nil => simpa [iterate] using hmax
      | cons _ _ => cases hlength
  | succ left ih =>
    rw [ends_iterate_succ_error (by simp)]
    constructor
    · rintro (⟨y, -, ⟨⟩⟩ | ⟨s, m, c, h, hrun⟩)
      obtain ⟨hmax, y, starts, k, hs, hlength⟩ := ih.mp hrun
      exact ⟨hmax, y, s :: starts, m + k, .cons h hs, congrArg Nat.succ hlength⟩
    · rintro ⟨hmax, y, starts, m, h, hlength⟩
      cases h with
      | nil => cases hlength
      | cons h hs =>
        exact .inr ⟨_, _, _, h, ih.mpr ⟨hmax, y, _, _, hs, Nat.succ.inj hlength⟩⟩

/-- **A search fails for want of shifts in an iteration that is stuck.** -/
theorem ends_iterate_stuck {y : Number} :
    (iterate p left iter corrections x).Ends g (.error (.maxCorrectionsExceeded y n)) g' ↔
      ∃ c starts m, Iterations p (g, x) starts m c ∧ starts.length < left ∧
        iter + starts.length = n ∧ Stuck p c (g', y) := by
  induction left generalizing g x iter corrections with
  | zero => simp [iterate]
  | succ left ih =>
    rw [ends_iterate_succ_error (by simp)]
    constructor
    · rintro (⟨z, hstuck, hcause⟩ | ⟨s, m, c, h, hrun⟩)
      · obtain ⟨rfl, rfl⟩ : z = y ∧ iter = n := by simpa using hcause
        exact ⟨(g, x), [], 0, .nil _, Nat.succ_pos left, rfl, hstuck⟩
      · obtain ⟨c', starts, k, hs, hlt, hn, hstuck⟩ := ih.mp hrun
        have hlength : iter + (s :: starts).length = n := by
          rw [List.length_cons]
          omega
        exact ⟨c', s :: starts, m + k, .cons h hs, Nat.succ_lt_succ hlt, hlength, hstuck⟩
    · rintro ⟨c, starts, m, h, hlt, hn, hstuck⟩
      cases h with
      | nil =>
        obtain rfl : iter = n := hn
        exact .inl ⟨y, hstuck, rfl⟩
      | cons h hs =>
        rw [List.length_cons] at hlt hn
        exact .inr ⟨_, _, _, h, ih.mpr ⟨c, _, _, hs, by omega, by omega, hstuck⟩⟩

end iterations

/-! ## searches for roots of expressions -/

/-- The largest magnitude that counts as zero, as a number. -/
def Config.residualBound (c : Config) : Number := .real (.finite (.ofDyadic c.epsilon.value))

/-- A configuration has an epsilon that is a number. -/
theorem Config.ofDouble_epsilon (c : Config) :
    Number.ofDouble c.epsilon = .ok c.residualBound := by
  have hfinite : c.epsilon.code < Double.infiniteCode :=
    of_decide_eq_true c.epsilon_tolerance.1
  have hnan : c.epsilon.isNaN = false := decide_eq_false (by omega)
  have hinfinite : c.epsilon.isInfinite = false := decide_eq_false (by omega)
  simp [Number.ofDouble, hnan, hinfinite, residualBound]

/-- The problem of a root of `e` in `v`, where `d` is the derivative of `e`. -/
def problem [Elementary] (catalogue : Catalogue) (e d : Expr) (v : Variable)
    (config : Config) : Problem where
  unknown := v
  f := ⟨e, fun x => e.evaluate catalogue (.single v x)⟩
  derivative := ⟨d, fun x => d.evaluate catalogue (.single v x)⟩
  config := config
  epsilon := config.residualBound

section searches

variable [Elementary] {catalogue : Catalogue} {e d : Expr} {v : Variable} {guess : Number}
  {config : Config}

/-- The slope of an equation is the curve of the derivative. -/
theorem result_slope_equation {c : Curve} :
    (e.equation catalogue v).slope.result = .ok c ↔ ∃ d, (e.derivative catalogue v).result = .ok d ∧
      c = ⟨d, fun x => d.evaluate catalogue (.single v x)⟩ := by
  have hcurve : ∀ {d}, (e.derivative catalogue v).result = .ok d →
      Curve.ofExpr (e.solver catalogue) v d =
        ⟨d, fun x => d.evaluate catalogue (.single v x)⟩ := by
    intro d hd
    have hdepth : d.seekDepth ≤ e.seekDepth := Expr.seekDepth_derivativeWith hd
    simp only [Curve.ofExpr, Expr.solver, Expr.evaluateWith_solveAt catalogue hdepth]
  change (e.derivative catalogue v >>= fun d =>
    pure (Curve.ofExpr (e.solver catalogue) v d)).result = _ ↔ _
  simp only [Logged.result_bind_eq_ok, Logged.result_pure, Except.ok.injEq]
  grind

/-- A search succeeds when differentiation does, and then the iterations from the
guess on. -/
theorem ends_search_ok {s : Solution} :
    (search (e.equation catalogue v) guess config).Ends g (.ok s) g' ↔
      ∃ d, (e.derivative catalogue v).result = .ok d ∧
        (iterate (problem catalogue e d v config) config.maxIters 0 0
          (.real guess.toReal)).Ends g (.ok s) g' := by
  simp only [search, Config.ofDouble_epsilon, ends_bind_ok, ends_expression_ok,
    result_slope_equation, ends_numeric_ok, ends_report, Except.ok.injEq, true_and, and_true,
    ↓existsAndEq, exists_eq_left', exists_const]
  rfl

/-- A search fails, other than in an evaluation, when the iterations do. -/
theorem ends_search_error {cause : SolveError} (hcause : ∀ c, .expression c ≠ cause) :
    (search (e.equation catalogue v) guess config).Ends g (.error cause) g' ↔
      ∃ d, (e.derivative catalogue v).result = .ok d ∧
        (iterate (problem catalogue e d v config) config.maxIters 0 0
          (.real guess.toReal)).Ends g (.error cause) g' := by
  simp only [search, Config.ofDouble_epsilon, ends_bind_error, ends_expression_error, hcause,
    ends_expression_ok, result_slope_equation, ends_numeric_error, ends_numeric_ok, ends_report,
    Except.ok.injEq, reduceCtorEq, and_false, false_and, and_self, true_and, and_true, false_or,
    exists_false, ↓existsAndEq, exists_eq_left', exists_const]
  rfl

/-- Where differentiation succeeds, a search ends as the iterations do. -/
theorem ends_search_of_derivative {r : Except SolveError Solution}
    (hd : (e.derivative catalogue v).result = .ok d) :
    (search (e.equation catalogue v) guess config).Ends g r g' ↔
      (iterate (problem catalogue e d v config) config.maxIters 0 0
        (.real guess.toReal)).Ends g r g' := by
  have hslope := result_slope_equation.mpr ⟨d, hd, rfl⟩
  rw [search, ends_bind_of_ok (ends_expression_ok.mpr ⟨hslope, rfl⟩), Config.ofDouble_epsilon,
    ends_bind_of_ok (ends_numeric_ok.mpr ⟨rfl, rfl⟩), ends_report_bind]
  rfl

end searches

end SymCalc.Newton
