import SymCalc.Proofs.Newton.Limits
import SymCalc.Real256.Series

/-!
# SymCalc.Proofs.Newton.Draws

What a Newton search takes from its generator.

1. `EndsAfter … g n r g'` describes the course of a search in all cases: from the
   generator `g` it ends with `r` after `n` corrections, those counted that an
   evaluation breaks off, and leaves `g'`.  Every search has such a course
   (`exists_endsAfter`);
2. corrections take one draw each, and nothing else takes any (`EndsAfter.after_eq`);
3. a search sees of its generator only the draws it takes (`follows_search`).

Main statement: `search_draws`.
-/

namespace SymCalc.Newton

open Drawing SymCalc.Expr
open DrawSource (after draws)

variable {G : Type} [DrawSource G]

/-! ## the last iteration -/

/-- A correction of the point `x` by a draw breaks off: the point cannot be moved, or
a function has no value where it is moved to. -/
inductive Problem.CorrectionFails (p : Problem) (x : Number) (draw : UInt64) : Error → Prop
  | offset {e} : Number.ofDouble (shift p.config.epsilon draw) = .error e →
    CorrectionFails p x draw (.numeric e)
  | sum {d e} : Number.ofDouble (shift p.config.epsilon draw) = .ok d →
    Number.sum [x, d] = .error e → CorrectionFails p x draw (.numeric e)
  | function {d y cause} : Number.ofDouble (shift p.config.epsilon draw) = .ok d →
    Number.sum [x, d] = .ok y → (p.f.valueAt y).result = .error cause →
    CorrectionFails p x draw cause
  | slope {d y cause} : Number.ofDouble (shift p.config.epsilon draw) = .ok d →
    Number.sum [x, d] = .ok y → (p.derivative.valueAt y).result = .error cause →
    CorrectionFails p x draw cause

/-- In the iteration from the point of `c`, after so many iterations and corrections,
the search ends with a result, and leaves a generator, after `n` more corrections. -/
inductive Halts (p : Problem) (iter corrections : Nat) (c : G × Number) :
    (n : Nat) → Except SolveError Solution → G → Prop
  | exhausted : iter = p.config.maxIters →
    Halts p iter corrections c 0 (.error (.iterationsExhausted iter)) c.1
  | converged {fx} : iter < p.config.maxIters → (p.f.valueAt c.2).result = .ok fx →
    fx.abs ≤ p.epsilon → Halts p iter corrections c 0 (.ok ⟨c.2, fx, iter, corrections⟩) c.1
  | function {cause} : iter < p.config.maxIters → (p.f.valueAt c.2).result = .error cause →
    Halts p iter corrections c 0 (.error (.expression cause)) c.1
  | slope {cause} : iter < p.config.maxIters → (p.derivative.valueAt c.2).result = .error cause →
    Halts p iter corrections c 0 (.error (.expression cause)) c.1
  | correction {s path t g' cause} : iter < p.config.maxIters → p.Starts c.2 s →
    Shifts p (c.1, s) path (g', t) → path.length < p.config.maxCorrections →
    t.slope.isZero = true → p.CorrectionFails t.x (DrawSource.draw g').1 cause →
    Halts p iter corrections c (path.length + 1) (.error (.expression cause))
      (DrawSource.draw g').2
  | stuck {s path t g'} : iter < p.config.maxIters → p.Starts c.2 s →
    Shifts p (c.1, s) path (g', t) → path.length = p.config.maxCorrections →
    t.slope.isZero = true →
    Halts p iter corrections c path.length (.error (.maxCorrectionsExceeded t.x iter)) g'
  | step {s path t g' e} : iter < p.config.maxIters → p.Starts c.2 s →
    Shifts p (c.1, s) path (g', t) → path.length ≤ p.config.maxCorrections →
    t.slope.isZero = false → next t = .error e →
    Halts p iter corrections c path.length (.error (.expression (.numeric e))) g'

section iterations

variable {p : Problem} {g g' : G} {iter corrections left attempts : Nat} {s : Sample} {x : Number}
  {cause : Error} {err : SolveError} {r : Except SolveError Solution}

/-- Where the slope vanishes, settling fails in the correction at hand or in a later
one. -/
theorem correctionFails_or_shift (hs : s.slope.isZero = true)
    (h : (settle p iter (left + 1) attempts s).Ends g (.error (.expression cause)) g') :
    (p.CorrectionFails s.x (DrawSource.draw g).1 cause ∧ (DrawSource.draw g).2 = g') ∨
      ∃ c, Shift p (g, s) c ∧
        (settle p iter left (attempts + 1) c.2).Ends c.1 (.error (.expression cause)) g' := by
  rw [settle, if_pos hs, ends_draw_bind] at h
  rcases ends_numeric_bind.mp h with ⟨e, he, ⟨⟩, hg⟩ | ⟨d, hd, h⟩
  · exact .inl ⟨.offset he, hg⟩
  rcases ends_numeric_bind.mp h with ⟨e, he, ⟨⟩, hg⟩ | ⟨y, hy, h⟩
  · exact .inl ⟨.sum hd he, hg⟩
  rw [ends_report_bind] at h
  rcases ends_expression_bind.mp h with ⟨_, hf, ⟨⟩, hg⟩ | ⟨fx, hfx, h⟩
  · exact .inl ⟨.function hd hy hf, hg⟩
  rcases ends_expression_bind.mp h with ⟨_, hf, ⟨⟩, hg⟩ | ⟨slope, hslope, h⟩
  · exact .inl ⟨.slope hd hy hf, hg⟩
  exact .inr ⟨(_, ⟨y, fx, slope⟩), ⟨hs, rfl, ⟨d, hd, hy⟩, ⟨hfx, hslope⟩⟩, h⟩

/-- Settling that fails in an evaluation does so in a correction. -/
theorem exists_correctionFails_of_settle
    (h : (settle p iter left attempts s).Ends g (.error (.expression cause)) g') :
    ∃ path c, Shifts p (g, s) path c ∧ path.length < left ∧ c.2.slope.isZero = true ∧
      p.CorrectionFails c.2.x (DrawSource.draw c.1).1 cause ∧ (DrawSource.draw c.1).2 = g' := by
  induction left generalizing g attempts s with
  | zero =>
    rw [settle, ends_ite] at h
    simp at h
  | succ left ih =>
    cases hs : s.slope.isZero with
    | false =>
      rw [settle_of_isZero_eq_false hs] at h
      simp at h
    | true =>
      rcases correctionFails_or_shift hs h with ⟨hfails, hg⟩ | ⟨c₁, hshift, h⟩
      · exact ⟨[], (g, s), .nil _, Nat.succ_pos left, hs, hfails, hg⟩
      · obtain ⟨path, c, hpath, hlt, hzero, hfails, hg⟩ := ih h
        exact ⟨c₁.2 :: path, c, .cons hshift hpath, Nat.succ_lt_succ hlt, hzero, hfails, hg⟩

/-- Settling that fails ends the search in this iteration. -/
theorem exists_halts_of_settle (hiter : iter < p.config.maxIters) (hstarts : p.Starts x s)
    (h : (settle p iter p.config.maxCorrections 0 s).Ends g (.error err) g') :
    ∃ n, Halts p iter corrections (g, x) n (.error err) g' := by
  by_cases herr : ∃ cause, .expression cause = err
  · obtain ⟨cause, rfl⟩ := herr
    obtain ⟨path, c, hpath, hlt, hzero, hfails, rfl⟩ := exists_correctionFails_of_settle h
    exact ⟨_, .correction hiter hstarts hpath hlt hzero hfails⟩
  · obtain ⟨t, path, hpath, hlength, hzero, rfl⟩ :=
      (ends_settle_error fun cause hcause => herr ⟨cause, hcause⟩).mp h
    exact ⟨_, .stuck hiter hstarts hpath hlength hzero⟩

/-- A search ends in the iteration at hand, or goes on after it. -/
theorem halts_or_iteration (hiter : iter < p.config.maxIters)
    (h : (iterate p (left + 1) iter corrections x).Ends g r g') :
    (∃ n, Halts p iter corrections (g, x) n r g') ∨
      ∃ s n c, Iteration p (g, x) s n c ∧
        (iterate p left (iter + 1) (corrections + n) c.2).Ends c.1 r g' := by
  rw [iterate] at h
  rcases ends_expression_bind.mp h with ⟨cause, hf, rfl, rfl⟩ | ⟨fx, hfx, h⟩
  · exact .inl ⟨0, .function hiter hf⟩
  rcases ends_ite.mp h with ⟨hnear, h⟩ | ⟨hfar, h⟩
  · rw [ends_report_bind, ends_pure] at h
    obtain ⟨rfl, rfl⟩ := h
    exact .inl ⟨0, .converged hiter hfx hnear⟩
  rcases ends_expression_bind.mp h with ⟨cause, hf, rfl, rfl⟩ | ⟨slope, hslope, h⟩
  · exact .inl ⟨0, .slope hiter hf⟩
  have hstarts : p.Starts x ⟨x, fx, slope⟩ := ⟨rfl, ⟨hfx, hslope⟩, hfar⟩
  rcases ends_bind.mp h with ⟨err, herr, rfl⟩ | ⟨⟨t, n⟩, g₁, hsettle, h⟩
  · exact .inl (exists_halts_of_settle hiter hstarts herr)
  obtain ⟨path, hpath, hle, hn, hzero⟩ := ends_settle_ok.mp hsettle
  rw [Nat.zero_add] at hn
  rcases ends_numeric_bind.mp h with ⟨cause, he, rfl, rfl⟩ | ⟨y, hnext, h⟩
  · exact .inl ⟨_, .step hiter hstarts hpath hle hzero he⟩
  rw [ends_report_bind] at h
  exact .inr ⟨_, n, (g₁, y), ⟨hstarts, t, path, hpath, hle, hn, hzero, hnext⟩, h⟩

/-- **Every search halts in some iteration, and has gone through others before.** -/
theorem exists_halts_of_iterate (hleft : iter + left = p.config.maxIters)
    (h : (iterate p left iter corrections x).Ends g r g') :
    ∃ starts m c n, Iterations p (g, x) starts m c ∧
      Halts p (iter + starts.length) (corrections + m) c n r g' := by
  induction left generalizing g iter corrections x with
  | zero =>
    rw [iterate, ends_report_bind, ends_fail] at h
    obtain ⟨rfl, rfl⟩ := h
    rw [← hleft]
    exact ⟨[], 0, (g, x), 0, .nil _, .exhausted hleft⟩
  | succ left ih =>
    rcases halts_or_iteration (by omega) h with ⟨n, hhalts⟩ | ⟨s, k, c₁, hiteration, h⟩
    · exact ⟨[], 0, (g, x), n, .nil _, hhalts⟩
    · obtain ⟨starts, m, c, n, hiterations, hhalts⟩ := ih (by omega) h
      refine ⟨s :: starts, k + m, c, n, .cons hiteration hiterations, ?_⟩
      have hlength : iter + (s :: starts).length = iter + 1 + starts.length := by
        rw [List.length_cons]
        omega
      rw [hlength, ← Nat.add_assoc]
      exact hhalts

/-! ## one draw for each correction -/

/-- Each shift takes one draw. -/
theorem Shifts.after_eq {c c' : G × Sample} {path : List Sample} (h : Shifts p c path c') :
    c'.1 = after path.length c.1 := by
  induction h with
  | nil => rfl
  | cons h _ ih => rw [ih, ← h.drawn, List.length_cons, after]

/-- An iteration takes one draw for each of its shifts. -/
theorem Iteration.after_eq {c c' : G × Number} {n : Nat} (h : Iteration p c s n c') :
    c'.1 = after n c.1 := by
  obtain ⟨t, path, hpath, -, rfl, -⟩ := h.settled
  exact hpath.after_eq

/-- Iterations take one draw for each shift in them. -/
theorem Iterations.after_eq {c c' : G × Number} {starts : List Sample} {n : Nat}
    (h : Iterations p c starts n c') : c'.1 = after n c.1 := by
  induction h with
  | nil => rfl
  | cons h _ ih => rw [ih, h.after_eq, DrawSource.after_add]

/-- The last iteration takes one draw for each of its corrections, also for one that
breaks off. -/
theorem Halts.after_eq {c : G × Number} {n : Nat} (h : Halts p iter corrections c n r g') :
    g' = after n c.1 := by
  cases h with
  | exhausted | converged | function | slope => rfl
  | correction _ _ hpath => rw [DrawSource.after_add, ← hpath.after_eq]; rfl
  | stuck _ _ hpath => exact hpath.after_eq
  | step _ _ hpath => exact hpath.after_eq

/-! ## corrections where the slope vanishes -/

/-- An iteration with corrections starts where the slope vanishes. -/
theorem Shifts.isZero_of_length {c c' : G × Sample} {path : List Sample} (h : Shifts p c path c')
    (hpath : path.length ≠ 0) : c.2.slope.isZero = true := by
  cases h with
  | nil => exact absurd rfl hpath
  | cons h _ => exact h.vanishing

/-- Some iteration before the end starts where the slope vanishes. -/
theorem Iterations.exists_vanishing {c c' : G × Number} {starts : List Sample} {n : Nat}
    (h : Iterations p c starts n c') (hn : n ≠ 0) :
    ∃ starts' m c₁ s, Iterations p c starts' m c₁ ∧ starts'.length < starts.length ∧
      p.Starts c₁.2 s ∧ s.slope.isZero = true := by
  induction h with
  | nil => exact absurd rfl hn
  | @cons c s k c₁ starts m c₂ h hs ih =>
    by_cases hk : k = 0
    · obtain ⟨starts', m', c', t, hrun, hlt, ht, hzero⟩ := ih (by omega)
      exact ⟨s :: starts', k + m', c', t, .cons h hrun, Nat.succ_lt_succ hlt, ht, hzero⟩
    · obtain ⟨t, path, hpath, -, rfl, -⟩ := h.settled
      exact ⟨[], 0, c, s, .nil c, Nat.succ_pos _, h.starts, hpath.isZero_of_length hk⟩

/-- The search halts within the iterations it may take. -/
theorem Halts.iter_le {c : G × Number} {n : Nat} (h : Halts p iter corrections c n r g') :
    iter ≤ p.config.maxIters := by
  cases h with
  | exhausted h => exact Nat.le_of_eq h
  | converged h | function h | slope h | correction h | stuck h | step h => exact Nat.le_of_lt h

/-- The last iteration does so, if it has corrections. -/
theorem Halts.exists_vanishing {c : G × Number} {n : Nat} (h : Halts p iter corrections c n r g')
    (hn : n ≠ 0) : iter < p.config.maxIters ∧ ∃ s, p.Starts c.2 s ∧ s.slope.isZero = true := by
  cases h with
  | exhausted | converged | function | slope => exact absurd rfl hn
  | @correction s path _ _ _ hiter hstarts hpath _ hzero _ =>
    exact ⟨hiter, s, hstarts, hpath.vanishing hzero s List.mem_cons_self⟩
  | stuck hiter hstarts hpath => exact ⟨hiter, _, hstarts, hpath.isZero_of_length hn⟩
  | step hiter hstarts hpath => exact ⟨hiter, _, hstarts, hpath.isZero_of_length hn⟩

end iterations

/-! ## searches -/

section searches

variable [Elementary] (catalogue : Catalogue) (e : Expr) (v : Variable) (guess : Number)
  (config : Config)

/-- From the guess and the generator `g` the search ends with `r` after `n`
corrections, and leaves `g'`. -/
inductive EndsAfter (g : G) : (n : Nat) → (r : Except SolveError Solution) → (g' : G) → Prop
  | underivable {cause} : (e.derivative catalogue v).result = .error cause →
    EndsAfter g 0 (.error (.expression cause)) g
  | course {d starts m c n r g'} : Reaches catalogue e v guess config g d starts m c →
    Halts (problem catalogue e d v config) starts.length m c n r g' → EndsAfter g (m + n) r g'

/-- The search from the guess and the generator `g` comes across the value `y` of the
derivative: at the start of an iteration, or after some corrections. -/
def MeetsSlope (g : G) (y : Number) : Prop :=
  ∃ d starts m c s path c', Reaches catalogue e v guess config g d starts m c ∧
    starts.length < config.maxIters ∧ (problem catalogue e d v config).Starts c.2 s ∧
    Shifts (problem catalogue e d v config) (c.1, s) path c' ∧
    path.length ≤ config.maxCorrections ∧ c'.2.slope = y

end searches

section

variable [Elementary] {catalogue : Catalogue} {e d : Expr} {v : Variable} {guess : Number}
  {config : Config}
  {g g' : G} {n : Nat} {r : Except SolveError Solution}

/-- **Every search has a course.** -/
theorem exists_endsAfter (h : (search (e.equation catalogue v) guess config).Ends g r g') :
    ∃ n, EndsAfter catalogue e v guess config g n r g' := by
  cases hd : (e.derivative catalogue v).result with
  | error cause =>
    rw [search] at h
    have hslope : (e.equation catalogue v).slope.result = .error cause :=
      Logged.result_bind_eq_error.mpr (.inl hd)
    rcases ends_expression_bind.mp h with ⟨_, hcause, rfl, rfl⟩ | ⟨_, hok, -⟩
    · cases hslope.symm.trans hcause
      exact ⟨0, .underivable hd⟩
    · cases hslope.symm.trans hok
  | ok d =>
    obtain ⟨starts, m, c, n, hiterations, hhalts⟩ :=
      exists_halts_of_iterate (p := problem catalogue e d v config) (Nat.zero_add _)
        ((ends_search_of_derivative hd).mp h)
    rw [Nat.zero_add, Nat.zero_add] at hhalts
    exact ⟨m + n, .course (.of_iterations hd hiterations) hhalts⟩

/-- **A search takes one draw for each correction, and no others.** -/
theorem EndsAfter.after_eq (h : EndsAfter catalogue e v guess config g n r g') :
    g' = after n g := by
  cases h with
  | underivable => rfl
  | course hreaches hhalts =>
    rw [hhalts.after_eq, hreaches.iterations.after_eq, DrawSource.after_add]

/-- A solution tells the number of corrections. -/
theorem EndsAfter.corrections_eq {s : Solution}
    (h : EndsAfter catalogue e v guess config g n (.ok s) g') : s.corrections = n := by
  cases h with
  | course _ hhalts =>
    cases hhalts
    rfl

/-- A search that corrects its point has come across a derivative of zero. -/
theorem EndsAfter.exists_meetsSlope (h : EndsAfter catalogue e v guess config g n r g')
    (hn : n ≠ 0) : ∃ y, MeetsSlope catalogue e v guess config g y ∧ y.isZero = true := by
  cases h with
  | underivable => exact absurd rfl hn
  | @course d starts m c k _ _ hreaches hhalts =>
    by_cases hm : m = 0
    · obtain ⟨hlt, s, hs, hzero⟩ := hhalts.exists_vanishing (by omega)
      exact ⟨s.slope, ⟨d, starts, m, c, s, [], _, hreaches, hlt, hs, .nil _, Nat.zero_le _, rfl⟩,
        hzero⟩
    · obtain ⟨starts', m', c', s, hrun, hlt, hs, hzero⟩ := hreaches.iterations.exists_vanishing hm
      have hmax : starts'.length < config.maxIters := Nat.lt_of_lt_of_le hlt hhalts.iter_le
      exact ⟨s.slope, ⟨d, starts', m', c', s, [], _, .of_iterations hreaches.derivative hrun, hmax,
        hs, .nil _, Nat.zero_le _, rfl⟩, hzero⟩

/-! ## randomness is for corrections -/

/-- A tally counts the corrections of a search. -/
theorem endsAfter_taken (g : G) :
    let run := search (e.equation catalogue v) guess config (⟨g, 0⟩ : Tally G)
    EndsAfter catalogue e v guess config (⟨g, 0⟩ : Tally G) run.2.taken run.1.result run.2 := by
  intro run
  obtain ⟨n, hcourse⟩ : ∃ n, EndsAfter catalogue e v guess config (⟨g, 0⟩ : Tally G) n
      run.1.result run.2 := exists_endsAfter ⟨rfl, rfl⟩
  have htaken : run.2.taken = n := by
    rw [hcourse.after_eq, Tally.after_mk, Nat.zero_add]
  rwa [htaken]

/-- Draws that the search does not take do not count. -/
theorem search_eq_of_draws_eq {H : Type} [DrawSource H] {h : H} :
    let run := search (e.equation catalogue v) guess config (⟨g, 0⟩ : Tally G)
    draws run.2.taken h = draws run.2.taken g →
      search (e.equation catalogue v) guess config h = (run.1, after run.2.taken h) := by
  intro run heq
  exact (follows_search (.refl config) _).eq_of_draws_eq
    (fun err _ => config.not_cutShort_self err) heq

/-- **A search takes a draw for each correction, and sees nothing else of its
generator.**

1. The number of draws it takes is that of its corrections, however it ends;
2. from any generator with the same draws next it ends alike, with the same reports,
   and takes as many;
3. a search that comes across no derivative of zero ends alike from all generators. -/
theorem search_draws (catalogue : Catalogue) (e : Expr) (v : Variable) (guess : Number)
    (config : Config) (g : G) :
    let run := search (e.equation catalogue v) guess config (⟨g, 0⟩ : Tally G)
    let n := run.2.taken
    EndsAfter catalogue e v guess config (⟨g, 0⟩ : Tally G) n run.1.result run.2 ∧
      (∀ s, run.1.result = .ok s → s.corrections = n) ∧
      (∀ (H : Type) [DrawSource H] (h : H), draws n h = draws n g →
        search (e.equation catalogue v) guess config h = (run.1, after n h) ∧
          search (e.equation catalogue v) guess config (⟨h, 0⟩ : Tally H) =
            (run.1, ⟨after n h, n⟩)) ∧
      ((∀ y, MeetsSlope catalogue e v guess config (⟨g, 0⟩ : Tally G) y → y.isZero = false) →
        ∀ (H : Type) [DrawSource H] (h : H),
          (search (e.equation catalogue v) guess config h).1 = run.1 ∧
            (e.freeVars.toList = [v] → (solve catalogue e guess config h).1 = run.1)) := by
  intro run n
  have hcourse : EndsAfter catalogue e v guess config (⟨g, 0⟩ : Tally G) n run.1.result run.2 :=
    endsAfter_taken g
  refine ⟨hcourse, ?_, ?_, ?_⟩
  · intro s hs
    rw [hs] at hcourse
    exact hcourse.corrections_eq
  · intro H _ h heq
    have hcounted :=
      search_eq_of_draws_eq (h := (⟨h, 0⟩ : Tally H)) ((Tally.draws_mk n h 0).trans heq)
    rw [Tally.after_mk, Nat.zero_add] at hcounted
    exact ⟨search_eq_of_draws_eq heq, hcounted⟩
  · intro hslopes H _ h
    have hn : n = 0 := by
      by_contra hne
      obtain ⟨y, hy, hzero⟩ := hcourse.exists_meetsSlope hne
      rw [hslopes y hy] at hzero
      cases hzero
    have hdraws : draws n h = draws n g := by rw [hn]; rfl
    have hsearch : (search (e.equation catalogue v) guess config h).1 = run.1 := by
      rw [search_eq_of_draws_eq hdraws]
    refine ⟨hsearch, fun hv => ?_⟩
    rw [← hsearch, solve, hv]

/-- At five, the only point to look at, the slope of the parabola does not vanish. -/
theorem isZero_of_meetsSlope_parabola {y : Number}
    (h : MeetsSlope .empty parabola ⟨"x"⟩ (.integer 5) (coarse 1 (by decide)) g y) :
    y.isZero = false := by
  obtain ⟨d, starts, m, c, s, path, c', hreaches, hlt, hs, hpath, -, rfl⟩ := h
  obtain rfl : starts = [] := List.eq_nil_of_length_eq_zero (Nat.lt_one_iff.mp hlt)
  obtain rfl : Expr.add [ofName "x", ofName "x"] = d :=
    Except.ok.inj (derivative_parabola.symm.trans hreaches.derivative)
  have hiterations := hreaches.iterations
  cases hiterations with
  | nil =>
    have hslope : s.slope = .real (.finite (.ofInt 10)) := by
      have hvalue := hs.sampled.slope
      rw [hs.x_eq] at hvalue
      exact (Except.ok.inj hvalue).symm
    have hzero : s.slope.isZero = false := by
      rw [hslope]
      decide +kernel
    obtain ⟨-, rfl⟩ := hpath.eq_nil hzero
    exact hzero

end

/-- From zero, where the parabola is level, one draw is taken for the one correction.
From five the one step that is allowed is the same for every seed. -/
theorem search_draws_parabola :
    let equation := parabola.equation .empty ⟨"x"⟩
    let run := search equation .zero (coarse 20 (by decide)) (⟨ChaCha.ofSeed 0, 0⟩ : Tally ChaCha)
    (∃ s, run.1.result = .ok s ∧ s.corrections = 1 ∧ run.2.taken = 1) ∧
      ∀ seed, (solve .empty parabola (.integer 5) (coarse 1 (by decide))
        (ChaCha.ofSeed seed)).1.result = .error (.iterationsExhausted 1) := by
  intro equation run
  constructor
  · have hrun : (iterate (parabolaProblem 20 (by decide)) 20 0 0 (.real Number.zero.toReal)
        (⟨ChaCha.ofSeed 0, 0⟩ : Tally ChaCha)).1.result.toOption.any
          (fun s => decide (s.corrections = 1)) = true := by decide +kernel
    obtain ⟨s, g', hend, hs⟩ := exists_ends_ok hrun
    have hend := ends_search_ok.mpr ⟨_, derivative_parabola, hend⟩
    have hcorrections : s.corrections = run.2.taken :=
      (search_draws .empty parabola ⟨"x"⟩ .zero (coarse 20 (by decide)) (ChaCha.ofSeed 0)).2.1 s
        hend.1
    have hone : s.corrections = 1 := of_decide_eq_true hs
    exact ⟨s, hend.1, hone, hcorrections.symm.trans hone⟩
  · intro seed
    have hrun : (iterate (parabolaProblem 1 (by decide)) 1 0 0
        (.real (Number.integer 5).toReal)).Ends (⟨ChaCha.ofSeed 0, 0⟩ : Tally ChaCha)
          (.error (.iterationsExhausted 1)) _ := ⟨rfl, rfl⟩
    have hend := (ends_search_error (by simp)).mpr ⟨_, derivative_parabola, hrun⟩
    have hseed := (search_draws .empty parabola ⟨"x"⟩ (.integer 5) (coarse 1 (by decide))
      (ChaCha.ofSeed 0)).2.2.2 (fun _ => isZero_of_meetsSlope_parabola) ChaCha
        (ChaCha.ofSeed seed)
    rw [hseed.2 rfl]
    exact hend.1

end SymCalc.Newton
