import SymCalc.Proofs.Newton.Outcome
import SymCalc.Proofs.Random.Replay
import SymCalc.Real256.Series

/-!
# SymCalc.Proofs.Newton.Limits

Searches under higher limits.

The limits of a search are looked at only when nothing else is left to do: no point
to look at, or no shift to take.  So a search under higher limits replays the search
under the lower ones, draw by draw, up to where these cut it short
(`follows_settle`, `follows_iterate`).

Main statement: `solve_of_raised`.
-/

namespace SymCalc.Newton

open Drawing SymCalc.Expr

variable {G H : Type} [DrawSource G] [DrawSource H]

/-! ## higher limits -/

/-- The limits `c'` have the tolerance of `c`, and allow as much at least. -/
structure Config.Raises (c c' : Config) : Prop where
  epsilon : c'.epsilon = c.epsilon
  maxIters : c.maxIters ≤ c'.maxIters
  maxCorrections : c.maxCorrections ≤ c'.maxCorrections

theorem Config.Raises.refl (c : Config) : c.Raises c := ⟨rfl, Nat.le_refl _, Nat.le_refl _⟩

/-- The error says that a limit of `c` was met that is higher in `c'`. -/
def Config.CutShort (c c' : Config) : SolveError → Prop
  | .iterationsExhausted _ => c.maxIters < c'.maxIters
  | .maxCorrectionsExceeded _ _ => c.maxCorrections < c'.maxCorrections
  | _ => False

/-- Nothing is cut short by limits that stay as they are. -/
theorem Config.not_cutShort_self (c : Config) (e : SolveError) : ¬c.CutShort c e := by
  cases e with
  | iterationsExhausted _ => exact Nat.lt_irrefl _
  | maxCorrectionsExceeded _ _ => exact Nat.lt_irrefl _
  | _ => exact id

/-! ## replayed searches -/

section problems

variable {p : Problem} {c' : Config} {iter attempts corrections left left' : Nat} {s : Sample}
  {x : Number}

/-- With more shifts to take, settling replays what it did with fewer. -/
theorem follows_settle (h : p.config.Raises c') {cut : SolveError → Prop} (hle : left ≤ left')
    (hcut : left < left' → ∀ x, cut (.maxCorrectionsExceeded x iter)) :
    Follows cut (settle p iter left attempts s : Drawing G SolveError _)
      (settle { p with config := c' } iter left' attempts s : Drawing H SolveError _) := by
  induction left generalizing left' attempts s with
  | zero =>
    cases hs : s.slope.isZero with
    | false =>
      rw [settle_of_isZero_eq_false hs, settle_of_isZero_eq_false hs]
      exact .pure _
    | true =>
      rw [settle, if_pos hs]
      cases left' with
      | zero =>
        rw [settle, if_pos hs]
        exact .andThen _ fun _ => .lift _
      | succ left' => exact .of_fail (hcut (Nat.succ_pos left') s.x) _
  | succ left ih =>
    cases hs : s.slope.isZero with
    | false =>
      rw [settle_of_isZero_eq_false hs, settle_of_isZero_eq_false hs]
      exact .pure _
    | true =>
      obtain ⟨left', rfl⟩ := Nat.exists_eq_succ_of_ne_zero (Nat.ne_of_gt (Nat.zero_lt_of_lt hle))
      rw [settle, settle, if_pos hs, if_pos hs, h.epsilon]
      refine .bind .draw fun draw => .andThen _ fun step => .andThen _ fun y => .andThen _ fun _ =>
        .andThen _ fun fx => .andThen _ fun slope => ?_
      exact ih (Nat.le_of_succ_le_succ hle) fun hlt => hcut (Nat.succ_lt_succ hlt)

/-- **With higher limits, iterations replay what they did with lower ones.** -/
theorem follows_iterate (h : p.config.Raises c')
    (hleft : left + (c'.maxIters - p.config.maxIters) = left') :
    Follows (p.config.CutShort c')
      (iterate p left iter corrections x : Drawing G SolveError _)
      (iterate { p with config := c' } left' iter corrections x : Drawing H SolveError _) := by
  induction left generalizing left' iter corrections x with
  | zero =>
    rcases Nat.lt_or_eq_of_le h.maxIters with hlt | heq
    · have hcut : p.config.CutShort c' (.iterationsExhausted p.config.maxIters) := hlt
      rw [iterate]
      exact .of_fail hcut _
    · obtain rfl : left' = 0 := by omega
      rw [iterate, iterate, heq]
      exact .andThen _ fun _ => .lift _
  | succ left ih =>
    obtain ⟨left', rfl⟩ : ∃ n, left' = n + 1 := ⟨left' - 1, by omega⟩
    have hrest : left + (c'.maxIters - p.config.maxIters) = left' := by omega
    rw [iterate, iterate]
    refine .andThen _ fun fx => ?_
    split
    · exact .andThen _ fun _ => .pure _
    · refine .andThen _ fun slope => ?_
      have hsettle : Follows (p.config.CutShort c')
          (settle p iter p.config.maxCorrections 0 ⟨x, fx, slope⟩ : Drawing G SolveError _)
          (settle { p with config := c' } iter c'.maxCorrections 0 ⟨x, fx, slope⟩ :
            Drawing H SolveError _) :=
        follows_settle h h.maxCorrections fun hlt _ => hlt
      exact .bind hsettle fun _ => .andThen _ fun y => .andThen _ fun _ => ih hrest

end problems

variable {catalogue : Catalogue} {e : Expr} {guess : Number} {c c' : Config}

theorem follows_search (h : c.Raises c') (equation : Equation) :
    Follows (c.CutShort c') (search equation guess c : Drawing G SolveError _)
      (search equation guess c' : Drawing H SolveError _) := by
  unfold search
  rw [h.epsilon]
  refine .andThen _ fun derivative => .andThen _ fun epsilon => .andThen _ fun _ => ?_
  let p : Problem := ⟨equation.unknown, equation.curve, derivative, c, epsilon⟩
  exact follows_iterate (p := p) h (Nat.add_sub_of_le h.maxIters)

/-- Solving follows solving with lower limits. -/
theorem follows_solve [Elementary] (h : c.Raises c') :
    Follows (c.CutShort c') (solve catalogue e guess c : Drawing G SolveError _)
      (solve catalogue e guess c' : Drawing H SolveError _) := by
  unfold solve
  split
  · exact follows_search h _
  · exact .lift _

/-! ## answers under higher limits -/

/-- A run that the lower limits do not cut short is the run under the higher ones. -/
theorem solve_eq_of_raises [Elementary] (h : c.Raises c') {g : G}
    (hr : ∀ err, (solve catalogue e guess c g).1.result = .error err → ¬c.CutShort c' err) :
    solve catalogue e guess c' g = solve catalogue e guess c g := by
  obtain ⟨n, hleft, hreplay⟩ := (follows_solve (H := G) h).exists_replayed hr
  rw [hreplay g rfl, ← hleft]

/-- **Higher limits do not change an answer.**  A search that succeeds, or fails in an
evaluation, runs under higher limits as it did, with the same reports and the same
draws; and so does one that is stuck, as long as it may not shift more often. -/
theorem solve_of_raised [Elementary] (catalogue : Catalogue) (e : Expr) (guess : Number) (g : G)
    (hε : c'.epsilon = c.epsilon) (hiters : c.maxIters ≤ c'.maxIters)
    (hcorrections : c.maxCorrections ≤ c'.maxCorrections) :
    let run := solve catalogue e guess c g
    let raised := solve catalogue e guess c' g
    (∀ s, run.1.result = .ok s → raised = run) ∧
      (∀ cause, run.1.result = .error (.expression cause) → raised = run) ∧
      ∀ x iter, run.1.result = .error (.maxCorrectionsExceeded x iter) →
        c'.maxCorrections = c.maxCorrections → raised = run := by
  intro run raised
  have hraises : c.Raises c' := ⟨hε, hiters, hcorrections⟩
  refine ⟨fun s hs => ?_, fun cause hcause => ?_, fun x iter hstuck heq => ?_⟩
  · refine solve_eq_of_raises hraises fun err herr => ?_
    cases hs.symm.trans herr
  · refine solve_eq_of_raises hraises fun err herr hcut => ?_
    cases hcause.symm.trans herr
    exact hcut
  · refine solve_eq_of_raises hraises fun err herr hcut => ?_
    cases hstuck.symm.trans herr
    exact absurd heq (Nat.ne_of_gt hcut)

/-- A hundred points instead of twenty and three shifts instead of one: the parabola
has the same root from zero, after one shift, and fails alike at infinity. -/
theorem solve_of_raised_parabola :
    let low := coarse 20 (by decide)
    let high : Config := ⟨low.epsilon, 100, 3, low.epsilon_tolerance, by decide, by decide⟩
    let infinity := Number.real (.infinite false)
    let solution := solve .empty parabola .zero low (ChaCha.ofSeed 0)
    let failure := solve .empty parabola infinity low (ChaCha.ofSeed 0)
    ((∃ s, solution.1.result = .ok s ∧ s.corrections = 1) ∧
      solve .empty parabola .zero high (ChaCha.ofSeed 0) = solution) ∧
    failure.1.result = .error (.expression (.numeric .nonFiniteOperand)) ∧
      solve .empty parabola infinity high (ChaCha.ofSeed 0) = failure := by
  intro low high infinity solution failure
  have raised (guess : Number) :=
    @solve_of_raised ChaCha _ low high _ .empty parabola guess (.ofSeed 0) rfl (by decide)
      (by decide)
  constructor
  · have hrun : (iterate (parabolaProblem 20 (by decide)) 20 0 0 (.real Number.zero.toReal)
        (ChaCha.ofSeed 0)).1.result.toOption.any (fun s => decide (s.corrections = 1)) = true := by
      decide +kernel
    obtain ⟨s, g', hend, hs⟩ := exists_ends_ok hrun
    have hend := (ends_search_of_derivative derivative_parabola).mpr hend
    exact ⟨⟨s, hend.1, of_decide_eq_true hs⟩, (raised .zero).1 s hend.1⟩
  · have hrun : (iterate (parabolaProblem 20 (by decide)) 20 0 0 (.real infinity.toReal)).Ends
        (ChaCha.ofSeed 0) (.error (.expression (.numeric .nonFiniteOperand))) _ := ⟨rfl, rfl⟩
    have hend := (ends_search_of_derivative derivative_parabola).mpr hrun
    exact ⟨hend.1, (raised infinity).2.1 _ hend.1⟩

end SymCalc.Newton
