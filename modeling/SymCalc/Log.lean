import SymCalc.Error
import SymCalc.Expr.Text

/-!
# SymCalc.Log

What a computation reports while it runs.

1. An `Event` is one report, kept as the values it speaks of; `Event.message`
   is its wording;
2. `Logged ε α` is a computation that ends in a value of `α` or an error of `ε`
   and has reported a list of events on the way.  An error ends the
   computation; what was reported before it stays reported.

Main statements: the result of a computation does not depend on what it
reports (`Logged.result_bind`), and a second step matters only on what the first
one can end with (`Logged.bind_congr_of_ok`).
-/

namespace SymCalc

/-! ## events -/

/-- How much an event matters. -/
inductive Event.Level where
  | debug
  | trace
deriving DecidableEq

/-- One report of a running computation. -/
inductive Event where
  /-- The equation of a goal-seek is handed to its algorithm. -/
  | seeking (v : Variable) (expr : Expr)
  | found (v : Variable) (root : Number)
  /-- A Newton search was set up for a goal-seek. -/
  | configured (v : Variable) (guess : Number) (config : Newton.Config)
  | searchStarted (expr : Expr) (v : Variable) (guess : Number) (derivative : Expr)
  | converged (v : Variable) (x : Number) (iters : Nat)
  | stuck (v : Variable) (x : Number)
  | corrected (attempt : Nat) (v : Variable) (x : Number)
  | stepped (iter : Nat) (fx : Number) (v : Variable) (x : Number)
  | exhausted (maxIters : Nat)

namespace Event

/-- Single steps matter less than the course of a search. -/
def level : Event → Level
  | .corrected .. | .stepped .. => .trace
  | _ => .debug

/-- The wording of an event. -/
def message : Event → String
  | .seeking v expr => "goal-seeking " ++ v.name ++ " over `" ++ expr.text ++ "`"
  | .found v root => "goal-seek found " ++ v.name ++ " = " ++ root.text
  | .configured v guess config =>
    "newton-raphson: goal-seeking " ++ v.name ++ " from " ++ guess.text ++
      " with " ++ config.text
  | .searchStarted expr v guess derivative =>
    "newton-raphson: solving `" ++ expr.text ++ " = 0` for " ++ v.name ++
      " from " ++ guess.text ++ ", derivative `" ++ derivative.text ++ "`"
  | .converged v x iters =>
    "newton-raphson: converged to " ++ v.name ++ " = " ++ x.text ++
      " after " ++ Nat.repr iters ++ " iterations"
  | .stuck v x =>
    "newton-raphson: derivative stuck at zero near " ++ v.name ++ " = " ++ x.text
  | .corrected attempt v x =>
    "newton-raphson: correction " ++ Nat.repr attempt ++ " moved " ++ v.name ++
      " to " ++ x.text
  | .stepped iter fx v x =>
    "newton-raphson: iteration " ++ Nat.repr iter ++ ", f = " ++ fx.text ++
      ", next " ++ v.name ++ " = " ++ x.text
  | .exhausted maxIters =>
    "newton-raphson: no root within " ++ Nat.repr maxIters ++ " iterations"

end Event

/-! ## computations that report -/

/-- The reports and the end of a computation. -/
structure Logged (ε α : Type) where
  events : List Event
  result : Except ε α

section results

variable {ε ε' α : Type}

theorem mapError_ok (f : ε → ε') (a : α) : (Except.ok a).mapError f = .ok a := rfl

theorem mapError_error (f : ε → ε') (e : ε) :
    (Except.error e : Except ε α).mapError f = .error (f e) := rfl

/-- A result that is there is a success. -/
theorem eq_ok_of_toOption {r : Except ε α} {a : α} (h : r.toOption = some a) : r = .ok a := by
  cases r <;> cases h
  rfl

theorem exists_eq_ok {r : Except ε α} (h : r.toOption.isSome = true) : ∃ a, r = .ok a := by
  obtain ⟨a, ha⟩ := Option.isSome_iff_exists.mp h
  exact ⟨a, eq_ok_of_toOption ha⟩

end results

namespace Logged

variable {ε ε' α β : Type}

/-- A computation that ends as given and reports nothing. -/
def ofExcept (r : Except ε α) : Logged ε α := ⟨[], r⟩

/-- A computation that fails at once. -/
def fail (e : ε) : Logged ε α := ⟨[], .error e⟩

/-- A report. -/
def report (event : Event) : Logged ε Unit := ⟨[event], .ok ()⟩

/-- One computation after another, if the first one succeeds. -/
def andThen (m : Logged ε α) (f : α → Logged ε β) : Logged ε β :=
  match m.result with
  | .ok a => let n := f a; ⟨m.events ++ n.events, n.result⟩
  | .error e => ⟨m.events, .error e⟩

instance : Monad (Logged ε) where
  pure a := ⟨[], .ok a⟩
  bind := andThen

/-- The same computation with its error seen as one of another kind. -/
def mapError (f : ε → ε') (m : Logged ε α) : Logged ε' α := ⟨m.events, m.result.mapError f⟩

/-- One computation after another that may use how the first one ended. -/
def andThenOk (m : Logged ε α) (f : (a : α) → m.result = .ok a → Logged ε β) : Logged ε β :=
  match h : m.result with
  | .ok a => let n := f a h; ⟨m.events ++ n.events, n.result⟩
  | .error e => ⟨m.events, .error e⟩

@[simp] theorem result_pure (a : α) : (pure a : Logged ε α).result = .ok a := rfl

@[simp] theorem result_ofExcept (r : Except ε α) : (ofExcept r).result = r := rfl

@[simp] theorem result_fail (e : ε) : (fail e : Logged ε α).result = .error e := rfl

@[simp] theorem result_report (event : Event) :
    (report event : Logged ε Unit).result = .ok () := rfl

@[simp] theorem result_mapError (f : ε → ε') (m : Logged ε α) :
    (m.mapError f).result = m.result.mapError f := rfl

/-- The result of two steps is that of the second on the result of the first. -/
@[simp] theorem result_bind (m : Logged ε α) (f : α → Logged ε β) :
    (m >>= f).result = m.result >>= fun a => (f a).result := by
  change (andThen m f).result = _
  unfold andThen
  cases m.result <;> rfl

/-- Two steps succeed when both do. -/
theorem result_bind_eq_ok {m : Logged ε α} {f : α → Logged ε β} {b : β} :
    (m >>= f).result = .ok b ↔ ∃ a, m.result = .ok a ∧ (f a).result = .ok b := by
  rw [result_bind]
  cases m.result <;> simp [bind, Except.bind]

/-- Two steps fail when the first one does, or the second one after it. -/
theorem result_bind_eq_error {m : Logged ε α} {f : α → Logged ε β} {e : ε} :
    (m >>= f).result = .error e ↔
      m.result = .error e ∨ ∃ a, m.result = .ok a ∧ (f a).result = .error e := by
  rw [result_bind]
  cases m.result <;> simp [bind, Except.bind]

/-- A second step matters only on what the first one can end with. -/
theorem bind_congr_of_ok {m : Logged ε α} {f g : α → Logged ε β}
    (h : ∀ a, m.result = .ok a → f a = g a) : m >>= f = m >>= g := by
  change andThen m f = andThen m g
  unfold andThen
  split
  · rename_i a ha
    rw [h a ha]
  · rfl

/-- Without a use for the proof of success it is the usual composition. -/
theorem andThenOk_eq_bind (m : Logged ε α) (f : α → Logged ε β) :
    (m.andThenOk fun a _ => f a) = m >>= f := by
  change _ = andThen m f
  unfold andThenOk andThen
  split <;> simp_all

/-- The composition succeeds if and only if both parts do. -/
theorem result_andThenOk_eq_ok {m : Logged ε α}
    {f : (a : α) → m.result = .ok a → Logged ε β} {b : β} :
    (m.andThenOk f).result = .ok b ↔ ∃ a, ∃ h : m.result = .ok a, (f a h).result = .ok b := by
  unfold andThenOk
  split
  · rename_i a ha
    constructor
    · exact fun h => ⟨a, ha, h⟩
    · rintro ⟨a', ha', h⟩
      cases Except.ok.inj (ha.symm.trans ha')
      exact h
  · rename_i e he
    constructor
    · nofun
    · rintro ⟨a, ha, _⟩
      cases he.symm.trans ha

instance : LawfulMonad (Logged ε) := by
  refine LawfulMonad.mk' _ ?_ ?_ ?_
  · rintro α ⟨events, result⟩
    cases result <;> simp [Functor.map, andThen]
  · intro α β a f
    simp [bind, andThen, pure]
  · rintro α β γ ⟨events, result⟩ f g
    cases result with
    | error e => simp [bind, andThen]
    | ok a =>
      cases h : (f a).result <;> simp [bind, andThen, h]

end Logged

end SymCalc
