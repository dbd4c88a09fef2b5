import SymCalc.Log
import SymCalc.Random.ChaCha

/-!
# SymCalc.Random.Drawing

Computations that may fail, report what they do, and take draws from a
generator.  The generator stays advanced also when the computation fails.

`Ends` reads a computation as a relation between the generator it starts from,
its result and the generator it leaves, with one rule for each way to build it.

Main statements: a step that takes no draw leaves the generator alone
(`ends_lift`), and draws are taken in the order of the steps (`bind_apply_of_ok`).
-/

namespace SymCalc

/-- A computation over generators of `G`: from a generator, what was logged and
the generator left behind. -/
def Drawing (G ε α : Type) := G → Logged ε α × G

namespace Drawing

variable {G ε α β : Type}

/-- One computation after another, if the first one succeeds. -/
def andThen (m : Drawing G ε α) (f : α → Drawing G ε β) : Drawing G ε β := fun g =>
  let first := m g
  match first.1.result with
  | .ok a =>
    let second := f a first.2
    (⟨first.1.events ++ second.1.events, second.1.result⟩, second.2)
  | .error e => (⟨first.1.events, .error e⟩, first.2)

instance : Monad (Drawing G ε) where
  pure a := fun g => (pure a, g)
  bind := andThen

/-- A computation that takes no draw. -/
def lift (m : Logged ε α) : Drawing G ε α := fun g => (m, g)

/-- A computation that fails at once. -/
def fail (e : ε) : Drawing G ε α := lift (.fail e)

/-- A report. -/
def report (event : Event) : Drawing G ε Unit := lift (.report event)

/-- The next draw. -/
def draw [DrawSource G] : Drawing G ε UInt64 := fun g =>
  let next := DrawSource.draw g
  (pure next.1, next.2)

theorem draw_apply [DrawSource G] (g : G) :
    (draw : Drawing G ε UInt64) g =
      (pure (DrawSource.draw g).1, (DrawSource.draw g).2) := rfl

/-- A computation goes on with the generator its first part leaves. -/
theorem bind_apply_of_ok {m : Drawing G ε α} {f : α → Drawing G ε β} {g : G} {a : α}
    (h : (m g).1.result = .ok a) :
    (m >>= f) g =
      (⟨(m g).1.events ++ (f a (m g).2).1.events, (f a (m g).2).1.result⟩,
        (f a (m g).2).2) := by
  change andThen m f g = _
  unfold andThen
  simp only [h]

/-- A computation stops where its first part fails. -/
theorem bind_apply_of_error {m : Drawing G ε α} {f : α → Drawing G ε β} {g : G} {e : ε}
    (h : (m g).1.result = .error e) :
    (m >>= f) g = (⟨(m g).1.events, .error e⟩, (m g).2) := by
  change andThen m f g = _
  unfold andThen
  simp only [h]

/-! ## how a computation ends -/

/-- From the generator `g` the computation ends with `r` and leaves `g'`. -/
def Ends (m : Drawing G ε α) (g : G) (r : Except ε α) (g' : G) : Prop :=
  (m g).1.result = r ∧ (m g).2 = g'

section ends

variable {g g' : G} {r : Except ε α}

@[simp] theorem ends_lift {m : Logged ε α} :
    (lift m : Drawing G ε α).Ends g r g' ↔ m.result = r ∧ g = g' := Iff.rfl

@[simp] theorem ends_pure {a : α} :
    (pure a : Drawing G ε α).Ends g r g' ↔ .ok a = r ∧ g = g' := Iff.rfl

@[simp] theorem ends_fail {e : ε} :
    (fail e : Drawing G ε α).Ends g r g' ↔ .error e = r ∧ g = g' := Iff.rfl

@[simp] theorem ends_report {event : Event} {r : Except ε Unit} :
    (report event : Drawing G ε Unit).Ends g r g' ↔ .ok () = r ∧ g = g' := Iff.rfl

@[simp] theorem ends_draw [DrawSource G] {r : Except ε UInt64} :
    (draw : Drawing G ε UInt64).Ends g r g' ↔
      .ok (DrawSource.draw g).1 = r ∧ (DrawSource.draw g).2 = g' := Iff.rfl

/-- A result that passes a test is the end of a run. -/
theorem exists_ends_ok {m : Drawing G ε α} {P : α → Bool}
    (h : (m g).1.result.toOption.any P = true) : ∃ a g', m.Ends g (.ok a) g' ∧ P a = true := by
  cases hr : (m g).1.result with
  | error e =>
    rw [hr] at h
    cases h
  | ok a =>
    rw [hr] at h
    exact ⟨a, _, ⟨hr, rfl⟩, h⟩

/-- A choice ends as the branch that is taken. -/
theorem ends_ite {c : Prop} [Decidable c] {m m' : Drawing G ε α} :
    (if c then m else m').Ends g r g' ↔ c ∧ m.Ends g r g' ∨ ¬c ∧ m'.Ends g r g' := by
  split <;> simp [*]

/-- After a step that succeeds, a computation goes on from what the step leaves. -/
theorem ends_bind_of_ok {m : Drawing G ε α} {f : α → Drawing G ε β} {a : α} {g₁ : G}
    {r : Except ε β} (h : m.Ends g (.ok a) g₁) :
    (m >>= f).Ends g r g' ↔ (f a).Ends g₁ r g' := by
  obtain ⟨hr, rfl⟩ := h
  simp only [Ends, bind_apply_of_ok hr]

/-- Two steps end where the first one fails, or else as the second one does. -/
theorem ends_bind {m : Drawing G ε α} {f : α → Drawing G ε β} {r : Except ε β} :
    (m >>= f).Ends g r g' ↔
      (∃ e, m.Ends g (.error e) g' ∧ .error e = r) ∨
        ∃ a g₁, m.Ends g (.ok a) g₁ ∧ (f a).Ends g₁ r g' := by
  cases h : (m g).1.result with
  | ok a =>
    have hm : m.Ends g (.ok a) (m g).2 := ⟨h, rfl⟩
    rw [ends_bind_of_ok hm]
    grind [Ends]
  | error e =>
    simp only [Ends, bind_apply_of_error h, h]
    grind

/-- A report changes nothing for the steps after it. -/
theorem ends_report_bind {event : Event} {f : Unit → Drawing G ε β} {r : Except ε β} :
    (report event >>= f).Ends g r g' ↔ (f ()).Ends g r g' :=
  ends_bind_of_ok ⟨rfl, rfl⟩

/-- A draw hands on its value and the generator behind it. -/
theorem ends_draw_bind [DrawSource G] {f : UInt64 → Drawing G ε β} {r : Except ε β} :
    (draw >>= f).Ends g r g' ↔ (f (DrawSource.draw g).1).Ends (DrawSource.draw g).2 r g' :=
  ends_bind_of_ok ⟨rfl, rfl⟩

/-- Two steps succeed when both do. -/
@[simp] theorem ends_bind_ok {m : Drawing G ε α} {f : α → Drawing G ε β} {b : β} :
    (m >>= f).Ends g (.ok b) g' ↔
      ∃ a g₁, m.Ends g (.ok a) g₁ ∧ (f a).Ends g₁ (.ok b) g' := by
  cases h : (m g).1.result with
  | ok a =>
    have hm : m.Ends g (.ok a) (m g).2 := ⟨h, rfl⟩
    rw [ends_bind_of_ok hm]
    grind [Ends]
  | error e => simp [Ends, bind_apply_of_error h, h]

/-- Two steps fail when the first one does, or the second one after it. -/
@[simp] theorem ends_bind_error {m : Drawing G ε α} {f : α → Drawing G ε β} {e : ε} :
    (m >>= f).Ends g (.error e) g' ↔
      m.Ends g (.error e) g' ∨ ∃ a g₁, m.Ends g (.ok a) g₁ ∧ (f a).Ends g₁ (.error e) g' := by
  cases h : (m g).1.result with
  | ok a =>
    have hm : m.Ends g (.ok a) (m g).2 := ⟨h, rfl⟩
    rw [ends_bind_of_ok hm]
    grind [Ends]
  | error e => simp [Ends, bind_apply_of_error h, h]

end ends

end Drawing

end SymCalc
