import SymCalc.Random.Drawing

/-!
# SymCalc.Proofs.Random.Replay

Generators as streams of draws, and computations run again on other streams.

1. `draws n g` are the next `n` draws of the generator `g`, and `after n g` is what
   they leave; a `Tally` counts the draws taken from a generator;
2. `Follows cut m m'` says that `m'` replays the runs of `m`: from a generator whose
   next draws are those that `m` takes it reports and ends as `m` does, and takes as
   many.  Runs of `m` that fail with an error of `cut` are left out.

Main statements: a computation follows another one when its steps do
(`Follows.bind`), and sees only the draws that this takes (`Follows.eq_of_draws_eq`).
-/

namespace SymCalc

/-! ## streams -/

namespace DrawSource

variable {G : Type} [DrawSource G]

/-- The next draws, in their order. -/
def draws : Nat → G → List UInt64
  | 0, _ => []
  | n + 1, g => (draw g).1 :: draws n (draw g).2

/-- The generator after so many draws. -/
def after : Nat → G → G
  | 0, g => g
  | n + 1, g => after n (draw g).2

@[simp] theorem length_draws (n : Nat) (g : G) : (draws n g).length = n := by
  induction n generalizing g with
  | zero => rfl
  | succ n ih => rw [draws, List.length_cons, ih]

/-- More draws are the first ones and those that come after them. -/
theorem draws_add (n m : Nat) (g : G) : draws (n + m) g = draws n g ++ draws m (after n g) := by
  induction n generalizing g with
  | zero => rw [Nat.zero_add]; rfl
  | succ n ih => rw [Nat.succ_add, draws, draws, after, ih, List.cons_append]

theorem after_add (n m : Nat) (g : G) : after (n + m) g = after m (after n g) := by
  induction n generalizing g with
  | zero => rw [Nat.zero_add]; rfl
  | succ n ih => rw [Nat.succ_add, after, after, ih]

/-- Streams that agree for a while agree up to any point in between, and then for
the rest of the while. -/
theorem draws_add_inj {H : Type} [DrawSource H] {n m : Nat} {g : G} {h : H}
    (heq : draws (n + m) h = draws (n + m) g) :
    draws n h = draws n g ∧ draws m (after n h) = draws m (after n g) := by
  rw [draws_add, draws_add] at heq
  exact List.append_inj heq (by rw [length_draws, length_draws])

end DrawSource

/-- A generator with the number of draws taken from it. -/
structure Tally (G : Type) where
  source : G
  taken : Nat

namespace Tally

open DrawSource

variable {G : Type} [DrawSource G]

instance : DrawSource (Tally G) where
  draw t := ((draw t.source).1, ⟨(draw t.source).2, t.taken + 1⟩)

@[simp] theorem draws_mk (n : Nat) (g : G) (k : Nat) : draws n (⟨g, k⟩ : Tally G) = draws n g := by
  induction n generalizing g k with
  | zero => rfl
  | succ n ih =>
    rw [draws, draws, ← ih (draw g).2 (k + 1)]
    rfl

@[simp] theorem after_mk (n : Nat) (g : G) (k : Nat) :
    after n (⟨g, k⟩ : Tally G) = ⟨after n g, k + n⟩ := by
  induction n generalizing g k with
  | zero => rfl
  | succ n ih =>
    have hcount : k + (n + 1) = k + 1 + n := by omega
    rw [after, after, hcount, ← ih]
    rfl

end Tally

/-! ## replayed runs -/

namespace Drawing

open DrawSource

variable {G H ε α β : Type} [DrawSource G] [DrawSource H] {cut : ε → Prop}

/-- The run of `m` from `g` takes `n` draws, and `m'` runs alike from any generator
that has the same `n` draws next. -/
def ReplayedAfter (n : Nat) (m : Drawing G ε α) (m' : Drawing H ε α) (g : G) : Prop :=
  (m g).2 = after n g ∧ ∀ h, draws n h = draws n g → m' h = ((m g).1, after n h)

/-- The runs of `m` are replayed by `m'`, but for those that fail with an error of
`cut`. -/
def Follows (cut : ε → Prop) (m : Drawing G ε α) (m' : Drawing H ε α) : Prop :=
  ∀ g, (∃ n, ReplayedAfter n m m' g) ∨ ∃ e, (m g).1.result = .error e ∧ cut e

namespace Follows

/-- A step without draws is the same on any stream. -/
theorem lift (m : Logged ε α) :
    Follows cut (Drawing.lift m : Drawing G ε α) (Drawing.lift m : Drawing H ε α) :=
  fun _ => .inl ⟨0, rfl, fun _ _ => rfl⟩

theorem pure (a : α) :
    Follows cut (Pure.pure a : Drawing G ε α) (Pure.pure a : Drawing H ε α) :=
  lift (Pure.pure a)

theorem draw :
    Follows cut (Drawing.draw : Drawing G ε UInt64) (Drawing.draw : Drawing H ε UInt64) := by
  refine fun g => .inl ⟨1, rfl, fun h heq => ?_⟩
  have hdraw : (DrawSource.draw h).1 = (DrawSource.draw g).1 := (List.cons.inj heq).1
  rw [draw_apply, draw_apply, hdraw]
  rfl

/-- A step that is replayed, and then one that is. -/
theorem bind {m : Drawing G ε α} {m' : Drawing H ε α} {f : α → Drawing G ε β}
    {f' : α → Drawing H ε β} (hm : Follows cut m m') (hf : ∀ a, Follows cut (f a) (f' a)) :
    Follows cut (m >>= f) (m' >>= f') := by
  intro g
  cases hr : (m g).1.result with
  | error e =>
    rcases hm g with ⟨n, hleft, hreplay⟩ | ⟨e', he', hcut⟩
    · refine .inl ⟨n, by rw [bind_apply_of_error hr, hleft], fun h heq => ?_⟩
      have hr' : (m' h).1.result = .error e := by rw [hreplay h heq, hr]
      rw [bind_apply_of_error hr, bind_apply_of_error hr', hreplay h heq]
    · cases hr.symm.trans he'
      rw [bind_apply_of_error hr]
      exact .inr ⟨e, rfl, hcut⟩
  | ok a =>
    rcases hm g with ⟨n, hleft, hreplay⟩ | ⟨e, he, -⟩
    · rw [bind_apply_of_ok hr, hleft]
      rcases hf a (after n g) with ⟨k, hleft', hreplay'⟩ | hcut
      · refine .inl ⟨n + k, by rw [bind_apply_of_ok hr, hleft, hleft', after_add], fun h heq => ?_⟩
        obtain ⟨heq, heq'⟩ := draws_add_inj heq
        have hr' : (m' h).1.result = .ok a := by rw [hreplay h heq, hr]
        rw [bind_apply_of_ok hr, bind_apply_of_ok hr', hreplay h heq, hleft, hreplay' _ heq',
          after_add]
      · exact .inr hcut
    · cases hr.symm.trans he

/-- The same step without draws, and then one that is replayed. -/
theorem andThen (m : Logged ε α) {f : α → Drawing G ε β} {f' : α → Drawing H ε β}
    (hf : ∀ a, Follows cut (f a) (f' a)) :
    Follows cut ((Drawing.lift m : Drawing G ε α) >>= f)
      ((Drawing.lift m : Drawing H ε α) >>= f') :=
  bind (lift m) hf

/-- Nothing needs to be replayed of a failure of `cut`. -/
theorem of_fail {event : Event} {e : ε} (he : cut e) (m' : Drawing H ε α) :
    Follows cut (do .report event; .fail e : Drawing G ε α) m' := fun _ => .inr ⟨e, rfl, he⟩

/-- A run that is not cut short is replayed. -/
theorem exists_replayed {m : Drawing G ε α} {m' : Drawing H ε α} (h : Follows cut m m') {g : G}
    (hr : ∀ e, (m g).1.result = .error e → ¬cut e) : ∃ n, ReplayedAfter n m m' g := by
  rcases h g with hreplayed | ⟨e, he, hcut⟩
  · exact hreplayed
  · exact absurd hcut (hr e he)

/-- The draws that a run takes, counted by a tally, are all that a replay sees of its
generator. -/
theorem eq_of_draws_eq {m : Drawing (Tally G) ε α} {m' : Drawing H ε α} (h : Follows cut m m')
    {g : G} (hr : ∀ e, (m ⟨g, 0⟩).1.result = .error e → ¬cut e) {k : H}
    (heq : draws (m ⟨g, 0⟩).2.taken k = draws (m ⟨g, 0⟩).2.taken g) :
    m' k = ((m ⟨g, 0⟩).1, after (m ⟨g, 0⟩).2.taken k) := by
  obtain ⟨n, hleft, hreplay⟩ := h.exists_replayed hr
  rw [Tally.after_mk, Nat.zero_add] at hleft
  rw [hleft] at heq ⊢
  exact hreplay k (heq.trans (Tally.draws_mk n g 0).symm)

end Follows

end Drawing

end SymCalc
