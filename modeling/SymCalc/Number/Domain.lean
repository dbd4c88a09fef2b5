/-!
# SymCalc.Number.Domain

The chain of number domains `N ⊂ N0 ⊂ Z ⊂ Q ⊂ R`, ordered by inclusion.

Main statements: `broaden` is the larger of two domains (`le_broaden_left`,
`le_broaden_right`, `broaden_eq_or`), and the broadest of a list is the member
that holds all of them (`broadest_eq_some_iff`).
-/

namespace SymCalc

/-- A number domain. -/
inductive Domain where
  /-- The positive integers, `N`. -/
  | positive
  /-- The integers from zero on, `N0`. -/
  | natural
  /-- All integers, `Z`. -/
  | integer
  /-- The rationals, `Q`. -/
  | rational
  /-- The reals, `R`. -/
  | real
deriving DecidableEq

namespace Domain

/-- The place of a domain in the chain. -/
def rank : Domain → Nat
  | positive => 0
  | natural => 1
  | integer => 2
  | rational => 3
  | real => 4

instance : LE Domain := ⟨fun a b => a.rank ≤ b.rank⟩

instance (a b : Domain) : Decidable (a ≤ b) := inferInstanceAs (Decidable (a.rank ≤ b.rank))

/-- The narrowest domain that contains both. -/
def broaden (a b : Domain) : Domain := if a ≤ b then b else a

/-- The narrowest domain that contains every one of a list; none for no domain
at all. -/
def broadest : List Domain → Option Domain
  | [] => none
  | d :: ds => some (ds.foldl broaden d)

/-- Values of the domain are represented without rounding. -/
def isExact (d : Domain) : Bool := d ≠ real

/-- The symbol of the domain. -/
def symbol : Domain → String
  | positive => "N"
  | natural => "N0"
  | integer => "Z"
  | rational => "Q"
  | real => "R"

/-- The domain with a given symbol. -/
def ofSymbol? (s : String) : Option Domain :=
  [positive, natural, integer, rational, real].find? (·.symbol = s)

/-- The first domain is inside the broader one. -/
theorem le_broaden_left (a b : Domain) : a ≤ broaden a b := by
  cases a <;> cases b <;> decide

/-- The second domain is inside the broader one. -/
theorem le_broaden_right (a b : Domain) : b ≤ broaden a b := by
  cases a <;> cases b <;> decide

/-- The broader domain is one of the two. -/
theorem broaden_eq_or (a b : Domain) : broaden a b = a ∨ broaden a b = b := by
  unfold broaden
  split
  · exact .inr rfl
  · exact .inl rfl

protected theorem le_antisymm {a b : Domain} (hab : a ≤ b) (hba : b ≤ a) : a = b := by
  have hrank : a.rank = b.rank := Nat.le_antisymm hab hba
  cases a <;> cases b <;> first | rfl | cases hrank

protected theorem le_trans {a b c : Domain} (hab : a ≤ b) (hbc : b ≤ c) : a ≤ c :=
  Nat.le_trans hab hbc

/-- Broadening step by step ends at one of the domains on the way. -/
theorem foldl_broaden_mem (a : Domain) (ds : List Domain) : ds.foldl broaden a ∈ a :: ds := by
  induction ds generalizing a with
  | nil => exact List.mem_cons_self
  | cons b ds ih =>
    rcases List.mem_cons.mp (ih (broaden a b)) with h | h
    · rw [List.foldl_cons, h]
      rcases broaden_eq_or a b with hab | hab
      · simp [hab]
      · simp [hab]
    · exact List.mem_cons_of_mem _ (List.mem_cons_of_mem _ h)

/-- It ends at one that holds all of them. -/
theorem le_foldl_broaden {a c : Domain} {ds : List Domain} (h : c ∈ a :: ds) :
    c ≤ ds.foldl broaden a := by
  induction ds generalizing a c with
  | nil =>
    rw [List.mem_singleton.mp h]
    exact Nat.le_refl _
  | cons b ds ih =>
    have hbroad : broaden a b ≤ ds.foldl broaden (broaden a b) := ih List.mem_cons_self
    rcases List.mem_cons.mp h with rfl | h
    · exact Domain.le_trans (le_broaden_left _ _) hbroad
    · rcases List.mem_cons.mp h with rfl | h
      · exact Domain.le_trans (le_broaden_right _ _) hbroad
      · exact ih (List.mem_cons_of_mem _ h)

/-- The broadest of a list is the member that holds all of them. -/
theorem broadest_eq_some_iff {ds : List Domain} {d : Domain} :
    broadest ds = some d ↔ d ∈ ds ∧ ∀ c ∈ ds, c ≤ d := by
  cases ds with
  | nil => exact iff_of_false (by simp [broadest]) (by simp)
  | cons a ds =>
    have hfold : broadest (a :: ds) = some (ds.foldl broaden a) := rfl
    rw [hfold, Option.some_inj]
    constructor
    · rintro rfl
      exact ⟨foldl_broaden_mem a ds, fun c hc => le_foldl_broaden hc⟩
    · rintro ⟨hmem, hle⟩
      exact Domain.le_antisymm (hle _ (foldl_broaden_mem a ds)) (le_foldl_broaden hmem)

end Domain

end SymCalc
