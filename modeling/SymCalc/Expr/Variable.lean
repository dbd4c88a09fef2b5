import SymCalc.Number.Basic

/-!
# SymCalc.Expr.Variable

Variables, finite sets of variables, and bindings of values to variables.

1. A variable is its name; variables are ordered as their names are, by code
   points;
2. `Variables` is a set in its one written form, the strictly increasing list;
3. `Arguments` lists bindings, of which the first for a name counts.

Main statements: membership in what the set operations build (`mem_insert`,
`mem_union`, `mem_erase`), and look-up in bindings with one name left out
(`get?_erase`).
-/

namespace SymCalc

/-- A named variable. -/
structure Variable where
  name : String
deriving DecidableEq

namespace Variable

instance : LT Variable := ⟨fun a b => a.name < b.name⟩

instance (a b : Variable) : Decidable (a < b) := inferInstanceAs (Decidable (a.name < b.name))

/-- Variables are ordered as their names are. -/
theorem lt_trans {a b c : Variable} (h : a < b) (h' : b < c) : a < c :=
  String.lt_trans h h'

/-- Of two different variables one is smaller. -/
theorem lt_of_not_lt_of_ne {a b : Variable} (h : ¬ a < b) (hne : a ≠ b) : b < a := by
  cases a with | mk a => cases b with | mk b =>
  change ¬ a < b at h
  change b < a
  have hle : b ≤ a := String.not_lt.mp h
  refine Std.lt_of_le_of_ne hle fun e => hne ?_
  rw [e]

end Variable

/-! ## sets of variables -/

/-- A finite set of variables, as the strictly increasing list of its members. -/
structure Variables where
  toList : List Variable
  sorted : toList.Pairwise (· < ·)
deriving DecidableEq

namespace Variables

instance : Membership Variable Variables := ⟨fun s v => v ∈ s.toList⟩

instance (v : Variable) (s : Variables) : Decidable (v ∈ s) :=
  inferInstanceAs (Decidable (v ∈ s.toList))

/-- The members of a set are those of its list. -/
theorem mem_toList {v : Variable} {s : Variables} : v ∈ s.toList ↔ v ∈ s := Iff.rfl

/-- The empty set. -/
def empty : Variables := ⟨[], .nil⟩

/-- The set of one variable. -/
def singleton (v : Variable) : Variables := ⟨[v], by simp⟩

/-- The set has no member. -/
def isEmpty (s : Variables) : Bool := s.toList.isEmpty

/-- The number of members. -/
def size (s : Variables) : Nat := s.toList.length

/-- A variable put in its place of an increasing list. -/
def place (v : Variable) : List Variable → List Variable
  | [] => [v]
  | w :: ws => if v < w then v :: w :: ws else if v = w then w :: ws else w :: place v ws

/-- Placing a variable adds it to the members. -/
theorem mem_place {u v : Variable} {ws : List Variable} :
    u ∈ place v ws ↔ u = v ∨ u ∈ ws := by
  induction ws with
  | nil => simp [place]
  | cons w ws ih =>
    unfold place
    split
    · simp
    · split
      · rename_i hvw
        simp [hvw]
      · simp only [List.mem_cons, ih]
        constructor <;> rintro (h | h | h) <;> simp [h]

/-- A variable goes where it keeps the list increasing, once. -/
theorem sorted_place {v : Variable} {ws : List Variable} (h : ws.Pairwise (· < ·)) :
    (place v ws).Pairwise (· < ·) := by
  induction ws with
  | nil => simp [place]
  | cons w ws ih =>
    rw [List.pairwise_cons] at h
    unfold place
    split
    · rename_i hvw
      refine List.pairwise_cons.mpr ⟨?_, List.pairwise_cons.mpr h⟩
      intro u hu
      rcases List.mem_cons.mp hu with rfl | hu
      · exact hvw
      · exact Variable.lt_trans hvw (h.1 u hu)
    · rename_i hvw
      split
      · exact List.pairwise_cons.mpr h
      · rename_i hne
        refine List.pairwise_cons.mpr ⟨?_, ih h.2⟩
        intro u hu
        rcases mem_place.mp hu with rfl | hu
        · exact Variable.lt_of_not_lt_of_ne hvw hne
        · exact h.1 u hu

/-- The set with one more member. -/
def insert (s : Variables) (v : Variable) : Variables :=
  ⟨place v s.toList, sorted_place s.sorted⟩

/-- The members of either set. -/
def union (s t : Variables) : Variables := t.toList.foldl insert s

/-- The set without one variable. -/
def erase (s : Variables) (v : Variable) : Variables :=
  ⟨s.toList.filter (· ≠ v), s.sorted.filter _⟩

@[simp] theorem not_mem_empty (v : Variable) : ¬ v ∈ empty := by
  simp [← mem_toList, empty]

@[simp] theorem mem_singleton {v w : Variable} : v ∈ singleton w ↔ v = w := by
  simp [← mem_toList, singleton]

@[simp] theorem mem_insert {s : Variables} {v w : Variable} :
    w ∈ s.insert v ↔ w = v ∨ w ∈ s := mem_place

@[simp] theorem mem_union {s t : Variables} {v : Variable} :
    v ∈ s.union t ↔ v ∈ s ∨ v ∈ t := by
  have h : ∀ (ws : List Variable) (s : Variables),
      v ∈ ws.foldl insert s ↔ v ∈ s ∨ v ∈ ws := by
    intro ws
    induction ws with
    | nil => simp
    | cons w ws ih =>
      intro s
      rw [List.foldl_cons, ih, mem_insert, List.mem_cons]
      grind
  exact h t.toList s

@[simp] theorem mem_erase {s : Variables} {v w : Variable} :
    w ∈ s.erase v ↔ w ∈ s ∧ w ≠ v := by
  simp [← mem_toList, erase]

/-- An empty set is one without members. -/
theorem isEmpty_iff {s : Variables} : s.isEmpty = true ↔ ∀ v, ¬ v ∈ s := by
  unfold isEmpty
  rw [List.isEmpty_iff]
  constructor
  · intro h v hv
    rw [← mem_toList, h] at hv
    cases hv
  · intro h
    exact List.eq_nil_iff_forall_not_mem.mpr h

end Variables

/-! ## bindings -/

/-- Values bound to variables; the first binding of a name counts. -/
structure Arguments where
  bindings : List (Variable × Number)
deriving DecidableEq

namespace Arguments

/-- No bindings. -/
def empty : Arguments := ⟨[]⟩

/-- One binding. -/
def single (v : Variable) (x : Number) : Arguments := ⟨[(v, x)]⟩

/-- The value bound to a variable. -/
def get? (args : Arguments) (v : Variable) : Option Number := args.bindings.lookup v

/-- The bindings of all other variables. -/
def erase (args : Arguments) (v : Variable) : Arguments :=
  ⟨args.bindings.filter (·.1 ≠ v)⟩

/-- The bindings of `args`, and those of `more` for the other names. -/
def append (args more : Arguments) : Arguments := ⟨args.bindings ++ more.bindings⟩

@[simp] theorem get?_single (v w : Variable) (x : Number) :
    (single v x).get? w = if w = v then some x else none := by
  by_cases h : w = v
  · simp [get?, single, h]
  · have : (w == v) = false := beq_false_of_ne h
    simp [get?, single, List.lookup_cons, h, this]

@[simp] theorem get?_erase (args : Arguments) (v w : Variable) :
    (args.erase v).get? w = if w = v then none else args.get? w := by
  obtain ⟨bs⟩ := args
  simp only [get?, erase]
  induction bs with
  | nil => simp
  | cons b bs ih =>
    obtain ⟨u, x⟩ := b
    by_cases hu : u = v
    · subst hu
      rw [List.filter_cons_of_neg (by simp), ih]
      by_cases hw : w = u
      · simp [hw]
      · have : (w == u) = false := beq_false_of_ne hw
        simp [hw, List.lookup_cons, this]
    · rw [List.filter_cons_of_pos (by simpa using hu)]
      simp only [List.lookup_cons]
      by_cases hw : w = u
      · subst hw
        simp [hu]
      · have : (w == u) = false := beq_false_of_ne hw
        simpa [this] using ih

end Arguments

end SymCalc
