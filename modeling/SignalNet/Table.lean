/-!
# Tables

A table maps keys to values.  It is seen through `Table.get?`; the order of
insertion is not part of it, and lists drawn from a table are sorted.
-/

namespace SignalNet

/-- Put a member in front of the first one that it may precede. -/
def insertBy {β : Type} (le : β → β → Bool) (x : β) : List β → List β
  | [] => [x]
  | y :: rest => if le x y then x :: y :: rest else y :: insertBy le x rest

/-- The members of a list in order; equal ones keep theirs. -/
def sortBy {β : Type} (le : β → β → Bool) : List β → List β
  | [] => []
  | x :: rest => insertBy le x (sortBy le rest)

/-- A finite map, written as an association list without repeated keys. -/
structure Table (κ ν : Type) where
  entries : List (κ × ν) := []
  deriving DecidableEq, Repr

namespace Table

variable {κ ν : Type} [DecidableEq κ]

/-- The table without entries. -/
def empty : Table κ ν := ⟨[]⟩

/-- The value of a key. -/
def get? (t : Table κ ν) (k : κ) : Option ν :=
  (t.entries.find? fun e => decide (e.1 = k)).map (·.2)

/-- The key has a value. -/
def contains (t : Table κ ν) (k : κ) : Bool :=
  (t.get? k).isSome

/-- Give a key a value, in place of the one it had. -/
def insert (t : Table κ ν) (k : κ) (v : ν) : Table κ ν :=
  ⟨(k, v) :: t.entries.filter fun e => decide (e.1 ≠ k)⟩

/-- The entries in the order of their keys. -/
def sorted (t : Table κ ν) (le : κ → κ → Bool) : List (κ × ν) :=
  sortBy (fun a b => le a.1 b.1) t.entries

@[simp] theorem get?_empty (k : κ) : (empty : Table κ ν).get? k = none :=
  rfl

@[simp] theorem get?_insert_self (t : Table κ ν) (k : κ) (v : ν) :
    (t.insert k v).get? k = some v := by
  simp [get?, insert]

theorem mem_of_get? {t : Table κ ν} {k : κ} {v : ν} (h : t.get? k = some v) :
    (k, v) ∈ t.entries := by
  obtain ⟨e, he, rfl⟩ := Option.map_eq_some_iff.mp h
  have hkey : e.1 = k := by simpa using List.find?_some he
  subst hkey
  exact List.mem_of_find?_eq_some he

/-- The key of an entry has a value. -/
theorem get?_of_mem {t : Table κ ν} {k : κ} {v : ν} (h : (k, v) ∈ t.entries) :
    ∃ w, t.get? k = some w := by
  cases hfind : t.entries.find? fun e => decide (e.1 = k) with
  | some e => exact ⟨e.2, by simp [get?, hfind]⟩
  | none => exact absurd (decide_eq_true rfl) (List.find?_eq_none.mp hfind _ h)

/-- A new key displaces nothing. -/
theorem insert_of_get?_none {t : Table κ ν} {k : κ} (h : t.get? k = none) (v : ν) :
    t.insert k v = ⟨(k, v) :: t.entries⟩ := by
  have hkeep : ∀ e ∈ t.entries, decide (e.1 ≠ k) = true := by
    intro e he
    have hno := List.find?_eq_none.mp (Option.map_eq_none_iff.mp h) e he
    simpa using hno
  rw [insert, List.filter_eq_self.mpr hkeep]

/-- Inserting leaves the other keys alone. -/
theorem get?_insert_of_ne (t : Table κ ν) {k k' : κ} (v : ν) (h : k' ≠ k) :
    (t.insert k v).get? k' = t.get? k' := by
  have hkk : ¬ k = k' := fun hk => h hk.symm
  simp only [get?, insert, List.find?_cons, hkk, decide_false, List.find?_filter]
  congr 2
  funext e
  by_cases he : e.1 = k'
  · simp [he, h]
  · simp [he]

/-- What is in a table after inserting is the new entry or an old one. -/
theorem get?_insert_cases {t : Table κ ν} {k k' : κ} {v w : ν}
    (h : (t.insert k v).get? k' = some w) : k' = k ∧ v = w ∨ t.get? k' = some w := by
  by_cases hk : k' = k
  · subst hk
    rw [get?_insert_self] at h
    exact Or.inl ⟨rfl, Option.some.inj h⟩
  · rw [get?_insert_of_ne _ _ hk] at h
    exact Or.inr h

end Table

/-- Texts are ordered by their characters' code points. -/
def textLe (a b : String) : Bool :=
  decide (a ≤ b)

end SignalNet
