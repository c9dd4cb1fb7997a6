/-!
Finite maps as association lists.

`set` overwrites the entry of a key that is present and appends one otherwise, so that a map built
from `empty` by `set` holds each key once. A map is known by `find?`: the two equations
`find?_set_self` and `find?_set_other` are all that its users need.
-/

namespace Scoping

/-- A finite map, written as the list of its entries in the order of their first insertion. -/
structure Assoc (K V : Type) where
  entries : List (K × V)
deriving DecidableEq

namespace Assoc

variable {K V : Type} [DecidableEq K]

def empty : Assoc K V := ⟨[]⟩

def size (m : Assoc K V) : Nat := m.entries.length

def isEmpty (m : Assoc K V) : Bool := m.size == 0

def find? (m : Assoc K V) (key : K) : Option V :=
  go m.entries
where
  go : List (K × V) → Option V
    | [] => none
    | (k, v) :: rest => if k = key then some v else go rest

def set (m : Assoc K V) (key : K) (value : V) : Assoc K V :=
  ⟨go m.entries⟩
where
  /-- The entries with the first one of the key overwritten, or a new one at the end. -/
  go : List (K × V) → List (K × V)
    | [] => [(key, value)]
    | (k, v) :: rest => if k = key then (key, value) :: rest else (k, v) :: go rest

@[simp] theorem find?_empty (key : K) : (empty : Assoc K V).find? key = none := rfl

@[simp] theorem find?_set_self (m : Assoc K V) (key : K) (value : V) :
    (m.set key value).find? key = some value := by
  unfold find? set
  induction m.entries with
  | nil => simp [set.go, find?.go]
  | cons entry rest ih =>
    obtain ⟨k, v⟩ := entry
    by_cases h : k = key
    · simp [set.go, find?.go, h]
    · simp [set.go, find?.go, h, ih]

/-- Setting a key leaves every other key as it was. -/
theorem find?_set_other (m : Assoc K V) {key other : K} (value : V) (hne : other ≠ key) :
    (m.set key value).find? other = m.find? other := by
  unfold find? set
  induction m.entries with
  | nil => simp [set.go, find?.go, hne.symm]
  | cons entry rest ih =>
    obtain ⟨k, v⟩ := entry
    by_cases h : k = key
    · subst h
      simp [set.go, find?.go, hne.symm]
    · simp [set.go, find?.go, h, ih]

theorem find?_set (m : Assoc K V) (key other : K) (value : V) :
    (m.set key value).find? other = if other = key then some value else m.find? other := by
  by_cases h : other = key
  · subst h
    simp
  · simp [h, find?_set_other]

end Assoc

end Scoping
