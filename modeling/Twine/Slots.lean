import Twine.Exec
import Mathlib.Data.Set.Insert
import Mathlib.Order.Bounds.Basic

/-!
# Tables of slots

A table of flags stands for the set of the numbers whose flag is up. An
allocator over the numbers below a bound takes the least one that is not in use,
and reports that it is full when there is none.
-/
namespace Slots

/-! ## Flags and sets -/

/-- The flags that are up are those of the numbers in use. -/
def Marks (table : List Bool) (used : Set Nat) : Prop := ∀ i, table[i]? = some true ↔ i ∈ used

theorem marks_replicate (n : Nat) : Marks (List.replicate n false) ∅ := by
  intro i
  simp [List.getElem?_replicate]

section Marks

variable {table : List Bool} {used : Set Nat} {i k : Nat}

theorem flag_up (hi : i < table.length) (h : table[i]? ≠ some false) : table[i]? = some true := by
  rw [List.getElem?_eq_getElem hi] at h ⊢
  simpa using h

theorem Marks.lt (h : Marks table used) (hi : i ∈ used) : i < table.length :=
  (List.getElem?_eq_some_iff.mp ((h i).mpr hi)).1

theorem Marks.free_iff (h : Marks table used) :
    table[i]? = some false ↔ i < table.length ∧ i ∉ used := by
  rw [← h i]
  constructor
  · intro hi
    exact ⟨(List.getElem?_eq_some_iff.mp hi).1, by simp [hi]⟩
  · rintro ⟨hlt, hi⟩
    rw [List.getElem?_eq_getElem hlt] at hi ⊢
    simpa using hi

theorem getElem?_set_flag {b : Bool} (hi : i < table.length) :
    (table.set i b)[k]? = if k = i then some b else table[k]? := by
  rw [List.getElem?_set]
  by_cases hk : k = i
  · subst hk
    simp [hi]
  · simp [hk, Ne.symm hk]

theorem Marks.raise (h : Marks table used) (hi : i < table.length) :
    Marks (table.set i true) (insert i used) := by
  intro k
  rw [getElem?_set_flag hi]
  by_cases hk : k = i
  · simp [hk]
  · simp [hk, h k]

theorem Marks.lower (h : Marks table used) (hi : i ∈ used) :
    Marks (table.set i false) (used \ {i}) := by
  intro k
  rw [getElem?_set_flag (h.lt hi)]
  by_cases hk : k = i
  · simp [hk]
  · simp [hk, h k]

end Marks

/-! ## The allocator of a set -/

inductive Event where
  | takes (id : Nat)
  | full
  | gives (id : Nat)
  deriving DecidableEq, Repr

/-- What happens to the numbers in use. -/
inductive Alloc (n : Nat) : Set Nat → Event → Set Nat → Prop where
  | takes {used : Set Nat} {id : Nat} : IsLeast {i | i < n ∧ i ∉ used} id →
      Alloc n used (.takes id) (insert id used)
  | full {used : Set Nat} : (∀ i < n, i ∈ used) → Alloc n used .full used
  | gives {used : Set Nat} {id : Nat} : id ∈ used → Alloc n used (.gives id) (used \ {id})

end Slots
