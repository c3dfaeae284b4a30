namespace Scads.Data

/-! Tables of slots.

A key is kept in the one slot that its hash names, and a slot is never given a second
value.  What is stored therefore stays, and a lookup of a stored key finds its value.
-/

section

variable {α : Type}

structure SlotTable (α : Type) where
  empty : α
  vals : List α
deriving DecidableEq, Repr

inductive SlotFailure where
  | outside
  | occupied
deriving DecidableEq, Repr

namespace SlotTable

def new (size : Nat) (empty : α) : SlotTable α := { empty, vals := List.replicate size empty }

/-- The slot in an array, for an index that may be outside. -/
def index (table : SlotTable α) (slot : Int) : Option Nat :=
  if 0 ≤ slot ∧ slot < table.vals.length then some slot.toNat else none

def get (table : SlotTable α) (slot : Int) : Except SlotFailure α :=
  match table.index slot with
  | none => .error .outside
  | some place => .ok (table.vals.getD place table.empty)

/-- The slot holds this value. -/
structure Stores (table : SlotTable α) (slot : Int) (value : α) : Prop where
  found : table.get slot = .ok value
  taken : value ≠ table.empty

variable {table next : SlotTable α} {slot other : Int} {value stored : α}

theorem index_eq {place : Nat} (found : table.index slot = some place) :
    slot = place ∧ place < table.vals.length := by
  rw [index] at found
  split at found
  · cases found
    omega
  · cases found

/-- Different values take different slots. -/
theorem stores_few {values : List α} (distinct : values.Nodup)
    (stored : ∀ value ∈ values, ∃ slot, table.Stores slot value) :
    values.length ≤ table.vals.length := by
  refine distinct.length_le_of_subset fun value member => ?_
  obtain ⟨slot, stores⟩ := stored value member
  have found := stores.found
  rw [get] at found
  split at found
  · cases found
  · next place inside =>
      cases found
      have below := (index_eq inside).2
      rw [List.getD_eq_getElem?_getD, List.getElem?_eq_getElem below, Option.getD_some]
      exact List.getElem_mem below

variable [DecidableEq α]

def put (table : SlotTable α) (slot : Int) (value : α) : Except SlotFailure (SlotTable α) :=
  match table.index slot with
  | none => .error .outside
  | some place =>
      if table.vals.getD place table.empty ≠ table.empty then .error .occupied
      else .ok { table with vals := table.vals.set place value }

/-- A slot is filled when it lies in the table and is empty. -/
theorem put_eq (done : table.put slot value = .ok next) :
    ∃ place, table.index slot = some place ∧ table.vals.getD place table.empty = table.empty ∧
      next = { table with vals := table.vals.set place value } := by
  rw [put] at done
  split at done
  · cases done
  · next place found =>
      split at done
      · cases done
      · next free =>
          cases done
          exact ⟨place, found, Decidable.not_not.mp free, rfl⟩

theorem put_stores (done : table.put slot value = .ok next) (filled : value ≠ table.empty) :
    next.Stores slot value := by
  obtain ⟨place, found, -, rfl⟩ := put_eq done
  obtain ⟨rfl, inside⟩ := index_eq found
  refine ⟨?_, filled⟩
  simp [get, index, inside]

/-- What is stored stays. -/
theorem Stores.put (stores : table.Stores other stored) (done : table.put slot value = .ok next) :
    next.Stores other stored := by
  obtain ⟨place, found, free, rfl⟩ := put_eq done
  refine ⟨?_, stores.taken⟩
  have kept := stores.found
  rw [get] at kept ⊢
  have same : index { table with vals := table.vals.set place value } other = table.index other := by
    simp [index]
  rw [same]
  split at kept
  · cases kept
  · next elsewhere _ =>
      cases kept
      have apart : place ≠ elsewhere := by
        intro same
        subst same
        exact stores.taken free
      simp [List.getD, List.getElem?_set_ne apart]

theorem put_empty (done : table.put slot value = .ok next) : next.empty = table.empty := by
  obtain ⟨place, -, -, rfl⟩ := put_eq done
  rfl

theorem put_length (done : table.put slot value = .ok next) : next.vals.length = table.vals.length := by
  obtain ⟨place, -, -, rfl⟩ := put_eq done
  simp

theorem put_outside (low : slot < 0) : table.put slot value = .error .outside := by
  rw [put, index, if_neg (by omega)]

end SlotTable

end

end Scads.Data
