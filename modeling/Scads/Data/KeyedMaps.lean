import Mathlib.Data.List.AList
import Mathlib.Data.List.Forall2

namespace Scads.Data

/-! # Maps under two kinds of keys

Two functions give a value a key.  Where they tell the same values apart, a map under
the keys of the one does what a map under the keys of the other does.
-/

variable {V : Type u} {α : Type v} {β : Type w} {γ : Type x}

/-- The entries have the same values, and their keys are those of the same values. -/
def Alike (left : V → α) (right : V → β) (first : AList fun _ : α => γ) (second : AList fun _ : β => γ) : Prop :=
  List.Forall₂ (fun one other => (∃ value, one.1 = left value ∧ other.1 = right value) ∧ one.2 = other.2)
    first.entries second.entries

variable {left : V → α} {right : V → β} {first : AList fun _ : α => γ} {second : AList fun _ : β => γ}

theorem alike_empty : Alike left right (∅ : AList fun _ : α => γ) (∅ : AList fun _ : β => γ) := .nil

/-- A report of the entries, in which the keys stand for their values. -/
theorem Alike.map_entries {δ : Type y} {ε : Type z} (alike : Alike left right first second) {f : α → δ} {g : β → δ}
    (equal : ∀ value, left value ∈ first → f (left value) = g (right value)) (report : δ → γ → ε) :
    (first.entries.map fun entry => report (f entry.1) entry.2) =
      second.entries.map fun entry => report (g entry.1) entry.2 := by
  have entries : ∀ {ones : List (Sigma fun _ : α => γ)} {others : List (Sigma fun _ : β => γ)},
      List.Forall₂ (fun one other => (∃ value, one.1 = left value ∧ other.1 = right value) ∧ one.2 = other.2)
        ones others → (∀ one ∈ ones, one ∈ first.entries) →
      (ones.map fun entry => report (f entry.1) entry.2) = others.map fun entry => report (g entry.1) entry.2 := by
    intro ones others related within
    induction related with
    | nil => rfl
    | @cons one other ones others here _ ih =>
        obtain ⟨member, rest⟩ := List.forall_mem_cons.mp within
        obtain ⟨key, held⟩ := one
        obtain ⟨otherKey, otherHeld⟩ := other
        obtain ⟨⟨value, rfl, rfl⟩, equalHeld⟩ := here
        dsimp only at equalHeld
        subst equalHeld
        have known : left value ∈ first := List.mem_keys_of_mem member
        rw [List.map_cons, List.map_cons, ih rest, equal value known]
  exact entries alike fun _ member => member

variable [DecidableEq α] [DecidableEq β]
  (same : ∀ {one other}, left one = left other ↔ right one = right other)

include same

theorem Alike.lookup (alike : Alike left right first second) (value : V) :
    first.lookup (left value) = second.lookup (right value) := by
  have entries : ∀ {ones : List (Sigma fun _ : α => γ)} {others : List (Sigma fun _ : β => γ)},
      List.Forall₂ (fun one other => (∃ value, one.1 = left value ∧ other.1 = right value) ∧ one.2 = other.2)
        ones others → ones.dlookup (left value) = others.dlookup (right value) := by
    intro ones others related
    induction related with
    | nil => rfl
    | @cons one other ones others here _ ih =>
        obtain ⟨key, held⟩ := one
        obtain ⟨otherKey, otherHeld⟩ := other
        obtain ⟨⟨known, rfl, rfl⟩, equal⟩ := here
        dsimp only at equal
        subst equal
        by_cases found : left value = left known
        · rw [found, same.mp found, List.dlookup_cons_eq, List.dlookup_cons_eq]
        · rw [List.dlookup_cons_ne _ ⟨_, _⟩ found, List.dlookup_cons_ne _ ⟨_, _⟩ fun met => found (same.mpr met)]
          exact ih
  exact entries alike

theorem Alike.insert (alike : Alike left right first second) (value : V) (held : γ) :
    Alike left right (first.insert (left value) held) (second.insert (right value) held) := by
  have erased : ∀ {ones : List (Sigma fun _ : α => γ)} {others : List (Sigma fun _ : β => γ)},
      List.Forall₂ (fun one other => (∃ value, one.1 = left value ∧ other.1 = right value) ∧ one.2 = other.2)
        ones others →
      List.Forall₂ (fun one other => (∃ value, one.1 = left value ∧ other.1 = right value) ∧ one.2 = other.2)
        (ones.kerase (left value)) (others.kerase (right value)) := by
    intro ones others related
    induction related with
    | nil => exact .nil
    | @cons one other ones others here rest ih =>
        obtain ⟨known, oneKey, otherKey⟩ := here.1
        by_cases found : left value = left known
        · rw [List.kerase_cons_eq (found.trans oneKey.symm), List.kerase_cons_eq ((same.mp found).trans otherKey.symm)]
          exact rest
        · rw [List.kerase_cons_ne fun met => found (met.trans oneKey),
            List.kerase_cons_ne fun met => found (same.mpr (met.trans otherKey))]
          exact .cons here ih
  rw [Alike, AList.entries_insert, AList.entries_insert]
  exact .cons ⟨⟨value, rfl, rfl⟩, rfl⟩ (erased alike)

end Scads.Data
