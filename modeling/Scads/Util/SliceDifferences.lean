import Mathlib.Data.List.Perm.Basic
import Scads.Util.Slices

namespace Scads.Util.Slice

open Scads.Data Scads.Comm

/-! # Slice differences

Ranges taken out of a slice one after the other.
-/

variable {K : Type} [LinearOrder K]

/-- `slice` is what `Slice.apply` builds from the two ends of `span`. -/
def AppliedTo (span : Span K) (slice : Slice K) : Prop :=
  ofBounds span.lower span.upper = .ok slice

def removeAll (slice : Slice K) (removals : List (Slice K)) : Except Failure (Slice K) :=
  removals.foldlM remove slice

/-- What is left of `slice` without `removed`. -/
structure Differs (slice : Slice K) (removed : List (Span K)) (left : Slice K) : Prop where
  wellFormed : left.WellFormed
  covers_iff : ∀ key, Span.covers left.spans key ↔
    Span.covers slice.spans key ∧ ∀ span ∈ removed, ¬ span.contains key

theorem AppliedTo.made {span : Span K} {slice : Slice K} (applied : AppliedTo span slice) :
    Made span slice := by
  refine ⟨applied, ?_⟩
  by_contra improper
  rw [AppliedTo, ofBounds_improper improper] at applied
  cases applied

theorem Piece.spans_proper {slice : Slice K} (piece : Piece slice) : ∀ span ∈ slice.spans, span.Proper := by
  cases slice with
  | boundedSlice startKey endKey =>
      intro span member
      rw [spans_boundedSlice, List.mem_singleton] at member
      subst member
      intro low isLow high isHigh
      cases isLow
      cases isHigh
      exact piece
  | compositeSlice slices => exact piece.elim
  | _ => simp [spans, Span.Proper]

theorem WellFormed.spans_proper {slice : Slice K} (wellFormed : slice.WellFormed) :
    ∀ span ∈ slice.spans, span.Proper := by
  cases slice with
  | compositeSlice slices =>
      intro span member
      rw [spans_compositeSlice] at member
      obtain ⟨part, known, within⟩ := List.mem_flatMap.mp member
      exact (wellFormed part known).spans_proper span within
  | _ => exact Piece.spans_proper wellFormed

theorem Made.covers {span : Span K} {slice : Slice K} (made : Made span slice) (key : K) :
    Span.covers slice.spans key = span.contains key := by
  rw [made.spans]
  simp [Span.covers]

/-- The removals succeed one after the other, whatever shapes the slice takes on the way. -/
theorem removeAll_differs {slice : Slice K} {removed : List (Span K)} {removals : List (Slice K)}
    (wellFormed : slice.WellFormed) (applied : List.Forall₂ AppliedTo removed removals) :
    ∃ left, slice.removeAll removals = .ok left ∧ Differs slice removed left := by
  induction applied generalizing slice with
  | nil => exact ⟨slice, rfl, wellFormed, by simp⟩
  | @cons span removal removed removals applied rest ih =>
      obtain ⟨next, taken, result⟩ := remove_removed wellFormed applied.made
      obtain ⟨left, folded, differs⟩ := ih result.wellFormed
      refine ⟨left, ?_, differs.wellFormed, fun key => ?_⟩
      · rw [removeAll, List.foldlM_cons, taken, ok_bind]
        exact folded
      · rw [differs.covers_iff, result.difference.covers_iff, List.forall_mem_cons, and_assoc]

/-- Two orders of the same removals leave the same keys. -/
theorem Differs.perm {slice left : Slice K} {removed : List (Span K)} {removals others : List (Slice K)}
    (wellFormed : slice.WellFormed) (applied : List.Forall₂ AppliedTo removed removals)
    (differs : Differs slice removed left) (same : removals.Perm others) :
    ∃ other, slice.removeAll others = .ok other ∧
      ∀ key, Span.covers other.spans key ↔ Span.covers left.spans key := by
  have exchange := List.forall₂_comp_perm_eq_perm_comp_forall₂ (r := AppliedTo (K := K))
  have reordered : Relation.Comp List.Perm (List.Forall₂ AppliedTo) removed others :=
    exchange ▸ ⟨removals, applied, same⟩
  obtain ⟨moved, permuted, appliedToo⟩ := reordered
  obtain ⟨other, folded, differsToo⟩ := removeAll_differs wellFormed appliedToo
  refine ⟨other, folded, fun key => ?_⟩
  rw [differsToo.covers_iff, differs.covers_iff]
  simp only [permuted.mem_iff]

/-- Folding the removals denotes the difference of the half-open intervals. -/
theorem removeAll_denotes {start : Span K} {slice : Slice K} {removed : List (Span K)}
    {removals : List (Slice K)} (given : AppliedTo start slice)
    (applied : List.Forall₂ AppliedTo removed removals) :
    ∃ left, slice.removeAll removals = .ok left ∧
      (∀ key, Span.covers left.spans key ↔ start.contains key ∧ ∀ span ∈ removed, ¬ span.contains key) ∧
      (∀ piece ∈ left.spans, piece.Proper) ∧
      ∀ others, removals.Perm others → ∃ other, slice.removeAll others = .ok other ∧
        ∀ key, Span.covers other.spans key ↔ Span.covers left.spans key := by
  have wellFormed := given.made.piece.wellFormed
  obtain ⟨left, folded, differs⟩ := removeAll_differs wellFormed applied
  refine ⟨left, folded, fun key => ?_, differs.wellFormed.spans_proper, fun others same => ?_⟩
  · rw [differs.covers_iff, given.made.covers]
  · exact differs.perm wellFormed applied same

/-- Two ranges out of a bounded one, the second of which splits what the first left. -/
theorem removeAll_denotes_split :
    ∃ left, (Slice.boundedSlice 0 9).removeAll [.fromLeft 2, .boundedSlice 4 6] = .ok left ∧
      (∀ key : Nat, Span.covers left.spans key ↔ (⟨some 0, some 9⟩ : Span Nat).contains key ∧
        ∀ span ∈ [(⟨none, some 2⟩ : Span Nat), ⟨some 4, some 6⟩], ¬ span.contains key) ∧
      (∀ piece ∈ left.spans, piece.Proper) ∧
      ∀ others, [Slice.fromLeft 2, .boundedSlice 4 6].Perm others →
        ∃ other, (Slice.boundedSlice 0 9).removeAll others = .ok other ∧
          ∀ key, Span.covers other.spans key ↔ Span.covers left.spans key :=
  removeAll_denotes (show AppliedTo ⟨some 0, some 9⟩ _ from rfl)
    (.cons rfl (.cons rfl .nil))

end Scads.Util.Slice
