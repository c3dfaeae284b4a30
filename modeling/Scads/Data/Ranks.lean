import Mathlib.Data.List.Pairwise
import Scads.Data.Prefix

namespace Scads.Data

/-! # Positions in a sorted list

Where an element of a sorted list stands can be told by counting the elements before it.
-/

/-- The positions at which the predicate holds are those below its count. -/
theorem PrefixClosed.getElem_iff {α : Type u} {holds : α → Bool} {sorted : List α}
    (closed : PrefixClosed holds sorted) {index : Nat} (within : index < sorted.length) :
    holds sorted[index] = true ↔ index < sorted.countP holds := by
  induction sorted generalizing index with
  | nil => exact absurd within (Nat.not_lt_zero _)
  | cons first rest ih =>
      obtain ⟨early, closed⟩ := List.pairwise_cons.mp closed
      by_cases here : holds first = true
      · rw [List.countP_cons_of_pos here]
        cases index with
        | zero => exact iff_of_true here (Nat.succ_pos _)
        | succ index =>
            rw [List.getElem_cons_succ, ih closed (Nat.lt_of_succ_lt_succ within)]
            exact Nat.succ_lt_succ_iff.symm
      · have nowhere : ∀ element ∈ first :: rest, ¬ holds element = true := by
          intro element member
          cases List.mem_cons.mp member with
          | inl same => exact same ▸ here
          | inr later => exact fun there => here (early element later there)
        rw [List.countP_eq_zero.mpr nowhere]
        exact iff_of_false (nowhere _ (List.getElem_mem within)) (Nat.not_lt_zero _)

/-- A relation holds along the numbers below `count` if it holds for neighbours and
nothing between two numbers breaks it. -/
theorem pairwise_range_iff {related : Nat → Nat → Prop} {count : Nat}
    (skips : ∀ {first second}, first < second → second < count → related first (first + 1) → related first second) :
    (List.range count).Pairwise related ↔ ∀ first, first + 1 < count → related first (first + 1) := by
  rw [List.pairwise_iff_getElem]
  simp only [List.length_range, List.getElem_range]
  constructor
  · intro all first within
    exact all first (first + 1) (Nat.lt_of_succ_lt within) within (Nat.lt_succ_self first)
  · intro neighbours first second _ within below
    exact skips below within (neighbours first (Nat.lt_of_le_of_lt below within))

end Scads.Data
