import Mathlib.Data.List.Infix

namespace Scads.Data

/-! Cutting a list that comes in chunks.

An offset or a limit for the whole list is compared with the same one applied to
every chunk, or to the first chunk only.
-/

section

variable {α : Type u}

theorem length_flatMap_drop_le (chunks : List (List α)) (count : Nat) :
    (chunks.flatMap (List.drop count)).length ≤ chunks.flatten.length - count := by
  induction chunks with
  | nil => simp
  | cons chunk chunks ih =>
      simp only [List.flatMap_cons, List.flatten_cons, List.length_append, List.length_drop]
      omega

/-- Chunks that lose as much in pieces as the whole list does. -/
theorem single_chunk_of_length {chunks : List (List α)} {count : Nat} (positive : 0 < count)
    (long : count < chunks.flatten.length)
    (same : (chunks.flatMap (List.drop count)).length = chunks.flatten.length - count) :
    (chunks.filter fun chunk => !chunk.isEmpty).length ≤ 1 := by
  induction chunks with
  | nil => simp
  | cons chunk chunks ih =>
      have bound := length_flatMap_drop_le chunks count
      simp only [List.flatMap_cons, List.flatten_cons, List.length_append, List.length_drop] at long same
      cases chunk with
      | nil =>
          simp only [List.length_nil] at long same
          exact ih (by omega) (by omega)
      | cons first rest =>
          have none : chunks.flatten = [] := by
            apply List.eq_nil_of_length_eq_zero
            simp only [List.length_cons] at long same
            omega
          have empty : chunks.filter (fun chunk => !chunk.isEmpty) = [] := by
            refine List.filter_eq_nil_iff.mpr fun chunk member => ?_
            simp [List.flatten_eq_nil_iff.mp none chunk member]
          simp [empty]

/-- An offset may be applied chunk by chunk exactly when it is zero, when it skips
everything, or when at most one chunk has elements. -/
theorem flatMap_drop_eq_iff (chunks : List (List α)) (count : Nat) :
    chunks.flatMap (List.drop count) = chunks.flatten.drop count ↔
      count = 0 ∨ chunks.flatten.length ≤ count ∨
        (chunks.filter fun chunk => !chunk.isEmpty).length ≤ 1 := by
  constructor
  · intro same
    by_cases zero : count = 0
    · exact .inl zero
    · by_cases long : count < chunks.flatten.length
      · have length := congrArg List.length same
        rw [List.length_drop] at length
        exact .inr (.inr (single_chunk_of_length (Nat.pos_of_ne_zero zero) long length))
      · exact .inr (.inl (by omega))
  · intro found
    obtain rfl | short | single := found
    · exact List.flatMap_id
    · rw [List.drop_eq_nil_of_le short]
      apply List.eq_nil_of_length_eq_zero
      have bound := length_flatMap_drop_le chunks count
      omega
    · induction chunks with
      | nil => simp
      | cons chunk chunks ih =>
          cases chunk with
          | nil => simpa using ih (by simpa using single)
          | cons first rest =>
              have empty : ∀ other ∈ chunks, other = [] := by
                intro other member
                have none : chunks.filter (fun chunk => !chunk.isEmpty) = [] := by
                  apply List.eq_nil_of_length_eq_zero
                  rw [List.filter_cons_of_pos rfl, List.length_cons] at single
                  omega
                simpa using List.filter_eq_nil_iff.mp none other member
              have nothing : chunks.flatten = [] := List.flatten_eq_nil_iff.mpr empty
              have nowhere : chunks.flatMap (List.drop count) = [] := by
                refine List.flatMap_eq_nil_iff.mpr fun other member => ?_
                simp [empty other member]
              rw [List.flatMap_cons, List.flatten_cons, nothing, nowhere, List.append_nil, List.append_nil]

/-- The first chunk alone is enough under an offset and a limit exactly when it
reaches the limit or the others have nothing left after the offset. -/
theorem take_drop_append_iff (first rest : List α) (offset limit : Nat) :
    (first.drop offset).take limit = ((first ++ rest).drop offset).take limit ↔
      limit ≤ first.length - offset ∨ rest.length ≤ offset - first.length := by
  rw [List.drop_append, List.take_append, List.length_drop]
  constructor
  · intro same
    have length := congrArg List.length same
    simp only [List.length_append, List.length_take, List.length_drop] at length
    omega
  · intro found
    obtain enough | exhausted := found
    · have none : limit - (first.length - offset) = 0 := by omega
      rw [none, List.take_zero, List.append_nil]
    · rw [List.drop_eq_nil_of_le exhausted, List.take_nil, List.append_nil]

end

end Scads.Data
