import Mathlib.Data.List.Infix
import Scads.Data.BinarySearch
import Scads.Data.Comparator

namespace Scads.Data

/-! Ordered cells that tile a line.

Every cell reaches from its own start up to the start of the next one, so a key
lies in the last cell that starts at or before it.
-/

section

variable {α : Type u} {γ : Type v} [LinearOrder α] (start : γ → α)

def Ascending (cells : List γ) : Prop :=
  (cells.map start).Pairwise (· < ·)

/-- The cell a key lies in. -/
def cellAt (cells : List γ) (key : α) : Option γ :=
  (cells.filter fun cell => start cell ≤ key).getLast?

/-- A key lies in `cell`, with these cells to its left and to its right. -/
structure Located (cells : List γ) (key : α) (before : List γ) (cell : γ) (after : List γ) : Prop where
  split : cells = before ++ cell :: after
  reached : start cell ≤ key
  beyond : ∀ later ∈ after, key < start later

variable {start} {cells before after : List γ} {cell : γ} {key : α}

@[simp] theorem cellAt_append (cells more : List γ) (key : α) :
    cellAt start (cells ++ more) key = (cellAt start more key).or (cellAt start cells key) := by
  rw [cellAt, List.filter_append, List.getLast?_append]
  rfl

theorem cellAt_cons (cell : γ) (rest : List γ) (key : α) :
    cellAt start (cell :: rest) key =
      (cellAt start rest key).or (if start cell ≤ key then some cell else none) := by
  rw [← List.singleton_append, cellAt_append]
  by_cases reached : start cell ≤ key <;> simp [cellAt, reached]

theorem cellAt_eq_none : cellAt start cells key = none ↔ ∀ cell ∈ cells, key < start cell := by
  simp [cellAt]

theorem Located.cellAt (located : Located start cells key before cell after) :
    cellAt start cells key = some cell := by
  rw [located.split, cellAt_append, cellAt_cons, cellAt_eq_none.mpr located.beyond,
    if_pos located.reached]
  rfl

/-- Somewhere on the line every key from the first start on has its cell. -/
theorem exists_located (member : cell ∈ cells) (reached : start cell ≤ key) :
    ∃ before found after, Located start cells key before found after := by
  induction cells using List.reverseRecOn with
  | nil => cases member
  | append_singleton front last ih =>
      by_cases final : start last ≤ key
      · exact ⟨front, last, [], rfl, final, by simp⟩
      · have earlier : cell ∈ front := by
          rcases List.mem_append.mp member with front | same
          · exact front
          · rw [List.mem_singleton.mp same] at reached
            exact absurd reached final
        obtain ⟨before, found, after, split, reached, beyond⟩ := ih earlier
        refine ⟨before, found, after ++ [last], by simp [split], reached, ?_⟩
        intro later among
        rcases List.mem_append.mp among with old | new
        · exact beyond later old
        · rw [List.mem_singleton.mp new]
          exact not_le.mp final

theorem Located.length_le {others later : List γ} {other : γ}
    (located : Located start cells key before cell after)
    (reached : cells = others ++ other :: later) (starts : start other ≤ key) :
    others.length ≤ before.length := by
  by_contra longer
  have beyond : other ∈ after := by
    have place : after[others.length - before.length - 1]? = some other := by
      have whole : cells[others.length]? = some other := by simp [reached]
      rw [located.split, List.getElem?_append_right (by omega)] at whole
      obtain ⟨offset, same⟩ := Nat.exists_eq_add_of_lt (Nat.lt_of_not_le longer)
      rw [show others.length - before.length = offset + 1 by omega] at whole
      rw [show others.length - before.length - 1 = offset by omega]
      simpa using whole
    exact List.mem_of_getElem? place
  exact absurd starts (not_le.mpr (located.beyond other beyond))

theorem Located.unique {others later : List γ} {other : γ}
    (located : Located start cells key before cell after)
    (also : Located start cells key others other later) :
    before = others ∧ cell = other ∧ after = later := by
  have length : before.length = others.length :=
    Nat.le_antisymm (also.length_le located.split located.reached)
      (located.length_le also.split also.reached)
  obtain ⟨front, back⟩ := List.append_inj (located.split.symm.trans also.split) length
  exact ⟨front, List.cons.inj back⟩

theorem Located.front_le (ascending : Ascending start cells)
    (located : Located start cells key before cell after) :
    ∀ earlier ∈ before ++ [cell], start earlier ≤ key := by
  intro earlier member
  rw [Ascending, located.split, List.map_append, List.map_cons, List.pairwise_append] at ascending
  rcases List.mem_append.mp member with front | same
  · exact (ascending.2.2 _ (List.mem_map_of_mem front) _ (by simp)).le.trans located.reached
  · rw [List.mem_singleton.mp same]
    exact located.reached

/-- From the cell of one key through the cell of a later one. -/
theorem Located.through {others later : List γ} {found : γ} {last : α}
    (located : Located start cells key before cell after) (place : Located start cells last others found later)
    (forward : before.length ≤ others.length) :
    ∃ count, others ++ [found] = before ++ cell :: after.take count ∧ after.drop count = later := by
  obtain ⟨count, length⟩ := Nat.exists_eq_add_of_le forward
  refine ⟨count, ?_, ?_⟩
  · have front : cells.take (others.length + 1) = others ++ [found] := by
      simp [place.split, List.take_append]
    rw [← front, located.split, length, Nat.add_assoc, List.take_length_add_append, List.take_succ_cons]
  · have back : cells.drop (others.length + 1) = later := by
      simp [place.split, List.drop_append]
    rw [located.split, length, Nat.add_assoc, List.drop_length_add_append, List.drop_succ_cons] at back
    exact back

theorem Ascending.searchable (comparator : Comparator α) (ascending : Ascending start cells) (key : α) :
    Searchable (fun cell => comparator.compare (start cell) key) cells := by
  refine (List.pairwise_map.mp ascending).imp ?_
  intro earlier later less nonneg
  rw [Comparator.compare_nonneg] at nonneg
  exact comparator.compare_pos.mpr (nonneg.trans_lt less)

/-- The search finds the key's cell when the key is its start, and otherwise
reports the place right after it. -/
theorem Located.binarySearch (comparator : Comparator α) (ascending : Ascending start cells)
    (located : Located start cells key before cell after) :
    binarySearch (fun cell => comparator.compare (start cell) key) cells =
      if start cell = key then (before.length : Int) else -((before.length + 1 : Nat) : Int) - 1 := by
  have result := binarySearch_result (ascending.searchable comparator key)
  generalize Data.binarySearch (fun cell => comparator.compare (start cell) key) cells = reported at result
  cases result with
  | found index value at_index equal =>
      obtain ⟨bound, same⟩ := List.getElem?_eq_some_iff.mp at_index
      have exact : start value = key := comparator.compare_zero.mp equal
      have cut : cells = cells.take index ++ value :: cells.drop (index + 1) := by
        rw [← same, ← List.drop_eq_getElem_cons bound, List.take_append_drop]
      have place : Located start cells key (cells.take index) value (cells.drop (index + 1)) := by
        refine ⟨cut, exact.le, fun later member => ?_⟩
        rw [cut, Ascending, List.map_append, List.map_cons, List.pairwise_append] at ascending
        rw [← exact]
        exact (List.pairwise_cons.mp ascending.2.1).1 _ (List.mem_map_of_mem member)
      obtain ⟨rfl, rfl, rfl⟩ := located.unique place
      rw [if_pos exact, List.length_take, Nat.min_eq_left bound.le]
  | absent insertion bound below above =>
      have early : cell ∈ cells.take insertion := by
        have member : cell ∈ cells.take insertion ++ cells.drop insertion := by
          rw [List.take_append_drop, located.split]
          simp
        rcases List.mem_append.mp member with early | late
        · exact early
        · exact absurd located.reached (not_le.mpr (comparator.compare_pos.mp (above cell late)))
      have less : start cell < key := comparator.compare_neg.mp (below cell early)
      obtain ⟨front, last, cut⟩ := (List.eq_nil_or_concat _).resolve_left (List.ne_nil_of_mem early)
      rw [List.concat_eq_append] at cut
      have place : Located start cells key front last (cells.drop insertion) := by
        refine ⟨?_, (comparator.compare_neg.mp (below last (by simp [cut]))).le,
          fun later member => comparator.compare_pos.mp (above later member)⟩
        rw [← List.singleton_append, ← List.append_assoc, ← cut, List.take_append_drop]
      obtain ⟨rfl, rfl, rfl⟩ := located.unique place
      have length := congrArg List.length cut
      rw [List.length_take, Nat.min_eq_left bound, List.length_append, List.length_singleton] at length
      rw [if_neg less.ne, length]

/-- A new cell that starts inside an old one. -/
theorem Ascending.insert {left right : γ} (ascending : Ascending start cells)
    (located : Located start cells key before cell after) (same : start left = start cell)
    (inside : start cell < key) (new : start right = key) :
    Ascending start (before ++ left :: right :: after) := by
  rw [Ascending, located.split, List.map_append, List.map_cons, List.pairwise_append,
    List.pairwise_cons] at ascending
  obtain ⟨front, ⟨_, back⟩, across⟩ := ascending
  have beyond : ∀ other ∈ after.map start, key < other := by
    intro other member
    obtain ⟨later, known, rfl⟩ := List.mem_map.mp member
    exact located.beyond later known
  simp only [Ascending, List.map_append, List.map_cons, same, new, List.pairwise_append,
    List.pairwise_cons, List.mem_cons]
  refine ⟨front, ⟨?_, beyond, back⟩, ?_⟩
  · intro other found
    obtain rfl | member := found
    · exact inside
    · exact inside.trans (beyond other member)
  · intro earlier known other member
    have below := across earlier known (start cell) (by simp)
    rcases member with rfl | rfl | member
    · exact below
    · exact below.trans inside
    · exact (below.trans inside).trans (beyond other member)

/-- Outside of a block, what the block is replaced by makes no difference. -/
theorem cellAt_elsewhere {block other : List γ}
    (outside : (∃ later ∈ after, start later ≤ key) ∨
      (∀ cell ∈ block, key < start cell) ∧ ∀ cell ∈ other, key < start cell) :
    cellAt start (before ++ other ++ after) key = cellAt start (before ++ block ++ after) key := by
  rcases outside with ⟨later, member, reached⟩ | ⟨beforeBlock, beforeOther⟩
  · cases found : cellAt start after key with
    | none => exact absurd (cellAt_eq_none.mp found later member) (not_lt.mpr reached)
    | some cell => simp [found]
  · simp [cellAt_eq_none.mpr beforeBlock, cellAt_eq_none.mpr beforeOther]

end

end Scads.Data
