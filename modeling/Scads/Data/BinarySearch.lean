import Mathlib.Order.Lattice

namespace Scads.Data

/-! Binary search with negative insertion points.

`binarySearch probe values` is the search loop of `java.util.Arrays` run with a
comparison `probe` of an element against the key that is looked for.  A found
position is returned as it is; a key that is absent is reported as
`-(insertion point) - 1`.
-/

/-- The search loop on the window from `low` up to, but not including, `high`. -/
def binarySearchFrom (probe : α → Int) (values : List α) : Nat → Nat → Nat → Int
  | 0, low, _ => -(low : Int) - 1
  | fuel + 1, low, high =>
      if low < high then
        let mid := (low + high - 1) / 2
        match values[mid]? with
        | none => -(low : Int) - 1
        | some value =>
            if probe value < 0 then binarySearchFrom probe values fuel (mid + 1) high
            else if 0 < probe value then binarySearchFrom probe values fuel low mid
            else mid
      else -(low : Int) - 1

def binarySearch (probe : α → Int) (values : List α) : Int :=
  binarySearchFrom probe values values.length 0 values.length

/-- A search asks only on which side of the key an element is. -/
theorem binarySearch_congr {probe other : α → Int} {values : List α}
    (same : ∀ value ∈ values, (probe value < 0 ↔ other value < 0) ∧ (probe value = 0 ↔ other value = 0)) :
    binarySearch probe values = binarySearch other values := by
  suffices ∀ fuel low high,
      binarySearchFrom probe values fuel low high = binarySearchFrom other values fuel low high from
    this _ _ _
  intro fuel
  induction fuel with
  | zero => exact fun _ _ => rfl
  | succ fuel ih =>
      intro low high
      simp only [binarySearchFrom]
      split
      · split
        · rfl
        · rename_i value found
          obtain ⟨below, equal⟩ := same value (List.mem_of_getElem? found)
          have above : 0 < probe value ↔ 0 < other value := by omega
          simp only [below, above, ih]
      · rfl

/-- The order a search relies on: once an element is not below the key, every
later element is above it.  Strictly sorted lists have it for every key. -/
def Searchable (probe : α → Int) (values : List α) : Prop :=
  values.Pairwise fun earlier later => 0 ≤ probe earlier → 0 < probe later

/-- What a search may report. -/
inductive SearchResult (probe : α → Int) (values : List α) : Int → Prop where
  | found (index : Nat) (value : α) (at_index : values[index]? = some value)
      (equal : probe value = 0) : SearchResult probe values index
  | absent (insertion : Nat) (bound : insertion ≤ values.length)
      (below : ∀ value ∈ values.take insertion, probe value < 0)
      (above : ∀ value ∈ values.drop insertion, 0 < probe value) :
      SearchResult probe values (-(insertion : Int) - 1)

theorem Searchable.below_of_lt {probe : α → Int} {values : List α} {index : Nat} {value : α}
    (searchable : Searchable probe values) (at_index : values[index]? = some value)
    (below : probe value < 0) : ∀ earlier ∈ values.take (index + 1), probe earlier < 0 := by
  intro earlier member
  obtain ⟨position, bound, rfl⟩ := List.mem_take_iff_getElem.mp member
  obtain ⟨inside, rfl⟩ := List.getElem?_eq_some_iff.mp at_index
  rcases Nat.lt_or_eq_of_le (show position ≤ index by omega) with before | rfl
  · by_contra high
    have later := List.pairwise_iff_getElem.mp searchable position index (by omega) inside before
      (by omega)
    omega
  · exact below

theorem Searchable.above_of_gt {probe : α → Int} {values : List α} {index : Nat} {value : α}
    (searchable : Searchable probe values) (at_index : values[index]? = some value)
    (above : 0 < probe value) : ∀ later ∈ values.drop index, 0 < probe later := by
  intro later member
  obtain ⟨position, bound, rfl⟩ := List.mem_drop_iff_getElem.mp member
  obtain ⟨inside, rfl⟩ := List.getElem?_eq_some_iff.mp at_index
  rcases Nat.eq_zero_or_pos position with rfl | after
  · simpa using above
  · exact List.pairwise_iff_getElem.mp searchable index (index + position) inside (by omega)
      (by omega) (by omega)

/-- The window invariant of the loop: everything before it is below the key and
everything from its end on is above. -/
theorem binarySearchFrom_result {probe : α → Int} {values : List α} (fuel : Nat) {low high : Nat}
    (searchable : Searchable probe values) (enough : high - low ≤ fuel)
    (ordered : low ≤ high) (bound : high ≤ values.length)
    (below : ∀ value ∈ values.take low, probe value < 0)
    (above : ∀ value ∈ values.drop high, 0 < probe value) :
    SearchResult probe values (binarySearchFrom probe values fuel low high) := by
  induction fuel generalizing low high with
  | zero =>
      have closed : high = low := by omega
      subst high
      exact .absent low bound below above
  | succ fuel ih =>
      unfold binarySearchFrom
      by_cases isOpen : low < high
      · have inside : (low + high - 1) / 2 < values.length := by omega
        simp only [if_pos isOpen, List.getElem?_eq_getElem inside]
        have at_index := List.getElem?_eq_getElem inside
        by_cases under : probe values[(low + high - 1) / 2] < 0
        · rw [if_pos under]
          exact ih (by omega) (by omega) bound (searchable.below_of_lt at_index under) above
        · rw [if_neg under]
          by_cases exceeds : 0 < probe values[(low + high - 1) / 2]
          · rw [if_pos exceeds]
            exact ih (by omega) (by omega) (by omega) below (searchable.above_of_gt at_index exceeds)
          · rw [if_neg exceeds]
            exact .found _ _ at_index (by omega)
      · rw [if_neg isOpen]
        have closed : high = low := by omega
        subst high
        exact .absent low bound below above

theorem binarySearch_result {probe : α → Int} {values : List α}
    (searchable : Searchable probe values) :
    SearchResult probe values (binarySearch probe values) :=
  binarySearchFrom_result values.length searchable (by omega) (by omega) (by omega)
    (by simp) (by simp)

end Scads.Data
