import Scads.Util.RangeSelection

namespace Scads.Util

open Scads.Data Scads.Comm

/-! # Checking for an existing range -/

namespace RangeTable

variable {K V : Type} [LinearOrder K] {table : RangeTable K V} {startKey endKey : Option K}
  {before after : List (RangeType K V)} {range : RangeType K V}

/-- A range of the table starts and ends at these keys. -/
def IsRange (table : RangeTable K V) (startKey endKey : Option K) : Prop :=
  ∃ before range after, table.rTable = before ++ range :: after ∧ range.startKey = startKey ∧
    after.head?.bind RangeType.startKey = endKey

/-- The check compares a key with a range, so it accepts nothing. -/
theorem checkRange_at (shaped : table.Shaped) (located : table.At startKey before range after) :
    table.checkRange startKey endKey = .ok false := by
  have inside := located.bound
  have read := located.element
  rw [checkRange, binarySearch_at shaped located]
  by_cases boundary : range.startKey = startKey
  · rw [if_pos boundary, if_neg (by omega), if_neg (by omega), read]
    rfl
  · rw [if_neg boundary, if_pos (by omega)]

/-- `checkRange` returns, and it is right about the pairs of keys that are no range. -/
theorem checkRange_right_iff (shaped : table.Shaped) (startKey endKey : Option K) :
    (∃ checked, table.checkRange startKey endKey = .ok checked ∧
        (checked = true ↔ table.IsRange startKey endKey)) ↔ ¬ table.IsRange startKey endKey := by
  obtain ⟨before, range, after, located⟩ := shaped.exists_at startKey
  have refused : table.checkRange startKey endKey = .ok false := checkRange_at shaped located
  constructor
  · intro right isRange
    obtain ⟨checked, returned, agrees⟩ := right
    cases refused.symm.trans returned
    exact absurd (agrees.mpr isRange) Bool.false_ne_true
  · intro other
    exact ⟨false, refused, fun accepted => absurd accepted Bool.false_ne_true, fun isRange => absurd isRange other⟩

/-- The range from 10 to 20. -/
theorem inner_range_refused : twiceSplit.Shaped ∧ twiceSplit.IsRange (some 10) (some 20) ∧
    twiceSplit.checkRange (some 10) (some 20) = .ok false :=
  ⟨twiceSplit_shaped, ⟨[⟨none, [0]⟩], ⟨some 10, [1]⟩, [⟨some 20, [2]⟩], rfl, rfl, rfl⟩, by decide⟩

theorem skipped_boundary_refused : ∃ checked, twiceSplit.checkRange (some 10) none = .ok checked ∧
    (checked = true ↔ twiceSplit.IsRange (some 10) none) := by
  refine (checkRange_right_iff twiceSplit_shaped (some 10) none).mpr fun isRange => ?_
  obtain ⟨before, range, after, split, starts, ends⟩ := isRange
  have place := twiceSplit_shaped.at_start split
  rw [starts] at place
  have middle := twiceSplit_shaped.at_start
    (show twiceSplit.rTable = [⟨none, [0]⟩] ++ ⟨some 10, [1]⟩ :: [⟨some 20, [2]⟩] from rfl)
  obtain ⟨-, -, rfl⟩ := place.unique middle
  cases ends

end RangeTable

end Scads.Util
