import Scads.Util.RoutingOrder

namespace Scads.Util

open Scads.Data Scads.Comm

/-! # The ranges of an interval -/

namespace RangeTable

variable {K V : Type} [LinearOrder K] {table : RangeTable K V} {startKey endKey : Option K}
  {before after : List (RangeType K V)} {range : RangeType K V}

theorem valuesForRange_open (shaped : table.Shaped) (located : table.At startKey before range after) :
    table.valuesForRange startKey none = .ok (table.rTable.drop before.length) := by
  cases startKey with
  | none => simp [valuesForRange, shaped.before_none located]
  | some start => simp [valuesForRange, valuesForRange.slice, idxForKey_at shaped located]

theorem valuesForRange_closed {others later : List (RangeType K V)} {found : RangeType K V} {last : K}
    (shaped : table.Shaped) (located : table.At startKey before range after)
    (place : table.At (some last) others found later) :
    table.valuesForRange startKey (some last) =
      .ok ((table.rTable.take (others.length + 1)).drop before.length) := by
  have index := idxForKey_at shaped place
  have bound : ((others.length : Int) + 1).toNat = others.length + 1 := by omega
  cases startKey with
  | none => simp [valuesForRange, valuesForRange.slice, index, bound, shaped.before_none located]
  | some start =>
      simp [valuesForRange, valuesForRange.slice, index, bound, idxForKey_at shaped located]

/-- The interval does not end before it starts.  Without an end it has none on the right. -/
def Forward (startKey endKey : Option K) : Prop := ∀ last ∈ endKey, onLine startKey ≤ onLine (some last)

/-- The range and the closed interval have a point of the line in common. -/
def Crosses (table : RangeTable K V) (startKey endKey : Option K) (range : RangeType K V) : Prop :=
  ∃ point, onLine startKey ≤ point ∧ (∀ last ∈ endKey, point ≤ onLine (some last)) ∧
    cellAt RangeType.start table.rTable point = some range

theorem Shaped.split_unique {front back : List (RangeType K V)} (shaped : table.Shaped)
    (split : table.rTable = before ++ range :: after) (other : table.rTable = front ++ range :: back) :
    before = front ∧ after = back := by
  obtain ⟨same, -, rest⟩ := (shaped.at_start split).unique (shaped.at_start other)
  exact ⟨same, rest⟩

theorem crosses_iff (shaped : table.Shaped) (forward : Forward startKey endKey)
    (split : table.rTable = before ++ range :: after) : table.Crosses startKey endKey range ↔
      (∀ last ∈ endKey, range.start ≤ onLine (some last)) ∧ ∀ later ∈ after, onLine startKey < later.start := by
  constructor
  · intro found
    obtain ⟨point, above, below, here⟩ := found
    obtain ⟨front, found, back, located⟩ := shaped.exists_at point
    have same : some found = some range := located.cellAt.symm.trans here
    cases same
    obtain ⟨rfl, rfl⟩ := shaped.split_unique located.split split
    exact ⟨fun last final => located.reached.trans (below last final),
      fun later member => above.trans_lt (located.beyond later member)⟩
  · intro found
    obtain ⟨starts, ends⟩ := found
    have place := shaped.at_start split
    refine ⟨max (onLine startKey) range.start, le_max_left _ _,
      fun last final => max_le (forward last final) (starts last final), ?_⟩
    have located : Located RangeType.start table.rTable (max (onLine startKey) range.start) before range after :=
      ⟨split, le_max_right _ _, fun later member => max_lt (ends later member) (place.beyond later member)⟩
    exact located.cellAt

/-- From the range of a key on, the ranges end after it. -/
theorem mem_from_iff {front back : List (RangeType K V)} {cell : RangeType K V} (shaped : table.Shaped)
    (located : table.At startKey before range after) (split : table.rTable = front ++ cell :: back) :
    cell ∈ range :: after ↔ ∀ later ∈ back, onLine startKey < later.start := by
  constructor
  · intro member later among
    rcases List.mem_cons.mp member with rfl | member
    · obtain ⟨-, rfl⟩ := shaped.split_unique located.split split
      exact located.beyond later among
    · obtain ⟨others, tail, rfl⟩ := List.append_of_mem member
      have whole : table.rTable = (before ++ range :: others) ++ cell :: tail := by simp [located.split]
      obtain ⟨-, rfl⟩ := shaped.split_unique whole split
      exact located.beyond later (by simp [among])
  · intro ends
    have member : cell ∈ before ++ range :: after := by
      rw [← located.split, split]
      simp
    rcases List.mem_append.mp member with early | late
    · obtain ⟨others, tail, rfl⟩ := List.append_of_mem early
      have whole : table.rTable = others ++ cell :: (tail ++ range :: after) := by simp [located.split]
      obtain ⟨-, rfl⟩ := shaped.split_unique whole split
      exact absurd located.reached (not_le.mpr (ends range (by simp)))
    · exact late

/-- Up to the range of a key, the ranges start at or before it. -/
theorem mem_upTo_iff {cell : RangeType K V} (shaped : table.Shaped) (located : table.At startKey before range after)
    (member : cell ∈ table.rTable) : cell ∈ before ++ [range] ↔ cell.start ≤ onLine startKey := by
  constructor
  · exact located.front_le shaped.ascending cell
  · intro starts
    have whole : table.rTable = (before ++ [range]) ++ after := by simp [located.split]
    rw [whole] at member
    rcases List.mem_append.mp member with early | late
    · exact early
    · exact absurd starts (not_le.mpr (located.beyond cell late))

/-- The ranges between two bounds are those that the interval crosses. -/
theorem valuesForRange_crossed (shaped : table.Shaped) (forward : Forward startKey endKey) :
    ∃ ranges, table.valuesForRange startKey endKey = .ok ranges ∧ ranges.Sublist table.rTable ∧
      ∀ range ∈ table.rTable, range ∈ ranges ↔ table.Crosses startKey endKey range := by
  obtain ⟨before, range, after, located⟩ := shaped.exists_at startKey
  cases endKey with
  | none =>
      refine ⟨_, valuesForRange_open shaped located, List.drop_sublist _ _, fun cell member => ?_⟩
      obtain ⟨front, back, split⟩ := List.append_of_mem member
      have chosen : table.rTable.drop before.length = range :: after := by simp [located.split]
      rw [chosen, crosses_iff shaped forward split, mem_from_iff shaped located split]
      simp
  | some last =>
      obtain ⟨others, found, later, place⟩ := shaped.exists_at (some last)
      have length := place.length_le located.split (located.reached.trans (forward last rfl))
      obtain ⟨count, upTo, rest⟩ := located.through place length
      have chosen : (table.rTable.take (others.length + 1)).drop before.length = range :: after.take count := by
        have taken : table.rTable.take (others.length + 1) = others ++ [found] := by
          simp [place.split, List.take_append]
        rw [taken, upTo, List.drop_left]
      refine ⟨_, valuesForRange_closed shaped located place,
        (List.drop_sublist _ _).trans (List.take_sublist _ _), fun cell member => ?_⟩
      obtain ⟨front, back, split⟩ := List.append_of_mem member
      have starts := mem_upTo_iff shaped place member
      have ends := mem_from_iff shaped located split
      rw [chosen, crosses_iff shaped forward split, ← ends]
      simp only [Option.mem_def, Option.some.injEq, forall_eq']
      rw [← starts, upTo]
      constructor
      · intro among
        refine ⟨List.mem_append_right _ among, ?_⟩
        rcases List.mem_cons.mp among with rfl | among
        · exact List.mem_cons_self
        · exact List.mem_cons_of_mem _ (List.mem_of_mem_take among)
      · intro found
        obtain ⟨early, late⟩ := found
        rcases List.mem_append.mp early with front | among
        · have distinct : table.rTable.Nodup :=
            List.Nodup.of_map RangeType.start (shaped.ascending.imp fun less => less.ne)
          rw [located.split, List.nodup_append] at distinct
          exact absurd rfl (distinct.2.2 cell front cell late)
        · exact among

/-- What the lookups of a table return. -/
theorem lookups (shaped : table.Shaped) :
    (∀ key, ∃ before range after, table.At key before range after ∧ (key = none → before = []) ∧
        table.idxForKey key = .ok (before.length : Int) ∧ table.valuesForKey key = .ok range.values ∧
        table.lowerUpperBound key = .ok ⟨(before.getLast?).getD range, range, (after.head?).getD ⟨none, []⟩⟩) ∧
      (∀ key, table.isSplitKey key = true ↔ table.IsBoundary key) ∧
      ∀ startKey endKey, Forward startKey endKey →
        ∃ ranges, table.valuesForRange startKey endKey = .ok ranges ∧ ranges.Sublist table.rTable ∧
          ∀ range ∈ table.rTable, range ∈ ranges ↔ table.Crosses startKey endKey range := by
  refine ⟨fun key => ?_, fun key => ?_, fun startKey endKey forward => valuesForRange_crossed shaped forward⟩
  · obtain ⟨before, range, after, located⟩ := shaped.exists_at key
    refine ⟨before, range, after, located, ?_, idxForKey_at shaped located, valuesForKey_at shaped located,
      lowerUpperBound_found (shaped.found located)⟩
    intro same
    subst same
    exact shaped.before_none located
  · obtain ⟨before, range, after, located⟩ := shaped.exists_at (some key)
    rw [isSplitKey_found (shaped.found located), isBoundary_iff_at shaped located, decide_eq_true_iff]

/-- Two splits. -/
def twiceSplit : RangeTable Nat Nat :=
  ⟨[⟨none, [0]⟩, ⟨some 10, [1]⟩, ⟨some 20, [2]⟩], (Comparator.threeWay Nat).compare, fun _ _ => true⟩

theorem twiceSplit_shaped : twiceSplit.Shaped where
  opened := rfl
  ascending := by
    change [(⊥ : WithBot Nat), ((10 : Nat) : WithBot Nat), ((20 : Nat) : WithBot Nat)].Pairwise (· < ·)
    decide
  compared := (Comparator.threeWay Nat).agrees

theorem lookups_twiceSplit :
    twiceSplit.valuesForRange (some 5) (some 10) = .ok [⟨none, [0]⟩, ⟨some 10, [1]⟩] ∧
      (∀ range ∈ twiceSplit.rTable, range ∈ [⟨none, [0]⟩, ⟨some 10, [1]⟩] ↔
        twiceSplit.Crosses (some 5) (some 10) range) ∧
      ∀ key, twiceSplit.isSplitKey key = true ↔ twiceSplit.IsBoundary key := by
  have returned : twiceSplit.valuesForRange (some 5) (some 10) = .ok [⟨none, [0]⟩, ⟨some 10, [1]⟩] := by decide
  obtain ⟨-, splits, selected⟩ := lookups twiceSplit_shaped
  obtain ⟨ranges, same, -, crossed⟩ := selected (some 5) (some 10) fun last final => by
    cases final
    decide
  rw [returned] at same
  cases same
  exact ⟨returned, crossed, splits⟩

end RangeTable

end Scads.Util
