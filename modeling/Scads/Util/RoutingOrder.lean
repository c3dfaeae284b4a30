import Mathlib.Data.List.Nodup
import Scads.Util.RangeUpdates

namespace Scads.Util

open Scads.Data Scads.Comm

/-! # Tables whose comparison is an order on the keys in use

A search compares the key with start keys of the table only, so it is enough that
the comparison orders these.
-/

namespace RangeTable

variable {K V : Type} [LinearOrder K] {used : K → Prop} {table : RangeTable K V} {key : Option K}
  {before after : List (RangeType K V)} {range : RangeType K V}

/-- A key in use, or the open end of the line. -/
def InUse (used : K → Prop) (key : Option K) : Prop := ∀ known ∈ key, used known

/-- The first range starts at `None`, the start keys increase and are in use, and
the table orders the keys in use. -/
structure Arranged (used : K → Prop) (table : RangeTable K V) : Prop where
  opened : table.rTable.head?.map RangeType.startKey = some none
  ascending : Ascending RangeType.start table.rTable
  compared : AgreesOn used table.keyComp
  starts : ∀ range ∈ table.rTable, InUse used range.startKey

/-- The table with a comparison that orders all keys. -/
def ordered (table : RangeTable K V) : RangeTable K V :=
  { table with keyComp := (Comparator.threeWay K).compare }

theorem Arranged.shaped (arranged : table.Arranged used) : table.ordered.Shaped where
  opened := arranged.opened
  ascending := arranged.ascending
  compared := (Comparator.threeWay K).agrees

theorem compareStartKeys_congr {keyComp : K → K → Int} (compared : AgreesOn used keyComp)
    {left right : Option K} (known : InUse used left) (given : InUse used right) :
    (compareStartKeys keyComp left right < 0 ↔
        compareStartKeys (Comparator.threeWay K).compare left right < 0) ∧
      (compareStartKeys keyComp left right = 0 ↔
        compareStartKeys (Comparator.threeWay K).compare left right = 0) := by
  cases left with
  | none => cases right <;> exact ⟨Iff.rfl, Iff.rfl⟩
  | some left =>
      cases right with
      | none => exact ⟨Iff.rfl, Iff.rfl⟩
      | some right =>
          obtain ⟨negative, zero⟩ := compared (known left rfl) (given right rfl)
          exact ⟨negative.trans (Comparator.threeWay K).neg_iff.symm,
            zero.trans (Comparator.threeWay K).zero_iff.symm⟩

theorem Arranged.found (arranged : table.Arranged used) (given : InUse used key)
    (located : table.At key before range after) : table.Found key before range after where
  split := located.split
  opened := arranged.opened
  searched := by
    have same : table.binarySearch key = table.ordered.binarySearch key := binarySearch_congr
      fun range member => compareStartKeys_congr arranged.compared (arranged.starts range member) given
    rw [same]
    exact binarySearch_at arranged.shaped located

theorem Arranged.exists_at (arranged : table.Arranged used) (key : Option K) :
    ∃ before range after, table.At key before range after :=
  arranged.shaped.exists_at key

theorem Arranged.at_start (arranged : table.Arranged used) (split : table.rTable = before ++ range :: after) :
    table.At range.startKey before range after :=
  arranged.shaped.at_start split

/-- Where the first of these ranges starts, which is where what is before it ends. -/
def startOr (stop : Option K) : List (RangeType K V) → Option K
  | [] => stop
  | range :: _ => range.startKey

theorem isSplitKey_found {key : K} (found : table.Found (some key) before range after) :
    table.isSplitKey key = decide (range.startKey = some key) := by
  rw [isSplitKey, found.searched]
  by_cases boundary : range.startKey = some key
  · rw [if_pos boundary, if_neg, decide_eq_true boundary]
    · cases before with
      | nil =>
          have opened := found.opened
          rw [found.split] at opened
          simp [boundary] at opened
      | cons first rest => simp
    · rw [found.split]
      simp
      omega
  · rw [if_neg boundary, if_neg (by omega), decide_eq_false boundary]
    simp
    omega

/-- The first range is its own left, and an empty one stands right of the last. -/
theorem lowerUpperBound_found (found : table.Found key before range after) :
    table.lowerUpperBound key =
      .ok ⟨(before.getLast?).getD range, range, (after.head?).getD ⟨none, []⟩⟩ := by
  have center : elementAt table.rTable before.length = .ok range := by rw [found.split, elementAt_length]
  have left : elementAt table.rTable (if (before.length : Int) = 0 then 0 else before.length - 1) =
      .ok ((before.getLast?).getD range) := by
    rcases List.eq_nil_or_concat before with rfl | ⟨front, last, rfl⟩
    · simpa using center
    · have position : ((front.concat last).length : Int) - 1 = front.length := by simp
      have split : table.rTable = front ++ last :: range :: after := by simp [found.split]
      rw [if_neg (by simp; omega), position, split, elementAt_length]
      simp
  rw [lowerUpperBound, idxForKey_found found, ok_bind, left, ok_bind, center]
  dsimp only
  cases after with
  | nil =>
      rw [if_pos]
      · rfl
      · rw [found.split]
        simp
  | cons next rest =>
      have split : table.rTable = (before ++ [range]) ++ next :: rest := by simp [found.split]
      have right : elementAt table.rTable (before.length + 1) = .ok next := by
        have place := elementAt_length (before ++ [range]) next rest
        rw [← split] at place
        simpa using place
      rw [if_neg, right]
      · rfl
      · rw [found.split]
        simp
        omega

omit [LinearOrder K] in
@[simp] theorem startKey_head (after : List (RangeType K V)) :
    ((after.head?).getD ⟨none, []⟩).startKey = startOr none after := by
  cases after <;> rfl

theorem Arranged.inserted {key : K} (arranged : table.Arranged used)
    (located : table.At (some key) before range after) (inside : range.startKey ≠ some key) (given : used key)
    (left right : List V) :
    ({ table with rTable := before ++ ⟨range.startKey, left⟩ :: ⟨some key, right⟩ :: after } :
      RangeTable K V).Arranged used where
  opened := (split_shaped arranged.shaped located inside left right).opened
  ascending := (split_shaped arranged.shaped located inside left right).ascending
  compared := arranged.compared
  starts := by
    intro other member
    rcases List.mem_append.mp member with early | late
    · exact arranged.starts other (by simp [located.split, early])
    · rcases List.mem_cons.mp late with rfl | late
      · exact arranged.starts range (by simp [located.split])
      · rcases List.mem_cons.mp late with rfl | late
        · intro _ found
          cases found
          exact given
        · exact arranged.starts other (by simp [located.split, late])

theorem Arranged.joined {front : List (RangeType K V)} {left : RangeType K V}
    (arranged : table.Arranged used) (split : table.rTable = front ++ left :: range :: after)
    (values : List V) :
    ({ table with rTable := front ++ ⟨left.startKey, values⟩ :: after } : RangeTable K V).Arranged used where
  opened := (merge_shaped arranged.shaped split values).opened
  ascending := (merge_shaped arranged.shaped split values).ascending
  compared := arranged.compared
  starts := by
    intro other member
    rcases List.mem_append.mp member with early | late
    · exact arranged.starts other (by simp [split, early])
    · rcases List.mem_cons.mp late with rfl | late
      · exact arranged.starts left (by simp [split])
      · exact arranged.starts other (by simp [split, late])

theorem Arranged.updated (arranged : table.Arranged used) (located : table.At key before range after)
    (values : List V) :
    ({ table with rTable := before ++ ⟨range.startKey, values⟩ :: after } : RangeTable K V).Arranged used where
  opened := (update_shaped arranged.shaped located values).opened
  ascending := (update_shaped arranged.shaped located values).ascending
  compared := arranged.compared
  starts := by
    intro other member
    rcases List.mem_append.mp member with early | late
    · exact arranged.starts other (by simp [located.split, early])
    · rcases List.mem_cons.mp late with rfl | late
      · exact arranged.starts range (by simp [located.split])
      · exact arranged.starts other (by simp [located.split, late])

/-- No two ranges start at the same key. -/
theorem Arranged.same_start (arranged : table.Arranged used) {first second : RangeType K V}
    (member : first ∈ table.rTable) (among : second ∈ table.rTable)
    (same : first.startKey = second.startKey) : first = second := by
  have distinct : (table.rTable.map RangeType.startKey).Nodup := arranged.ascending.imp fun less => less.ne
  exact List.inj_on_of_nodup_map distinct member among same

theorem Arranged.nodup (arranged : table.Arranged used) : table.rTable.Nodup :=
  List.Nodup.of_map RangeType.start (arranged.ascending.imp fun less => less.ne)

section

omit [LinearOrder K]

theorem elementAt_ok {α : Type} {array : List α} {idx : Int} {value : α}
    (read : elementAt array idx = .ok value) :
    ∃ before after, array = before ++ value :: after ∧ idx = before.length := by
  rw [elementAt] at read
  split at read
  · rename_i found
    split at found
    · cases found
    · cases read
      obtain ⟨bound, same⟩ := List.getElem?_eq_some_iff.mp found
      refine ⟨array.take idx.toNat, array.drop (idx.toNat + 1), ?_, ?_⟩
      · rw [← same, List.getElem_cons_drop, List.take_append_drop]
      · rw [List.length_take]
        omega
  · cases read

theorem create_ok [ToString K] {rTable : List (RangeType K V)} {keyComp : K → K → Int}
    {mergeCondition : List V → List V → Bool} {created : RangeTable K V}
    (checked : create rTable keyComp mergeCondition = .ok created) : created.rTable = rTable := by
  obtain ⟨_, _, checked⟩ := bind_eq_ok.mp checked
  obtain ⟨_, _, checked⟩ := bind_eq_ok.mp checked
  obtain ⟨_, _, checked⟩ := bind_eq_ok.mp checked
  cases checked
  rfl

/-- A split puts two ranges in the place of one, whatever the comparison. -/
theorem split_ok [ToString K] {next : RangeTable K V} {key : K} {left right : List V}
    (splitted : table.split key left right = .ok (some next)) :
    ∃ before range after, table.rTable = before ++ range :: after ∧
      next.rTable = before ++ ⟨range.startKey, left⟩ :: ⟨some key, right⟩ :: after := by
  simp only [split] at splitted
  split at splitted
  · cases splitted
  · obtain ⟨range, read, splitted⟩ := bind_eq_ok.mp splitted
    obtain ⟨created, checked, same⟩ := bind_eq_ok.mp splitted
    cases same
    obtain ⟨before, after, parts, place⟩ := elementAt_ok read
    refine ⟨before, range, after, parts, ?_⟩
    rw [create_ok checked, place, Int.toNat_natCast, parts, copyWithSplit_length]

theorem split_length [ToString K] {next : RangeTable K V} {key : K} {left right : List V}
    (splitted : table.split key left right = .ok (some next)) :
    next.rTable.length = table.rTable.length + 1 := by
  obtain ⟨before, range, after, parts, result⟩ := split_ok splitted
  simp [parts, result]
  omega

/-- A merge puts one range in the place of two neighbours. -/
theorem merge_ok [ToString K] {next : RangeTable K V} {key : K} {values : List V}
    (merged : table.merge key values = .ok (some next)) :
    ∃ before left right after, table.rTable = before ++ left :: right :: after ∧
      next.rTable = before ++ ⟨left.startKey, values⟩ :: after := by
  obtain ⟨merges, checked, merged⟩ := bind_eq_ok.mp merged
  split at merged
  · rename_i allowed
    rw [allowed, checkMergeCondition] at checked
    split at checked
    · cases checked
    · obtain ⟨left, first, checked⟩ := bind_eq_ok.mp checked
      obtain ⟨right, second, _⟩ := bind_eq_ok.mp checked
      obtain ⟨before, rest, parts, place⟩ := elementAt_ok first
      obtain ⟨front, after, others, position⟩ := elementAt_ok second
      obtain ⟨range, read, merged⟩ := bind_eq_ok.mp merged
      obtain ⟨created, accepted, same⟩ := bind_eq_ok.mp merged
      cases same
      have neighbours : table.rTable = before ++ left :: right :: after := by
        have size : (before ++ [left]).length = front.length := by
          rw [List.length_append, List.length_singleton]
          omega
        have equal : (before ++ [left]) ++ rest = front ++ right :: after := by
          rw [← others, parts, List.append_assoc, List.singleton_append]
        obtain ⟨_, rfl⟩ := List.append_inj equal size
        exact parts
      have index : (table.binarySearch (some key)).toNat = before.length + 1 := by omega
      rw [index, neighbours, copyWithout_length] at read accepted
      rw [place, elementAt_length] at read
      cases read
      refine ⟨before, left, right, after, neighbours, ?_⟩
      rw [create_ok accepted, place, Int.toNat_natCast]
      simp
  · cases merged

theorem merge_length [ToString K] {next : RangeTable K V} {key : K} {values : List V}
    (merged : table.merge key values = .ok (some next)) :
    next.rTable.length + 1 = table.rTable.length := by
  obtain ⟨before, left, right, after, parts, result⟩ := merge_ok merged
  simp [parts, result]
  omega

/-- A value that is added was not in its range. -/
theorem addValueToRange_ok [ToString K] [DecidableEq V] {next : RangeTable K V} {key : Option K} {value : V}
    (added : table.addValueToRange key value = .ok next) :
    ∃ before range after, table.rTable = before ++ range :: after ∧ value ∉ range.values ∧
      next.rTable = before ++ ⟨range.startKey, value :: range.values⟩ :: after := by
  obtain ⟨idx, _, added⟩ := bind_eq_ok.mp added
  obtain ⟨range, read, added⟩ := bind_eq_ok.mp added
  obtain ⟨more, one, created⟩ := bind_eq_ok.mp added
  obtain ⟨before, after, parts, rfl⟩ := elementAt_ok read
  rw [RangeType.add] at one
  split at one
  · cases one
  · rename_i absent
    cases one
    refine ⟨before, range, after, parts, absent, ?_⟩
    rw [create_ok created, parts, Int.toNat_natCast]
    simp

/-- A value that is removed was not the only one of its range. -/
theorem removeValueFromRange_ok [ToString K] [DecidableEq V] {next : RangeTable K V} {key : Option K} {value : V}
    (removed : table.removeValueFromRange key value = .ok next) :
    ∃ before range after, table.rTable = before ++ range :: after ∧ range.values.length ≠ 1 ∧
      next.rTable = before ++ ⟨range.startKey, range.values.filter (· ≠ value)⟩ :: after := by
  obtain ⟨idx, _, removed⟩ := bind_eq_ok.mp removed
  obtain ⟨range, read, removed⟩ := bind_eq_ok.mp removed
  obtain ⟨fewer, one, created⟩ := bind_eq_ok.mp removed
  obtain ⟨before, after, parts, rfl⟩ := elementAt_ok read
  rw [RangeType.remove] at one
  split at one
  · cases one
  · rename_i more
    cases one
    refine ⟨before, range, after, parts, more, ?_⟩
    rw [create_ok created, parts, Int.toNat_natCast]
    simp

theorem lowerUpperBound_ok {startKey : Option K} {bound : RangeBound K V}
    (found : table.lowerUpperBound startKey = .ok bound) : bound.left ∈ table.rTable ∧ bound.center ∈ table.rTable := by
  obtain ⟨idx, _, found⟩ := bind_eq_ok.mp found
  obtain ⟨lower, first, found⟩ := bind_eq_ok.mp found
  obtain ⟨_, _, parts, _⟩ := elementAt_ok first
  have both : ∀ {upper}, (do return ⟨lower, ← elementAt table.rTable idx, upper⟩ : Except Failure (RangeBound K V)) =
      .ok bound → bound.left ∈ table.rTable ∧ bound.center ∈ table.rTable := by
    intro upper found
    obtain ⟨center, second, returned⟩ := bind_eq_ok.mp found
    cases returned
    obtain ⟨_, _, others, _⟩ := elementAt_ok second
    exact ⟨by simp [parts], by simp [others]⟩
  split at found
  · exact both found
  · obtain ⟨upper, _, found⟩ := bind_eq_ok.mp found
    exact both found

end

end RangeTable

end Scads.Util
