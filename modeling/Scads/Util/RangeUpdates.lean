import Scads.Data.Runs
import Scads.Util.RangeLookup

namespace Scads.Util

open Scads.Data Scads.Comm

/-! # What the updates of a range table mean -/

namespace RangeTable

variable {K V : Type} [LinearOrder K] {table : RangeTable K V} {key : Option K}
  {before after : List (RangeType K V)} {range : RangeType K V}

omit [LinearOrder K] in
theorem create_of_head [ToString K] {rTable : List (RangeType K V)} (keyComp : K → K → Int)
    (mergeCondition : List V → List V → Bool) (opened : rTable.head?.map RangeType.startKey = some none) :
    create rTable keyComp mergeCondition = .ok ⟨rTable, keyComp, mergeCondition⟩ := by
  cases rTable with
  | nil => simp at opened
  | cons head rest =>
      have first : head.startKey = none := by simpa using opened
      simp [create, require, elementAt, first]

omit [LinearOrder K] in
/-- The first start key survives whatever happens from one range on, as long as
that range keeps its start. -/
theorem head_replaced {before after : List (RangeType K V)} {range : RangeType K V}
    (opened : (before ++ range :: after).head?.map RangeType.startKey = some none) (values : List V)
    (others : List (RangeType K V)) :
    (before ++ ⟨range.startKey, values⟩ :: others).head?.map RangeType.startKey = some none := by
  cases before with
  | nil => simpa using opened
  | cons first rest => simpa using opened

omit [LinearOrder K] in
theorem copyWithSplit_length (before after : List (RangeType K V)) (range left right : RangeType K V) :
    copyWithSplit (before ++ range :: after) before.length left right =
      before ++ left :: right :: after := by
  have copied := arraycopy_front before (range :: after) (after.length + 2) .unset
  have moved := arraycopy_back (before ++ [range]) after (before ++ [.unset, .unset]) .unset
  have size : (before ++ range :: after).length + 1 = before.length + (after.length + 2) := by
    simp
    omega
  have rest : (before ++ range :: after).length - before.length - 1 = after.length := by simp
  simp only [List.append_assoc, List.length_append, List.length_cons, List.length_nil, List.cons_append,
    List.nil_append] at moved
  rw [copyWithSplit, size, copied, rest, List.replicate_succ, List.replicate_succ]
  cases after with
  | nil => simp
  | cons next others =>
      rw [if_pos (by simp), moved]
      simp

omit [LinearOrder K] in
theorem copyWithout_length (before after : List (RangeType K V)) (left right : RangeType K V) :
    copyWithout (before ++ left :: right :: after) (before.length + 1) = before ++ left :: after := by
  have copied := arraycopy_front (before ++ [left]) (right :: after) after.length .unset
  have moved := arraycopy_back (before ++ [left, right]) after (before ++ [left]) .unset
  have size : (before ++ left :: right :: after).length - 1 = before.length + 1 + after.length := by
    simp
    omega
  simp only [List.append_assoc, List.length_append, List.length_cons, List.length_nil, List.cons_append,
    List.nil_append] at copied moved
  rw [copyWithout, size, copied]
  cases after with
  | nil => simp
  | cons next others =>
      have rest : (before ++ left :: List.replicate (next :: others).length .unset).length -
          (before.length + 1) = (next :: others).length := by
        simp
        omega
      rw [if_pos (by simp), rest]
      exact moved

theorem Shaped.before_boundary {key : K} (shaped : table.Shaped)
    (located : table.At (some key) before range after) (boundary : range.startKey = some key) :
    ∃ front left, before = front ++ [left] := by
  rcases List.eq_nil_or_concat before with rfl | ⟨front, left, same⟩
  · have opened := shaped.opened
    rw [located.split] at opened
    simp [boundary] at opened
  · exact ⟨front, left, by rw [same, List.concat_eq_append]⟩

theorem boundary_inside {key : K} (shaped : table.Shaped)
    (located : table.At (some key) before range after) (boundary : range.startKey = some key) :
    0 < table.binarySearch (some key) ∧ table.binarySearch (some key) < table.rTable.length := by
  obtain ⟨front, left, rfl⟩ := shaped.before_boundary located boundary
  rw [binarySearch_at shaped located, if_pos boundary]
  exact ⟨by simp, located.bound⟩

theorem split_boundary [ToString K] {key : K} (shaped : table.Shaped)
    (located : table.At (some key) before range after) (boundary : range.startKey = some key)
    (leftValues rightValues : List V) : table.split key leftValues rightValues = .ok none := by
  rw [split, if_pos (boundary_inside shaped located boundary)]

theorem calcMidIdx_insertion (length : Nat) :
    calcMidIdx (-((length + 1 : Nat) : Int) - 1) = (length : Int) := by
  rw [calcMidIdx]
  omega

theorem split_found [ToString K] {key : K} (found : table.Found (some key) before range after)
    (inside : range.startKey ≠ some key) (leftValues rightValues : List V) :
    table.split key leftValues rightValues = .ok (some { table with
      rTable := before ++ ⟨range.startKey, leftValues⟩ :: ⟨some key, rightValues⟩ :: after }) := by
  have head := head_replaced (found.split ▸ found.opened) leftValues
    (⟨some key, rightValues⟩ :: after)
  rw [split, found.searched, if_neg inside, if_neg (by omega), calcMidIdx_insertion, found.split,
    elementAt_length, ok_bind, Int.toNat_natCast, copyWithSplit_length]
  simp [create_of_head _ _ head]

theorem split_inside [ToString K] {key : K} (shaped : table.Shaped)
    (located : table.At (some key) before range after) (inside : range.startKey ≠ some key)
    (leftValues rightValues : List V) :
    table.split key leftValues rightValues = .ok (some { table with
      rTable := before ++ ⟨range.startKey, leftValues⟩ :: ⟨some key, rightValues⟩ :: after }) :=
  split_found (shaped.found located) inside leftValues rightValues

theorem checkMergeCondition_inside {key : K} (found : table.Found (some key) before range after)
    (inside : range.startKey ≠ some key) :
    table.checkMergeCondition (table.binarySearch (some key)) = .ok false := by
  rw [found.searched, if_neg inside, checkMergeCondition, if_pos (by omega)]

theorem merge_inside [ToString K] {key : K} (shaped : table.Shaped)
    (located : table.At (some key) before range after) (inside : range.startKey ≠ some key)
    (values : List V) : table.merge key values = .ok none := by
  rw [merge, checkMergeCondition_inside (shaped.found located) inside]
  rfl

theorem checkMergeCondition_found {key : K} {front : List (RangeType K V)} {left : RangeType K V}
    (found : table.Found (some key) (front ++ [left]) range after) (boundary : range.startKey = some key) :
    table.checkMergeCondition (table.binarySearch (some key)) =
      .ok (table.mergeCondition left.values range.values) := by
  have split : table.rTable = front ++ left :: range :: after := by simp [found.split]
  have position : ((front ++ [left]).length : Int) - 1 = front.length := by simp
  have leftAt : elementAt table.rTable front.length = .ok left := by rw [split, elementAt_length]
  have rightAt : elementAt table.rTable (front ++ [left]).length = .ok range := by
    rw [found.split, elementAt_length]
  have bound : ¬ (((front ++ [left]).length : Int) < 0 ∨
      ((front ++ [left]).length : Int) = table.rTable.length) := by
    rw [split]
    simp
    omega
  rw [found.searched, if_pos boundary, checkMergeCondition, if_neg bound, position, leftAt, rightAt]
  rfl

theorem merge_found [ToString K] {key : K} {front : List (RangeType K V)} {left : RangeType K V}
    (found : table.Found (some key) (front ++ [left]) range after) (boundary : range.startKey = some key)
    (values : List V) :
    table.merge key values =
      if table.mergeCondition left.values range.values then
        .ok (some { table with rTable := front ++ ⟨left.startKey, values⟩ :: after })
      else .ok none := by
  have split : table.rTable = front ++ left :: range :: after := by simp [found.split]
  have head := head_replaced (split ▸ found.opened) values after
  have position : ((front ++ [left]).length : Int) - 1 = front.length := by simp
  have copied : copyWithout table.rTable (front ++ [left]).length = front ++ left :: after := by
    rw [split, List.length_append]
    exact copyWithout_length front after left range
  rw [merge, checkMergeCondition_found found boundary, found.searched, if_pos boundary, position]
  simp only [ok_bind, pure_eq_ok, Int.toNat_natCast, copied, elementAt_length]
  split
  · simp [create_of_head _ _ head]
  · rfl

theorem merge_boundary [ToString K] {key : K} {front : List (RangeType K V)} {left : RangeType K V}
    (shaped : table.Shaped) (located : table.At (some key) (front ++ [left]) range after)
    (boundary : range.startKey = some key) (values : List V) :
    table.merge key values =
      if table.mergeCondition left.values range.values then
        .ok (some { table with rTable := front ++ ⟨left.startKey, values⟩ :: after })
      else .ok none :=
  merge_found (shaped.found located) boundary values

theorem replaceValues_found [ToString K] (found : table.Found key before range after) (values : List V) :
    table.replaceValues key values =
      .ok { table with rTable := before ++ ⟨range.startKey, values⟩ :: after } := by
  have head := head_replaced (found.split ▸ found.opened) values after
  rw [replaceValues, idxForKey_found found, found.split]
  simp [create_of_head _ _ head]

theorem replaceValues_at [ToString K] (shaped : table.Shaped) (located : table.At key before range after)
    (values : List V) :
    table.replaceValues key values =
      .ok { table with rTable := before ++ ⟨range.startKey, values⟩ :: after } :=
  replaceValues_found (shaped.found located) values

theorem addValueToRange_found [ToString K] [DecidableEq V] (found : table.Found key before range after)
    (value : V) :
    table.addValueToRange key value =
      if value ∈ range.values then .error (.illegalArgument "Value already exists")
      else table.replaceValues key (value :: range.values) := by
  rw [replaceValues_found found, addValueToRange, idxForKey_found found, found.split]
  have head := head_replaced (found.split ▸ found.opened) (value :: range.values) after
  by_cases present : value ∈ range.values
  · simp [RangeType.add, present]
  · simp [RangeType.add, present, create_of_head _ _ head]

theorem removeValueFromRange_found [ToString K] [DecidableEq V]
    (found : table.Found key before range after) (value : V) :
    table.removeValueFromRange key value =
      if range.values.length = 1 then
        .error (.runtime "It is not allowed to delete the last element in a range")
      else table.replaceValues key (range.values.filter (· ≠ value)) := by
  rw [replaceValues_found found, removeValueFromRange, idxForKey_found found, found.split]
  have head := head_replaced (found.split ▸ found.opened) (range.values.filter (· ≠ value)) after
  by_cases single : range.values.length = 1
  · simp [RangeType.remove, single]
  · simp only [decide_not] at head
    simp [RangeType.remove, single, create_of_head _ _ head]

/-- `other` lies in the range that ends where the range of `key` starts. -/
def RangeLeft (table : RangeTable K V) (key other : Option K) : Prop :=
  (table.idxForKey other).map (· + 1) = table.idxForKey key

/-- The range of `key` is split there, and nothing else changes. -/
structure SplitAt (table next : RangeTable K V) (key : K) (left right : List V) : Prop where
  shaped : next.Shaped
  boundaries : ∀ other, next.IsBoundary other ↔ other = key ∨ table.IsBoundary other
  below : ∀ other, table.SameRange (some key) (some other) → other < key →
    next.valuesForKey (some other) = .ok left
  above : ∀ other, table.SameRange (some key) (some other) → key ≤ other →
    next.valuesForKey (some other) = .ok right
  elsewhere : ∀ other, ¬ table.SameRange (some key) (some other) →
    next.valuesForKey (some other) = table.valuesForKey (some other)

/-- The ranges left and right of `key` become one, and nothing else changes. -/
structure MergedAt (table next : RangeTable K V) (key : K) (values : List V) : Prop where
  shaped : next.Shaped
  boundaries : ∀ other, next.IsBoundary other ↔ other ≠ key ∧ table.IsBoundary other
  joined : ∀ other, table.SameRange (some key) (some other) ∨ table.RangeLeft (some key) (some other) →
    next.valuesForKey (some other) = .ok values
  elsewhere : ∀ other, ¬ table.SameRange (some key) (some other) →
    ¬ table.RangeLeft (some key) (some other) →
    next.valuesForKey (some other) = table.valuesForKey (some other)

/-- The range of `key` has new values, and nothing else changes. -/
structure UpdatedAt (table next : RangeTable K V) (key : Option K) (values : List V) : Prop where
  shaped : next.Shaped
  boundaries : ∀ other, next.IsBoundary other ↔ table.IsBoundary other
  inside : ∀ other, table.SameRange key (some other) → next.valuesForKey (some other) = .ok values
  elsewhere : ∀ other, ¬ table.SameRange key (some other) →
    next.valuesForKey (some other) = table.valuesForKey (some other)

theorem split_shaped {key : K} (shaped : table.Shaped) (located : table.At (some key) before range after)
    (inside : range.startKey ≠ some key) (left right : List V) :
    ({ table with rTable := before ++ ⟨range.startKey, left⟩ :: ⟨some key, right⟩ :: after } :
      RangeTable K V).Shaped where
  opened := head_replaced (located.split ▸ shaped.opened) left _
  ascending := shaped.ascending.insert located rfl (lt_of_le_of_ne located.reached inside) rfl
  compared := shaped.compared

theorem merge_shaped {front : List (RangeType K V)} {left : RangeType K V} (shaped : table.Shaped)
    (split : table.rTable = front ++ left :: range :: after) (values : List V) :
    ({ table with rTable := front ++ ⟨left.startKey, values⟩ :: after } : RangeTable K V).Shaped where
  opened := head_replaced (split ▸ shaped.opened) values _
  ascending := by
    have ascending := shaped.ascending
    rw [split, Ascending] at ascending
    refine ascending.sublist ?_
    simp only [List.map_append, List.map_cons]
    exact (List.Sublist.refl _).append (.cons_cons _ (.cons _ (List.Sublist.refl _)))
  compared := shaped.compared

theorem update_shaped (shaped : table.Shaped) (located : table.At key before range after)
    (values : List V) :
    ({ table with rTable := before ++ ⟨range.startKey, values⟩ :: after } : RangeTable K V).Shaped where
  opened := head_replaced (located.split ▸ shaped.opened) values _
  ascending := by
    have ascending := shaped.ascending
    rw [located.split, Ascending] at ascending
    simpa [Ascending, RangeType.start] using ascending
  compared := shaped.compared

theorem split_splitAt {key : K} (shaped : table.Shaped) (located : table.At (some key) before range after)
    (inside : range.startKey ≠ some key) (left right : List V) :
    SplitAt table { table with rTable := before ++ ⟨range.startKey, left⟩ :: ⟨some key, right⟩ :: after }
      key left right := by
  have next := split_shaped shaped located inside left right
  have less : range.start < onLine (some key) := lt_of_le_of_ne located.reached inside
  refine ⟨next, fun other => ?_, fun other same below => ?_, fun other same above => ?_,
    fun other apart => ?_⟩
  · simp only [IsBoundary, located.split, List.map_append, List.map_cons, List.mem_append, List.mem_cons,
      Option.some.injEq]
    tauto
  · obtain ⟨reached, beyond⟩ := (sameRange_iff shaped located _).mp same
    refine @valuesForKey_at _ _ _ _ (some other) before (⟨some key, right⟩ :: after) ⟨range.startKey, left⟩ next
      ⟨rfl, reached, fun later member => ?_⟩
    rcases List.mem_cons.mp member with rfl | old
    · exact WithBot.coe_lt_coe.mpr below
    · exact beyond later old
  · obtain ⟨_, beyond⟩ := (sameRange_iff shaped located _).mp same
    exact @valuesForKey_at _ _ _ _ (some other) (before ++ [⟨range.startKey, left⟩]) after ⟨some key, right⟩ next
      ⟨by simp, WithBot.coe_le_coe.mpr above, beyond⟩
  · refine valuesForKey_congr shaped next ?_
    have elsewhere := @cellAt_elsewhere _ _ _ RangeType.start before after (onLine (some other))
      [range] [⟨range.startKey, left⟩, ⟨some key, right⟩] ?_
    · simpa [located.split] using elsewhere
    · rw [sameRange_iff shaped located, not_and_or] at apart
      rcases apart with early | late
      · have before : onLine (some other) < range.start := not_le.mp early
        exact .inr (by simpa using ⟨before, before, before.trans less⟩)
      · push Not at late
        exact .inl late

/-- The keys of the range left of a boundary. -/
theorem rangeLeft_iff {key : K} {front : List (RangeType K V)} {left : RangeType K V}
    (shaped : table.Shaped) (located : table.At (some key) (front ++ [left]) range after) (other : K) :
    table.RangeLeft (some key) (some other) ↔ left.start ≤ onLine (some other) ∧
      ∀ later ∈ range :: after, onLine (some other) < later.start := by
  have split : table.rTable = front ++ left :: range :: after := by simp [located.split]
  obtain ⟨_, _, _, otherLocated⟩ := shaped.exists_at (some other)
  rw [← idxForKey_eq_iff shaped split, RangeLeft, idxForKey_at shaped located,
    idxForKey_at shaped otherLocated]
  simp [Except.map]

/-- A merge removes one boundary and keeps the others. -/
theorem isBoundary_merged {key : K} {front : List (RangeType K V)} {left : RangeType K V}
    (shaped : table.Shaped) (split : table.rTable = (front ++ [left]) ++ range :: after)
    (boundary : range.startKey = some key) (values : List V) (other : K) :
    { table with rTable := front ++ ⟨left.startKey, values⟩ :: after : RangeTable K V }.IsBoundary other ↔
      other ≠ key ∧ table.IsBoundary other := by
  have distinct : (table.rTable.map RangeType.startKey).Nodup := shaped.ascending.imp fun less => less.ne
  rw [split, List.map_append, List.map_cons, boundary, List.perm_middle.nodup_iff, List.nodup_cons] at distinct
  simp only [List.map_append, List.map_cons, List.map_nil, List.append_assoc, List.cons_append,
    List.nil_append] at distinct
  simp only [IsBoundary, split, List.map_append, List.map_cons, boundary, List.append_assoc,
    List.cons_append, List.nil_append]
  constructor
  · intro member
    refine ⟨fun same => distinct.1 (same ▸ member), ?_⟩
    rcases List.mem_append.mp member with early | late
    · exact List.mem_append_left _ early
    · rcases List.mem_cons.mp late with same | late
      · simp [same]
      · simp [late]
  · intro found
    obtain ⟨different, member⟩ := found
    rcases List.mem_append.mp member with early | late
    · exact List.mem_append_left _ early
    · rcases List.mem_cons.mp late with same | late
      · simp [same]
      · rcases List.mem_cons.mp late with same | late
        · exact absurd (Option.some.inj same) different
        · simp [late]

theorem merge_mergedAt {key : K} {front : List (RangeType K V)} {left : RangeType K V}
    (shaped : table.Shaped) (located : table.At (some key) (front ++ [left]) range after)
    (boundary : range.startKey = some key) (values : List V) :
    MergedAt table { table with rTable := front ++ ⟨left.startKey, values⟩ :: after } key values := by
  have split : table.rTable = front ++ left :: range :: after := by simp [located.split]
  have next := merge_shaped shaped split values
  have ordered : ((front ++ left :: range :: after).map RangeType.start).Pairwise (· < ·) :=
    split ▸ shaped.ascending
  rw [List.map_append, List.map_cons, List.map_cons, List.pairwise_append, List.pairwise_cons] at ordered
  have meet : left.start < range.start := ordered.2.1.1 _ List.mem_cons_self
  refine ⟨next, isBoundary_merged shaped located.split boundary values, fun other near => ?_,
    fun other apart notLeft => ?_⟩
  · have place : left.start ≤ onLine (some other) ∧
        ∀ later ∈ after, onLine (some other) < later.start := by
      rcases near with same | near
      · obtain ⟨reached, later⟩ := (sameRange_iff shaped located _).mp same
        exact ⟨meet.le.trans reached, later⟩
      · obtain ⟨reached, later⟩ := (rangeLeft_iff shaped located other).mp near
        exact ⟨reached, fun found member => later found (List.mem_cons_of_mem _ member)⟩
    exact @valuesForKey_at _ _ _ _ (some other) front after ⟨left.startKey, values⟩ next
      ⟨rfl, place.1, place.2⟩
  · refine valuesForKey_congr shaped next ?_
    have elsewhere := @cellAt_elsewhere _ _ _ RangeType.start front after (onLine (some other))
      [left, range] [⟨left.startKey, values⟩] ?_
    · simpa [split] using elsewhere
    · by_cases late : ∃ later ∈ after, later.start ≤ onLine (some other)
      · exact .inl late
      · push Not at late
        have notReached : onLine (some other) < range.start := by
          by_contra reached
          exact apart ((sameRange_iff shaped located _).mpr ⟨not_lt.mp reached, late⟩)
        have early : onLine (some other) < left.start := by
          by_contra reached
          refine notLeft ((rangeLeft_iff shaped located other).mpr ⟨not_lt.mp reached, ?_⟩)
          exact List.forall_mem_cons.mpr ⟨notReached, late⟩
        exact .inr (by simpa using ⟨⟨early, notReached⟩, early⟩)

theorem update_updatedAt (shaped : table.Shaped) (located : table.At key before range after)
    (values : List V) :
    UpdatedAt table { table with rTable := before ++ ⟨range.startKey, values⟩ :: after } key values := by
  have next := update_shaped shaped located values
  refine ⟨next, fun other => by simp [IsBoundary, located.split], fun other same => ?_,
    fun other apart => ?_⟩
  · obtain ⟨reached, beyond⟩ := (sameRange_iff shaped located _).mp same
    exact @valuesForKey_at _ _ _ _ (some other) before after ⟨range.startKey, values⟩ next
      ⟨rfl, reached, beyond⟩
  · refine valuesForKey_congr shaped next ?_
    have elsewhere := @cellAt_elsewhere _ _ _ RangeType.start before after (onLine (some other))
      [range] [⟨range.startKey, values⟩] ?_
    · simpa [located.split] using elsewhere
    · rw [sameRange_iff shaped located, not_and_or] at apart
      rcases apart with early | late
      · have before : onLine (some other) < range.start := not_le.mp early
        exact .inr (by simpa using ⟨before, before⟩)
      · push Not at late
        exact .inl late

/-- A call that makes a new table out of a table. -/
inductive Update (K V : Type) where
  | split (key : K) (leftValues rightValues : List V)
  | splitAttached (key : K) (values : List V) (leftAttached : Bool)
  | merge (key : K) (values : List V)
  | mergeDeleting (key : K) (deleteLeft : Bool)
  | addValueToRange (key : Option K) (value : V)
  | removeValueFromRange (key : Option K) (value : V)
  | replaceValues (key : Option K) (values : List V)

section

variable [ToString K] [DecidableEq V]

def apply (table : RangeTable K V) : Update K V → Except Failure (Option (RangeTable K V))
  | .split key leftValues rightValues => table.split key leftValues rightValues
  | .splitAttached key values leftAttached => table.splitAttached key values leftAttached
  | .merge key values => table.merge key values
  | .mergeDeleting key deleteLeft => table.mergeDeleting key deleteLeft
  | .addValueToRange key value => return some (← table.addValueToRange key value)
  | .removeValueFromRange key value => return some (← table.removeValueFromRange key value)
  | .replaceValues key values => return some (← table.replaceValues key values)

/-- The table a call returns, if it returns one. -/
def applied (table : RangeTable K V) (update : Update K V) : Option (RangeTable K V) :=
  match table.apply update with
  | .ok next => next
  | .error _ => none

/-- `null` exactly when refused, and otherwise a table as described. -/
def Returns (result : Except Failure (Option (RangeTable K V))) (refused : Prop)
    (described : RangeTable K V → Prop) : Prop :=
  (refused ∧ result = .ok none) ∨ (¬ refused ∧ ∃ next, result = .ok (some next) ∧ described next)

/-- A merge is refused where there is no boundary or the condition rejects it. -/
def MergeRefused (table : RangeTable K V) (key : K) : Prop :=
  ¬ table.IsBoundary key ∨ ∃ left right, table.Meet key left right ∧ table.mergeCondition left right = false

/-- What each call does to the table, read as a function from keys to values. -/
def Meaning (table : RangeTable K V) (update : Update K V)
    (result : Except Failure (Option (RangeTable K V))) : Prop :=
  match update with
  | .split key left right =>
      Returns result (table.IsBoundary key) fun next => SplitAt table next key left right
  | .splitAttached key values leftAttached =>
      ∃ old, table.valuesForKey (some key) = .ok old ∧
        Returns result (table.IsBoundary key) fun next =>
          if leftAttached then SplitAt table next key values old else SplitAt table next key old values
  | .merge key values =>
      Returns result (table.MergeRefused key) fun next => MergedAt table next key values
  | .mergeDeleting key deleteLeft =>
      Returns result (table.MergeRefused key) fun next =>
        ∃ left right, table.Meet key left right ∧
          MergedAt table next key (if deleteLeft then right else left)
  | .addValueToRange key value =>
      ∃ old, table.valuesForKey key = .ok old ∧
        if value ∈ old then result = .error (.illegalArgument "Value already exists")
        else ∃ next, result = .ok (some next) ∧ UpdatedAt table next key (value :: old)
  | .removeValueFromRange key value =>
      ∃ old, table.valuesForKey key = .ok old ∧
        if old.length = 1 then
          result = .error (.runtime "It is not allowed to delete the last element in a range")
        else ∃ next, result = .ok (some next) ∧ UpdatedAt table next key (old.filter (· ≠ value))
  | .replaceValues key values =>
      ∃ next, result = .ok (some next) ∧ UpdatedAt table next key values

omit [DecidableEq V] in
theorem split_meaning {key : K} (shaped : table.Shaped) (left right : List V) :
    Returns (table.split key left right) (table.IsBoundary key) fun next =>
      SplitAt table next key left right := by
  obtain ⟨before, range, after, located⟩ := shaped.exists_at (some key)
  rw [Returns, isBoundary_iff_at shaped located]
  by_cases boundary : range.startKey = some key
  · exact .inl ⟨boundary, split_boundary shaped located boundary left right⟩
  · exact .inr ⟨boundary, _, split_inside shaped located boundary left right,
      split_splitAt shaped located boundary left right⟩

omit [DecidableEq V] in
theorem splitAttached_eq {key : K} (shaped : table.Shaped) (values : List V) (leftAttached : Bool) :
    ∃ old, table.valuesForKey (some key) = .ok old ∧ table.splitAttached key values leftAttached =
      if leftAttached then table.split key values old else table.split key old values := by
  obtain ⟨before, range, after, located⟩ := shaped.exists_at (some key)
  refine ⟨range.values, valuesForKey_at shaped located, ?_⟩
  by_cases boundary : range.startKey = some key
  · rw [splitAttached, if_pos (boundary_inside shaped located boundary)]
    simp [split_boundary shaped located boundary]
  · rw [splitAttached, binarySearch_at shaped located, if_neg boundary, if_neg (by omega),
      calcMidIdx_insertion, located.element]
    rfl

omit [DecidableEq V] in
theorem merge_meaning {key : K} (shaped : table.Shaped) (values : List V) :
    Returns (table.merge key values) (table.MergeRefused key) fun next =>
      MergedAt table next key values := by
  obtain ⟨before, range, after, located⟩ := shaped.exists_at (some key)
  by_cases boundary : range.startKey = some key
  · obtain ⟨front, left, rfl⟩ := shaped.before_boundary located boundary
    have meet := meet_iff shaped located boundary
    have merged := merge_boundary shaped located boundary values
    have refused : table.MergeRefused key ↔ table.mergeCondition left.values range.values = false := by
      simp [MergeRefused, isBoundary_iff_at shaped located, boundary, meet]
    cases condition : table.mergeCondition left.values range.values with
    | false =>
        rw [condition] at merged
        exact .inl ⟨refused.mpr condition, merged⟩
    | true =>
        rw [condition] at merged
        exact .inr ⟨by simp [refused, condition], _, merged,
          merge_mergedAt shaped located boundary values⟩
  · exact .inl ⟨.inl (by rwa [isBoundary_iff_at shaped located]),
      merge_inside shaped located boundary values⟩

omit [DecidableEq V] in
theorem mergeDeleting_eq {key : K} (shaped : table.Shaped) (deleteLeft : Bool) :
    (¬ table.IsBoundary key ∧ table.mergeDeleting key deleteLeft = .ok none) ∨
      ∃ left right, table.Meet key left right ∧
        table.mergeDeleting key deleteLeft = table.merge key (if deleteLeft then right else left) := by
  obtain ⟨before, range, after, located⟩ := shaped.exists_at (some key)
  by_cases boundary : range.startKey = some key
  · obtain ⟨front, left, rfl⟩ := shaped.before_boundary located boundary
    refine .inr ⟨_, _, (meet_iff shaped located boundary _ _).mpr ⟨rfl, rfl⟩, ?_⟩
    have inside := boundary_inside shaped located boundary
    have previous : elementAt table.rTable (((front ++ [left]).length : Int) - 1) = .ok left := by
      have split : table.rTable = front ++ left :: range :: after := by simp [located.split]
      have position : ((front ++ [left]).length : Int) - 1 = front.length := by simp
      rw [split, position, elementAt_length]
    rw [mergeDeleting, if_neg (by omega), binarySearch_at shaped located, if_pos boundary]
    cases deleteLeft with
    | true =>
        rw [if_pos rfl, located.element]
        rfl
    | false =>
        rw [if_neg Bool.false_ne_true, previous]
        rfl
  · refine .inl ⟨by rwa [isBoundary_iff_at shaped located], ?_⟩
    rw [mergeDeleting, binarySearch_at shaped located, if_neg boundary, if_pos (by omega)]

omit [LinearOrder K] [ToString K] [DecidableEq V] in
theorem Returns.mono {result : Except Failure (Option (RangeTable K V))} {refused : Prop}
    {described other : RangeTable K V → Prop} (returns : Returns result refused described)
    (implied : ∀ next, described next → other next) : Returns result refused other :=
  returns.imp_right fun ⟨accepted, next, same, holds⟩ => ⟨accepted, next, same, implied next holds⟩

omit [LinearOrder K] [ToString K] [DecidableEq V] in
theorem Returns.described {refused : Prop} {described : RangeTable K V → Prop} {next : RangeTable K V}
    (returns : Returns (.ok (some next)) refused described) : described next := by
  rcases returns with ⟨_, null⟩ | ⟨_, other, same, holds⟩
  · cases null
  · cases same
    exact holds

omit [DecidableEq V] in
theorem replaceValues_meaning (shaped : table.Shaped) (key : Option K) (values : List V) :
    ∃ next, table.replaceValues key values = .ok next ∧ UpdatedAt table next key values := by
  obtain ⟨before, range, after, located⟩ := shaped.exists_at key
  exact ⟨_, replaceValues_at shaped located values, update_updatedAt shaped located values⟩

/-- Every call means what it should on a shaped table. -/
theorem apply_meaning (shaped : table.Shaped) (update : Update K V) :
    table.Meaning update (table.apply update) := by
  cases update with
  | split key left right => exact split_meaning shaped left right
  | splitAttached key values leftAttached =>
      obtain ⟨old, known, same⟩ := splitAttached_eq shaped values leftAttached
      refine ⟨old, known, ?_⟩
      rw [apply, same]
      cases leftAttached with
      | true => exact split_meaning shaped values old
      | false => exact split_meaning shaped old values
  | merge key values => exact merge_meaning shaped values
  | mergeDeleting key deleteLeft =>
      rcases mergeDeleting_eq shaped deleteLeft with ⟨inside, null⟩ | ⟨left, right, meet, same⟩
      · exact .inl ⟨.inl inside, null⟩
      · rw [Meaning, apply, same]
        exact (merge_meaning shaped _).mono fun _ described => ⟨left, right, meet, described⟩
  | addValueToRange key value =>
      obtain ⟨before, range, after, located⟩ := shaped.exists_at key
      refine ⟨range.values, valuesForKey_at shaped located, ?_⟩
      rw [apply, addValueToRange_found (shaped.found located)]
      obtain ⟨next, replaced, updated⟩ := replaceValues_meaning shaped key (value :: range.values)
      split
      · rfl
      · exact ⟨next, by simp [replaced], updated⟩
  | removeValueFromRange key value =>
      obtain ⟨before, range, after, located⟩ := shaped.exists_at key
      refine ⟨range.values, valuesForKey_at shaped located, ?_⟩
      rw [apply, removeValueFromRange_found (shaped.found located)]
      obtain ⟨next, replaced, updated⟩ :=
        replaceValues_meaning shaped key (range.values.filter (· ≠ value))
      split
      · rfl
      · exact ⟨next, by simp only [replaced, ok_bind, pure_eq_ok], updated⟩
  | replaceValues key values =>
      obtain ⟨next, replaced, updated⟩ := replaceValues_meaning shaped key values
      exact ⟨next, by simp [apply, replaced], updated⟩

omit [ToString K] in
theorem Meaning.shaped {update : Update K V} {next : RangeTable K V}
    (meaning : table.Meaning update (.ok (some next))) : next.Shaped := by
  cases update with
  | split key left right => exact (Returns.described meaning).shaped
  | splitAttached key values leftAttached =>
      obtain ⟨old, _, returns⟩ := meaning
      cases leftAttached with
      | true => exact (Returns.described returns).shaped
      | false => exact (Returns.described returns).shaped
  | merge key values => exact (Returns.described meaning).shaped
  | mergeDeleting key deleteLeft =>
      obtain ⟨_, _, _, merged⟩ := Returns.described meaning
      exact merged.shaped
  | addValueToRange key value =>
      obtain ⟨old, _, added⟩ := meaning
      split at added
      · cases added
      · obtain ⟨_, same, updated⟩ := added
        cases same
        exact updated.shaped
  | removeValueFromRange key value =>
      obtain ⟨old, _, removed⟩ := meaning
      split at removed
      · cases removed
      · obtain ⟨_, same, updated⟩ := removed
        cases same
        exact updated.shaped
  | replaceValues key values =>
      obtain ⟨_, same, updated⟩ := meaning
      cases same
      exact updated.shaped

theorem applied_shaped {next : RangeTable K V} {update : Update K V} (shaped : table.Shaped)
    (taken : table.applied update = some next) : next.Shaped := by
  have meaning := apply_meaning shaped update
  unfold applied at taken
  cases returned : table.apply update with
  | error failure => simp [returned] at taken
  | ok result =>
      rw [returned] at taken meaning
      cases taken
      exact meaning.shaped

/-- After any sequence of calls on a shaped table, the table is shaped and every
further call means what it should. -/
theorem updates_keep_meaning {start : RangeTable K V} {updates : List (Update K V)} (shaped : start.Shaped)
    (ran : run applied start updates = some table) :
    table.Shaped ∧ ∀ update, table.Meaning update (table.apply update) := by
  have final : table.Shaped := run_invariant
    (fun _ shaped taken => applied_shaped shaped taken) ran (fun _ _ => trivial) shaped
  exact ⟨final, apply_meaning final⟩

end

/-- One range, split twice and merged again once a value has been added. -/
theorem updates_keep_meaning_of_one_range :
    ∃ table : RangeTable Nat Nat,
      run applied ⟨[⟨none, [0]⟩], (Comparator.threeWay Nat).compare, fun left right => left.length == right.length⟩
        [.split 5 [1] [2], .split 9 [3] [4], .addValueToRange (some 7) 6, .removeValueFromRange (some 7) 3,
          .mergeDeleting 9 true] = some table ∧
      table.rTable = [⟨none, [1]⟩, ⟨some 5, [4]⟩] ∧ table.Shaped ∧
      ∀ update, table.Meaning update (table.apply update) := by
  obtain ⟨table, ran, same⟩ : ∃ table : RangeTable Nat Nat,
      run applied ⟨[⟨none, [0]⟩], (Comparator.threeWay Nat).compare, fun left right => left.length == right.length⟩
        [.split 5 [1] [2], .split 9 [3] [4], .addValueToRange (some 7) 6, .removeValueFromRange (some 7) 3,
          .mergeDeleting 9 true] = some table ∧
      table.rTable = [⟨none, [1]⟩, ⟨some 5, [4]⟩] := by
    refine ⟨_, rfl, ?_⟩
    decide
  refine ⟨table, ran, same, updates_keep_meaning ?_ ran⟩
  exact ⟨rfl, List.pairwise_singleton _ _, (Comparator.threeWay Nat).agrees⟩

end RangeTable

end Scads.Util
