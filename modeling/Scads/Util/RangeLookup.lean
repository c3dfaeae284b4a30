import Scads.Util.RangeTable

namespace Scads.Util

open Scads.Data Scads.Comm

/-! # Finding the range of a key -/

namespace RangeTable

variable {K V : Type} [LinearOrder K] {table : RangeTable K V} {key : Option K}
  {before after : List (RangeType K V)} {range : RangeType K V}

/-- The first range starts at `None`, and the start keys increase in the order that
the table compares keys by. -/
structure Shaped (table : RangeTable K V) : Prop where
  opened : table.rTable.head?.map RangeType.startKey = some none
  ascending : Ascending RangeType.start table.rTable
  compared : Agrees table.keyComp

/-- The key lies in `range`, between these other ranges. -/
def At (table : RangeTable K V) (key : Option K) (before : List (RangeType K V))
    (range : RangeType K V) (after : List (RangeType K V)) : Prop :=
  Located RangeType.start table.rTable (onLine key) before range after

theorem Shaped.exists_at (shaped : table.Shaped) (key : Option K) :
    ∃ before range after, table.At key before range after := by
  obtain ⟨first, located, opened⟩ := Option.map_eq_some_iff.mp shaped.opened
  refine exists_located (List.mem_of_mem_head? located) (?_ : first.start ≤ _)
  rw [RangeType.start, opened]
  exact bot_le

omit [LinearOrder K] in
@[simp] theorem elementAt_length (before : List (RangeType K V)) (range : RangeType K V)
    (after : List (RangeType K V)) : elementAt (before ++ range :: after) before.length = .ok range := by
  have nonneg : ¬ (before.length : Int) < 0 := by omega
  simp [elementAt, nonneg]

theorem At.element (located : table.At key before range after) :
    elementAt table.rTable before.length = .ok range := by
  rw [located.split, elementAt_length]

theorem At.bound (located : table.At key before range after) :
    (before.length : Int) < table.rTable.length := by
  rw [located.split, List.length_append, List.length_cons]
  omega

theorem binarySearch_at (shaped : table.Shaped) (located : table.At key before range after) :
    table.binarySearch key =
      if range.startKey = key then (before.length : Int) else -((before.length + 1 : Nat) : Int) - 1 :=
  Located.binarySearch (startKeyComparator shaped.compared.comparator) shaped.ascending located

/-- The search of the table reports this range for the key. -/
structure Found (table : RangeTable K V) (key : Option K) (before : List (RangeType K V))
    (range : RangeType K V) (after : List (RangeType K V)) : Prop where
  split : table.rTable = before ++ range :: after
  opened : table.rTable.head?.map RangeType.startKey = some none
  searched : table.binarySearch key =
    if range.startKey = key then (before.length : Int) else -((before.length + 1 : Nat) : Int) - 1

theorem Shaped.found (shaped : table.Shaped) (located : table.At key before range after) :
    table.Found key before range after :=
  ⟨located.split, shaped.opened, binarySearch_at shaped located⟩

theorem idxForKey_found (found : table.Found key before range after) :
    table.idxForKey key = .ok (before.length : Int) := by
  have bound : (before.length : Int) < table.rTable.length := by
    rw [found.split, List.length_append, List.length_cons]
    omega
  rw [idxForKey, found.searched]
  by_cases boundary : range.startKey = key
  · rw [if_pos boundary, if_neg (by omega), if_pos bound]
  · rw [if_neg boundary, if_pos (by omega), calcMidIdx]
    congr 1
    omega

theorem idxForKey_at (shaped : table.Shaped) (located : table.At key before range after) :
    table.idxForKey key = .ok (before.length : Int) :=
  idxForKey_found (shaped.found located)

theorem valuesForKey_at (shaped : table.Shaped) (located : table.At key before range after) :
    table.valuesForKey key = .ok range.values := by
  rw [valuesForKey, idxForKey_at shaped located, located.split]
  simp

/-- The keys of the range at a position. -/
theorem idxForKey_eq_iff (shaped : table.Shaped) (split : table.rTable = before ++ range :: after) :
    table.idxForKey key = .ok (before.length : Int) ↔
      range.start ≤ key ∧ ∀ later ∈ after, onLine key < later.start := by
  obtain ⟨others, found, later, located⟩ := shaped.exists_at key
  rw [idxForKey_at shaped located]
  constructor
  · intro same
    have length : others.length = before.length := Int.ofNat_inj.mp (Except.ok.inj same)
    obtain ⟨rfl, rest⟩ := List.append_inj (located.split.symm.trans split) length
    obtain ⟨rfl, rfl⟩ := List.cons.inj rest
    exact ⟨located.reached, located.beyond⟩
  · intro ⟨reached, beyond⟩
    obtain ⟨rfl, _⟩ := located.unique (⟨split, reached, beyond⟩ : Located _ _ _ before range after)
    rfl

def IsBoundary (table : RangeTable K V) (key : K) : Prop :=
  some key ∈ table.rTable.map RangeType.startKey

def SameRange (table : RangeTable K V) (key other : Option K) : Prop :=
  table.idxForKey other = table.idxForKey key

/-- A range contains the key it starts at. -/
theorem Shaped.at_start (shaped : table.Shaped) (split : table.rTable = before ++ range :: after) :
    table.At range.startKey before range after := by
  have ascending := shaped.ascending
  rw [split, Ascending, List.map_append, List.map_cons, List.pairwise_append] at ascending
  exact ⟨split, le_refl _,
    fun later known => (List.pairwise_cons.mp ascending.2.1).1 _ (List.mem_map_of_mem known)⟩

theorem Shaped.before_none (shaped : table.Shaped) (located : table.At none before range after) :
    before = [] := by
  obtain ⟨first, head, opened⟩ := Option.map_eq_some_iff.mp shaped.opened
  obtain ⟨rest, split⟩ := List.head?_eq_some_iff.mp head
  have place := shaped.at_start (show table.rTable = [] ++ first :: rest from split)
  rw [opened] at place
  exact (located.unique place).1

theorem isBoundary_iff_at {key : K} (shaped : table.Shaped)
    (located : table.At (some key) before range after) :
    table.IsBoundary key ↔ range.startKey = some key := by
  constructor
  · intro boundary
    obtain ⟨other, member, starts⟩ := List.mem_map.mp boundary
    obtain ⟨others, later, split⟩ := List.append_of_mem member
    have place := shaped.at_start split
    rw [starts] at place
    obtain ⟨_, rfl, _⟩ := located.unique place
    exact starts
  · intro starts
    rw [IsBoundary, located.split, ← starts]
    simp

theorem sameRange_iff (shaped : table.Shaped) (located : table.At key before range after)
    (other : Option K) : table.SameRange key other ↔
      range.start ≤ other ∧ ∀ later ∈ after, onLine other < later.start := by
  rw [SameRange, idxForKey_at shaped located]
  exact idxForKey_eq_iff shaped located.split

/-- Two shaped tables that find the same range for a key give it the same values. -/
theorem valuesForKey_congr {next : RangeTable K V} (shaped : table.Shaped) (nextShaped : next.Shaped)
    {key : Option K} (same : cellAt RangeType.start next.rTable (onLine key) =
      cellAt RangeType.start table.rTable (onLine key)) :
    next.valuesForKey key = table.valuesForKey key := by
  obtain ⟨_, range, _, located⟩ := shaped.exists_at key
  obtain ⟨_, found, _, nextLocated⟩ := nextShaped.exists_at key
  have equal : some found = some range := by
    rw [← nextLocated.cellAt, ← located.cellAt, same]
  cases equal
  rw [valuesForKey_at shaped located, valuesForKey_at nextShaped nextLocated]

/-- The values attached to the left and to the right of a boundary. -/
def Meet (table : RangeTable K V) (key : K) (left right : List V) : Prop :=
  ∃ before after leftKey,
    table.rTable = before ++ ⟨leftKey, left⟩ :: ⟨some key, right⟩ :: after

omit [LinearOrder K] in
theorem Meet.isBoundary {key : K} {left right : List V} (meet : table.Meet key left right) :
    table.IsBoundary key := by
  obtain ⟨before, after, leftKey, split⟩ := meet
  simp [IsBoundary, split]

/-- What meets at the boundary of a located key. -/
theorem meet_iff {key : K} {front : List (RangeType K V)} {leftRange : RangeType K V}
    (shaped : table.Shaped) (located : table.At (some key) (front ++ [leftRange]) range after)
    (boundary : range.startKey = some key) (left right : List V) :
    table.Meet key left right ↔ left = leftRange.values ∧ right = range.values := by
  constructor
  · intro found
    obtain ⟨others, later, leftKey, split⟩ := found
    have other : table.rTable = (others ++ [⟨leftKey, left⟩]) ++ ⟨some key, right⟩ :: later := by
      simp [split]
    obtain ⟨front, rfl, _⟩ := located.unique (shaped.at_start other)
    obtain ⟨_, same⟩ := List.append_inj' front rfl
    cases same
    exact ⟨rfl, rfl⟩
  · intro found
    obtain ⟨rfl, rfl⟩ := found
    refine ⟨front, after, leftRange.startKey, ?_⟩
    rw [located.split, ← boundary]
    simp

end RangeTable

end Scads.Util
