import Mathlib.Order.WithBot
import Scads.Data.ArrayCopy
import Scads.Data.Cells
import Scads.Comm.Messages

namespace Scads.Util

open Scads.Data Scads.Comm

/-! # Range tables

A table splits the key line into ranges and attaches values to each of them.  A
range starts at its `startKey`, the first one at `None`, and ends before the next.
-/

/-- A start key on the line that `None` opens. -/
abbrev onLine {K : Type} (key : Option K) : WithBot K := key

structure RangeType (K V : Type) where
  startKey : Option K
  values : List V
deriving DecidableEq, Repr

namespace RangeType

variable {K V : Type}

def start (range : RangeType K V) : WithBot K := onLine range.startKey

def add [DecidableEq V] (range : RangeType K V) (value : V) : Except Failure (RangeType K V) :=
  if value ∈ range.values then .error (.illegalArgument "Value already exists")
  else .ok ⟨range.startKey, value :: range.values⟩

def remove [DecidableEq V] (range : RangeType K V) (value : V) : Except Failure (RangeType K V) :=
  if range.values.length = 1 then
    .error (.runtime "It is not allowed to delete the last element in a range")
  else .ok ⟨range.startKey, range.values.filter (· ≠ value)⟩

/-- What a new array holds until it is written. -/
def unset : RangeType K V := ⟨none, []⟩

end RangeType

/-- The comparison of start keys that a table makes from the one of its keys. -/
def compareStartKeys {K : Type} (keyComp : K → K → Int) : Option K → Option K → Int
  | none, none => 0
  | none, some _ => -1
  | some _, none => 1
  | some left, some right => keyComp left right

def startKeyComparator {K : Type} [LinearOrder K] (keyComp : Comparator K) : Comparator (WithBot K) where
  compare := compareStartKeys keyComp.compare
  neg_iff := by
    intro left right
    cases left using WithBot.recBotCoe <;> cases right using WithBot.recBotCoe
    · exact iff_of_false (lt_irrefl (0 : Int)) (lt_irrefl _)
    · exact iff_of_true (show (-1 : Int) < 0 by decide) (WithBot.bot_lt_coe _)
    · exact iff_of_false (show ¬ (1 : Int) < 0 by decide) not_lt_bot
    · exact keyComp.compare_neg.trans WithBot.coe_lt_coe.symm
  zero_iff := by
    intro left right
    cases left using WithBot.recBotCoe <;> cases right using WithBot.recBotCoe
    · exact iff_of_true rfl rfl
    · exact iff_of_false (show (-1 : Int) ≠ 0 by decide) WithBot.bot_ne_coe
    · exact iff_of_false (show (1 : Int) ≠ 0 by decide) WithBot.coe_ne_bot
    · exact keyComp.compare_zero.trans WithBot.coe_inj.symm

def elementAt {α : Type} (array : List α) (idx : Int) : Except Failure α :=
  match if idx < 0 then none else array[idx.toNat]? with
  | some value => .ok value
  | none => .error (.indexOutOfBounds idx)

def showStartKey {K : Type} [ToString K] : Option K → String
  | none => "None"
  | some key => "Some(" ++ toString key ++ ")"

structure RangeTable (K V : Type) where
  rTable : List (RangeType K V)
  keyComp : K → K → Int
  mergeCondition : List V → List V → Bool

structure RangeBound (K V : Type) where
  left : RangeType K V
  center : RangeType K V
  right : RangeType K V

namespace RangeTable

variable {K V : Type}

/-- The constructor with its checks. -/
def create [ToString K] (rTable : List (RangeType K V)) (keyComp : K → K → Int)
    (mergeCondition : List V → List V → Bool) : Except Failure (RangeTable K V) := do
  require (0 < rTable.length) "At least the startKey (None) has to exist at any time"
  let head ← elementAt rTable 0
  require (head.startKey.isNone) ("First key has to be None, but was " ++ showStartKey head.startKey)
  return ⟨rTable, keyComp, mergeCondition⟩

def binarySearch (table : RangeTable K V) (key : Option K) : Int :=
  Data.binarySearch (fun range => compareStartKeys table.keyComp range.startKey key) table.rTable

def calcMidIdx (idx : Int) : Int := idx * -1 - 2

def idxForKey (table : RangeTable K V) (key : Option K) : Except Failure Int :=
  let bpos := table.binarySearch key
  if bpos < 0 then .ok (calcMidIdx bpos)
  else if bpos < table.rTable.length then .ok bpos
  else .error (.runtime ("A key always has to belong to a range. " ++
    "Probably the given comparison function is incorrect."))

def valuesForKey (table : RangeTable K V) (key : Option K) : Except Failure (List V) := do
  return (← elementAt table.rTable (← table.idxForKey key)).values

def lowerUpperBound (table : RangeTable K V) (startKey : Option K) : Except Failure (RangeBound K V) := do
  let idx ← table.idxForKey startKey
  let lowerBound ← elementAt table.rTable (if idx = 0 then 0 else idx - 1)
  let upperBound ←
    if idx + 1 = table.rTable.length then pure ⟨none, []⟩ else elementAt table.rTable (idx + 1)
  return ⟨lowerBound, ← elementAt table.rTable idx, upperBound⟩

def isSplitKey (table : RangeTable K V) (key : K) : Bool :=
  let bpos := table.binarySearch (some key)
  if bpos = table.rTable.length then false else decide (0 < bpos)

def valuesForRange (table : RangeTable K V) :
    Option K → Option K → Except Failure (List (RangeType K V))
  | none, none => return table.rTable
  | none, some endKey => return slice 0 ((← table.idxForKey (some endKey)) + 1)
  | some startKey, none => return slice (← table.idxForKey (some startKey)) table.rTable.length
  | some startKey, some endKey => do
      return slice (← table.idxForKey (some startKey)) ((← table.idxForKey (some endKey)) + 1)
where
  slice (first last : Int) : List (RangeType K V) := (table.rTable.take last.toNat).drop first.toNat

/-- The copy of the array in which two ranges stand in the place of one. -/
def copyWithSplit (rTable : List (RangeType K V)) (idx : Nat) (left right : RangeType K V) :
    List (RangeType K V) :=
  let newRTable := arraycopy rTable 0 (List.replicate (rTable.length + 1) .unset) 0 idx
  let newRTable :=
    if idx + 2 < newRTable.length then
      arraycopy rTable (idx + 1) newRTable (idx + 2) (rTable.length - idx - 1)
    else newRTable
  (newRTable.set idx left).set (idx + 1) right

/-- Splits a range in two.  `none` is the `null` of a key that is a boundary already. -/
def split [ToString K] (table : RangeTable K V) (key : K) (leftValues rightValues : List V) :
    Except Failure (Option (RangeTable K V)) :=
  let bpos := table.binarySearch (some key)
  if 0 < bpos ∧ bpos < table.rTable.length then .ok none
  else do
    let range ← elementAt table.rTable (calcMidIdx bpos)
    let newRTable := copyWithSplit table.rTable (calcMidIdx bpos).toNat ⟨range.startKey, leftValues⟩
      ⟨some key, rightValues⟩
    return some (← create newRTable table.keyComp table.mergeCondition)

/-- The split that gives one side new values and leaves the other side as it is. -/
def splitAttached [ToString K] (table : RangeTable K V) (key : K) (values : List V)
    (leftAttached : Bool) : Except Failure (Option (RangeTable K V)) :=
  let bpos := table.binarySearch (some key)
  if 0 < bpos ∧ bpos < table.rTable.length then .ok none
  else do
    let range ← elementAt table.rTable (calcMidIdx bpos)
    if leftAttached then table.split key values range.values else table.split key range.values values

/-- Scala's `==` on an option and a range, which are never the same value. -/
def sameAsRange (_key : Option K) (_range : RangeType K V) : Bool := false

def checkRange (table : RangeTable K V) (startKey endKey : Option K) : Except Failure Bool :=
  let idx := table.binarySearch startKey
  if idx < 0 then .ok false
  else if table.rTable.length = idx then do
    return sameAsRange startKey (← elementAt table.rTable idx) && endKey.isNone
  else do
    if sameAsRange startKey (← elementAt table.rTable idx) then
      return sameAsRange endKey (← elementAt table.rTable (idx + 1))
    else return false

def checkMergeCondition (table : RangeTable K V) (bpos : Int) : Except Failure Bool :=
  if bpos < 0 ∨ bpos = table.rTable.length then .ok false
  else do
    let left ← elementAt table.rTable (bpos - 1)
    let right ← elementAt table.rTable bpos
    return table.mergeCondition left.values right.values

/-- The copy of the array without the range at this position. -/
def copyWithout (rTable : List (RangeType K V)) (bpos : Nat) : List (RangeType K V) :=
  let newRTable := arraycopy rTable 0 (List.replicate (rTable.length - 1) .unset) 0 bpos
  if bpos ≠ newRTable.length then
    arraycopy rTable (bpos + 1) newRTable bpos (newRTable.length - bpos)
  else newRTable

/-- Joins the ranges left and right of a boundary.  `none` is the `null` of a
merge that is not possible. -/
def merge [ToString K] (table : RangeTable K V) (key : K) (values : List V) :
    Except Failure (Option (RangeTable K V)) := do
  let bpos := table.binarySearch (some key)
  if ← table.checkMergeCondition bpos then
    let newRTable := copyWithout table.rTable bpos.toNat
    let range ← elementAt newRTable (bpos - 1)
    let newRTable := newRTable.set (bpos - 1).toNat ⟨range.startKey, values⟩
    return some (← create newRTable table.keyComp table.mergeCondition)
  else return none

/-- The merge that keeps the values of one of the two ranges. -/
def mergeDeleting [ToString K] (table : RangeTable K V) (key : K) (deleteLeft : Bool) :
    Except Failure (Option (RangeTable K V)) :=
  let bpos := table.binarySearch (some key)
  if bpos < 0 ∨ bpos = table.rTable.length then .ok none
  else do
    let range ← elementAt table.rTable (if deleteLeft then bpos else bpos - 1)
    table.merge key range.values

def addValueToRange [ToString K] [DecidableEq V] (table : RangeTable K V) (key : Option K) (value : V) :
    Except Failure (RangeTable K V) := do
  let idx ← table.idxForKey key
  let range ← (← elementAt table.rTable idx).add value
  create (table.rTable.set idx.toNat range) table.keyComp table.mergeCondition

def removeValueFromRange [ToString K] [DecidableEq V] (table : RangeTable K V) (key : Option K)
    (value : V) : Except Failure (RangeTable K V) := do
  let idx ← table.idxForKey key
  let range ← (← elementAt table.rTable idx).remove value
  create (table.rTable.set idx.toNat range) table.keyComp table.mergeCondition

def replaceValues [ToString K] (table : RangeTable K V) (key : Option K) (values : List V) :
    Except Failure (RangeTable K V) := do
  let idx ← table.idxForKey key
  let range ← elementAt table.rTable idx
  create (table.rTable.set idx.toNat ⟨range.startKey, values⟩) table.keyComp table.mergeCondition

end RangeTable

end Scads.Util
