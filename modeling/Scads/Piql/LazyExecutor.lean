import Scads.Piql.SimpleExecutor

namespace Scads.Piql

open Scads.Client Scads.Data

/-! # The lazy executor

The lazy executor asks the store for one record at a time.  Its own iterators do
nothing when they are opened, and begin at the first `hasNext`.
-/

structure LazyScan where
  result : Option Record
  offset : Int
  limitReached : Bool
deriving DecidableEq

variable (ctx : Context) (store : Store)

namespace LazyExecutor

/-- The state tells whether the record has been given. -/
def indexLookup (ns : TupleProvider) (boundKey : Key) : QueryIterator where
  State := Bool
  initial := false
  opened _ accessed := .ok accessed
  hasNext _ accessed := .ok (!accessed && (store.getRecord ns boundKey).isSome, accessed)
  next _ accessed :=
    match accessed, store.getRecord ns boundKey with
    | false, some record => .ok ([record], true)
    | _, _ => .error emptyIterator

section

variable (ns : TupleProvider) (boundKeyPrefix : Key) (ascending : Bool)

def doFetch (scan : LazyScan) : LazyScan :=
  let res := store.getRange ns boundKeyPrefix ascending scan.offset 1
  { result := res.head?
    offset := toInt32 (scan.offset + res.length)
    limitReached := scan.limitReached || res.isEmpty }

def hasNext : Nat → LazyScan → Except QueryFailure (Bool × LazyScan)
  | 0, _ => .error .unfinished
  | rounds + 1, scan =>
      if scan.result.isSome then .ok (true, scan)
      else if scan.limitReached = false then hasNext rounds (doFetch store ns boundKeyPrefix ascending scan)
      else .ok (false, scan)

def indexScan : QueryIterator where
  State := LazyScan
  initial := { result := none, offset := 0, limitReached := false }
  opened _ scan := .ok scan
  hasNext := hasNext store ns boundKeyPrefix ascending
  next rounds scan := do
    let (_, scan) ← hasNext store ns boundKeyPrefix ascending rounds scan
    match scan.result with
    | none => throw emptyIterator
    | some record => return ([record], { scan with result := none })

end

section

variable (ns : TupleProvider) (key : KeyGenerator) (child : QueryIterator)

/-- The iterator of the child, the tuple that is held, and `needsInit`.  The child is not opened. -/
def indexLookupJoin : QueryIterator where
  State := child.State × Option Tuple × Bool
  initial := (child.initial, none, true)
  opened _ state := .ok state
  hasNext rounds state :=
    if state.2.2 then do
      let (nextTuple, childState) ← child.search (lookupRecord ctx store ns key) rounds state.1
      return (nextTuple.isSome, childState, nextTuple, false)
    else .ok (state.2.1.isSome, state)
  next rounds state :=
    match state.2.1 with
    | none => .error .nullPointer
    | some ret => do
        let (nextTuple, childState) ← child.search (lookupRecord ctx store ns key) rounds state.1
        return (ret, childState, nextTuple, state.2.2)

end

section

variable (ns : TupleProvider) (keyPrefix : KeyGenerator) (sortFields : List Value) (ascending : Bool)
  (child : QueryIterator)

/-- The sources and the tuple that is held, once the join has begun. -/
def mergeHasNext (rounds : Nat) (state : Option (List TupleData × Option Tuple)) :
    Except QueryFailure (Bool × Option (List TupleData × Option Tuple)) :=
  match state with
  | some (_, nextTuple) => .ok (nextTuple.isSome, state)
  | none => do
      let datas ← child.gather (SimpleExecutor.prefetch ctx store ns keyPrefix 1 ascending) rounds
        (← child.opened rounds child.initial)
      let (nextTuple, datas) ← SimpleExecutor.getNext ctx store ns sortFields 1 ascending datas
      return (nextTuple.isSome, some (datas, nextTuple))

def indexMergeJoin : QueryIterator where
  State := Option (List TupleData × Option Tuple)
  initial := none
  opened _ state := .ok state
  hasNext := mergeHasNext ctx store ns keyPrefix sortFields ascending child
  next rounds state := do
    let (_, state) ← mergeHasNext ctx store ns keyPrefix sortFields ascending child rounds state
    match state with
    | some (datas, some ret) =>
        let (nextTuple, datas) ← SimpleExecutor.getNext ctx store ns sortFields 1 ascending datas
        return (ret, some (datas, nextTuple))
    | _ => throw emptyIterator

end

/-- The limits of scans and merge joins are not read.  The other operators are those of the
simple executor, over the iterators of this one. -/
def apply : QueryPlan → Except QueryFailure QueryIterator
  | .indexLookup ns key =>
      (bindKey ctx ns key none).bind fun boundKey => .ok (indexLookup store ns boundKey)
  | .indexScan ns keyPrefix _ ascending =>
      (bindKey ctx ns keyPrefix none).bind fun boundKeyPrefix => .ok (indexScan store ns boundKeyPrefix ascending)
  | .indexLookupJoin ns key child => (apply child).map (indexLookupJoin ctx store ns key)
  | .indexMergeJoin ns keyPrefix sortFields _ ascending child =>
      (apply child).map (indexMergeJoin ctx store ns keyPrefix sortFields ascending)
  | .localSelection predicate child => (apply child).map (SimpleExecutor.localSelection ctx predicate)
  | .localStopAfter k child =>
      (apply child).bind fun childIterator =>
        (bindLimit ctx k).map fun limit => SimpleExecutor.localStopAfter limit childIterator
  | .localIterator ordinal wrap => .ok (SimpleExecutor.localIterator ctx ordinal wrap)
  | .union _ _ _ => .error (.runtime "Not yet implemented")
  | .indexScanJoin .. | .localSort .. => .error .matchError

end LazyExecutor

end Scads.Piql
