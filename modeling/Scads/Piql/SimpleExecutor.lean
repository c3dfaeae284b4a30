import Scads.Data.Merging
import Scads.Piql.QueryPlan

namespace Scads.Piql

open Scads.Client Scads.Data

/-! # The simple executor

Every operator of a physical plan becomes an iterator over the iterators of its
children.  The simple executor asks the store for one thing at a time.
-/

instance : Inhabited QueryFailure := ⟨.unfinished⟩

abbrev QueryIterator := Machine QueryFailure Tuple

def emptyIterator : QueryFailure := .noSuchElement "Next on empty iterator"

/-- Pages of one range: the page that is read, the position in it and the offset of the next. -/
structure Scan where
  result : List Record
  pos : Nat
  offset : Int
  limitReached : Bool
deriving DecidableEq

/-- What a merge join keeps of one tuple of its child. -/
structure TupleData where
  key : Key
  tup : Tuple
  offset : Int
  limitReached : Bool
  buffer : List Tuple
  bufferPos : Nat
deriving DecidableEq

variable (ctx : Context) (store : Store)

/-- Whether the first tuple goes before the second. -/
def goesBefore (sortFields : List Value) (ascending : Bool) (left right : Tuple) : Except QueryFailure Bool := do
  let comparison ← compareTuples ctx left right sortFields
  return if ascending then comparison < 0 else comparison > 0

/-- The record of another namespace that belongs to a tuple. -/
def lookupRecord (ns : TupleProvider) (key : KeyGenerator) (childTuple : Tuple) :
    Except QueryFailure (Option Tuple) := do
  let boundKey ← bindKey ctx ns key (some childTuple)
  return (store.getRecord ns boundKey).map fun value => childTuple ++ [value]

def keepSelected (predicate : Predicate) (childValue : Tuple) : Except QueryFailure (Option Tuple) := do
  return if ← evalPredicate ctx predicate childValue then some childValue else none

/-- `Vector(StringRec(i.asInstanceOf[String]))`. -/
def wrapText : Datum → Except QueryFailure Tuple
  | .string text => .ok [[.utf8 text]]
  | .null => .ok [[.null]]
  | _ => .error (.classCast "java.lang.String")

/-- The tuples of a parameter.  An element that is no tuple fails where it is read. -/
def localTuples (ordinal : Nat) (wrap : Bool) : Except QueryFailure (List (Except QueryFailure Tuple)) := do
  match ← elementAt ctx.parameters ordinal with
  | .tuples [] => return []
  | .tuples tuples => if wrap then throw (.classCast "java.lang.String") else return tuples.map .ok
  | .value (.seq values) =>
      if wrap then return (← values.mapM wrapText).map .ok
      else return values.map fun
        | .null => .error .nullPointer
        | _ => .error (.classCast "scala.collection.IndexedSeq")
  | .value .null => throw .nullPointer
  | .value _ => throw (.classCast "scala.collection.Seq")

/-- Builds, opens and drains the iterator of a plan. -/
def execute (iterator : Except QueryFailure QueryIterator) (rounds : Nat) : Except QueryFailure (List Tuple) :=
  iterator.bind fun iterator => iterator.drain rounds

namespace SimpleExecutor

def indexLookup (ns : TupleProvider) (boundKey : Key) : QueryIterator where
  State := Option Record
  initial := none
  opened _ _ := .ok (store.getRecord ns boundKey)
  hasNext _ result := .ok (result.isSome, result)
  next _ result :=
    match result with
    | some record => .ok ([record], none)
    | none => .error emptyIterator

section

variable (ns : TupleProvider) (boundKeyPrefix : Key) (boundLimit : Int) (ascending : Bool)

def doFetch (scan : Scan) : Scan :=
  let result := store.getRange ns boundKeyPrefix ascending scan.offset boundLimit
  { result
    pos := 0
    offset := toInt32 (scan.offset + result.length)
    limitReached := scan.limitReached || result.length < boundLimit }

def hasNext : Nat → Scan → Except QueryFailure (Bool × Scan)
  | 0, _ => .error .unfinished
  | rounds + 1, scan =>
      if scan.pos < scan.result.length then .ok (true, scan)
      else if scan.limitReached then .ok (false, scan)
      else hasNext rounds (doFetch store ns boundKeyPrefix boundLimit ascending scan)

def indexScan : QueryIterator where
  State := Scan
  initial := { result := [], pos := 0, offset := 0, limitReached := false }
  opened _ scan := .ok (doFetch store ns boundKeyPrefix boundLimit ascending scan)
  hasNext := hasNext store ns boundKeyPrefix boundLimit ascending
  next rounds scan := do
    let (more, scan) ← hasNext store ns boundKeyPrefix boundLimit ascending rounds scan
    if more then return ([← elementAt scan.result scan.pos], { scan with pos := scan.pos + 1 })
    else throw emptyIterator

end

def indexLookupJoin (ns : TupleProvider) (key : KeyGenerator) (child : QueryIterator) : QueryIterator :=
  child.lookahead (lookupRecord ctx store ns key) .nullPointer

section

variable (ns : TupleProvider) (keyPrefix : KeyGenerator) (sortFields : List Value) (boundLimit : Int)
  (ascending : Bool)

/-- The first page for a tuple of the child. -/
def prefetch (childValue : Tuple) : Except QueryFailure TupleData := do
  let boundKeyPrefix ← bindKey ctx ns keyPrefix (some childValue)
  let records := store.getRange ns boundKeyPrefix ascending 0 boundLimit
  return { key := boundKeyPrefix, tup := childValue, offset := records.length,
           limitReached := records.length < boundLimit,
           buffer := records.map fun r => childValue ++ [r], bufferPos := 0 }

def fillBuffer (data : TupleData) : TupleData :=
  let records := store.getRange ns data.key ascending data.offset boundLimit
  { data with
    buffer := data.buffer ++ records.map fun r => data.tup ++ [r]
    offset := toInt32 (data.offset + records.length)
    limitReached := records.length < boundLimit }

/-- A buffer that has been scanned over is filled, if the store may have more. -/
def refill (data : TupleData) : TupleData :=
  if data.bufferPos = data.buffer.length ∧ data.limitReached = false then
    fillBuffer store ns boundLimit ascending data
  else data

def getNext : List TupleData → Except QueryFailure (Option Tuple × List TupleData) :=
  takeBest (goesBefore ctx sortFields ascending) (refill store ns boundLimit ascending)
    (fun data => data.buffer[data.bufferPos]?) fun data => { data with bufferPos := data.bufferPos + 1 }

def indexMergeJoin (child : QueryIterator) : QueryIterator :=
  .holding []
    (fun rounds _ => do
      child.gather (prefetch ctx store ns keyPrefix boundLimit ascending) rounds
        (← child.opened rounds child.initial))
    (fun _ => getNext ctx store ns sortFields boundLimit ascending) emptyIterator

end

def localSelection (predicate : Predicate) (child : QueryIterator) : QueryIterator :=
  child.lookahead (keepSelected ctx predicate) .nullPointer

def localStopAfter (limit : Int) (child : QueryIterator) : QueryIterator where
  State := child.State × Int
  initial := (child.initial, 0)
  opened rounds state := do return (← child.opened rounds state.1, 0)
  hasNext rounds state := do
    let (more, childState) ← child.hasNext rounds state.1
    return (more && limit > state.2, (childState, state.2))
  next rounds state := do
    let (tuple, childState) ← child.next rounds state.1
    return (tuple, (childState, toInt32 (state.2 + 1)))

def localIterator (ordinal : Nat) (wrap : Bool) : QueryIterator where
  State := Option (List (Except QueryFailure Tuple))
  initial := none
  opened _ _ := do return some (← localTuples ctx ordinal wrap)
  hasNext _ delegate :=
    match delegate with
    | none => .error .nullPointer
    | some tuples => .ok (!tuples.isEmpty, delegate)
  next _ delegate :=
    match delegate with
    | none => .error .nullPointer
    | some [] => .error (.noSuchElement "next on empty iterator")
    | some (tuple :: rest) => do return (← tuple, some rest)

/-- The iterator of a plan.  Keys and limits that need no tuple are bound here. -/
def apply : QueryPlan → Except QueryFailure QueryIterator
  | .indexLookup ns key =>
      (bindKey ctx ns key none).bind fun boundKey => .ok (indexLookup store ns boundKey)
  | .indexScan ns keyPrefix limit ascending =>
      (bindKey ctx ns keyPrefix none).bind fun boundKeyPrefix =>
        (bindLimit ctx limit).map fun boundLimit => indexScan store ns boundKeyPrefix boundLimit ascending
  | .indexLookupJoin ns key child => (apply child).map (indexLookupJoin ctx store ns key)
  | .indexMergeJoin ns keyPrefix sortFields limit ascending child =>
      (apply child).bind fun childIterator =>
        (bindLimit ctx limit).map fun boundLimit =>
          indexMergeJoin ctx store ns keyPrefix sortFields boundLimit ascending childIterator
  | .localSelection predicate child => (apply child).map (localSelection ctx predicate)
  | .localStopAfter k child =>
      (apply child).bind fun childIterator =>
        (bindLimit ctx k).map fun limit => localStopAfter limit childIterator
  | .localIterator ordinal wrap => .ok (localIterator ctx ordinal wrap)
  | .union _ _ _ => .error (.runtime "Not yet implemented")
  | .indexScanJoin .. | .localSort .. => .error .matchError

end SimpleExecutor

end Scads.Piql
