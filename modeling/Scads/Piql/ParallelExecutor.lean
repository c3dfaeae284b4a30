import Scads.Piql.SimpleExecutor

namespace Scads.Piql

open Scads.Client Scads.Data

/-! # The parallel executor

The parallel executor asks the store for what it will need before it needs it.  A
future is the answer that it will give: the store does not change during a query.
-/

/-- A scan with the page that has been asked for. -/
structure ParallelScan where
  scan : Scan
  ftch : List Record
  ftchInvoked : Bool
deriving DecidableEq

/-- What a merge join keeps of one tuple of its child.  `pending` is that tuple with the page
that was asked for; it is gone once a page was not full. -/
structure ParallelData where
  pending : Option (Tuple × List Record)
  buffer : List Tuple
  bufferPos : Nat
deriving DecidableEq

variable (ctx : Context) (store : Store)

namespace ParallelExecutor

def indexLookup (ns : TupleProvider) (boundKey : Key) : QueryIterator where
  State := Option (Option Record)
  initial := none
  opened _ _ := .ok (some (store.getRecord ns boundKey))
  hasNext _ ftch := .ok (ftch.join.isSome, ftch)
  next _ ftch :=
    match ftch.join with
    | some record => .ok ([record], none)
    | none => .error (.noSuchElement "Empty iterator")

section

variable (ns : TupleProvider) (boundKeyPrefix : Key) (boundLimit : Int) (ascending : Bool)

def doFetch (state : ParallelScan) : ParallelScan :=
  { state with
    ftch := store.getRange ns boundKeyPrefix ascending state.scan.offset boundLimit
    ftchInvoked := false }

def updateFuture (state : ParallelScan) : ParallelScan :=
  { state with
    scan :=
      { result := state.ftch
        pos := 0
        offset := toInt32 (state.scan.offset + state.ftch.length)
        limitReached := state.scan.limitReached || state.ftch.length < boundLimit }
    ftchInvoked := true }

def hasNext : Nat → ParallelScan → Except QueryFailure (Bool × ParallelScan)
  | 0, _ => .error .unfinished
  | rounds + 1, state =>
      if state.ftchInvoked then
        if state.scan.pos < state.scan.result.length then .ok (true, state)
        else if state.scan.limitReached then .ok (false, state)
        else hasNext rounds (doFetch store ns boundKeyPrefix boundLimit ascending state)
      else hasNext rounds (updateFuture boundLimit state)

def indexScan : QueryIterator where
  State := ParallelScan
  initial :=
    { scan := { result := [], pos := 0, offset := 0, limitReached := false }, ftch := [], ftchInvoked := false }
  opened _ state := .ok (doFetch store ns boundKeyPrefix boundLimit ascending state)
  hasNext := hasNext store ns boundKeyPrefix boundLimit ascending
  next rounds state := do
    let (more, state) ← hasNext store ns boundKeyPrefix boundLimit ascending rounds state
    if more then
      return ([← elementAt state.scan.result state.scan.pos],
        { state with scan := { state.scan with pos := state.scan.pos + 1 } })
    else throw emptyIterator

end

section

variable (ns : TupleProvider) (key : KeyGenerator) (child : QueryIterator)

def windowSize : Nat := 10

/-- The tuples of the child with the answers to their lookups. -/
abbrev Ftchs := List (Tuple × Option Record)

def fillFutures : Nat → child.State × Ftchs → Except QueryFailure (child.State × Ftchs)
  | 0, _ => .error .unfinished
  | rounds + 1, (state, ftchs) => do
      let (more, state) ← child.hasNext rounds state
      if more && ftchs.length < windowSize then
        let (childTuple, state) ← child.next rounds state
        let boundKey ← bindKey ctx ns key (some childTuple)
        fillFutures rounds (state, ftchs ++ [(childTuple, store.getRecord ns boundKey)])
      else return (state, ftchs)

/-- `if (ftchs.isEmpty && childIterator.hasNext) fillFutures()`. -/
def replenish (rounds : Nat) (state : child.State × Ftchs) : Except QueryFailure (child.State × Ftchs) :=
  if state.2.isEmpty then do
    let (more, childState) ← child.hasNext rounds state.1
    if more then fillFutures ctx store ns key child rounds (childState, state.2) else pure (childState, state.2)
  else pure state

/-- The loop of `hasNext`, which ends with the next tuple if there is one. -/
def dequeue : Nat → child.State × Ftchs → Except QueryFailure (Option Tuple × child.State × Ftchs)
  | 0, _ => .error .unfinished
  | _ + 1, (state, []) => .ok (none, state, [])
  | rounds + 1, (state, (childTuple, value) :: ftchs) => do
      let rest ← replenish ctx store ns key child rounds (state, ftchs)
      match value with
      | some recVal => return (some (childTuple ++ [recVal]), rest)
      | none => dequeue rounds rest

def joinHasNext (rounds : Nat) (state : Option Tuple × child.State × Ftchs) :
    Except QueryFailure (Bool × Option Tuple × child.State × Ftchs) :=
  match state.1 with
  | some _ => .ok (true, state)
  | none => do
      let state ← dequeue ctx store ns key child rounds state.2
      return (state.1.isSome, state)

def indexLookupJoin : QueryIterator where
  State := Option Tuple × child.State × Ftchs
  initial := (none, child.initial, [])
  opened rounds state := do
    let childState ← child.opened rounds state.2.1
    return (state.1, ← fillFutures ctx store ns key child rounds (childState, state.2.2))
  hasNext := joinHasNext ctx store ns key child
  next rounds state := do
    let (_, nextTuple, rest) ← joinHasNext ctx store ns key child rounds state
    match nextTuple with
    | none => throw emptyIterator
    | some ret => return (ret, none, ← fillFutures ctx store ns key child rounds rest)

end

section

variable (ns : TupleProvider) (keyPrefix : KeyGenerator) (sortFields : List Value) (boundLimit : Int)
  (ascending : Bool)

def prefetch (childValue : Tuple) : Except QueryFailure ParallelData := do
  let boundKeyPrefix ← bindKey ctx ns keyPrefix (some childValue)
  return { pending := some (childValue, store.getRange ns boundKeyPrefix ascending 0 boundLimit),
           buffer := [], bufferPos := 0 }

/-- The page is added to the buffer.  A full page is not followed by a request for the next one. -/
def fillBuffer (data : ParallelData) (tup : Tuple) (records : List Record) : ParallelData :=
  { data with
    pending := if records.length < boundLimit then none else data.pending
    buffer := data.buffer ++ records.map fun r => tup ++ [r] }

def refill (data : ParallelData) : ParallelData :=
  match data.pending with
  | some (tup, records) =>
      if data.bufferPos = data.buffer.length then fillBuffer boundLimit data tup records else data
  | none => data

/-- The tuple is taken out of its buffer, which is filled at once if it was the last. -/
def getNext : List ParallelData → Except QueryFailure (Option Tuple × List ParallelData) :=
  takeBest (goesBefore ctx sortFields ascending) (refill boundLimit)
    (fun data => data.buffer[data.bufferPos]?)
    fun data => refill boundLimit { data with bufferPos := data.bufferPos + 1 }

def mergeHasNext (state : List ParallelData × Option Tuple) :
    Except QueryFailure (Bool × List ParallelData × Option Tuple) :=
  match state.2 with
  | some _ => .ok (true, state)
  | none => do
      let (nextTuple, datas) ← getNext ctx sortFields boundLimit ascending state.1
      return (nextTuple.isSome, datas, nextTuple)

def indexMergeJoin (child : QueryIterator) : QueryIterator where
  State := List ParallelData × Option Tuple
  initial := ([], none)
  opened rounds _ := do
    let datas ← child.gather (prefetch ctx store ns keyPrefix boundLimit ascending) rounds
      (← child.opened rounds child.initial)
    return (datas, none)
  hasNext _ := mergeHasNext ctx sortFields boundLimit ascending
  next _ state := do
    let (_, datas, nextTuple) ← mergeHasNext ctx sortFields boundLimit ascending state
    match nextTuple with
    | none => throw emptyIterator
    | some ret => return (ret, datas, none)

end

/-- The other operators are those of the simple executor, over the iterators of this one. -/
def apply : QueryPlan → Except QueryFailure QueryIterator
  | .indexLookup ns key =>
      (bindKey ctx ns key none).bind fun boundKey => .ok (indexLookup store ns boundKey)
  | .indexScan ns keyPrefix limit ascending =>
      (bindKey ctx ns keyPrefix none).bind fun boundKeyPrefix =>
        (bindLimit ctx limit).map fun boundLimit =>
          indexScan store ns boundKeyPrefix (toInt32 (boundLimit + 1)) ascending
  | .indexLookupJoin ns key child => (apply child).map (indexLookupJoin ctx store ns key)
  | .indexMergeJoin ns keyPrefix sortFields limit ascending child =>
      (apply child).bind fun childIterator =>
        (bindLimit ctx limit).map fun boundLimit =>
          indexMergeJoin ctx store ns keyPrefix sortFields boundLimit ascending childIterator
  | .localSelection predicate child => (apply child).map (SimpleExecutor.localSelection ctx predicate)
  | .localStopAfter k child =>
      (apply child).bind fun childIterator =>
        (bindLimit ctx k).map fun limit => SimpleExecutor.localStopAfter limit childIterator
  | .localIterator ordinal wrap => .ok (SimpleExecutor.localIterator ctx ordinal wrap)
  | .union _ _ _ => .error (.runtime "Not yet implemented")
  | .indexScanJoin .. | .localSort .. => .error .matchError

end ParallelExecutor

end Scads.Piql
