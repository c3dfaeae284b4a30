import Scads.Server.GarbageCollection
import Scads.Server.InMemoryWrites
import Scads.Server.PartitionHandler

namespace Scads.Server

open Scads.Data Scads.Comm Scads.Util

/-! # Keys of other partitions

A partition is documented to refuse the keys that it is not responsible for.  The
check is switched off, so that its manager works on every key of the database that
it shares with other partitions.
-/

/-- The requests that name keys. -/
inductive KeyedRequest (K V : Type) where
  | get (key : K)
  | put (request : PutRequest K V)
  | bulkPut (records : List (PutRequest K V))
  | testSet (key : K) (value expectedValue : Option V)
  | getRange (request : GetRangeRequest K)
  | countRange (minKey maxKey : Option K)
deriving DecidableEq, Repr

inductive KeyedReply (K V : Type) where
  | get (value : Option V)
  | put
  | bulkPut
  | testSet (success : Bool)
  | getRange (records : List (Record K V))
  | countRange (count : Int)
  | requestRejected (reason : String) (request : KeyedRequest K V)
  | processingException (cause stacktrace : String)
deriving DecidableEq, Repr

def KeyedReply.isRefusal {K V : Type} : KeyedReply K V → Bool
  | .requestRejected .. | .processingException .. => true
  | .get _ | .put | .bulkPut | .testSet _ | .getRange _ | .countRange _ => false

namespace PartitionHandler

variable {K V : Type} [LinearOrder K] [DecidableEq V]

/-- `process` for the requests that name keys.  The bounds of the partition are not
looked at.  `thrown` is what the manager throws while it works on the request, in a
transaction that is then not committed. -/
def serve (_ : PartitionHandler K) (database : Database K V) (thrown : Option Fault) (request : KeyedRequest K V) :
    Database K V × KeyedReply K V :=
  match thrown with
  | some (.requestRejected message) => (database, .requestRejected message request)
  | some (.exception message stackTrace) => (database, .processingException message stackTrace)
  | none =>
      match request with
      | .get key => (database, .get (database.get key))
      | .put request => (database.put request.key request.value, .put)
      | .bulkPut records => (database.bulkPut records, .bulkPut)
      | .testSet key value expectedValue =>
          let (database, success) := database.testAndSet key value expectedValue
          (database, .testSet success)
      | .getRange request =>
          (database, .getRange (database.getRange request.minKey request.maxKey request.limit request.offset
            request.ascending))
      | .countRange minKey maxKey => (database, .countRange (database.countRange minKey maxKey))

/-- The keys of the request are those that the partition is responsible for: single
keys in `[startKey, endKey)`, the bounds of a range in `[startKey, endKey]`. -/
def keysInRange (handler : PartitionHandler K) : KeyedRequest K V → Bool
  | .get key | .testSet key _ _ => handler.span.contains key
  | .put request => handler.span.contains request.key
  | .bulkPut records => records.all fun record => handler.span.contains record.key
  | .getRange request => handler.isStartKeyLEQ request.minKey && handler.isEndKeyGEQ request.maxKey
  | .countRange minKey maxKey => handler.isStartKeyLEQ minKey && handler.isEndKeyGEQ maxKey

variable {handler : PartitionHandler K} {database : Database K V} {request : KeyedRequest K V}

/-- Without a failure of the manager every request is served. -/
theorem serve_accepts (handler : PartitionHandler K) (database : Database K V) (request : KeyedRequest K V) :
    (handler.serve database none request).2.isRefusal = false := by
  cases request <;> rfl

theorem serve_thrown (handler : PartitionHandler K) (database : Database K V) (fault : Fault)
    (request : KeyedRequest K V) :
    (handler.serve database (some fault) request).2.isRefusal = true ∧
      (handler.serve database (some fault) request).1 = database := by
  cases fault <;> exact ⟨rfl, rfl⟩

/-- A request with keys of other partitions is refused and leaves the database alone exactly if there are no
such keys in it or the manager fails. -/
theorem foreign_keys_refused_iff (handler : PartitionHandler K) (database : Database K V) (thrown : Option Fault)
    (request : KeyedRequest K V) :
    (handler.keysInRange request = false →
      (handler.serve database thrown request).2.isRefusal = true ∧
        (handler.serve database thrown request).1 = database) ↔
      handler.keysInRange request = true ∨ thrown ≠ none := by
  constructor
  · intro refuses
    by_cases inRange : handler.keysInRange request = true
    · exact .inl inRange
    · refine .inr fun nothing => ?_
      subst nothing
      have refused := (refuses (Bool.eq_false_iff.mpr inRange)).1
      rw [serve_accepts] at refused
      cases refused
  · intro condition foreign
    cases thrown with
    | some fault => exact serve_thrown handler database fault request
    | none =>
        rw [foreign] at condition
        obtain absurd | absurd := condition
        · cases absurd
        · exact (absurd rfl).elim

/-- The partition of the keys from 0 up to 10 stores the key -1. -/
theorem foreign_key_is_stored :
    ∃ (handler : PartitionHandler Int) (database : Database Int String) (request : KeyedRequest Int String),
      handler.keysInRange request = false ∧ (handler.serve database none request).2 = .put ∧
        (handler.serve database none request).1.get (-1) = some "foreign" ∧ database.get (-1) = none :=
  ⟨⟨.bdb, "ns", some 0, some 10⟩, .empty, .put ⟨-1, some "foreign"⟩, by decide, rfl, by decide, rfl⟩

end PartitionHandler

end Scads.Server
