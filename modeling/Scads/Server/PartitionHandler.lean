import Scads.Server.IterateOverRange

namespace Scads.Server

open Scads.Comm

/-! # The partition handler -/

/-- What a storage manager may throw while it works on a request. -/
inductive Fault where
  | requestRejected (message : String)
  | exception (message stackTrace : String)

variable {K V : Type} [LinearOrder K]

/-- `PartitionHandler.process`: the database after a request and the reply to it.
The manager works in one transaction, so what it throws leaves no trace. -/
def process (database : Database K V) (thrown : Option Fault) (msg : StorageMessage K V) :
    Database K V × StorageMessage K V :=
  match thrown with
  | some (.requestRejected message) => (database, .requestRejected message msg)
  | some (.exception message stackTrace) => (database, .processingException message stackTrace)
  | none =>
      match msg with
      | .getRequest key => (database, .getResponse (database.get key))
      | .putRequest request => (database.put request.key request.value, .putResponse)
      | .bulkPutRequest records =>
          (records.foldl (fun changed record => changed.put record.key record.value) database,
            .bulkPutResponse)
      | .getRangeRequest request =>
          (database, .getRangeResponse (database.getRange request.minKey request.maxKey request.limit
            request.offset request.ascending))
      | _ => (database, .processingException "Not Implemented" "")

/-- A put is acknowledged exactly when it was applied. -/
theorem process_putRequest (database : Database K V) (thrown : Option Fault) (request : PutRequest K V) :
    ((process database thrown (.putRequest request)).2 = .putResponse ↔ thrown = none) ∧
      (process database thrown (.putRequest request)).1 =
        if thrown.isNone then database.put request.key request.value else database := by
  match thrown with
  | none => simp [process]
  | some (.requestRejected message) => simp [process]
  | some (.exception message stackTrace) => simp [process]

end Scads.Server
