import Mathlib.Data.String.Basic
import Scads.Server.GarbageCollection

namespace Scads.Server

open Scads.Data Scads.Comm Scads.Util

/-! # The storage handler

A server keeps its partitions in three places: a map from partition ids to
handlers, a context per namespace with the partitions of that namespace, and the
persistent `partitionDb` from which the partitions are reopened at a start.
-/

structure CreatePartitionRequest (K : Type) where
  ns : String
  partitionType : String
  startKey : Option K
  endKey : Option K
deriving DecidableEq, Repr

/-- What the server reads about a namespace before it makes a partition of it. -/
structure NamespaceRoot where
  valueClass : String
  loadable : Bool
deriving DecidableEq, Repr

inductive StorageResponse where
  | createPartitionResponse (partitionId : String)
  | deletePartitionResponse
  | deleteNamespaceResponse
  | invalidPartition (partitionId : String)
  | invalidNamespace (ns : String)
  | requestRejected (reason : String)
deriving DecidableEq, Repr

/-- The partitions of a namespace, each under its id. -/
abbrev NamespaceContext (K : Type) := List (String × PartitionHandler K)

structure StorageHandler (K V : Type) [LinearOrder K] where
  partitions : String → Option (PartitionHandler K)
  namespaces : String → Option (NamespaceContext K)
  partitionDb : Database String (CreatePartitionRequest K)
  databases : String → Option (Database K V)

namespace StorageHandler

variable {K V : Type} [LinearOrder K]

/-- The environment of a server that has just been installed. -/
def empty : StorageHandler K V := ⟨fun _ => none, fun _ => none, .empty, fun _ => none⟩

def noSuchNamespace (ns : String) : Failure :=
  .runtime ("Attempted to open namespace that doesn't exist in zookeeper: " ++ ns)

def getOrCreateContextForNamespace (handler : StorageHandler K V) (ns : String) : NamespaceContext K :=
  (handler.namespaces ns).getD []

/-- `makeDatabase`: the database of a namespace is opened, and created where there is none. -/
def makeDatabase (handler : StorageHandler K V) (ns : String) : StorageHandler K V :=
  { handler with
    databases := Function.update handler.databases ns (some ((handler.databases ns).getD .empty)) }

def logPartition (handler : StorageHandler K V) (partitionId : String)
    (request : CreatePartitionRequest K) : StorageHandler K V :=
  { handler with partitionDb := handler.partitionDb.put partitionId (some request) }

/-- Adds a new partition to the open ones and to the context of its namespace. -/
def register (handler : StorageHandler K V) (partitionId : String) (partition : PartitionHandler K) :
    StorageHandler K V × Except Failure StorageResponse :=
  let ctx := handler.getOrCreateContextForNamespace partition.ns
  let opened :=
    { handler with partitions := Function.update handler.partitions partitionId (some partition) }
  if (handler.partitions partitionId).isSome then
    (opened, .error (.assertion ("assertion failed: Partition ID was not unique: " ++ partitionId)))
  else if (partitionId, partition) ∈ ctx then
    (opened, .error (.assertion "assertion failed: Handler not successfully added to partitions"))
  else
    ({ opened with
        namespaces := Function.update opened.namespaces partition.ns (some ((partitionId, partition) :: ctx)) },
      .ok (.createPartitionResponse partitionId))

/-- `partitionId` is the name of the sequential node that ZooKeeper creates. -/
def createPartition (handler : StorageHandler K V) (root : Option NamespaceRoot) (partitionId : String)
    (request : CreatePartitionRequest K) : StorageHandler K V × Except Failure StorageResponse :=
  match root with
  | none => (handler, .error (noSuchNamespace request.ns))
  | some root =>
      let ctx := handler.getOrCreateContextForNamespace request.ns
      let handler :=
        { handler with namespaces := Function.update handler.namespaces request.ns (some ctx) }
      if request.partitionType = "inmemory" then
        let handler := handler.logPartition partitionId request
        if root.loadable then
          handler.register partitionId ⟨.inMemory, request.ns, request.startKey, request.endKey⟩
        else (handler, .error (.classNotFound root.valueClass))
      else if request.partitionType = "bdb" then
        let handler := (handler.makeDatabase request.ns).logPartition partitionId request
        handler.register partitionId ⟨.bdb, request.ns, request.startKey, request.endKey⟩
      else
        (handler, .error (.runtime ("Invalid partition type specified in create partition request: " ++
          request.partitionType)))

/-- What the transaction of a deletion leaves in the database of the namespace,
`none` where it was the last partition. -/
def databaseWithout (removed : PartitionHandler K) (rest : NamespaceContext K)
    (iteration : Iteration (String × PartitionHandler K)) (database : Database K V) :
    Except Failure (Option (Database K V)) :=
  if rest.isEmpty then .ok none
  else do return some (← removed.collectGarbage (iteration.order rest) database)

/-- A failure in the transaction leaves `partitionDb` and the database as they were. -/
def deletePartition (handler : StorageHandler K V) (partitionId : String)
    (iteration : Iteration (String × PartitionHandler K)) :
    StorageHandler K V × Except Failure StorageResponse :=
  match handler.partitions partitionId with
  | none => (handler, .ok (.invalidPartition partitionId))
  | some removed =>
      let handler := { handler with partitions := Function.update handler.partitions partitionId none }
      match removed.manager with
      | .inMemory =>
          (handler, .ok (.requestRejected "Unknown StorageManager type.  Cannot delete partition"))
      | .bdb =>
          match handler.namespaces removed.ns with
          | none =>
              (handler, .ok (.requestRejected
                "Partition will be removed by a delete namespace request currently in progress"))
          | some ctx =>
              if (partitionId, removed) ∈ ctx then
                let rest := ctx.erase (partitionId, removed)
                let handler :=
                  { handler with namespaces := Function.update handler.namespaces removed.ns (some rest) }
                match handler.databases removed.ns with
                | none => (handler, .error (.databaseNotFound removed.ns))
                | some database =>
                    match databaseWithout removed rest iteration database with
                    | .error failure => (handler, .error failure)
                    | .ok left =>
                        ({ handler with
                            partitionDb := handler.partitionDb.delete partitionId
                            databases := Function.update handler.databases removed.ns left },
                          .ok .deletePartitionResponse)
              else
                (handler, .error
                  (.assertion "assertion failed: Handler not successfully removed from partitions"))

def closePartitions (partitions : String → Option (PartitionHandler K)) (ctx : NamespaceContext K) :
    String → Option (PartitionHandler K) :=
  ctx.foldl (fun partitions entry => Function.update partitions entry.1 none) partitions

def clearPartitions (partitionDb : Database String (CreatePartitionRequest K)) (ctx : NamespaceContext K) :
    Database String (CreatePartitionRequest K) :=
  ctx.foldl (fun partitionDb entry => partitionDb.delete entry.1) partitionDb

def deleteNamespace (handler : StorageHandler K V) (ns : String) :
    StorageHandler K V × Except Failure StorageResponse :=
  match handler.namespaces ns with
  | none => (handler, .ok (.invalidNamespace ns))
  | some ctx =>
      let handler :=
        { handler with
          namespaces := Function.update handler.namespaces ns none
          partitions := closePartitions handler.partitions ctx }
      match handler.databases ns with
      | none => (handler, .error (.databaseNotFound ns))
      | some _ =>
          ({ handler with
              partitionDb := clearPartitions handler.partitionDb ctx
              databases := Function.update handler.databases ns none },
            .ok .deleteNamespaceResponse)

/-- The handler that a start makes for a recorded request, whatever its type. -/
def reopened (request : CreatePartitionRequest K) : PartitionHandler K :=
  ⟨.bdb, request.ns, request.startKey, request.endKey⟩

def withReopened (handler : StorageHandler K V) (entry : String × CreatePartitionRequest K) :
    StorageHandler K V :=
  let handler := handler.makeDatabase entry.2.ns
  { handler with
    partitions := Function.update handler.partitions entry.1 (some (reopened entry.2))
    namespaces := Function.update handler.namespaces entry.2.ns
      (some ((entry.1, reopened entry.2) :: handler.getOrCreateContextForNamespace entry.2.ns)) }

/-- One entry of `partitionDb` at a start. -/
def reopen (zookeeper : String → Option NamespaceRoot) (handler : StorageHandler K V)
    (entry : String × CreatePartitionRequest K) : Except Failure (StorageHandler K V) :=
  match zookeeper entry.2.ns with
  | none => .error (noSuchNamespace entry.2.ns)
  | some _ => .ok (handler.withReopened entry)

def startup (zookeeper : String → Option NamespaceRoot) (handler : StorageHandler K V) :
    Except Failure (StorageHandler K V) :=
  handler.partitionDb.entries.foldlM (reopen zookeeper) handler

/-- What is not in the environment is gone after a stop. -/
def shutdown (handler : StorageHandler K V) : StorageHandler K V :=
  { handler with partitions := fun _ => none, namespaces := fun _ => none }

section

variable {handler : StorageHandler K V} {partitionId : String} {removed : PartitionHandler K}
  {ctx : NamespaceContext K} {database : Database K V} {left : Option (Database K V)}
  {iteration : Iteration (String × PartitionHandler K)}

/-- The deletion of a registered partition over the database of its namespace. -/
theorem deletePartition_registered (opened : handler.partitions partitionId = some removed)
    (managed : removed.manager = .bdb) (context : handler.namespaces removed.ns = some ctx)
    (listed : (partitionId, removed) ∈ ctx) (stored : handler.databases removed.ns = some database)
    (collected : databaseWithout removed (ctx.erase (partitionId, removed)) iteration database = .ok left) :
    handler.deletePartition partitionId iteration =
      (⟨Function.update handler.partitions partitionId none,
          Function.update handler.namespaces removed.ns (some (ctx.erase (partitionId, removed))),
          handler.partitionDb.delete partitionId,
          Function.update handler.databases removed.ns left⟩,
        .ok .deletePartitionResponse) := by
  simp only [deletePartition, opened, managed, context, listed, stored, if_true, collected]

/-- A failure in the transaction takes the partition out of the memory of the server only. -/
theorem deletePartition_failed {failure : Failure} (opened : handler.partitions partitionId = some removed)
    (managed : removed.manager = .bdb) (context : handler.namespaces removed.ns = some ctx)
    (listed : (partitionId, removed) ∈ ctx) (stored : handler.databases removed.ns = some database)
    (failed : databaseWithout removed (ctx.erase (partitionId, removed)) iteration database =
      .error failure) :
    handler.deletePartition partitionId iteration =
      ({ handler with
          partitions := Function.update handler.partitions partitionId none
          namespaces :=
            Function.update handler.namespaces removed.ns (some (ctx.erase (partitionId, removed))) },
        .error failure) := by
  simp only [deletePartition, opened, managed, context, listed, stored, if_true, failed]

theorem databaseWithout_improper {rest : NamespaceContext K} (others : rest ≠ [])
    (improper : ¬ (removed.span.Proper ∧ PartitionHandler.AllProper rest)) (database : Database K V)
    (iteration : Iteration (String × PartitionHandler K)) :
    ∃ failure, databaseWithout removed rest iteration database = .error failure := by
  have ordered : ¬ (removed.span.Proper ∧ PartitionHandler.AllProper (iteration.order rest)) :=
    fun proper => improper ⟨proper.1, fun that member =>
      proper.2 that ((iteration.perm rest).mem_iff.mpr member)⟩
  obtain ⟨failure, failed⟩ := PartitionHandler.collectGarbage_improper database ordered
  have nonempty : rest.isEmpty = false := by simpa using others
  exact ⟨failure, by
    simp only [databaseWithout, nonempty, Bool.false_eq_true, if_false, failed, error_bind]⟩

theorem databaseWithout_rest {rest : NamespaceContext K} (others : rest ≠ [])
    (own : removed.span.Proper) (proper : PartitionHandler.AllProper rest) (database : Database K V)
    (iteration : Iteration (String × PartitionHandler K)) :
    ∃ left : Database K V, databaseWithout removed rest iteration database = .ok (some left) ∧
      left.entries = database.entries.filter fun entry =>
        !(removed.span.contains entry.1 && !Span.covers (PartitionHandler.bdbSpans rest) entry.1) := by
  have ordered : PartitionHandler.AllProper (iteration.order rest) := fun that member =>
    proper that ((iteration.perm rest).mem_iff.mp member)
  obtain ⟨left, collected, entries⟩ := PartitionHandler.collectGarbage_entries database own ordered
  refine ⟨left, ?_, ?_⟩
  · have nonempty : rest.isEmpty = false := by simpa using others
    simp only [databaseWithout, nonempty, Bool.false_eq_true, if_false, collected, ok_bind, pure_eq_ok]
  · have same := fun key =>
      (PartitionHandler.bdbSpans_perm (iteration.perm rest)).any_eq (f := fun span => span.contains key)
    simpa only [Span.covers, same] using entries

/-- Deleting one of several partitions over the database of their namespace removes
the keys of its range that are in the range of no remaining one, and nothing else. -/
theorem deletePartition_collects_garbage (handler : StorageHandler K V)
    (iteration : Iteration (String × PartitionHandler K))
    (opened : handler.partitions partitionId = some removed)
    (context : handler.namespaces removed.ns = some ctx) (listed : (partitionId, removed) ∈ ctx)
    (several : 2 ≤ ctx.length)
    (shared : ∀ entry ∈ ctx, entry.2.manager = .bdb ∧ entry.2.span.Proper)
    (stored : handler.databases removed.ns = some database) :
    (handler.deletePartition partitionId iteration).2 = .ok .deletePartitionResponse ∧
      ∃ left, (handler.deletePartition partitionId iteration).1.databases removed.ns = some left ∧
        left.entries = database.entries.filter fun entry =>
          !(removed.span.contains entry.1 &&
            (ctx.erase (partitionId, removed)).all fun that => !that.2.span.contains entry.1) := by
  have managed := shared _ listed
  have among : ∀ that ∈ ctx.erase (partitionId, removed), that.2.manager = .bdb ∧ that.2.span.Proper :=
    fun that member => shared that (List.mem_of_mem_erase member)
  have others : ctx.erase (partitionId, removed) ≠ [] := by
    intro none
    have length := List.length_erase_of_mem listed
    rw [none, List.length_nil] at length
    omega
  obtain ⟨left, collected, entries⟩ := databaseWithout_rest others managed.2
    (fun that member _ => (among that member).2) database iteration
  rw [deletePartition_registered opened managed.1 context listed stored collected]
  refine ⟨rfl, left, by simp, ?_⟩
  have spans : PartitionHandler.bdbSpans (ctx.erase (partitionId, removed)) =
      (ctx.erase (partitionId, removed)).map fun that => that.2.span := by
    rw [PartitionHandler.bdbSpans, List.filter_eq_self.mpr]
    intro that member
    simpa using (among that member).1
  rw [entries, spans]
  refine List.filter_congr fun entry _ => ?_
  simp [Span.covers, List.not_any_eq_all_not]

/-- Three partitions over one database, as in the test of the collection. -/
def overlappingPartitions : NamespaceContext Nat :=
  [("testgc0", ⟨.bdb, "testgc", some 0, some 100⟩), ("testgc1", ⟨.bdb, "testgc", some 25, some 50⟩),
    ("testgc2", ⟨.bdb, "testgc", some 75, some 100⟩)]

def overlapping : StorageHandler Nat Nat where
  partitions := fun partitionId => overlappingPartitions.lookup partitionId
  namespaces := fun ns => if ns = "testgc" then some overlappingPartitions else none
  partitionDb := .empty
  databases := fun ns =>
    if ns = "testgc" then some ⟨[(10, 1), (30, 2), (60, 3), (80, 4)], by decide⟩ else none

theorem deletePartition_overlapping :
    ∃ left, (overlapping.deletePartition "testgc0" (.inserted _)).1.databases "testgc" = some left ∧
      left.entries = [(30, 2), (80, 4)] := by
  have result := @deletePartition_collects_garbage Nat Nat _ "testgc0"
    ⟨.bdb, "testgc", some 0, some 100⟩ overlappingPartitions
    ⟨[(10, 1), (30, 2), (60, 3), (80, 4)], by decide⟩ overlapping (.inserted _)
    (by decide) (by decide) (by decide) (by decide) ?_ ?_
  · obtain ⟨_, left, stored, entries⟩ := result
    exact ⟨left, stored, entries⟩
  · unfold Span.Proper
    decide
  · rfl

end

end StorageHandler

end Scads.Server
