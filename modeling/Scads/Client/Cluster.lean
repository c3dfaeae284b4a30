import Scads.Server.Records
import Scads.Client.PartitionRequests

namespace Scads.Client

open Scads.Data Scads.Comm Scads.Server Scads.Util

/-! # The storage servers of a namespace -/

/-- What the servers of a namespace find around them: the root of the namespace in
ZooKeeper and the names of the sequential nodes below it, the numbers of the
services, the order in which a hash set is iterated at a deletion, the iterator of
the configuration that reads the records of a copy, how Avro prints a reply and
what Berkeley DB says of a closed database. -/
structure Environment (K V : Type) [LinearOrder K] where
  ns : String
  partitionType : String
  root : Option NamespaceRoot
  sequentialNode : Nat → String
  sequentialNode_injective : Function.Injective sequentialNode
  serviceId : StorageService → Nat → ServiceId
  iteration : String → Iteration (String × PartitionHandler K)
  copyIterator : Option (Database K V) → Option K → Option K → Except String (List (K × V))
  printed : StorageResponse → String
  printedException : String → String
  databaseClosed : String

/-- The servers, the number of the next sequential node, and the partitions that
the servers have handed out. -/
structure Cluster {K V : Type} {order : LinearOrder K} (environment : Environment K V) where
  handlers : StorageService → StorageHandler K V
  nextNode : Nat
  issued : List PartitionService
  numbered : ∀ partition ∈ issued,
    ∃ number < nextNode, partition.partitionId = environment.sequentialNode number
  distinct : ∀ first ∈ issued, ∀ second ∈ issued, first.partitionId = second.partitionId → first = second

/-- `StorageService.toString`. -/
def showService (service : StorageService) : String :=
  service.id.toString ++ "@" ++ service.host ++ ":" ++ toString service.port

def unexpected (reply service : String) : Failure :=
  .runtime ("Unexpected message received: (" ++ reply ++ "," ++ service ++ ")")

namespace Cluster

variable {K V : Type} {order : LinearOrder K} {environment : Environment K V}
  (cluster : Cluster environment)

/-- The node of a new partition has a name that no partition has. -/
theorem fresh_node {partition : PartitionService} (known : partition ∈ cluster.issued) :
    partition.partitionId ≠ environment.sequentialNode cluster.nextNode := by
  obtain ⟨number, below, named⟩ := cluster.numbered partition known
  intro same
  rw [named] at same
  exact below.ne (environment.sequentialNode_injective same)

def answered (server : StorageService) (handler : StorageHandler K V) : Cluster environment :=
  { cluster with handlers := Function.update cluster.handlers server handler }

def withNode : Cluster environment :=
  { cluster with
    nextNode := cluster.nextNode + 1
    numbered := by
      intro partition known
      obtain ⟨number, below, named⟩ := cluster.numbered partition known
      exact ⟨number, Nat.lt_succ_of_lt below, named⟩ }

/-- The partition of the next node. -/
def named (server : StorageService) : PartitionService :=
  ⟨server.host, server.port, environment.serviceId server cluster.nextNode,
    environment.sequentialNode cluster.nextNode, server⟩

theorem named_fresh (server : StorageService) : cluster.named server ∉ cluster.issued :=
  fun known => cluster.fresh_node known rfl

def withPartition (server : StorageService) (handler : StorageHandler K V) : Cluster environment where
  handlers := Function.update cluster.handlers server handler
  nextNode := cluster.nextNode + 1
  issued := cluster.named server :: cluster.issued
  numbered := by
    intro partition known
    rcases List.mem_cons.mp known with rfl | known
    · exact ⟨cluster.nextNode, Nat.lt_succ_self _, rfl⟩
    · exact cluster.withNode.numbered partition known
  distinct := by
    intro first known second also same
    rcases List.mem_cons.mp known with rfl | known
    · rcases List.mem_cons.mp also with rfl | also
      · rfl
      · exact absurd same.symm (cluster.fresh_node also)
    · rcases List.mem_cons.mp also with rfl | also
      · exact absurd same (cluster.fresh_node known)
      · exact cluster.distinct first known second also same

/-- The handler that answers for a partition. -/
def opened (partition : PartitionService) : Option (PartitionHandler K) :=
  if partition ∈ cluster.issued then
    (cluster.handlers partition.storageService).partitions partition.partitionId
  else none

/-- The database of the namespace that a partition reads. -/
def source (partition : PartitionService) : Option (Database K V) := do
  let handler ← cluster.opened partition
  match handler.manager with
  | .bdb => (cluster.handlers partition.storageService).databases environment.ns
  | .inMemory => none

end Cluster

namespace Environment

variable {K V : Type} {order : LinearOrder K} (environment : Environment K V)

def createPartition (server : StorageService) (startKey endKey : Option K) :
    EStateM Failure (Cluster environment) PartitionService := fun cluster =>
  let handled := (cluster.handlers server).createPartition environment.root
    (environment.sequentialNode cluster.nextNode)
    ⟨environment.ns, environment.partitionType, startKey, endKey⟩
  match handled.2 with
  | .ok (.createPartitionResponse _) => .ok (cluster.named server) (cluster.withPartition server handled.1)
  | .ok reply =>
      .error (unexpected (environment.printed reply) (showService server))
        (cluster.withNode.answered server handled.1)
  | .error _ =>
      .error (.runtime "TIMEOUT")
        ((if environment.root.isSome then cluster.withNode else cluster).answered server handled.1)

def deletePartition (partition : PartitionService) : EStateM Failure (Cluster environment) Unit :=
  fun cluster =>
    let server := partition.storageService
    let handled := (cluster.handlers server).deletePartition partition.partitionId
      (environment.iteration partition.partitionId)
    match handled.2 with
    | .ok .deletePartitionResponse => .ok () (cluster.answered server handled.1)
    | .ok reply =>
        .error (unexpected (environment.printed reply) partition.toString)
          (cluster.answered server handled.1)
    | .error _ => .error (.runtime "TIMEOUT") (cluster.answered server handled.1)

def getResponsibility (partition : PartitionService) :
    EStateM Failure (Cluster environment) (Option K × Option K) := fun cluster =>
  match cluster.opened partition with
  | some handler => .ok (handler.startKey, handler.endKey) cluster
  | none => .error .timeout cluster

def putNoOverwrite (database : Database K V) (record : K × V) : Database K V :=
  if (database.get record.1).isSome then database else database.insert record.1 record.2

def copyData (newPartition oldPartition : PartitionService) :
    EStateM Failure (Cluster environment) Unit := fun cluster =>
  let server := newPartition.storageService
  let failed (cause : String) :=
    unexpected (environment.printedException cause) newPartition.toString
  match cluster.opened newPartition with
  | none => .error (.runtime "TIMEOUT") cluster
  | some handler =>
      match handler.manager with
      | .inMemory => .error (failed "Not Implemented") cluster
      | .bdb =>
          match environment.copyIterator (cluster.source oldPartition) handler.startKey handler.endKey,
              (cluster.handlers server).databases environment.ns with
          | .error cause, _ => .error (failed cause) cluster
          | .ok _, none => .error (failed environment.databaseClosed) cluster
          | .ok records, some database =>
              .ok () (cluster.answered server { cluster.handlers server with
                databases := Function.update (cluster.handlers server).databases environment.ns
                  (some (records.foldl putNoOverwrite database)) })

def servers : Servers K (Cluster environment) where
  createPartition := environment.createPartition
  deletePartition := environment.deletePartition
  getResponsibility := environment.getResponsibility
  copyData := environment.copyData

variable {environment} {cluster next : Cluster environment} {server : StorageService}
  {startKey endKey : Option K} {partition other : PartitionService}

/-- The handler of a partition of the namespace. -/
def handler (environment : Environment K V) (bounds : Option K × Option K) : PartitionHandler K :=
  (CreatePartitionRequest.mk environment.ns environment.partitionType bounds.1 bounds.2).handler

theorem createPartition_ok
    (created : environment.createPartition server startKey endKey cluster = .ok partition next) :
    partition = cluster.named server ∧ ∃ opened,
      (cluster.handlers server).Opened (environment.sequentialNode cluster.nextNode)
        (environment.handler (startKey, endKey)) opened ∧
      next = cluster.withPartition server opened := by
  simp only [createPartition] at created
  split at created
  · rename_i _ _ replied
    cases created
    exact ⟨rfl, _, StorageHandler.createPartition_creates replied, rfl⟩
  · cases created
  · cases created

theorem deletePartition_ok : environment.deletePartition partition cluster = .ok () next ↔
    ((cluster.handlers partition.storageService).deletePartition partition.partitionId
        (environment.iteration partition.partitionId)).2 = .ok .deletePartitionResponse ∧
      next = cluster.answered partition.storageService
        ((cluster.handlers partition.storageService).deletePartition partition.partitionId
          (environment.iteration partition.partitionId)).1 := by
  constructor
  · intro deleted
    simp only [deletePartition] at deleted
    split at deleted
    · rename_i replied
      cases deleted
      exact ⟨replied, rfl⟩
    · cases deleted
    · cases deleted
  · intro found
    obtain ⟨replied, rfl⟩ := found
    simp only [deletePartition, replied]

theorem getResponsibility_ok {bounds : Option K × Option K} :
    environment.getResponsibility partition cluster = .ok bounds next ↔
      next = cluster ∧ (cluster.opened partition).map (fun handler => (handler.startKey, handler.endKey)) =
        some bounds := by
  simp only [getResponsibility]
  cases cluster.opened partition with
  | none => simp
  | some handler => simp [and_comm, eq_comm]

/-- A copy writes to the database of the namespace on the server of the new partition. -/
theorem copyData_ok (copied : environment.copyData partition other cluster = .ok () next) :
    ∃ databases, next = cluster.answered partition.storageService
      { cluster.handlers partition.storageService with databases } := by
  simp only [copyData] at copied
  split at copied
  · cases copied
  · split at copied
    · cases copied
    · split at copied
      · cases copied
      · cases copied
      · cases copied
        exact ⟨_, rfl⟩

theorem opened_withPartition {opened : StorageHandler K V} {handler : PartitionHandler K}
    (created : (cluster.handlers server).Opened (environment.sequentialNode cluster.nextNode) handler opened) :
    (cluster.withPartition server opened).opened (cluster.named server) = some handler := by
  have listed : cluster.named server ∈ (cluster.withPartition server opened).issued := List.mem_cons_self
  rw [Cluster.opened, if_pos listed]
  change (Function.update cluster.handlers server opened server).partitions _ = _
  rw [Function.update_self, created.partitions]
  exact Function.update_self ..

theorem opened_withPartition_other {opened : StorageHandler K V} {handler : PartitionHandler K}
    (created : (cluster.handlers server).Opened (environment.sequentialNode cluster.nextNode) handler opened)
    (different : other ≠ cluster.named server) :
    (cluster.withPartition server opened).opened other = cluster.opened other := by
  have listed : other ∈ (cluster.withPartition server opened).issued ↔ other ∈ cluster.issued :=
    List.mem_cons.trans (or_iff_right different)
  simp only [Cluster.opened, listed]
  split
  · rename_i known
    simp only [Cluster.withPartition, Function.update_apply]
    split
    · rename_i same
      rw [created.partitions, Function.update_of_ne (cluster.fresh_node known), same]
    · rfl
  · rfl

theorem opened_answered {handler : StorageHandler K V} (kept : other ∈ cluster.issued →
      handler.partitions other.partitionId = (cluster.handlers server).partitions other.partitionId) :
    (cluster.answered server handler).opened other = cluster.opened other := by
  by_cases listed : other ∈ cluster.issued
  · have still : other ∈ (cluster.answered server handler).issued := listed
    rw [Cluster.opened, Cluster.opened, if_pos still, if_pos listed, Cluster.answered]
    simp only [Function.update_apply]
    split
    · rename_i same
      rw [kept listed, same]
    · rfl
  · have still : other ∉ (cluster.answered server handler).issued := listed
    rw [Cluster.opened, Cluster.opened, if_neg still, if_neg listed]

/-- The partitions of the servers and what the requests do to them. -/
def registry (environment : Environment K V) : Registry environment.servers where
  live cluster partition :=
    (cluster.opened partition).map fun (handler : PartitionHandler K) => (handler.startKey, handler.endKey)
  issued cluster partition := partition ∈ cluster.issued
  live_issued := by
    intro cluster partition bounds found
    by_contra unknown
    simp [Cluster.opened, unknown] at found
  created := by
    intro server startKey endKey cluster partition next created
    obtain ⟨rfl, opened, new, rfl⟩ := createPartition_ok created
    refine ⟨rfl, cluster.named_fresh server, fun other => List.mem_cons, ?_, fun other different => ?_⟩
    · rw [opened_withPartition new]
      rfl
    · rw [opened_withPartition_other new different]
  deleted := by
    intro partition cluster next known deleted
    obtain ⟨_, rfl⟩ := deletePartition_ok.mp deleted
    refine ⟨fun other => Iff.rfl, fun other different => ?_⟩
    rw [opened_answered]
    intro listed
    have separate : other.partitionId ≠ partition.partitionId :=
      fun same => different (cluster.distinct other listed partition known same)
    rw [StorageHandler.deletePartition_partitions, Function.update_of_ne separate]
  answered := getResponsibility_ok
  copied := by
    intro newPartition oldPartition cluster next copied
    obtain ⟨databases, rfl⟩ := copyData_ok copied
    refine ⟨fun other => Iff.rfl, fun other => ?_⟩
    rw [opened_answered]
    exact fun _ => rfl

end Environment

end Scads.Client
