import Mathlib.Logic.Function.Basic
import Scads.Data.Programs
import Scads.Data.Runs
import Scads.Server.GarbageCollection
import Scads.Client.Routable

namespace Scads.Client

open Scads.Data Scads.Comm Scads.Server Scads.Util

/-! # Repartitioning

A namespace changes its partitions by making new ones, replacing the routing table
and deleting what the table no longer lists.
-/

/-- What the client asks of the storage servers and of the partitions on them. -/
structure Servers (K σ : Type) where
  createPartition : StorageService → Option K → Option K → EStateM Failure σ PartitionService
  deletePartition : PartitionService → EStateM Failure σ Unit
  getResponsibility : PartitionService → EStateM Failure σ (Option K × Option K)
  copyData : PartitionService → PartitionService → EStateM Failure σ Unit

/-- How a namespace routes its keys, and the servers it is on. -/
structure Routable (R K σ : Type) where
  servers : Servers K σ
  convertToRoutingKey : R → K
  routingKeyComp : K → K → Int

/-- The routing table of the client, the one in the metadata, and the servers.  The
partitions that the client was given for its requests and those that it asked to
delete are on record. -/
structure RoutedNamespace (K σ : Type) where
  routingTable : RoutingTable K
  stored : List (RangeType K PartitionService)
  cluster : σ
  creations : List (PartitionService × Option K × Option K)
  deletions : List PartitionService

/-- A method of the client. -/
abbrev Method (K σ : Type) := EStateM Failure (RoutedNamespace K σ)

def mergeCond (a b : List PartitionService) : Bool :=
  a.length = b.length && (a.zip b).all fun pair => pair.1.storageService.id = pair.2.storageService.id

def showRange {K : Type} [ToString K] (range : RangeType K PartitionService) : String :=
  "[" ++ showStartKey range.startKey ++ ":(" ++
    ",".intercalate (range.values.map PartitionService.toString) ++ ")]"

def showTable {K : Type} [ToString K] (table : RoutingTable K) : String :=
  "RTable(" ++ table.rTable.foldl (fun text range => text ++ " " ++ showRange range) "" ++ ")"

def corrupted {K : Type} [ToString K] (table : RoutingTable K) (partition : PartitionService)
    (keys bounds : Option K × Option K) : Failure :=
  .assertion ("assertion failed: The routing table is corrupted. Partition: " ++ partition.toString ++
    " with key [" ++ showStartKey keys.1 ++ "," ++ showStartKey keys.2 ++ "] != [" ++
    showStartKey bounds.1 ++ "," ++ showStartKey bounds.2 ++ "] from table:" ++ showTable table)

namespace Routable

variable {R K σ : Type} [DecidableEq K] [ToString K] (routable : Routable R K σ)

def onCluster {α : Type} (program : EStateM Failure σ α) : Method K σ α :=
  zoom RoutedNamespace.cluster (fun cluster ns => { ns with cluster }) program

def setTable (routingTable : RoutingTable K) : Method K σ Unit :=
  modify fun ns => { ns with routingTable }

def createRoutingTable (ranges : List (RangeType K PartitionService)) : Method K σ Unit := do
  setTable (← ofExcept (RangeTable.create ranges routable.routingKeyComp mergeCond))

def requestPartition (startKey endKey : Option K) (server : StorageService) :
    Method K σ PartitionService := do
  let partition ← onCluster (routable.servers.createPartition server startKey endKey)
  modify fun ns => { ns with creations := (partition, startKey, endKey) :: ns.creations }
  return partition

def createPartitions (startKey endKey : Option K) (servers : List StorageService) :
    Method K σ (List PartitionService) :=
  awaitAll (servers.map (routable.requestPartition startKey endKey))

/-- The requests are sent together and reach the servers in any order. -/
def deletePartitionServices (arrival : Iteration PartitionService) (partitions : List PartitionService) :
    Method K σ Unit := do
  modify fun ns => { ns with deletions := ns.deletions ++ partitions }
  let _ ← awaitAll ((arrival.order partitions).map fun partition =>
    onCluster (routable.servers.deletePartition partition))

def getStartEndKey (partition : PartitionService) : Method K σ (Option K × Option K) :=
  onCluster (routable.servers.getResponsibility partition)

def validatePartition (startKey endKey : Option K) (partition : PartitionService) : Method K σ Unit := do
  let keys ← routable.getStartEndKey partition
  if keys ≠ (startKey, endKey) then
    throw (corrupted (← get).routingTable partition keys (startKey, endKey))

/-- The loop over the ranges from the last to the first. -/
def validateRanges : List (RangeType K PartitionService) → Option K → Method K σ Unit
  | [], _ => pure ()
  | range :: earlier, endKey => do
      range.values.forM (routable.validatePartition range.startKey endKey)
      validateRanges earlier range.startKey

def validateRoutingTable : Method K σ Bool := do
  routable.validateRanges (← get).routingTable.rTable.reverse none
  return true

def storeRoutingTable : Method K σ Unit := do
  if ← routable.validateRoutingTable then
    modify fun ns => { ns with stored := ns.routingTable.rTable }
  else
    throw (.assertion "assertion failed: Holy shit, we are about to store a crappy Routing Table.")

/-- What `split` or `merge` of the table returns.  The table that is `null` is used at once. -/
def replaceTable (changed : Except Failure (Option (RoutingTable K))) : Method K σ Unit := do
  match ← ofExcept changed with
  | none => throw .nullPointer
  | some table => setTable table

def splitAt (splitPoint : K) : Method K σ (List PartitionService) := do
  let table := (← get).routingTable
  if table.isSplitKey splitPoint then
    throw (.illegalArgument "requirement failed")
  let bound ← ofExcept (table.lowerUpperBound (some splitPoint))
  let oldPartitions := bound.center.values
  let storageServers := oldPartitions.map (·.storageService)
  let leftPart ← routable.createPartitions bound.center.startKey (some splitPoint) storageServers
  let rightPart ← routable.createPartitions (some splitPoint) bound.right.startKey storageServers
  replaceTable (table.split splitPoint leftPart rightPart)
  return oldPartitions

def splitPartition (arrival : Iteration PartitionService) (splitKeys : List R) : Method K σ Unit := do
  let oldPartitions ← (splitKeys.map routable.convertToRoutingKey).mapM routable.splitAt
  routable.storeRoutingTable
  oldPartitions.forM (routable.deletePartitionServices arrival)

def mergeAt (mergeKey : K) : Method K σ (List PartitionService × List PartitionService) := do
  let table := (← get).routingTable
  unless ← ofExcept (table.checkMergeCondition (table.binarySearch (some mergeKey))) do
    throw (.illegalArgument ("requirement failed: Either the key is not a split key, " ++
      "or the sets are different and can not be merged"))
  let bound ← ofExcept (table.lowerUpperBound (some mergeKey))
  let leftPart := bound.left.values
  let rightPart := bound.center.values
  let storageServers := leftPart.map (·.storageService)
  let mergePartition ← routable.createPartitions bound.left.startKey bound.right.startKey storageServers
  replaceTable (table.merge mergeKey mergePartition)
  return (leftPart, rightPart)

def mergePartition (arrival : Iteration PartitionService) (mergeKeys : List R) : Method K σ Unit := do
  let oldPartitions ← (mergeKeys.map routable.convertToRoutingKey).mapM routable.mergeAt
  routable.storeRoutingTable
  oldPartitions.forM fun (leftPart, rightPart) => do
    routable.deletePartitionServices arrival leftPart
    routable.deletePartitionServices arrival rightPart

def removePartition (partitionHandler : PartitionService) : Method K σ Unit := do
  let (startKey, _) ← routable.getStartEndKey partitionHandler
  setTable (← ofExcept ((← get).routingTable.removeValueFromRange startKey partitionHandler))

def deletePartitions (arrival : Iteration PartitionService) (partitionHandlers : List PartitionService) :
    Method K σ Unit := do
  partitionHandlers.forM routable.removePartition
  routable.storeRoutingTable
  routable.deletePartitionServices arrival partitionHandlers

def replicateOn (target : PartitionService × StorageService) :
    Method K σ (PartitionService × PartitionService) := do
  let (startKey, endKey) ← routable.getStartEndKey target.1
  match ← routable.createPartitions startKey endKey [target.2] with
  | [] => throw (.noSuchElement "head of empty list")
  | newPartition :: _ =>
      setTable (← ofExcept ((← get).routingTable.addValueToRange startKey newPartition))
      return (newPartition, target.1)

def replicatePartitions (targets : List (PartitionService × StorageService)) :
    Method K σ (List PartitionService) := do
  let result ← targets.mapM routable.replicateOn
  routable.storeRoutingTable
  let _ ← awaitAll (result.map fun (newPartition, oldPartition) =>
    onCluster (routable.servers.copyData newPartition oldPartition))
  return result.map Prod.fst

/-- The loop over the scheme from its last entry to its first. -/
def createScheme : List (Option K × List StorageService) → Option K →
    List (RangeType K PartitionService) → Method K σ (List (RangeType K PartitionService))
  | [], _, rTable => return rTable
  | (startKey, servers) :: earlier, endKey, rTable => do
      let handlers ← routable.createPartitions startKey endKey servers
      createScheme earlier startKey (⟨startKey, handlers⟩ :: rTable)

def setPartitionScheme (arrival : Iteration PartitionService)
    (scheme : List (Option K × List StorageService)) : Method K σ Unit := do
  ofExcept (require (decide (1 ≤ scheme.length)) "Scheme must have at least 1 entry")
  ofExcept (require (decide (scheme.head?.map Prod.fst = some none)) "first entry in scheme must be None")
  let oldServices := ((← get).routingTable.rTable.flatMap RangeType.values).eraseDups
  let rTable ← routable.createScheme scheme.reverse none []
  routable.createRoutingTable rTable
  routable.storeRoutingTable
  routable.deletePartitionServices arrival oldServices

inductive Call (R K : Type) where
  | splitPartition (splitKeys : List R)
  | mergePartition (mergeKeys : List R)
  | deletePartitions (partitionHandlers : List PartitionService)
  | replicatePartitions (targets : List (PartitionService × StorageService))
  | setPartitionScheme (scheme : List (Option K × List StorageService))

/-- A call, with the order in which its deletions reach the servers. -/
def call (arrival : Iteration PartitionService) : Call R K → Method K σ Unit
  | .splitPartition splitKeys => routable.splitPartition arrival splitKeys
  | .mergePartition mergeKeys => routable.mergePartition arrival mergeKeys
  | .deletePartitions partitionHandlers => routable.deletePartitions arrival partitionHandlers
  | .replicatePartitions targets => do
      let _ ← routable.replicatePartitions targets
  | .setPartitionScheme scheme => routable.setPartitionScheme arrival scheme

/-- A call that returns. -/
def step (ns : RoutedNamespace K σ) (called : Call R K × Iteration PartitionService) :
    Option (RoutedNamespace K σ) :=
  match routable.call called.2 called.1 ns with
  | .ok _ next => some next
  | .error _ _ => none

/-- The client before it has a table. -/
def unopened (cluster : σ) : RoutedNamespace K σ :=
  ⟨⟨[], routable.routingKeyComp, mergeCond⟩, [], cluster, [], []⟩

/-- `doCreate`: a new namespace has one partition on one of the servers. -/
def doCreate (server : StorageService) : Method K σ Unit := do
  let partitionHandlers ← routable.createPartitions none none [server]
  routable.createRoutingTable [⟨none, partitionHandlers⟩]
  routable.storeRoutingTable

end Routable

end Scads.Client
