import Scads.Client.RoutedRuns

namespace Scads.Client

open Scads.Data Scads.Comm Scads.Server Scads.Util RangeTable

/-! # What the requests of a call keep

A call changes the servers by its requests only, so what all of them keep holds after it.
-/

namespace Routable

variable {R K σ : Type} [DecidableEq K] [ToString K] {routable : Routable R K σ} {holds : σ → Prop}

omit [DecidableEq K] [ToString K] in
theorem onCluster_keeps {α : Type} {program : EStateM Failure σ α} (keeps : Keeps holds program) :
    Keeps (fun ns : RoutedNamespace K σ => holds ns.cluster) (onCluster program) :=
  keeps_zoom keeps fun _ _ => rfl

omit [DecidableEq K] [ToString K] in
theorem setTable_keeps (routingTable : RoutingTable K) :
    Keeps (fun ns : RoutedNamespace K σ => holds ns.cluster) (setTable routingTable) :=
  keeps_modify fun _ held => held

omit [DecidableEq K] in
theorem createRoutingTable_keeps (ranges : List (RangeType K PartitionService)) :
    Keeps (fun ns : RoutedNamespace K σ => holds ns.cluster) (routable.createRoutingTable ranges) :=
  (keeps_ofExcept _ _).bind fun _ => setTable_keeps _

theorem storeRoutingTable_keeps (registry : Registry routable.servers) :
    Keeps (fun ns => holds ns.cluster) routable.storeRoutingTable := by
  intro ns value next checked held
  obtain ⟨rfl, _⟩ := (storeRoutingTable_ok registry).mp checked
  exact held

omit [DecidableEq K] [ToString K] in
theorem getStartEndKey_keeps (registry : Registry routable.servers) (partition : PartitionService) :
    Keeps (fun ns => holds ns.cluster) (routable.getStartEndKey partition) := by
  intro ns bounds next read held
  obtain ⟨rfl, _⟩ := (getStartEndKey_ok registry).mp read
  exact held

section

variable (creates : ∀ server startKey endKey, Keeps holds (routable.servers.createPartition server startKey endKey))

include creates

omit [DecidableEq K] [ToString K] in
theorem createPartitions_keeps (startKey endKey : Option K) (servers : List StorageService) :
    Keeps (fun ns => holds ns.cluster) (routable.createPartitions startKey endKey servers) := by
  refine keeps_awaitAll fun program member => ?_
  obtain ⟨server, _, rfl⟩ := List.mem_map.mp member
  refine (onCluster_keeps (creates server startKey endKey)).bind fun partition => ?_
  refine Keeps.bind ?_ fun _ => keeps_pure _ _
  exact keeps_modify fun _ held => held

omit [DecidableEq K] in
theorem splitAt_keeps (key : K) : Keeps (fun ns => holds ns.cluster) (routable.splitAt key) := by
  intro ns old next ran held
  obtain ⟨_, bound, left, between, right, last, table, _, _, first, second, _, rfl⟩ := splitAt_ran ran
  have half := createPartitions_keeps creates _ _ _ _ _ _ first held
  have full := createPartitions_keeps creates _ _ _ _ _ _ second half
  exact full

omit [DecidableEq K] in
theorem mergeAt_keeps (key : K) : Keeps (fun ns => holds ns.cluster) (routable.mergeAt key) := by
  intro ns old next ran held
  obtain ⟨_, bound, values, last, table, _, _, made, _, rfl⟩ := mergeAt_ran ran
  have kept := createPartitions_keeps creates _ _ _ _ _ _ made held
  exact kept

omit [DecidableEq K] in
theorem replicateOn_keeps (registry : Registry routable.servers) (target : PartitionService × StorageService) :
    Keeps (fun ns => holds ns.cluster) (routable.replicateOn target) := by
  refine (getStartEndKey_keeps registry target.1).bind fun bounds => ?_
  refine (createPartitions_keeps creates bounds.1 bounds.2 [target.2]).bind fun partitions => ?_
  cases partitions with
  | nil => exact keeps_throw _ _
  | cons partition others =>
      refine (keeps_get _).bind fun ns => (keeps_ofExcept _ _).bind fun table => ?_
      exact (setTable_keeps table).bind fun _ => keeps_pure _ _

omit [DecidableEq K] [ToString K] in
theorem createScheme_keeps (earlier : List (Option K × List StorageService)) (endKey : Option K)
    (rTable : List (RangeType K PartitionService)) :
    Keeps (fun ns => holds ns.cluster) (routable.createScheme earlier endKey rTable) := by
  induction earlier generalizing endKey rTable with
  | nil => exact keeps_pure _ _
  | cons entry rest ih => exact (createPartitions_keeps creates entry.1 endKey entry.2).bind fun handlers => ih _ _

/-- What creations keep is kept until a call stores its table. -/
theorem edit_keeps (registry : Registry routable.servers) (made : Call R K) :
    Keeps (fun ns => holds ns.cluster) (routable.edit made) := by
  cases made with
  | splitPartition splitKeys =>
      exact (keeps_mapM fun key _ => splitAt_keeps creates key).bind fun _ => keeps_pure _ _
  | mergePartition mergeKeys =>
      exact (keeps_mapM fun key _ => mergeAt_keeps creates key).bind fun _ => keeps_pure _ _
  | deletePartitions partitionHandlers =>
      refine keeps_forM fun partition _ => (getStartEndKey_keeps registry partition).bind fun bounds => ?_
      exact (keeps_get _).bind fun ns => (keeps_ofExcept _ _).bind fun table => setTable_keeps table
  | replicatePartitions targets =>
      exact (keeps_mapM fun target _ => replicateOn_keeps creates registry target).bind fun _ => keeps_pure _ _
  | setPartitionScheme scheme =>
      refine (keeps_ofExcept _ _).bind fun _ => (keeps_ofExcept _ _).bind fun _ => ?_
      exact (createScheme_keeps creates scheme.reverse none []).bind fun rTable => createRoutingTable_keeps rTable

end

section

variable (deletes : ∀ partition, Keeps holds (routable.servers.deletePartition partition))

include deletes

omit [DecidableEq K] [ToString K] in
theorem deletePartitionServices_keeps (arrival : Iteration PartitionService) (partitions : List PartitionService) :
    Keeps (fun ns => holds ns.cluster) (routable.deletePartitionServices arrival partitions) := by
  refine Keeps.bind (keeps_modify fun _ => ?_) fun _ => (keeps_awaitAll fun program member => ?_).bind fun _ =>
    keeps_pure _ _
  · exact id
  · obtain ⟨partition, _, rfl⟩ := List.mem_map.mp member
    exact onCluster_keeps (deletes partition)

end

/-- What creations and deletions keep is kept by a call that copies no records. -/
theorem call_keeps (registry : Registry routable.servers)
    (creates : ∀ server startKey endKey, Keeps holds (routable.servers.createPartition server startKey endKey))
    (deletes : ∀ partition, Keeps holds (routable.servers.deletePartition partition))
    (arrival : Iteration PartitionService) {made : Call R K} (fills : ∀ targets, made ≠ .replicatePartitions targets) :
    Keeps (fun ns => holds ns.cluster) (routable.call arrival made) := by
  have stores : Keeps (fun ns => holds ns.cluster) routable.storeRoutingTable := storeRoutingTable_keeps registry
  cases made with
  | splitPartition splitKeys =>
      refine (keeps_mapM fun key _ => splitAt_keeps creates key).bind fun old => stores.bind fun _ => ?_
      exact keeps_forM fun group _ => deletePartitionServices_keeps deletes arrival group
  | mergePartition mergeKeys =>
      refine (keeps_mapM fun key _ => mergeAt_keeps creates key).bind fun old => stores.bind fun _ => ?_
      exact keeps_forM fun pair _ => (deletePartitionServices_keeps deletes arrival pair.1).bind fun _ =>
        deletePartitionServices_keeps deletes arrival pair.2
  | deletePartitions partitionHandlers =>
      refine Keeps.bind (edit_keeps creates registry (.deletePartitions partitionHandlers)) fun _ => ?_
      exact stores.bind fun _ => deletePartitionServices_keeps deletes arrival partitionHandlers
  | replicatePartitions targets => exact absurd rfl (fills targets)
  | setPartitionScheme scheme =>
      refine (keeps_ofExcept _ _).bind fun _ => (keeps_ofExcept _ _).bind fun _ => (keeps_get _).bind fun ns => ?_
      refine (createScheme_keeps creates scheme.reverse none []).bind fun rTable => ?_
      refine (createRoutingTable_keeps rTable).bind fun _ => stores.bind fun _ => ?_
      exact deletePartitionServices_keeps deletes arrival _

end Routable

end Scads.Client
