import Scads.Client.RoutedRanges
import Scads.Data.SecondaryIndex

namespace Scads.Client

open Scads.Data Scads.Comm Scads.Server Scads.Util RangeTable

/-! # Servers that answer

A scheme can be set as long as the servers make the partitions they are asked for and
delete those they have.
-/

/-- From the sound states on the servers make and delete partitions. -/
structure Answering {K σ : Type} {servers : Servers K σ} (registry : Registry servers) (sound : σ → Prop) :
    Prop where
  creates : ∀ server startKey endKey {cluster}, sound cluster → ∃ partition next,
    servers.createPartition server startKey endKey cluster = .ok partition next ∧ sound next
  deletes : ∀ {partition bounds cluster}, sound cluster → registry.live cluster partition = some bounds →
    ∃ next, servers.deletePartition partition cluster = .ok () next ∧ sound next

namespace Routable

variable {R K σ : Type} {routable : Routable R K σ} {registry : Registry routable.servers}
  {sound : σ → Prop} {ns middle next : RoutedNamespace K σ}

theorem requestPartition_returns (answering : Answering registry sound) (startKey endKey : Option K)
    (server : StorageService) (start : sound ns.cluster) :
    ∃ partition next, routable.requestPartition startKey endKey server ns = .ok partition next ∧
      sound next.cluster := by
  obtain ⟨partition, cluster, made, kept⟩ := answering.creates server startKey endKey start
  exact ⟨partition, _, bind_ok.mpr ⟨partition, _, onCluster_ok.mpr ⟨cluster, made, rfl⟩, rfl⟩, kept⟩

theorem createPartitions_returns (answering : Answering registry sound) (startKey endKey : Option K)
    (servers : List StorageService) (start : sound ns.cluster) :
    ∃ partitions next, routable.createPartitions startKey endKey servers ns = .ok partitions next ∧
      sound next.cluster := by
  have ran : ∃ partitions next,
      (servers.map (routable.requestPartition startKey endKey)).mapM id ns = .ok partitions next ∧
        sound next.cluster := by
    induction servers generalizing ns with
    | nil => exact ⟨[], ns, rfl, start⟩
    | cons server rest ih =>
        obtain ⟨partition, between, one, kept⟩ := requestPartition_returns answering startKey endKey server start
        obtain ⟨partitions, next, others, last⟩ := ih kept
        refine ⟨partition :: partitions, next, ?_, last⟩
        rw [List.map_cons, List.mapM_cons]
        exact bind_ok.mpr ⟨partition, between, one, bind_ok.mpr ⟨partitions, next, others, rfl⟩⟩
  obtain ⟨partitions, next, ran, kept⟩ := ran
  exact ⟨partitions, next, awaitAll_of_mapM ran, kept⟩

/-- Every partition of the ranges is live on the range that lists it. -/
abbrev LiveRanges (registry : Registry routable.servers) (ns : RoutedNamespace K σ)
    (ranges : List (RangeType K PartitionService)) : Prop :=
  Aligned (fun partition bounds => registry.live ns.cluster partition = some bounds) none ranges

/-- New partitions leave the ones that live alone. -/
theorem LiveRanges.grown {ranges : List (RangeType K PartitionService)}
    {made : List (PartitionService × Option K × Option K)} (live : LiveRanges registry ns ranges)
    (grown : Grown registry ns made next) : LiveRanges registry next ranges :=
  live.imp fun _ _ _ _ _ held => (grown.live (registry.live_issued held)).trans held

theorem createScheme_returns (answering : Answering registry sound)
    {earlier : List (Option K × List StorageService)} {endKey : Option K}
    {rTable : List (RangeType K PartitionService)} {made : List (PartitionService × Option K × Option K)}
    (start : sound middle.cluster) (grown : Grown registry ns made middle) (live : LiveRanges registry middle rTable)
    (stop : endKey = startOr none rTable) :
    ∃ result made next, routable.createScheme earlier endKey rTable middle = .ok result next ∧
      sound next.cluster ∧ Grown registry ns made next ∧ LiveRanges registry next result ∧
      result.map RangeType.startKey = earlier.reverse.map Prod.fst ++ rTable.map RangeType.startKey := by
  induction earlier generalizing endKey rTable made middle with
  | nil => exact ⟨rTable, made, middle, rfl, start, grown, live, rfl⟩
  | cons entry rest ih =>
      obtain ⟨startKey, servers⟩ := entry
      obtain ⟨handlers, between, one, kept⟩ := createPartitions_returns answering startKey endKey servers start
      have new := (createPartitions_grown registry one).2
      have listed : LiveRanges registry between (⟨startKey, handlers⟩ :: rTable) := by
        refine ⟨fun partition member => ?_, live.grown new⟩
        rw [← stop]
        exact new.opened _ (List.mem_map_of_mem member)
      obtain ⟨result, all, next, others, last, whole, aligned, starts⟩ := ih kept (grown.trans new) listed rfl
      refine ⟨result, all, next, ?_, last, whole, aligned, ?_⟩
      · rw [createScheme]
        exact bind_ok.mpr ⟨handlers, between, one, others⟩
      · rw [starts, List.reverse_cons, List.map_append, List.append_assoc]
        rfl

theorem deletePartitionServices_returns (answering : Answering registry sound)
    {arrival : Iteration PartitionService} {partitions : List PartitionService} (start : sound ns.cluster)
    (once : partitions.Nodup)
    (live : ∀ partition ∈ partitions, ∃ bounds, registry.live ns.cluster partition = some bounds) :
    ∃ next, routable.deletePartitionServices arrival partitions ns = .ok () next := by
  have ran : ∀ (partitions : List PartitionService) (ns : RoutedNamespace K σ), sound ns.cluster → partitions.Nodup →
      (∀ partition ∈ partitions, ∃ bounds, registry.live ns.cluster partition = some bounds) →
      ∃ replies next, ((partitions.map fun partition =>
        onCluster (routable.servers.deletePartition partition)).mapM id : Method K σ (List Unit)) ns =
          .ok replies next := by
    intro partitions
    induction partitions with
    | nil => exact fun ns _ _ _ => ⟨[], ns, rfl⟩
    | cons partition rest ih =>
        intro ns start once live
        rw [List.forall_mem_cons] at live
        obtain ⟨bounds, held⟩ := live.1
        obtain ⟨cluster, deleted, kept⟩ := answering.deletes start held
        obtain ⟨absent, once⟩ := List.nodup_cons.mp once
        have others := (registry.deleted (registry.live_issued held) deleted).2
        obtain ⟨replies, next, later⟩ := ih { ns with cluster } kept once fun other member => by
          rw [others other fun same => absent (same ▸ member)]
          exact live.2 other member
        refine ⟨() :: replies, next, ?_⟩
        rw [List.map_cons, List.mapM_cons]
        exact bind_ok.mpr ⟨(), _, onCluster_ok.mpr ⟨cluster, deleted, rfl⟩, bind_ok.mpr ⟨replies, next, later, rfl⟩⟩
  have permuted := arrival.perm partitions
  obtain ⟨replies, next, later⟩ := ran (arrival.order partitions)
    { ns with deletions := ns.deletions ++ partitions } start (permuted.nodup_iff.mpr once)
    fun partition member => live partition (permuted.mem_iff.mp member)
  exact ⟨next, bind_ok.mpr ⟨_, _, rfl, bind_ok.mpr ⟨replies, next, awaitAll_of_mapM later, rfl⟩⟩⟩

variable [DecidableEq K] [ToString K]

/-- A scheme that passes the checks is set, whatever its keys are. -/
theorem setPartitionScheme_returns (answering : Answering registry sound) {arrival : Iteration PartitionService}
    {scheme : List (Option K × List StorageService)} (start : sound ns.cluster)
    (opened : scheme.head?.map Prod.fst = some none)
    (live : ∀ range ∈ ns.routingTable.rTable, ∀ partition ∈ range.values,
      ∃ bounds, registry.live ns.cluster partition = some bounds) :
    ∃ next, routable.setPartitionScheme arrival scheme ns = .ok .unit next := by
  have nonempty : 1 ≤ scheme.length := by
    cases scheme with
    | nil => cases opened
    | cons => exact Nat.succ_pos _
  obtain ⟨rTable, made, middle, created, kept, grown, held, starts⟩ :=
    @createScheme_returns _ _ _ _ _ _ ns ns answering scheme.reverse none [] [] start (.refl ns) trivial rfl
  rw [List.reverse_reverse, List.map_nil, List.append_nil] at starts
  have head : rTable.head?.map RangeType.startKey = some none := by
    rw [← List.head?_map, starts, List.head?_map, opened]
  let table : RoutingTable K := ⟨rTable, routable.routingKeyComp, mergeCond⟩
  have built : routable.createRoutingTable rTable middle = .ok .unit { middle with routingTable := table } :=
    bind_ok.mpr ⟨table, middle, ofExcept_ok.mpr ⟨create_of_head _ _ head, rfl⟩, rfl⟩
  let replaced : RoutedNamespace K σ := { middle with routingTable := table }
  have stored : routable.storeRoutingTable replaced = .ok .unit { replaced with stored := rTable } :=
    (storeRoutingTable_ok registry).mpr ⟨rfl, held⟩
  obtain ⟨next, deleted⟩ := @deletePartitionServices_returns _ _ _ _ _ _ { replaced with stored := rTable } answering
    arrival _ kept (nodup_eraseDups (ns.routingTable.rTable.flatMap RangeType.values)) fun partition member => by
      obtain ⟨range, among, listed⟩ := List.mem_flatMap.mp (List.mem_eraseDups.mp member)
      obtain ⟨bounds, found⟩ := live range among partition listed
      exact ⟨bounds, (grown.live (registry.live_issued found)).trans found⟩
  refine ⟨next, ?_⟩
  rw [setPartitionScheme]
  have long : (ofExcept (require (decide (1 ≤ scheme.length)) "Scheme must have at least 1 entry") :
      Method K σ Unit) ns = .ok () ns := by
    rw [require, if_pos (decide_eq_true nonempty)]
    rfl
  have first : (ofExcept (require (decide (scheme.head?.map Prod.fst = some none))
      "first entry in scheme must be None") : Method K σ Unit) ns = .ok () ns := by
    rw [require, if_pos (decide_eq_true opened)]
    rfl
  refine bind_ok.mpr ⟨(), ns, long, bind_ok.mpr ⟨(), ns, first, bind_ok.mpr ⟨ns, ns, rfl, ?_⟩⟩⟩
  exact bind_ok.mpr ⟨rTable, middle, created, bind_ok.mpr ⟨_, _, built, bind_ok.mpr ⟨_, _, stored, deleted⟩⟩⟩

end Routable

/-- The partitions that were made, and the key ranges of those that were not deleted. -/
structure MemoryServers where
  made : List PartitionService := []
  ranges : PartitionService → Option (Option Nat × Option Nat) := fun _ => none

namespace MemoryServers

/-- A port that no partition has. -/
def nextPort (cluster : MemoryServers) : Int := (cluster.made.map (·.port)).foldr max 0 + 1

theorem port_lt_nextPort {cluster : MemoryServers} {partition : PartitionService} (known : partition ∈ cluster.made) :
    partition.port < cluster.nextPort := by
  obtain ⟨made, ranges⟩ := cluster
  rw [nextPort]
  induction made with
  | nil => cases known
  | cons first rest ih =>
      rw [List.map_cons, List.foldr_cons]
      cases List.mem_cons.mp known with
      | inl same =>
          subst same
          omega
      | inr later =>
          have below := ih later
          dsimp only at below ⊢
          omega

def named (cluster : MemoryServers) (server : StorageService) : PartitionService :=
  ⟨server.host, cluster.nextPort, server.id, "", server⟩

theorem named_fresh (cluster : MemoryServers) (server : StorageService) : cluster.named server ∉ cluster.made :=
  fun known => absurd (port_lt_nextPort known) (Int.lt_irrefl _)

def live (cluster : MemoryServers) (partition : PartitionService) : Option (Option Nat × Option Nat) :=
  if partition ∈ cluster.made then cluster.ranges partition else none

def servers : Servers Nat MemoryServers where
  createPartition server startKey endKey cluster :=
    .ok (cluster.named server) ⟨cluster.named server :: cluster.made,
      Function.update cluster.ranges (cluster.named server) (some (startKey, endKey))⟩
  deletePartition partition cluster := .ok () ⟨cluster.made, Function.update cluster.ranges partition none⟩
  getResponsibility partition cluster :=
    match cluster.live partition with
    | some bounds => .ok bounds cluster
    | none => .error .timeout cluster
  copyData _ _ cluster := .ok () cluster

def registry : Registry servers where
  live := live
  issued cluster partition := partition ∈ cluster.made
  live_issued := by
    intro cluster partition bounds found
    by_contra unknown
    rw [live, if_neg unknown] at found
    cases found
  created := by
    intro server startKey endKey cluster partition next created
    cases created
    refine ⟨rfl, cluster.named_fresh server, fun other => List.mem_cons, ?_, fun other different => ?_⟩
    · rw [live, if_pos List.mem_cons_self]
      exact Function.update_self ..
    · simp only [live, List.mem_cons, or_iff_right different, Function.update_of_ne different]
  deleted := by
    intro partition cluster next _ deleted
    cases deleted
    refine ⟨fun other => Iff.rfl, fun other different => ?_⟩
    simp only [live, Function.update_of_ne different]
  answered := by
    intro partition cluster bounds next
    simp only [servers]
    cases cluster.live partition with
    | none => simp
    | some held => simp [and_comm, eq_comm]
  copied := by
    intro newPartition oldPartition cluster next copied
    cases copied
    exact ⟨fun _ => Iff.rfl, fun _ => rfl⟩

theorem answering : Answering registry fun _ => True where
  creates := fun _ _ _ _ _ => ⟨_, _, rfl, trivial⟩
  deletes := fun _ _ => ⟨_, rfl, trivial⟩

end MemoryServers

end Scads.Client
