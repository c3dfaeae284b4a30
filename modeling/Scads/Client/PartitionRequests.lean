import Scads.Client.Repartitioning

namespace Scads.Client

open Scads.Data Scads.Comm Scads.Server Scads.Util

/-! # What the requests of a client do to the partitions of the servers -/

/-- The open partitions of the servers with their key ranges, the partitions that
the servers have ever handed out, and what the requests do to both. -/
structure Registry {K σ : Type} (servers : Servers K σ) where
  live : σ → PartitionService → Option (Option K × Option K)
  issued : σ → PartitionService → Prop
  live_issued : ∀ {cluster partition bounds}, live cluster partition = some bounds →
    issued cluster partition
  created : ∀ {server startKey endKey cluster partition next},
    servers.createPartition server startKey endKey cluster = .ok partition next →
      partition.storageService = server ∧ ¬ issued cluster partition ∧
        (∀ other, issued next other ↔ other = partition ∨ issued cluster other) ∧
        live next partition = some (startKey, endKey) ∧
        ∀ other, other ≠ partition → live next other = live cluster other
  deleted : ∀ {partition cluster next}, issued cluster partition →
    servers.deletePartition partition cluster = .ok () next →
      (∀ other, issued next other ↔ issued cluster other) ∧
        ∀ other, other ≠ partition → live next other = live cluster other
  answered : ∀ {partition cluster bounds next},
    servers.getResponsibility partition cluster = .ok bounds next ↔
      next = cluster ∧ live cluster partition = some bounds
  copied : ∀ {newPartition oldPartition cluster next},
    servers.copyData newPartition oldPartition cluster = .ok () next →
      (∀ other, issued next other ↔ issued cluster other) ∧
        ∀ other, live next other = live cluster other

namespace Routable

variable {R K σ : Type} {routable : Routable R K σ}
  (registry : Registry routable.servers) {ns middle next : RoutedNamespace K σ}

theorem onCluster_ok {α : Type} {program : EStateM Failure σ α} {value : α} :
    (onCluster program : Method K σ α) ns = .ok value next ↔
      ∃ cluster, program ns.cluster = .ok value cluster ∧ { ns with cluster } = next :=
  zoom_ok

/-- The only change is that these partitions have been made, each for its key range. -/
structure Grown (ns : RoutedNamespace K σ) (made : List (PartitionService × Option K × Option K))
    (next : RoutedNamespace K σ) : Prop where
  table : next.routingTable = ns.routingTable
  deletions : next.deletions = ns.deletions
  creations : ∀ entry, entry ∈ next.creations ↔ entry ∈ made ∨ entry ∈ ns.creations
  fresh : ∀ entry ∈ made, ¬ registry.issued ns.cluster entry.1
  issued : ∀ other, registry.issued next.cluster other ↔
    other ∈ made.map Prod.fst ∨ registry.issued ns.cluster other
  opened : ∀ entry ∈ made, registry.live next.cluster entry.1 = some entry.2
  live : ∀ {other}, registry.issued ns.cluster other →
    registry.live next.cluster other = registry.live ns.cluster other

variable {registry}

theorem Grown.refl (ns : RoutedNamespace K σ) : Grown registry ns [] ns where
  table := rfl
  deletions := rfl
  creations := by simp
  fresh := by simp
  issued := by simp
  opened := by simp
  live := fun _ => rfl

theorem Grown.trans {first second : List (PartitionService × Option K × Option K)}
    (grown : Grown registry ns first middle) (again : Grown registry middle second next) :
    Grown registry ns (first ++ second) next where
  table := again.table.trans grown.table
  deletions := again.deletions.trans grown.deletions
  creations := by
    intro entry
    rw [again.creations, grown.creations, List.mem_append, or_left_comm, or_assoc]
  fresh := by
    intro entry member
    rcases List.mem_append.mp member with early | late
    · exact grown.fresh entry early
    · exact fun known => again.fresh entry late ((grown.issued _).mpr (.inr known))
  issued := by
    intro other
    rw [again.issued, grown.issued, List.map_append, List.mem_append, or_left_comm, or_assoc]
  opened := by
    intro entry member
    rcases List.mem_append.mp member with early | late
    · have known := (grown.issued entry.1).mpr (.inl (List.mem_map_of_mem early))
      rw [again.live known, grown.opened entry early]
    · exact again.opened entry late
  live := by
    intro other known
    rw [again.live ((grown.issued other).mpr (.inr known)), grown.live known]

theorem requestPartition_grown (registry : Registry routable.servers) {startKey endKey : Option K}
    {server : StorageService} {partition : PartitionService}
    (made : routable.requestPartition startKey endKey server ns = .ok partition next) :
    partition.storageService = server ∧ Grown registry ns [(partition, startKey, endKey)] next := by
  obtain ⟨handler, between, requested, made⟩ := bind_ok.mp made
  obtain ⟨cluster, handled, rfl⟩ := onCluster_ok.mp requested
  obtain ⟨_, _, logged, made⟩ := bind_ok.mp made
  cases logged
  cases made
  obtain ⟨placed, fresh, issued, opened, live⟩ := registry.created handled
  refine ⟨placed, rfl, rfl, ?_, ?_, ?_, ?_, ?_⟩
  · exact fun entry => by simp
  · exact fun entry member => by rwa [List.mem_singleton.mp member]
  · exact fun other => by simp [issued]
  · exact fun entry member => by rwa [List.mem_singleton.mp member]
  · exact fun known => live _ fun same => fresh (same ▸ known)

/-- New partitions for a key range, one on each of the servers. -/
theorem createPartitions_grown (registry : Registry routable.servers) {startKey endKey : Option K}
    {servers : List StorageService} {partitions : List PartitionService}
    (made : routable.createPartitions startKey endKey servers ns = .ok partitions next) :
    partitions.map (·.storageService) = servers ∧
      Grown registry ns (partitions.map fun partition => (partition, startKey, endKey)) next := by
  have ran := awaitAll_ok made
  clear made
  induction servers generalizing partitions ns with
  | nil =>
      cases ran
      exact ⟨rfl, .refl _⟩
  | cons server rest ih =>
      rw [List.map_cons, List.mapM_cons] at ran
      obtain ⟨partition, between, one, ran⟩ := bind_ok.mp ran
      obtain ⟨others, last, rest, same⟩ := bind_ok.mp ran
      cases same
      obtain ⟨placed, first⟩ := requestPartition_grown registry one
      obtain ⟨places, second⟩ := ih rest
      exact ⟨by simp [placed, places], first.trans second⟩

/-- The requests of a deletion were handled, in whatever order. -/
structure Shrunk (registry : Registry routable.servers) (partitions : List PartitionService)
    (ns next : RoutedNamespace K σ) : Prop where
  table : next.routingTable = ns.routingTable
  creations : next.creations = ns.creations
  deletions : next.deletions = ns.deletions ++ partitions
  issued : ∀ other, registry.issued next.cluster other ↔ registry.issued ns.cluster other
  live : ∀ other, other ∉ partitions →
    registry.live next.cluster other = registry.live ns.cluster other

/-- What the request for each of the partitions preserves holds after all of them. -/
theorem deletePartitionServices_invariant {arrival : Iteration PartitionService}
    {partitions : List PartitionService} (holds : RoutedNamespace K σ → Prop)
    (kept : ∀ {partition state cluster}, partition ∈ partitions → holds state →
      routable.servers.deletePartition partition state.cluster = .ok () cluster →
        holds { state with cluster })
    (start : holds { ns with deletions := ns.deletions ++ partitions })
    (ran : routable.deletePartitionServices arrival partitions ns = .ok () next) : holds next := by
  obtain ⟨_, _, logged, ran⟩ := bind_ok.mp ran
  cases logged
  obtain ⟨replies, _, awaited, returned⟩ := bind_ok.mp ran
  cases returned
  refine @mapM_invariant _ _ _ _ _ _ id (fun (_ : List Unit) state => holds state) _ [] replies ?_ start
    (awaitAll_ok awaited)
  intro done program state reply after member held one
  obtain ⟨partition, among, rfl⟩ := List.mem_map.mp member
  obtain ⟨cluster, handled, rfl⟩ := onCluster_ok.mp one
  exact kept ((arrival.perm partitions).mem_iff.mp among) held handled

theorem Shrunk.deleted {partitions : List PartitionService} {partition : PartitionService} {cluster : σ}
    (shrunk : Shrunk registry partitions ns next) (listed : partition ∈ partitions)
    (known : registry.issued ns.cluster partition)
    (handled : routable.servers.deletePartition partition next.cluster = .ok () cluster) :
    Shrunk registry partitions ns { next with cluster } := by
  obtain ⟨issued, live⟩ := registry.deleted ((shrunk.issued _).mpr known) handled
  refine ⟨shrunk.table, shrunk.creations, shrunk.deletions, fun other => ?_, fun other absent => ?_⟩
  · exact (issued other).trans (shrunk.issued other)
  · have different : other ≠ partition := fun same => absent (same ▸ listed)
    exact (live other different).trans (shrunk.live other absent)

theorem Shrunk.requested (partitions : List PartitionService) :
    Shrunk registry partitions ns { ns with deletions := ns.deletions ++ partitions } :=
  ⟨rfl, rfl, rfl, fun _ => Iff.rfl, fun _ _ => rfl⟩

theorem deletePartitionServices_shrunk {arrival : Iteration PartitionService}
    {partitions : List PartitionService}
    (known : ∀ partition ∈ partitions, registry.issued ns.cluster partition)
    (ran : routable.deletePartitionServices arrival partitions ns = .ok () next) :
    Shrunk registry partitions ns next :=
  deletePartitionServices_invariant (Shrunk registry partitions ns)
    (fun {partition} _ _ listed shrunk handled => shrunk.deleted listed (known partition listed) handled)
    (.requested partitions) ran

theorem getStartEndKey_ok (registry : Registry routable.servers) {partition : PartitionService}
    {bounds : Option K × Option K} :
    routable.getStartEndKey partition ns = .ok bounds next ↔
      ns = next ∧ registry.live ns.cluster partition = some bounds := by
  rw [getStartEndKey, onCluster_ok]
  constructor
  · intro found
    obtain ⟨cluster, handled, rfl⟩ := found
    obtain ⟨rfl, live⟩ := registry.answered.mp handled
    exact ⟨rfl, live⟩
  · intro found
    obtain ⟨rfl, live⟩ := found
    exact ⟨ns.cluster, registry.answered.mpr ⟨rfl, live⟩, rfl⟩

variable [DecidableEq K] [ToString K]

theorem validatePartition_ok (registry : Registry routable.servers) {startKey endKey : Option K}
    {partition : PartitionService} :
    routable.validatePartition startKey endKey partition ns = .ok .unit next ↔
      ns = next ∧ registry.live ns.cluster partition = some (startKey, endKey) := by
  rw [validatePartition, bind_ok]
  constructor
  · intro found
    obtain ⟨keys, between, read, checked⟩ := found
    obtain ⟨rfl, live⟩ := (getStartEndKey_ok registry).mp read
    split at checked
    · obtain ⟨_, _, got, thrown⟩ := bind_ok.mp checked
      exact absurd thrown throw_ok
    · rename_i same
      cases checked
      exact ⟨rfl, by rw [live, Decidable.not_not.mp same]⟩
  · intro found
    obtain ⟨rfl, live⟩ := found
    refine ⟨(startKey, endKey), ns, (getStartEndKey_ok registry).mpr ⟨rfl, live⟩, ?_⟩
    rw [if_neg (by simp)]
    rfl

theorem forM_validatePartition_ok (registry : Registry routable.servers) {startKey endKey : Option K}
    {partitions : List PartitionService} :
    partitions.forM (routable.validatePartition startKey endKey) ns = .ok .unit next ↔
      ns = next ∧ ∀ partition ∈ partitions,
        registry.live ns.cluster partition = some (startKey, endKey) := by
  induction partitions with
  | nil =>
      constructor
      · intro ran
        cases ran
        exact ⟨rfl, by simp⟩
      · intro found
        obtain ⟨rfl, _⟩ := found
        rfl
  | cons partition rest ih =>
      constructor
      · intro ran
        obtain ⟨between, one, later⟩ := forM_cons_ok.mp ran
        obtain ⟨rfl, live⟩ := (validatePartition_ok registry).mp one
        obtain ⟨same, others⟩ := ih.mp later
        exact ⟨same, by simpa using ⟨live, others⟩⟩
      · intro found
        obtain ⟨rfl, live⟩ := found
        rw [List.forall_mem_cons] at live
        exact forM_cons_ok.mpr ⟨ns, (validatePartition_ok registry).mpr ⟨rfl, live.1⟩,
          ih.mpr ⟨rfl, live.2⟩⟩

end Routable

end Scads.Client
