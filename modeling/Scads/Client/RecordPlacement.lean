import Scads.Client.ClusterRecords

namespace Scads.Client

open Scads.Data Scads.Comm Scads.Server Scads.Util RangeTable

/-! # Records on the servers that their routing keys name

A client routes by one order of the keys, the servers compare the bounds of a partition
with the records by another.  What is listed on a server and what is stored there agree
as long as no request takes records away that a listed partition still needs.
-/

/-- The one order has these keys the same way around as the other. -/
def Alike {K : Type} (routing stored : LinearOrder K) (used : K → Prop) : Prop :=
  ∀ low high, used low → used high → Proper routing (some low, some high) → Proper stored (some low, some high)

theorem Alike.proper {K : Type} {routing stored : LinearOrder K} {used : K → Prop} {bounds : Option K × Option K}
    (alike : Alike routing stored used) (opened : InUse used bounds.1) (closed : InUse used bounds.2)
    (proper : Proper routing bounds) : Proper stored bounds := by
  intro low opens high closes
  refine alike low high (opened low opens) (closed high closes) (fun first given second found => ?_) low rfl high rfl
  cases given
  cases found
  exact proper low opens high closes

namespace Routable

variable {K V : Type} {stored : LinearOrder K} {environment : Environment K V} [routing : LinearOrder K]
  {convertToRoutingKey : K → K} {routingKeyComp : K → K → Int} {used : K → Prop} {all : K → Option V}
  {ns middle next : RoutedNamespace K (Cluster environment)} {partition : PartitionService}
  {bounds : Option K × Option K}

section

variable {table : RoutingTable K} {before after : List (RangeType K PartitionService)}
  {range : RangeType K PartitionService}

theorem arranged_proper (arranged : table.Arranged used) (split : table.rTable = before ++ range :: after) :
    Proper routing (range.startKey, startOr none after) := by
  intro low opens high closes
  cases after with
  | nil => cases closes
  | cons following rest =>
      have ascending := arranged.ascending
      rw [Ascending, split, List.map_append, List.map_cons, List.map_cons, List.pairwise_append,
        List.pairwise_cons] at ascending
      have less := ascending.2.1.1 _ List.mem_cons_self
      rw [RangeType.start, RangeType.start, show range.startKey = some low from opens,
        show following.startKey = some high from closes] at less
      exact WithBot.coe_lt_coe.mp less

theorem startOr_inUse (arranged : table.Arranged used) (split : table.rTable = before ++ after) :
    InUse used (startOr none after) := by
  cases after with
  | nil => exact fun known found => by cases found
  | cons following rest => exact arranged.starts following (by simp [split])

/-- The bounds of the ranges are in order for the servers too. -/
theorem arranged_alike (alike : Alike routing stored used) (arranged : table.Arranged used)
    (split : table.rTable = before ++ range :: after) : Proper stored (range.startKey, startOr none after) :=
  alike.proper (arranged.starts range (by simp [split]))
    (startOr_inUse arranged (show _ = (before ++ [range]) ++ after by simp [split])) (arranged_proper arranged split)

end

theorem Routed.bounds_unique {other : Option K × Option K}
    (routed : Routed (environment.partitions convertToRoutingKey routingKeyComp) used ns) (listed : Listed ns partition)
    (created : Created ns partition bounds) (also : Created ns partition other) : bounds = other := by
  obtain ⟨range, member, among⟩ := listed
  have live := routed.live member among created
  rw [routed.live member among also] at live
  exact (Option.some.inj live).symm

/-- What holds of each partition with the key range that lists it. -/
theorem Routed.of_aligned {holds : PartitionService → Option K × Option K → Prop}
    (routed : Routed (environment.partitions convertToRoutingKey routingKeyComp) used ns)
    (aligned : Aligned holds none ns.routingTable.rTable) (listed : Listed ns partition)
    (created : Created ns partition bounds) : holds partition bounds := by
  obtain ⟨range, member, among⟩ := listed
  obtain ⟨before, after, split⟩ := List.append_of_mem member
  have made := routed.aligned
  rw [split, aligned_append] at made aligned
  have same := routed.bounds_unique ⟨range, member, among⟩ created (made.2.1 partition among)
  rw [same]
  exact aligned.2.1 partition among

/-- The partitions that were made and not yet sent away are open on their servers. -/
structure Filled (all : K → Option V) (ns : RoutedNamespace K (Cluster environment)) : Prop where
  stocked : Stocked all ns.cluster
  hosted : ∀ partition bounds, Created ns partition bounds → partition ∉ ns.deletions →
    ns.cluster.Hosts partition bounds

omit routing in
theorem Filled.tables (filled : Filled all ns) (routingTable : RoutingTable K)
    (stored : List (RangeType K PartitionService)) : Filled all { ns with routingTable, stored } :=
  ⟨filled.stocked, filled.hosted⟩

omit routing in
theorem createPartitions_filled {startKey endKey : Option K} {servers : List StorageService}
    {partitions : List PartitionService} (persistent : environment.Persistent)
    (proper : Proper stored (startKey, endKey)) (filled : Filled all ns)
    (made : (environment.routable convertToRoutingKey routingKeyComp).createPartitions startKey endKey servers
      ns = .ok partitions next) : Filled all next ∧ next.cluster.Stores = ns.cluster.Stores := by
  refine @mapM_invariant _ _ _ _ _ _ id
    (fun (_ : List PartitionService) state => Filled all state ∧ state.cluster.Stores = ns.cluster.Stores) _ []
    partitions ?_ ⟨filled, rfl⟩ (awaitAll_ok made)
  intro done program state reply after member found one
  obtain ⟨held, same⟩ := found
  obtain ⟨server, _, rfl⟩ := List.mem_map.mp member
  obtain ⟨partition, between, requested, rest⟩ := bind_ok.mp one
  obtain ⟨cluster, handled, rfl⟩ := onCluster_ok.mp requested
  cases rest
  obtain ⟨stocked, new, old, kept⟩ := createPartition_stocked persistent proper held.stocked handled
  refine ⟨⟨stocked, ?_⟩, kept.trans same⟩
  intro other bounds created unsent
  rcases List.mem_cons.mp created with equal | created
  · cases equal
    exact new
  · exact old other bounds (held.hosted other bounds created unsent)

/-- The servers of a range store every record whose routing key falls in it. -/
def Holds (convertToRoutingKey : K → K) (all : K → Option V) (ns : RoutedNamespace K (Cluster environment)) : Prop :=
  ∀ partition bounds key value, Listed ns partition → Created ns partition bounds →
    Within routing bounds (convertToRoutingKey key) → all key = some value →
      ns.cluster.Stores partition.storageService key value

/-- The table lists open partitions, and their servers hold the records. -/
structure Placement (convertToRoutingKey : K → K) (routingKeyComp : K → K → Int) (used : K → Prop)
    (all : K → Option V) (ns : RoutedNamespace K (Cluster environment)) : Prop where
  routed : Routed (environment.partitions convertToRoutingKey routingKeyComp) used ns
  filled : Filled all ns
  merging : ns.routingTable.mergeCondition = mergeCond
  holds : Holds convertToRoutingKey all ns

/-- A record in a range of this server stays there when these partitions go: another one is listed
there that has the key, or none of those that go from there has it. -/
def Stays (ns : RoutedNamespace K (Cluster environment)) (gone : List PartitionService) (server : StorageService)
    (key : K) : Prop :=
  (∃ other bounds, Listed ns other ∧ other ∉ gone ∧ Created ns other bounds ∧ other.storageService = server ∧
    Within stored bounds key) ∨
  ∀ removed ∈ gone, removed.storageService = server → ∀ bounds,
    environment.registry.live ns.cluster removed = some bounds → ¬ Within stored bounds key

/-- All records that the servers of the listed partitions need stay there when these partitions go. -/
def AllStay (convertToRoutingKey : K → K) (all : K → Option V) (ns : RoutedNamespace K (Cluster environment))
    (gone : List PartitionService) : Prop :=
  ∀ partition bounds key value, Listed ns partition → partition ∉ gone → Created ns partition bounds →
    Within routing bounds (convertToRoutingKey key) → all key = some value →
      Stays ns gone partition.storageService key

/-- The requests of a deletion have kept what the table needs. -/
structure Cleared (convertToRoutingKey : K → K) (routingKeyComp : K → K → Int) (all : K → Option V)
    (partitions : List PartitionService) (ns next : RoutedNamespace K (Cluster environment)) : Prop where
  shrunk : Shrunk (environment.partitions convertToRoutingKey routingKeyComp) partitions ns next
  filled : Filled all next
  live : ∀ other bounds, environment.registry.live next.cluster other = some bounds →
    environment.registry.live ns.cluster other = some bounds
  stores : ∀ partition bounds key value, Listed ns partition → Created ns partition bounds →
    Within routing bounds (convertToRoutingKey key) → all key = some value →
      next.cluster.Stores partition.storageService key value

section

variable {arrival : Iteration PartitionService} {partitions : List PartitionService}

/-- The table does not list these partitions, and the records stay when they go. -/
structure Spare (convertToRoutingKey : K → K) (routingKeyComp : K → K → Int) (all : K → Option V)
    (partitions : List PartitionService) (ns : RoutedNamespace K (Cluster environment)) : Prop where
  dropped : ∀ partition ∈ partitions,
    Dropped (environment.partitions convertToRoutingKey routingKeyComp) ns partition
  stay : AllStay convertToRoutingKey all ns partitions

theorem Spare.unlisted (spare : Spare convertToRoutingKey routingKeyComp all partitions ns)
    (listed : Listed ns partition) : partition ∉ partitions := by
  obtain ⟨range, member, among⟩ := listed
  exact fun gone => (spare.dropped partition gone).2 range member among

theorem deletePartition_cleared {cluster : Cluster environment} (persistent : environment.Persistent)
    (placement : Placement convertToRoutingKey routingKeyComp used all ns)
    (spare : Spare convertToRoutingKey routingKeyComp all partitions ns)
    (cleared : Cleared convertToRoutingKey routingKeyComp all partitions ns middle) (gone : partition ∈ partitions)
    (handled : environment.deletePartition partition middle.cluster = .ok () cluster) :
    Cleared convertToRoutingKey routingKeyComp all partitions ns { middle with cluster } := by
  have issued : partition ∈ middle.cluster.issued :=
    (cleared.shrunk.issued partition).mpr (spare.dropped partition gone).1
  have sent : partition ∈ middle.deletions := by
    rw [cleared.shrunk.deletions]
    exact List.mem_append_right _ gone
  have remains : ∀ other bounds, Listed ns other → Created ns other bounds →
      other ≠ partition ∧ middle.cluster.Hosts other bounds := by
    intro other bounds listed created
    have unlisted := spare.unlisted listed
    obtain ⟨range, member, among⟩ := listed
    refine ⟨fun same => unlisted (same ▸ gone), cleared.filled.hosted other bounds ?_ ?_⟩
    · rw [Created, cleared.shrunk.creations]
      exact created
    · rw [cleared.shrunk.deletions, List.mem_append, not_or]
      exact ⟨(placement.routed.listed range member other among).1, unlisted⟩
  refine ⟨cleared.shrunk.deleted gone (spare.dropped partition gone).1 handled,
    ⟨deletePartition_stocked handled cleared.filled.stocked, fun other bounds created unsent => ?_⟩,
    fun other bounds opened => cleared.live other bounds (live_of_deleted issued handled opened), ?_⟩
  · exact deletePartition_hosts issued handled (fun same => unsent (same ▸ sent))
      (cleared.filled.hosted other bounds created unsent)
  · intro other bounds key value listed created inside present
    have stored := cleared.stores other bounds key value listed created inside present
    rcases spare.stay other bounds key value listed (spare.unlisted listed) created inside present with
      neighbour | outside
    · obtain ⟨nearby, range, among, _, made, place, covers⟩ := neighbour
      obtain ⟨different, hosts⟩ := remains nearby range among made
      rw [← place] at stored ⊢
      exact deletePartition_stores persistent issued handled different hosts (fun _ => .inl covers) stored
    · obtain ⟨different, hosts⟩ := remains other bounds listed created
      refine deletePartition_stores persistent issued handled different hosts (fun same => .inr ?_) stored
      exact fun removed opened => outside partition gone same.symm removed (cleared.live partition removed opened)

/-- The deletion of spare partitions keeps the records. -/
theorem deletePartitionServices_placed (persistent : environment.Persistent)
    (placement : Placement convertToRoutingKey routingKeyComp used all ns)
    (spare : Spare convertToRoutingKey routingKeyComp all partitions ns)
    (ran : (environment.routable convertToRoutingKey routingKeyComp).deletePartitionServices arrival partitions ns =
      .ok .unit next) :
    Placement convertToRoutingKey routingKeyComp used all next ∧
      Cleared convertToRoutingKey routingKeyComp all partitions ns next := by
  have cleared : Cleared convertToRoutingKey routingKeyComp all partitions ns next := by
    refine deletePartitionServices_invariant (Cleared convertToRoutingKey routingKeyComp all partitions ns)
      (fun gone cleared handled => deletePartition_cleared persistent placement spare cleared gone handled) ?_ ran
    refine ⟨.requested partitions, ⟨placement.filled.stocked, fun other bounds created unsent => ?_⟩,
      fun _ _ opened => opened, placement.holds⟩
    exact placement.filled.hosted other bounds created fun sent => unsent (List.mem_append_left _ sent)
  refine ⟨⟨placement.routed.shrunk spare.dropped cleared.shrunk, cleared.filled, ?_, ?_⟩, cleared⟩
  · rw [cleared.shrunk.table]
    exact placement.merging
  · intro partition bounds key value listed created inside present
    rw [Listed, cleared.shrunk.table] at listed
    rw [Created, cleared.shrunk.creations] at created
    exact cleared.stores partition bounds key value listed created inside present

end

/-- A partition is listed on this server for a key range that has the key. -/
def Covered (inside : Option K × Option K → K → Prop) (ns : RoutedNamespace K (Cluster environment))
    (server : StorageService) (key : K) : Prop :=
  ∃ partition bounds, Listed ns partition ∧ Created ns partition bounds ∧ partition.storageService = server ∧
    inside bounds key

/-- What is covered on a server by one table is covered there by the other. -/
def Covers (inside : Option K × Option K → K → Prop) (ns next : RoutedNamespace K (Cluster environment)) : Prop :=
  ∀ server key, Covered inside ns server key → Covered inside next server key

section

variable {inside : Option K × Option K → K → Prop} {before after block others : List (RangeType K PartitionService)}

/-- Where a part of the table is replaced, that part is to be covered. -/
theorem covers_replaced (routed : Routed (environment.partitions convertToRoutingKey routingKeyComp) used ns)
    (also : Routed (environment.partitions convertToRoutingKey routingKeyComp) used next)
    (split : ns.routingTable.rTable = before ++ block ++ after)
    (result : next.routingTable.rTable = before ++ others ++ after)
    (start : startOr (startOr none after) others = startOr (startOr none after) block)
    (cover : Aligned (fun partition bounds => ∀ key, inside bounds key →
      Covered inside next partition.storageService key) (startOr none after) block) : Covers inside ns next := by
  have aligned : Aligned (fun partition bounds => ∀ key, inside bounds key →
      Covered inside next partition.storageService key) none ns.routingTable.rTable := by
    have kept := also.aligned
    rw [result, List.append_assoc, aligned_append, aligned_append, startOr_append, start] at kept
    rw [split, List.append_assoc, aligned_append, aligned_append, startOr_append]
    refine ⟨kept.1.imp ?_, cover, kept.2.2.imp ?_⟩
    · exact fun range member partition among bounds created key within =>
        ⟨partition, bounds, ⟨range, by simp [result, member], among⟩, created, rfl, within⟩
    · exact fun range member partition among bounds created key within =>
        ⟨partition, bounds, ⟨range, by simp [result, member], among⟩, created, rfl, within⟩
  intro server key covered
  obtain ⟨partition, bounds, listed, created, rfl, within⟩ := covered
  exact routed.of_aligned aligned listed created key within

/-- The servers of the first are servers of the second. -/
def OnServers (first second : List PartitionService) : Prop :=
  ∀ partition ∈ first, ∃ other ∈ second, other.storageService = partition.storageService

theorem onServers_of_map {first second : List PartitionService}
    (same : second.map (·.storageService) = first.map (·.storageService)) : OnServers first second :=
  fun _ member => List.mem_map.mp (same ▸ List.mem_map_of_mem member)

theorem OnServers.trans {first second third : List PartitionService} (on : OnServers first second)
    (also : OnServers second third) : OnServers first third := by
  intro partition member
  obtain ⟨other, listed, place⟩ := on partition member
  obtain ⟨another, among, same⟩ := also other listed
  exact ⟨another, among, same.trans place⟩

variable {whole left right : RangeType K PartitionService} {key : K}

/-- The parts of a range cover what it has. -/
theorem covers_parts (routed : Routed (environment.partitions convertToRoutingKey routingKeyComp) used ns)
    (also : Routed (environment.partitions convertToRoutingKey routingKeyComp) used next)
    (split : ns.routingTable.rTable = before ++ [whole] ++ after)
    (result : next.routingTable.rTable = before ++ [left, right] ++ after)
    (opens : left.startKey = whole.startKey) (cuts : right.startKey = some key)
    (parts : ∀ found, inside (whole.startKey, startOr none after) found →
      inside (whole.startKey, some key) found ∨ inside (some key, startOr none after) found)
    (leftPlaces : OnServers whole.values left.values) (rightPlaces : OnServers whole.values right.values) :
    Covers inside ns next := by
  refine covers_replaced routed also split result opens ⟨fun partition listed found within => ?_, trivial⟩
  have aligned := also.aligned
  rw [result, List.append_assoc, aligned_append, aligned_append] at aligned
  obtain ⟨-, ⟨leftMade, rightMade, -⟩, -⟩ := aligned
  rcases parts found within with first | second
  · obtain ⟨other, member, place⟩ := leftPlaces partition listed
    refine ⟨other, _, ⟨left, by simp [result], member⟩, leftMade other member, place, ?_⟩
    rw [opens, startOr, cuts]
    exact first
  · obtain ⟨other, member, place⟩ := rightPlaces partition listed
    refine ⟨other, _, ⟨right, by simp [result], member⟩, rightMade other member, place, ?_⟩
    rw [cuts]
    exact second

/-- A range covers what its parts have. -/
theorem covers_whole (routed : Routed (environment.partitions convertToRoutingKey routingKeyComp) used ns)
    (also : Routed (environment.partitions convertToRoutingKey routingKeyComp) used next)
    (split : ns.routingTable.rTable = before ++ [left, right] ++ after)
    (result : next.routingTable.rTable = before ++ [whole] ++ after)
    (opens : left.startKey = whole.startKey) (cuts : right.startKey = some key)
    (joined : ∀ found, inside (whole.startKey, some key) found ∨ inside (some key, startOr none after) found →
      inside (whole.startKey, startOr none after) found)
    (leftPlaces : OnServers left.values whole.values) (rightPlaces : OnServers right.values whole.values) :
    Covers inside ns next := by
  have aligned := also.aligned
  rw [result, List.append_assoc, aligned_append, aligned_append] at aligned
  obtain ⟨-, ⟨made, -⟩, -⟩ := aligned
  have covered : ∀ (partition : PartitionService) found, inside (whole.startKey, startOr none after) found →
      (∃ other ∈ whole.values, other.storageService = partition.storageService) →
        Covered inside next partition.storageService found := by
    intro partition found within places
    obtain ⟨other, member, place⟩ := places
    exact ⟨other, _, ⟨whole, by simp [result], member⟩, made other member, place, within⟩
  refine covers_replaced routed also split result opens.symm ⟨fun partition listed found within => ?_,
    fun partition listed found within => ?_, trivial⟩
  · rw [opens, startOr, cuts] at within
    exact covered partition found (joined found (.inl within)) (leftPlaces partition listed)
  · rw [cuts] at within
    exact covered partition found (joined found (.inr within)) (rightPlaces partition listed)

end
/-- The records of a namespace are where they are needed if every range was covered before. -/
theorem Holds.covered (holds : Holds convertToRoutingKey all ns) (covers : Covers (Within routing) next ns)
    (same : next.cluster.Stores = ns.cluster.Stores) : Holds convertToRoutingKey all next := by
  intro partition bounds key value listed created inside present
  obtain ⟨other, others, among, made, place, within⟩ :=
    covers partition.storageService _ ⟨partition, bounds, listed, created, rfl, inside⟩
  rw [same, ← place]
  exact holds other others key value among made within present

/-- The table, and the partitions that it no longer lists.  What these have is covered. -/
structure Rearranged (convertToRoutingKey : K → K) (routingKeyComp : K → K → Int) (used : K → Prop)
    (all : K → Option V) (old : List PartitionService) (ns : RoutedNamespace K (Cluster environment)) : Prop where
  placement : Placement convertToRoutingKey routingKeyComp used all ns
  dropped : ∀ partition ∈ old, Dropped (environment.partitions convertToRoutingKey routingKeyComp) ns partition
  covered : ∀ partition ∈ old, ∀ bounds, environment.registry.live ns.cluster partition = some bounds →
    ∀ key, Within stored bounds key → Covered (Within stored) ns partition.storageService key

section

variable {old values partitions : List PartitionService} {made : List (PartitionService × Option K × Option K)}

theorem Rearranged.edited (rearranged : Rearranged convertToRoutingKey routingKeyComp used all old ns)
    (edited : Edited (environment.partitions convertToRoutingKey routingKeyComp) used values ns next)
    (filled : Filled all next) (merging : next.routingTable.mergeCondition = mergeCond)
    (same : next.cluster.Stores = ns.cluster.Stores)
    (live : ∀ other, environment.registry.issued ns.cluster other →
      environment.registry.live next.cluster other = environment.registry.live ns.cluster other)
    (listed : ∀ partition ∈ values, Listed ns partition) (back : Covers (Within routing) next ns)
    (forth : Covers (Within stored) ns next) :
    Rearranged convertToRoutingKey routingKeyComp used all (old ++ values) next where
  placement := ⟨edited.routed, filled, merging, rearranged.placement.holds.covered back same⟩
  dropped partition member := by
    rcases List.mem_append.mp member with early | late
    · exact edited.dropped (rearranged.dropped partition early)
    · exact edited.replaced partition late
  covered partition member bounds found key inside := by
    refine forth _ key ?_
    rcases List.mem_append.mp member with early | late
    · rw [live partition (rearranged.dropped partition early).1] at found
      exact rearranged.covered partition early bounds found key inside
    · obtain ⟨range, among, known⟩ := listed partition late
      obtain ⟨_, own, created⟩ := rearranged.placement.routed.listed range among partition known
      have opened := rearranged.placement.routed.live among known created
      rw [live partition (rearranged.placement.routed.issued among known)] at found
      rw [show environment.registry.live ns.cluster partition = some own from opened] at found
      cases found
      exact ⟨partition, bounds, ⟨range, among, known⟩, created, rfl, inside⟩

theorem Rearranged.deleted {arrival : Iteration PartitionService} (persistent : environment.Persistent)
    (among : ∀ partition ∈ partitions, partition ∈ old)
    (rearranged : Rearranged convertToRoutingKey routingKeyComp used all old ns)
    (ran : (environment.routable convertToRoutingKey routingKeyComp).deletePartitionServices arrival partitions ns =
      .ok .unit next) :
    Rearranged convertToRoutingKey routingKeyComp used all old next ∧ next.routingTable = ns.routingTable := by
  have unlisted : ∀ other, Listed ns other → other ∉ partitions := by
    intro other found gone
    obtain ⟨range, member, known⟩ := found
    exact (rearranged.dropped other (among other gone)).2 range member known
  have spare : Spare convertToRoutingKey routingKeyComp all partitions ns := by
    refine ⟨fun partition gone => rearranged.dropped partition (among partition gone), ?_⟩
    intro partition bounds key value listed _ created inside present
    by_cases taken : ∃ removed ∈ partitions, removed.storageService = partition.storageService ∧ ∃ own,
        environment.registry.live ns.cluster removed = some own ∧ Within stored own key
    · obtain ⟨removed, gone, place, own, live, within⟩ := taken
      obtain ⟨other, others, known, created, same, covers⟩ :=
        rearranged.covered removed (among removed gone) own live key within
      exact .inl ⟨other, others, known, unlisted other known, created, same.trans place, covers⟩
    · exact .inr fun removed gone place own live within => taken ⟨removed, gone, place, own, live, within⟩
  obtain ⟨placement, cleared⟩ := deletePartitionServices_placed persistent rearranged.placement spare ran
  refine ⟨⟨placement, fun partition member => cleared.shrunk.dropped (rearranged.dropped partition member), ?_⟩,
    cleared.shrunk.table⟩
  intro partition member bounds live key inside
  obtain ⟨other, others, listed, created, place, covers⟩ :=
    rearranged.covered partition member bounds (cleared.live partition bounds live) key inside
  refine ⟨other, others, ?_, ?_, place, covers⟩
  · rw [Listed, cleared.shrunk.table]
    exact listed
  · rw [Created, cleared.shrunk.creations]
    exact created

end

/-- The condition of a merge compares the numbers of the services only. -/
theorem mergeCond_iff {first second : List PartitionService} : mergeCond first second = true ↔
    (first.map (·.storageService)).map (·.id) = (second.map (·.storageService)).map (·.id) := by
  rw [mergeCond, Bool.and_eq_true, decide_eq_true_eq]
  induction first generalizing second with
  | nil => cases second <;> simp
  | cons partition rest ih =>
      cases second with
      | nil => simp
      | cons other others =>
          simp only [List.map_cons, List.cons.injEq, ← ih, List.zip_cons_cons, List.all_cons, Bool.and_eq_true,
            decide_eq_true_eq, List.length_cons, Nat.add_right_cancel_iff]
          exact and_left_comm

/-- A range is on these servers. -/
def RangeOn (table : RoutingTable K) (servers : List StorageService) : Prop :=
  ∃ range ∈ table.rTable, range.values.map (·.storageService) = servers

/-- Ranges whose servers have the same numbers are on the same servers. -/
def KnownByNumber (table : RoutingTable K) : Prop :=
  ∀ first second, RangeOn table first → RangeOn table second → first.map (·.id) = second.map (·.id) →
    ∀ server, server ∈ first ↔ server ∈ second

omit routing in
theorem KnownByNumber.onServers {table : RoutingTable K} {first second : RangeType K PartitionService}
    (known : KnownByNumber table) (member : first ∈ table.rTable) (among : second ∈ table.rTable)
    (merges : mergeCond first.values second.values = true) :
    OnServers first.values second.values ∧ OnServers second.values first.values := by
  have same := known _ _ ⟨first, member, rfl⟩ ⟨second, among, rfl⟩ (mergeCond_iff.mp merges)
  constructor
  · exact fun partition listed => List.mem_map.mp ((same _).mp (List.mem_map_of_mem listed))
  · exact fun partition listed => List.mem_map.mp ((same _).mpr (List.mem_map_of_mem listed))

section

variable {old values : List PartitionService} {key : K}

theorem Rearranged.saved (rearranged : Rearranged convertToRoutingKey routingKeyComp used all old ns) :
    Rearranged convertToRoutingKey routingKeyComp used all old { ns with stored := ns.routingTable.rTable } :=
  ⟨⟨stored_routed rearranged.placement.routed, rearranged.placement.filled.tables _ _, rearranged.placement.merging,
    rearranged.placement.holds⟩, rearranged.dropped, rearranged.covered⟩

theorem Placement.rearranged (placement : Placement convertToRoutingKey routingKeyComp used all ns) :
    Rearranged convertToRoutingKey routingKeyComp used all [] ns :=
  ⟨placement, by simp, by simp⟩

variable [ToString K]

/-- The two parts of a range cover it, and it covers them. -/
theorem splitAt_rearranged (persistent : environment.Persistent) (alike : Alike routing stored used)
    (rearranged : Rearranged convertToRoutingKey routingKeyComp used all old ns) (given : used key)
    (ran : (environment.routable convertToRoutingKey routingKeyComp).splitAt key ns = .ok values next) :
    Rearranged convertToRoutingKey routingKeyComp used all (old ++ values) next := by
  have placement := rearranged.placement
  have edited := splitAt_edited placement.routed given ran
  obtain ⟨before, range, after, left, right, between, last, located, inside, rfl, first, second, rfl⟩ :=
    splitAt_spec placement.routed.arranged given ran
  obtain ⟨leftPlaces, leftMade⟩ := createPartitions_grown environment.registry first
  obtain ⟨rightPlaces, rightMade⟩ := createPartitions_grown environment.registry second
  have split : ns.routingTable.rTable = before ++ [range] ++ after := by simpa using located.split
  have arranged := placement.routed.arranged.inserted located inside given left right
  have opening : before ++ ⟨range.startKey, left⟩ :: ⟨some key, right⟩ :: after =
      before ++ (⟨range.startKey, left⟩ : RangeType K PartitionService) :: ⟨some key, right⟩ :: after := rfl
  have closing : before ++ ⟨range.startKey, left⟩ :: ⟨some key, right⟩ :: after =
      (before ++ [⟨range.startKey, left⟩]) ++ (⟨some key, right⟩ : RangeType K PartitionService) :: after := by simp
  have result : before ++ ⟨range.startKey, left⟩ :: ⟨some key, right⟩ :: after =
      before ++ [⟨range.startKey, left⟩, ⟨some key, right⟩] ++ after := by simp
  obtain ⟨half, sameHalf⟩ := createPartitions_filled persistent (arranged_alike alike arranged opening)
    placement.filled first
  obtain ⟨filled, same⟩ := createPartitions_filled persistent (arranged_alike alike arranged closing) half second
  refine rearranged.edited edited (filled.tables _ _) placement.merging (same.trans sameHalf) ?_ ?_ ?_ ?_
  · intro other issued
    exact (leftMade.trans rightMade).live issued
  · exact fun partition listed => ⟨range, by simp [located.split], listed⟩
  · exact covers_whole edited.routed placement.routed result split rfl rfl
      (fun found => within_joined routing (arranged_proper arranged opening) (arranged_proper arranged closing))
      (onServers_of_map leftPlaces.symm) (onServers_of_map rightPlaces.symm)
  · exact covers_parts placement.routed edited.routed split result rfl rfl (fun found => within_cases stored)
      (onServers_of_map leftPlaces) (onServers_of_map rightPlaces)

/-- The merged range covers the two that it comes from, and they cover it. -/
theorem mergeAt_rearranged {parts : List PartitionService × List PartitionService} (persistent : environment.Persistent)
    (alike : Alike routing stored used)
    (rearranged : Rearranged convertToRoutingKey routingKeyComp used all old ns) (known : KnownByNumber ns.routingTable)
    (given : used key)
    (ran : (environment.routable convertToRoutingKey routingKeyComp).mergeAt key ns = .ok parts next) :
    Rearranged convertToRoutingKey routingKeyComp used all (old ++ (parts.1 ++ parts.2)) next ∧
      KnownByNumber next.routingTable := by
  have placement := rearranged.placement
  have edited := mergeAt_edited placement.routed given ran
  obtain ⟨front, left, range, after, values, last, split, starts, merges, rfl, made, rfl⟩ :=
    mergeAt_spec placement.routed.arranged given ran
  obtain ⟨places, grown⟩ := createPartitions_grown environment.registry made
  have leftMember : left ∈ ns.routingTable.rTable := by simp [split]
  have member : range ∈ ns.routingTable.rTable := by simp [split]
  rw [placement.merging] at merges
  obtain ⟨forward, backward⟩ := known.onServers leftMember member merges
  have onLeft := onServers_of_map places.symm
  have onValues := onServers_of_map places
  have arranged := placement.routed.arranged
  have closing : ns.routingTable.rTable = (front ++ [left]) ++ range :: after := by simp [split]
  have block : ns.routingTable.rTable = front ++ [left, range] ++ after := by simp [split]
  have result : front ++ ⟨left.startKey, values⟩ :: after =
      front ++ [(⟨left.startKey, values⟩ : RangeType K PartitionService)] ++ after := by simp
  have opened := arranged_alike alike arranged split
  have closed := arranged_alike alike arranged closing
  rw [startOr, starts] at opened
  rw [starts] at closed
  obtain ⟨filled, same⟩ := createPartitions_filled persistent (arranged_alike alike
    (arranged.joined split values) (show _ = front ++ ⟨left.startKey, values⟩ :: after from rfl)) placement.filled made
  constructor
  · refine rearranged.edited edited (filled.tables _ _) placement.merging same (fun other issued => grown.live issued)
      ?_ ?_ ?_
    · intro partition listed
      rcases List.mem_append.mp listed with early | late
      · exact ⟨left, leftMember, early⟩
      · exact ⟨range, member, late⟩
    · exact covers_parts edited.routed placement.routed result block rfl starts (fun found => within_cases routing)
        onLeft (onLeft.trans forward)
    · exact covers_whole placement.routed edited.routed block result rfl starts
        (fun found => within_joined stored opened closed) onValues (backward.trans onValues)
  · have before : ∀ servers, RangeOn { ns.routingTable with
        rTable := front ++ ⟨left.startKey, values⟩ :: after } servers → RangeOn ns.routingTable servers := by
      intro servers found
      obtain ⟨other, among, rfl⟩ := found
      rcases List.mem_append.mp among with early | among
      · exact ⟨other, by simp [split, early], rfl⟩
      · rcases List.mem_cons.mp among with rfl | late
        · exact ⟨left, leftMember, places.symm⟩
        · exact ⟨other, by simp [split, late], rfl⟩
    exact fun first second found given => known first second (before first found) (before second given)

variable [DecidableEq K] {arrival : Iteration PartitionService} {splitKeys mergeKeys : List K}

theorem splitPartition_placed (persistent : environment.Persistent) (alike : Alike routing stored used)
    (placement : Placement convertToRoutingKey routingKeyComp used all ns)
    (given : ∀ key ∈ splitKeys, used (convertToRoutingKey key))
    (ran : (environment.routable convertToRoutingKey routingKeyComp).splitPartition arrival splitKeys ns =
      .ok .unit next) : Placement convertToRoutingKey routingKeyComp used all next := by
  obtain ⟨_, rearranged⟩ := splitPartition_invariant
    (environment.partitions convertToRoutingKey routingKeyComp)
    (Rearranged convertToRoutingKey routingKeyComp used all)
    (fun member held one => splitAt_rearranged persistent alike held (given _ member) one) Rearranged.saved
    (fun among held one => (Rearranged.deleted persistent among held one).1) placement.rearranged ran
  exact rearranged.placement

theorem mergePartition_placed (persistent : environment.Persistent) (alike : Alike routing stored used)
    (placement : Placement convertToRoutingKey routingKeyComp used all ns) (known : KnownByNumber ns.routingTable)
    (given : ∀ key ∈ mergeKeys, used (convertToRoutingKey key))
    (ran : (environment.routable convertToRoutingKey routingKeyComp).mergePartition arrival mergeKeys ns =
      .ok .unit next) : Placement convertToRoutingKey routingKeyComp used all next := by
  have kept := mergePartition_invariant
    (environment.partitions convertToRoutingKey routingKeyComp)
    (fun old state => Rearranged convertToRoutingKey routingKeyComp used all old state ∧
      KnownByNumber state.routingTable)
    (fun member held one => mergeAt_rearranged persistent alike held.1 held.2 (given _ member) one)
    (fun held => ⟨held.1.saved, held.2⟩) ?_ ⟨placement.rearranged, known⟩ ran
  · obtain ⟨_, rearranged, _⟩ := kept
    exact rearranged.placement
  · intro old partitions state after among held one
    obtain ⟨rearranged, same⟩ := held.1.deleted persistent among one
    exact ⟨rearranged, same ▸ held.2⟩

end

end Routable

end Scads.Client
