import Scads.Client.CallInvariants
import Scads.Client.PopulatedRanges
import Scads.Client.RecordPlacement

namespace Scads.Client

open Scads.Data Scads.Comm Scads.Server Scads.Util RangeTable

/-! # Single partitions that go and come

A deletion may take records that another partition of the server needs, and a copy brings
only the records that the servers count to its key range.
-/

namespace Routable

variable {K V : Type} {stored : LinearOrder K} {environment : Environment K V} [routing : LinearOrder K]
  [ToString K] {convertToRoutingKey : K → K} {routingKeyComp : K → K → Int} {used : K → Prop} {all : K → Option V}
  {ns middle next : RoutedNamespace K (Cluster environment)} {partition : PartitionService}
  {bounds : Option K × Option K} {first second partitions : List PartitionService}

/-- The table has lost these partitions and no others. -/
structure Removed (partitions : List PartitionService) (ns next : RoutedNamespace K (Cluster environment)) : Prop where
  cluster : next.cluster = ns.cluster
  creations : next.creations = ns.creations
  deletions : next.deletions = ns.deletions
  merging : next.routingTable.mergeCondition = ns.routingTable.mergeCondition
  before : ∀ partition, Listed next partition → Listed ns partition
  after : ∀ partition, Listed ns partition → partition ∉ partitions → Listed next partition

omit routing [ToString K] in
theorem Removed.trans (removed : Removed first ns middle) (again : Removed second middle next) :
    Removed (first ++ second) ns next where
  cluster := again.cluster.trans removed.cluster
  creations := again.creations.trans removed.creations
  deletions := again.deletions.trans removed.deletions
  merging := again.merging.trans removed.merging
  before partition listed := removed.before partition (again.before partition listed)
  after partition listed kept := by
    rw [List.mem_append, not_or] at kept
    exact again.after partition (removed.after partition listed kept.1) kept.2

theorem removePartition_removed
    (routed : Routed (environment.partitions convertToRoutingKey routingKeyComp) used ns)
    (given : StartsInUse (environment.partitions convertToRoutingKey routingKeyComp) used ns [partition])
    (ran : (environment.routable convertToRoutingKey routingKeyComp).removePartition partition ns = .ok .unit next) :
    Removed [partition] ns next := by
  obtain ⟨bounds, before, range, after, live, located, rfl⟩ := removePartition_spec routed.arranged given ran
  refine ⟨rfl, rfl, rfl, rfl, fun other listed => ?_, fun other listed kept => ?_⟩
  · obtain ⟨place, member, among⟩ := listed
    rcases List.mem_append.mp member with early | member
    · exact ⟨place, by simp [located.split, early], among⟩
    · rcases List.mem_cons.mp member with rfl | late
      · exact ⟨range, by simp [located.split], (List.mem_filter.mp among).1⟩
      · exact ⟨place, by simp [located.split, late], among⟩
  · obtain ⟨place, member, among⟩ := listed
    rw [located.split] at member
    rcases List.mem_append.mp member with early | member
    · exact ⟨place, by simp [early], among⟩
    · rcases List.mem_cons.mp member with rfl | late
      · exact ⟨⟨place.startKey, place.values.filter (· ≠ partition)⟩, by simp, by simpa [among] using kept⟩
      · exact ⟨place, by simp [late], among⟩

theorem removes_removed
    (routed : Routed (environment.partitions convertToRoutingKey routingKeyComp) used ns)
    (given : StartsInUse (environment.partitions convertToRoutingKey routingKeyComp) used ns partitions)
    (ran : partitions.forM (environment.routable convertToRoutingKey routingKeyComp).removePartition ns =
      .ok .unit next) : Removed partitions ns next := by
  have kept := @forM_invariant _ _ _ _ _ (environment.routable convertToRoutingKey routingKeyComp).removePartition
    (fun done state => Routed (environment.partitions convertToRoutingKey routingKeyComp) used state ∧
      Removed done ns state) partitions [] ?_ ⟨routed, rfl, rfl, rfl, rfl, fun _ => id, fun _ listed _ => listed⟩ ran
  · exact kept.2
  · intro done partition state after member held one
    obtain ⟨routed, removed⟩ := held
    have inUse : StartsInUse (environment.partitions convertToRoutingKey routingKeyComp) used state [partition] := by
      intro other among bounds live
      cases List.mem_singleton.mp among
      rw [removed.cluster] at live
      exact given partition member bounds live
    exact ⟨(removePartition_edited routed inUse one).1.routed, removed.trans (removePartition_removed routed inUse one)⟩

variable [DecidableEq K] {arrival : Iteration PartitionService}

theorem deletePartitions_placed (persistent : environment.Persistent)
    (placement : Placement convertToRoutingKey routingKeyComp used all ns)
    (given : StartsInUse (environment.partitions convertToRoutingKey routingKeyComp) used ns partitions)
    (stay : AllStay convertToRoutingKey all ns partitions)
    (ran : (environment.routable convertToRoutingKey routingKeyComp).deletePartitions arrival partitions ns =
      .ok .unit next) : Placement convertToRoutingKey routingKeyComp used all next := by
  obtain ⟨_, edited, looped, ran⟩ := bind_ok.mp ran
  obtain ⟨_, _, checked, deleted⟩ := bind_ok.mp ran
  have done := removes_edited placement.routed given looped
  have removed := removes_removed placement.routed given looped
  obtain ⟨rfl, _⟩ := (storeRoutingTable_ok (environment.partitions convertToRoutingKey routingKeyComp)).mp checked
  have created : ∀ other bounds, Created edited other bounds → Created ns other bounds := by
    intro other bounds made
    rw [Created, removed.creations] at made
    exact made
  have placed : Placement convertToRoutingKey routingKeyComp used all
      { edited with stored := edited.routingTable.rTable } := by
    refine ⟨stored_routed done.routed, ⟨?_, fun other bounds made unsent => ?_⟩, ?_, ?_⟩
    · rw [removed.cluster]
      exact placement.filled.stocked
    · rw [removed.cluster]
      rw [removed.deletions] at unsent
      exact placement.filled.hosted other bounds (created other bounds made) unsent
    · exact removed.merging.trans placement.merging
    · intro other bounds key value listed made inside present
      rw [removed.cluster]
      exact placement.holds other bounds key value (removed.before other listed) (created other bounds made) inside
        present
  refine (deletePartitionServices_placed persistent placed ⟨done.replaced, ?_⟩ deleted).1
  intro other bounds key value listed kept made inside present
  rcases stay other bounds key value (removed.before other listed) kept (created other bounds made) inside present with
    neighbour | outside
  · obtain ⟨nearby, others, known, remains, new, place, covers⟩ := neighbour
    refine .inl ⟨nearby, others, removed.after nearby known remains, remains, ?_, place, covers⟩
    rw [Created, removed.creations]
    exact new
  · rw [Stays, removed.cluster]
    exact .inr outside

variable {target : PartitionService × StorageService} {targets : List (PartitionService × StorageService)}
  {result : PartitionService × PartitionService} {pairs early late : List (PartitionService × PartitionService)}

/-- The new partitions of these pairs are listed too, each for the key range of a given partition. -/
structure Replicated (targets : List (PartitionService × StorageService))
    (pairs : List (PartitionService × PartitionService))
    (ns next : RoutedNamespace K (Cluster environment)) : Prop where
  stores : next.cluster.Stores = ns.cluster.Stores
  merging : next.routingTable.mergeCondition = ns.routingTable.mergeCondition
  created : ∀ partition bounds, Created ns partition bounds → Created next partition bounds
  before : ∀ partition, Listed next partition → Listed ns partition ∨ ∃ pair ∈ pairs, pair.1 = partition
  after : ∀ partition, Listed ns partition → Listed next partition
  sources : ∀ pair ∈ pairs, ∃ target ∈ targets, ∃ bounds, pair.2 = target.1 ∧ pair.1.storageService = target.2 ∧
    Created ns target.1 bounds ∧ Created next pair.1 bounds ∧ Listed next pair.1

omit routing [ToString K] [DecidableEq K] in
theorem Replicated.refl (ns : RoutedNamespace K (Cluster environment)) : Replicated targets [] ns ns :=
  ⟨rfl, rfl, fun _ _ => id, fun _ => .inl, fun _ => id, by simp⟩

omit [ToString K] [DecidableEq K] in
theorem Routed.alike (routed : Routed (environment.partitions convertToRoutingKey routingKeyComp) used ns)
    (alike : Alike routing stored used) (listed : Listed ns partition) (created : Created ns partition bounds) :
    Proper stored bounds := by
  obtain ⟨range, member, among⟩ := listed
  obtain ⟨before, after, split⟩ := List.append_of_mem member
  have aligned := routed.aligned
  rw [split, aligned_append] at aligned
  rw [routed.bounds_unique ⟨range, member, among⟩ created (aligned.2.1 partition among)]
  exact arranged_alike alike routed.arranged split

omit [ToString K] [DecidableEq K] in
/-- The routing keys of the partitions that the table lists are in use. -/
theorem Routed.startsInUse (routed : Routed (environment.partitions convertToRoutingKey routingKeyComp) used ns)
    (listed : Listed ns partition) :
    StartsInUse (environment.partitions convertToRoutingKey routingKeyComp) used ns [partition] := by
  intro other among bounds live
  cases List.mem_singleton.mp among
  obtain ⟨range, member, known⟩ := listed
  obtain ⟨endKey, created⟩ := routed.aligned.mem member known
  rw [routed.live member known created] at live
  cases live
  exact routed.arranged.starts range member

omit routing [ToString K] [DecidableEq K] in
/-- A creation leaves the records as they are. -/
theorem creates_stores (stores : StorageService → K → V → Prop) (server : StorageService) (startKey endKey : Option K) :
    Keeps (fun cluster : Cluster environment => cluster.Stores = stores)
      (environment.servers.createPartition server startKey endKey) := by
  intro cluster partition next created same
  have records := (Environment.createPartition_hosted created).2.2
  funext place key value
  rw [← same, Cluster.Stores, Cluster.Stores, records]

omit [DecidableEq K] in
theorem replicateOn_replicated (routed : Routed (environment.partitions convertToRoutingKey routingKeyComp) used ns)
    (listed : Listed ns target.1)
    (ran : (environment.routable convertToRoutingKey routingKeyComp).replicateOn target ns = .ok result next) :
    Routed (environment.partitions convertToRoutingKey routingKeyComp) used next ∧
      Replicated [target] [result] ns next := by
  have keeps := replicateOn_keeps (creates_stores ns.cluster.Stores)
    (environment.partitions convertToRoutingKey routingKeyComp) target
  have stores := keeps ns result next ran rfl
  obtain ⟨source, member, among⟩ := listed
  obtain ⟨replicated, still⟩ := replicateOn_routed routed member among ran
  obtain ⟨bounds, before, range, after, last, live, located, same, made, rfl⟩ :=
    replicateOn_spec routed.arranged (routed.startsInUse ⟨source, member, among⟩) ran
  obtain ⟨endKey, created⟩ := routed.aligned.mem member among
  rw [routed.live member among created] at live
  cases live
  obtain ⟨places, grown⟩ := createPartitions_grown environment.registry made
  have new : Listed { last with routingTable := { ns.routingTable with
      rTable := before ++ ⟨range.startKey, result.1 :: range.values⟩ :: after } } result.1 :=
    ⟨⟨range.startKey, result.1 :: range.values⟩, by simp, List.mem_cons_self⟩
  refine ⟨replicated, stores, rfl, fun other own created => grown.created created, ?_, ?_, ?_⟩
  · intro other found
    obtain ⟨place, contained, known⟩ := found
    rcases List.mem_append.mp contained with front | contained
    · exact .inl ⟨place, by simp [located.split, front], known⟩
    · rcases List.mem_cons.mp contained with rfl | back
      · rcases List.mem_cons.mp known with rfl | known
        · exact .inr ⟨result, List.mem_singleton.mpr rfl, rfl⟩
        · exact .inl ⟨range, by simp [located.split], known⟩
      · exact .inl ⟨place, by simp [located.split, back], known⟩
  · intro other found
    obtain ⟨place, contained, known⟩ := found
    exact still place contained other known
  · intro pair contained
    cases List.mem_singleton.mp contained
    refine ⟨target, List.mem_singleton.mpr rfl, _, same, by simpa using places, created, ?_, new⟩
    exact (grown.creations _).mpr (.inl (by simp))

omit [DecidableEq K] in
theorem replicateOn_placed (persistent : environment.Persistent) (alike : Alike routing stored used)
    (routed : Routed (environment.partitions convertToRoutingKey routingKeyComp) used ns) (filled : Filled all ns)
    (listed : Listed ns target.1)
    (ran : (environment.routable convertToRoutingKey routingKeyComp).replicateOn target ns = .ok result next) :
    Routed (environment.partitions convertToRoutingKey routingKeyComp) used next ∧ Filled all next ∧
      Replicated [target] [result] ns next := by
  obtain ⟨still, replicated⟩ := replicateOn_replicated routed listed ran
  obtain ⟨bounds, before, range, after, last, live, _, _, made, rfl⟩ :=
    replicateOn_spec routed.arranged (routed.startsInUse listed) ran
  obtain ⟨source, member, among⟩ := listed
  obtain ⟨endKey, created⟩ := routed.aligned.mem member among
  rw [routed.live member among created] at live
  cases live
  have full := (createPartitions_filled persistent (routed.alike alike ⟨source, member, among⟩ created) filled made).1
  exact ⟨still, full.tables _ _, replicated⟩

omit routing [ToString K] [DecidableEq K] in
theorem Replicated.trans (replicated : Replicated targets early ns middle)
    (again : Replicated [target] late middle next) (given : target ∈ targets)
    (own : ∀ bounds, Created middle target.1 bounds → Created ns target.1 bounds) :
    Replicated targets (early ++ late) ns next where
  stores := again.stores.trans replicated.stores
  merging := again.merging.trans replicated.merging
  created partition bounds made := again.created partition bounds (replicated.created partition bounds made)
  before partition listed := by
    rcases again.before partition listed with old | ⟨pair, member, new⟩
    · rcases replicated.before partition old with old | ⟨pair, member, new⟩
      · exact .inl old
      · exact .inr ⟨pair, List.mem_append_left _ member, new⟩
    · exact .inr ⟨pair, List.mem_append_right _ member, new⟩
  after partition listed := again.after partition (replicated.after partition listed)
  sources pair member := by
    rcases List.mem_append.mp member with first | second
    · obtain ⟨other, among, bounds, source, place, made, created, listed⟩ := replicated.sources pair first
      exact ⟨other, among, bounds, source, place, made, again.created _ _ created, again.after _ listed⟩
    · obtain ⟨other, among, bounds, source, place, made, created, listed⟩ := again.sources pair second
      cases List.mem_singleton.mp among
      exact ⟨target, given, bounds, source, place, own bounds made, created, listed⟩

omit [DecidableEq K] in
theorem replicates_placed (persistent : environment.Persistent) (alike : Alike routing stored used)
    (placement : Placement convertToRoutingKey routingKeyComp used all ns)
    (listed : ∀ target ∈ targets, Listed ns target.1)
    (ran : targets.mapM (environment.routable convertToRoutingKey routingKeyComp).replicateOn ns = .ok pairs next) :
    Routed (environment.partitions convertToRoutingKey routingKeyComp) used next ∧ Filled all next ∧
      Replicated targets pairs ns next := by
  refine @mapM_invariant _ _ _ _ _ _ (environment.routable convertToRoutingKey routingKeyComp).replicateOn
    (fun done state => Routed (environment.partitions convertToRoutingKey routingKeyComp) used state ∧
      Filled all state ∧ Replicated targets done ns state) targets [] pairs ?_
    ⟨placement.routed, placement.filled, .refl ns⟩ ran
  intro done target state result after member found one
  obtain ⟨routed, filled, replicated⟩ := found
  have known := replicated.after target.1 (listed target member)
  obtain ⟨still, full, again⟩ := replicateOn_placed persistent alike routed filled known one
  refine ⟨still, full, replicated.trans again member fun bounds created => ?_⟩
  obtain ⟨range, among, contained⟩ := listed target member
  obtain ⟨_, own, made⟩ := placement.routed.listed range among target.1 contained
  rw [routed.bounds_unique known created (replicated.created target.1 own made)]
  exact made

/-- The copies have added records to the servers, for each pair all those of its key range. -/
structure Copied (all : K → Option V) (pairs : List (PartitionService × PartitionService))
    (cluster after : Cluster environment) : Prop where
  stocked : Stocked all after
  hosts : ∀ partition bounds, cluster.Hosts partition bounds → after.Hosts partition bounds
  grows : ∀ server key value, cluster.Stores server key value → after.Stores server key value
  copies : ∀ pair ∈ pairs, ∀ bounds, cluster.Hosts pair.1 bounds → ∀ key value,
    cluster.Stores pair.2.storageService key value → Within stored bounds key →
      after.Stores pair.1.storageService key value

omit routing [ToString K] [DecidableEq K] in
theorem copies_ran {replies : List Unit} (reads : environment.CopiesRange) (stocked : Stocked all ns.cluster)
    (hosted : ∀ pair ∈ pairs, ∃ bounds, ns.cluster.Hosts pair.1 bounds)
    (ran : (pairs.map fun pair => (onCluster (environment.copyData pair.1 pair.2) : Method K _ Unit)).mapM id ns =
      .ok replies next) : Copied all pairs ns.cluster next.cluster ∧ next = { ns with cluster := next.cluster } := by
  induction pairs generalizing ns replies with
  | nil =>
      cases ran
      exact ⟨⟨stocked, fun _ _ => id, fun _ _ _ => id, by simp⟩, rfl⟩
  | cons pair rest ih =>
      rw [List.map_cons, List.mapM_cons] at ran
      obtain ⟨_, between, one, ran⟩ := bind_ok.mp ran
      obtain ⟨_, last, others, same⟩ := bind_ok.mp ran
      cases same
      obtain ⟨cluster, handled, rfl⟩ := onCluster_ok.mp one
      obtain ⟨bounds, hosts⟩ := hosted pair List.mem_cons_self
      obtain ⟨records, _, _, whole, stores⟩ := copyData_stores reads stocked hosts handled
      have grows : ∀ server key value, ns.cluster.Stores server key value → cluster.Stores server key value :=
        fun server key value old => (stores server key value).mpr (.inl old)
      obtain ⟨copied, kept⟩ := ih (copyData_stocked reads stocked hosts handled) (fun later member => by
        obtain ⟨own, opened⟩ := hosted later (List.mem_cons_of_mem _ member)
        exact ⟨own, copyData_hosts opened handled⟩) others
      refine ⟨⟨copied.stocked, fun partition own opened => copied.hosts partition own (copyData_hosts opened handled),
        fun server key value old => copied.grows server key value (grows server key value old), ?_⟩, kept⟩
      intro other member own opened key value old within
      rcases List.mem_cons.mp member with rfl | later
      · have same := opened.live.symm.trans hosts.live
        cases same
        refine copied.grows _ key value ((stores _ key value).mpr (.inr ⟨rfl, whole key value old within⟩))
      · exact copied.copies other later own (copyData_hosts opened handled) key value (grows _ key value old) within

/-- The records that a new partition needs are in its key range for the servers too, or its server has them. -/
def Copyable (convertToRoutingKey : K → K) (all : K → Option V) (ns : RoutedNamespace K (Cluster environment))
    (target : PartitionService × StorageService) : Prop :=
  ∀ bounds key value, Created ns target.1 bounds → Within routing bounds (convertToRoutingKey key) →
    all key = some value → Within stored bounds key ∨ ns.cluster.Stores target.2 key value

theorem replicatePartitions_placed {replicas : List PartitionService} (persistent : environment.Persistent)
    (reads : environment.CopiesRange) (alike : Alike routing stored used)
    (placement : Placement convertToRoutingKey routingKeyComp used all ns)
    (listed : ∀ target ∈ targets, Listed ns target.1)
    (copyable : ∀ target ∈ targets, Copyable convertToRoutingKey all ns target)
    (ran : (environment.routable convertToRoutingKey routingKeyComp).replicatePartitions targets ns =
      .ok replicas next) : Placement convertToRoutingKey routingKeyComp used all next := by
  have given : StartsInUse (environment.partitions convertToRoutingKey routingKeyComp) used ns
      (targets.map Prod.fst) := by
    intro partition among
    obtain ⟨target, member, rfl⟩ := List.mem_map.mp among
    exact placement.routed.startsInUse (listed target member) target.1 (List.mem_singleton.mpr rfl)
  have final := replicatePartitions_routed placement.routed given ran
  obtain ⟨pairs, edited, looped, ran⟩ := bind_ok.mp ran
  obtain ⟨_, _, checked, ran⟩ := bind_ok.mp ran
  obtain ⟨_, last, awaited, ran⟩ := bind_ok.mp ran
  cases ran
  obtain ⟨rfl, _⟩ := (storeRoutingTable_ok (environment.partitions convertToRoutingKey routingKeyComp)).mp checked
  obtain ⟨routed, filled, replicated⟩ := replicates_placed persistent alike placement listed looped
  have hosted : ∀ partition bounds, Listed edited partition → Created edited partition bounds →
      edited.cluster.Hosts partition bounds := by
    intro partition bounds known created
    obtain ⟨range, member, among⟩ := known
    exact filled.hosted partition bounds created (routed.listed range member partition among).1
  have copying : (pairs.map fun pair =>
      (onCluster (environment.copyData pair.1 pair.2) : Method K _ Unit)).mapM id
        { edited with stored := edited.routingTable.rTable } = .ok _ next := awaitAll_ok awaited
  obtain ⟨copied, same⟩ := copies_ran reads (filled.tables edited.routingTable edited.routingTable.rTable).stocked
    (fun pair member => by
      obtain ⟨_, _, bounds, _, _, _, created, known⟩ := replicated.sources pair member
      exact ⟨bounds, hosted pair.1 bounds known created⟩) copying
  have before : ∀ server key value, ns.cluster.Stores server key value → next.cluster.Stores server key value := by
    intro server key value old
    rw [← replicated.stores] at old
    exact copied.grows server key value old
  have own : ∀ partition bounds, Listed ns partition →
      Created edited partition bounds → Created ns partition bounds := by
    intro partition bounds known created
    have still := replicated.after partition known
    obtain ⟨range, member, among⟩ := known
    obtain ⟨_, first, made⟩ := placement.routed.listed range member partition among
    rw [routed.bounds_unique still created (replicated.created partition first made)]
    exact made
  have holds : ∀ partition bounds key value, Listed edited partition → Created edited partition bounds →
      Within routing bounds (convertToRoutingKey key) → all key = some value →
        next.cluster.Stores partition.storageService key value := by
    intro partition bounds key value known created inside present
    rcases replicated.before partition known with old | ⟨pair, member, rfl⟩
    · exact before _ key value (placement.holds partition bounds key value old (own partition bounds old created) inside
        present)
    · obtain ⟨target, among, first, source, place, made, new, _⟩ := replicated.sources pair member
      rw [routed.bounds_unique known created new] at inside created
      rcases copyable target among first key value made inside present with within | stores
      · have stores := placement.holds target.1 first key value (listed target among) made inside present
        rw [← replicated.stores, ← source] at stores
        exact copied.copies pair member first (hosted pair.1 first known new) key value stores within
      · rw [place]
        exact before _ key value stores
  rw [same] at final ⊢
  exact ⟨final, ⟨copied.stocked, fun partition bounds created unsent =>
    copied.hosts partition bounds (filled.hosted partition bounds created unsent)⟩,
    replicated.merging.trans placement.merging, holds⟩

/-- A merge finds ranges with the same numbers on the same servers, the records outlive a
deletion, and those of a replica can be copied. -/
def Sound (convertToRoutingKey : K → K) (all : K → Option V) (ns : RoutedNamespace K (Cluster environment)) :
    Call K K → Prop
  | .splitPartition _ => True
  | .mergePartition _ => KnownByNumber ns.routingTable
  | .deletePartitions partitionHandlers => AllStay convertToRoutingKey all ns partitionHandlers
  | .replicatePartitions targets =>
      ∀ target ∈ targets, Listed ns target.1 ∧ Copyable convertToRoutingKey all ns target
  | .setPartitionScheme _ => False

omit [ToString K] [DecidableEq K] in
theorem Sound.serves {made : Call K K} (sound : Sound convertToRoutingKey all ns made) : Serves made := by
  cases made with
  | setPartitionScheme scheme => cases sound
  | _ => trivial

theorem step_placed {called : Call K K × Iteration PartitionService} (persistent : environment.Persistent)
    (reads : environment.CopiesRange) (alike : Alike routing stored used)
    (placement : Placement convertToRoutingKey routingKeyComp used all ns)
    (taken : (environment.routable convertToRoutingKey routingKeyComp).step ns called = some next)
    (admitted : Admitted (environment.partitions convertToRoutingKey routingKeyComp) used ns called.1)
    (sound : Sound convertToRoutingKey all ns called.1) :
    Placement convertToRoutingKey routingKeyComp used all next := by
  obtain ⟨made, arrival⟩ := called
  rw [step] at taken
  split at taken
  · rename_i _ after ran
    cases taken
    cases made with
    | splitPartition splitKeys => exact splitPartition_placed persistent alike placement admitted ran
    | mergePartition mergeKeys => exact mergePartition_placed persistent alike placement sound admitted ran
    | deletePartitions partitionHandlers => exact deletePartitions_placed persistent placement admitted sound ran
    | replicatePartitions targets =>
        obtain ⟨replicas, _, replicated, returned⟩ := bind_ok.mp ran
        cases returned
        exact replicatePartitions_placed persistent reads alike placement (fun target member => (sound target member).1)
          (fun target member => (sound target member).2) replicated
    | setPartitionScheme scheme => cases sound
  · cases taken

/-- What a call deletes, it deletes where all bounds are in order. -/
theorem edit_stocked {made : Call K K} (persistent : environment.Persistent) (alike : Alike routing stored used)
    (placement : Placement convertToRoutingKey routingKeyComp used all ns)
    (admitted : Admitted (environment.partitions convertToRoutingKey routingKeyComp) used ns made)
    (sound : Sound convertToRoutingKey all ns made)
    (ran : (environment.routable convertToRoutingKey routingKeyComp).edit made ns = .ok .unit next) :
    Stocked all next.cluster := by
  cases made with
  | splitPartition splitKeys =>
      obtain ⟨old, _, looped, returned⟩ := bind_ok.mp ran
      cases returned
      have kept := @mapM_invariant _ _ _ _ _ _
        (environment.routable convertToRoutingKey routingKeyComp).splitAt
        (fun done state => Rearranged convertToRoutingKey routingKeyComp used all done.flatten state) _ [] old ?_
        placement.rearranged looped
      · exact kept.placement.filled.stocked
      · intro done key state result after member held one
        obtain ⟨given, known, rfl⟩ := List.mem_map.mp member
        simpa using splitAt_rearranged persistent alike held (admitted given known) one
  | mergePartition mergeKeys =>
      obtain ⟨old, _, looped, returned⟩ := bind_ok.mp ran
      cases returned
      have kept := @mapM_invariant _ _ _ _ _ _
        (environment.routable convertToRoutingKey routingKeyComp).mergeAt
        (fun done state => Rearranged convertToRoutingKey routingKeyComp used all
          (done.flatMap fun pair => pair.1 ++ pair.2) state ∧ KnownByNumber state.routingTable) _ [] old ?_
        ⟨placement.rearranged, sound⟩ looped
      · exact kept.1.placement.filled.stocked
      · intro done key state result after member held one
        obtain ⟨given, known, rfl⟩ := List.mem_map.mp member
        simpa using mergeAt_rearranged persistent alike held.1 held.2 (admitted given known) one
  | deletePartitions partitionHandlers =>
      rw [(removes_removed placement.routed admitted ran).cluster]
      exact placement.filled.stocked
  | replicatePartitions targets =>
      obtain ⟨pairs, _, looped, returned⟩ := bind_ok.mp ran
      cases returned
      exact (replicates_placed persistent alike placement (fun target member => (sound target member).1)
        looped).2.1.stocked
  | setPartitionScheme scheme => cases sound

omit [ToString K] [DecidableEq K] in
theorem whole_placed {cluster : Cluster environment} (compared : AgreesOn used routingKeyComp)
    (hosted : ∀ partition ∈ partitions, cluster.Hosts partition (none, none)) (stocked : Stocked all cluster)
    (whole : ∀ partition ∈ partitions, ∀ key value, all key = some value →
      cluster.Stores partition.storageService key value) :
    Placement convertToRoutingKey routingKeyComp used all (cluster.whole routingKeyComp partitions) := by
  have issuing : ∀ {partition bounds}, Created (cluster.whole routingKeyComp partitions) partition bounds →
      partition ∈ partitions ∧ bounds = (none, none) := by
    intro partition bounds created
    obtain ⟨known, member, same⟩ := List.mem_map.mp created
    cases same
    exact ⟨member, rfl⟩
  refine ⟨⟨⟨⟨rfl, List.pairwise_singleton _ _, compared, ?_⟩, ?_, ?_, ?_⟩, ?_⟩, ⟨stocked, ?_⟩, rfl, ?_⟩
  · intro range member known found
    cases List.mem_singleton.mp member
    cases found
  · intro partition bounds created
    obtain ⟨member, rfl⟩ := issuing created
    exact ⟨(hosted partition member).issued, fun _ => (hosted partition member).live⟩
  · intro partition sent
    cases sent
  · intro range member partition listed
    cases List.mem_singleton.mp member
    exact ⟨List.not_mem_nil, _, List.mem_map_of_mem listed⟩
  · exact ⟨fun partition listed => List.mem_map_of_mem listed, trivial⟩
  · intro partition bounds created _
    obtain ⟨member, rfl⟩ := issuing created
    exact hosted partition member
  · intro partition bounds key value _ created _ present
    exact whole partition (issuing created).1 key value present

end Routable

end Scads.Client
