import Scads.Client.ClusterRuns

namespace Scads.Client

open Scads.Data Scads.Comm Scads.Server Scads.Util RangeTable

/-! # Repartitioning keeps the records

The partitions that a table lists on a server cover the whole line there, so the
deletion of a partition that the table no longer lists finds no garbage.
-/

variable {R K V : Type} [LinearOrder K] {environment : Environment K V}

/-- The records of the namespace on a server. -/
def Cluster.records (cluster : Cluster environment) (server : StorageService) : List (K × V) :=
  (cluster.handlers server).records environment.ns

/-- A partition with this key range is open on its server and in the context of the namespace. -/
structure Hosted (cluster : Cluster environment) (partition : PartitionService)
    (bounds : Option K × Option K) : Prop where
  issued : partition ∈ cluster.issued
  opened : cluster.opened partition = some (environment.handler bounds)
  contained : (partition.partitionId, environment.handler bounds) ∈
    (cluster.handlers partition.storageService).getOrCreateContextForNamespace environment.ns

namespace Environment

variable {cluster next : Cluster environment} {server : StorageService} {startKey endKey : Option K}
  {partition other : PartitionService} {bounds : Option K × Option K}

theorem createPartition_hosted
    (created : environment.createPartition server startKey endKey cluster = .ok partition next) :
    Hosted next partition (startKey, endKey) ∧
      (∀ other bounds, Hosted cluster other bounds → Hosted next other bounds) ∧
      next.records = cluster.records := by
  obtain ⟨rfl, opened, new, rfl⟩ := createPartition_ok created
  have context := new.contexts environment.ns
  rw [if_pos (show environment.ns = (environment.handler (startKey, endKey)).ns from rfl)] at context
  refine ⟨⟨List.mem_cons_self, opened_withPartition new, ?_⟩, fun other bounds hosted => ?_, ?_⟩
  · change _ ∈ (Function.update cluster.handlers server opened server).getOrCreateContextForNamespace _
    rw [Function.update_self, context]
    exact List.mem_cons_self
  · have different : other ≠ cluster.named server :=
      fun same => cluster.named_fresh server (same ▸ hosted.issued)
    refine ⟨List.mem_cons_of_mem _ hosted.issued, ?_, ?_⟩
    · rw [opened_withPartition_other new different, hosted.opened]
    · change _ ∈ (Function.update cluster.handlers server opened
        other.storageService).getOrCreateContextForNamespace _
      rw [Function.update_apply]
      split
      · rename_i same
        rw [context, ← same]
        exact List.mem_cons_of_mem _ hosted.contained
      · exact hosted.contained
  · funext place
    change (Function.update cluster.handlers server opened place).records _ = _
    rw [Function.update_apply]
    split
    · rename_i same
      rw [new.records, same]
      rfl
    · rfl

theorem deletePartition_hosted (known : partition ∈ cluster.issued) (different : other ≠ partition)
    (deleted : environment.deletePartition partition cluster = .ok () next)
    (hosted : Hosted cluster other bounds) : Hosted next other bounds := by
  obtain ⟨replied, rfl⟩ := deletePartition_ok.mp deleted
  have separate : other.partitionId ≠ partition.partitionId :=
    fun same => different (cluster.distinct other hosted.issued partition known same)
  refine ⟨hosted.issued, ?_, ?_⟩
  · rw [opened_answered, hosted.opened]
    intro _
    rw [StorageHandler.deletePartition_partitions, Function.update_of_ne separate]
  · change _ ∈ (Function.update cluster.handlers partition.storageService _
      other.storageService).getOrCreateContextForNamespace _
    rw [Function.update_apply]
    split
    · rename_i same
      exact StorageHandler.deletePartition_contained replied (same ▸ hosted.contained) separate
    · exact hosted.contained

/-- If the other partitions of a server cover the line, a deletion there keeps the records. -/
theorem deletePartition_keeps_records (persistent : environment.partitionType = "bdb")
    (known : partition ∈ cluster.issued)
    (covered : ∀ key, ∃ other bounds, other ≠ partition ∧
      other.storageService = partition.storageService ∧ Hosted cluster other bounds ∧
      Span.contains ⟨bounds.1, bounds.2⟩ key)
    (deleted : environment.deletePartition partition cluster = .ok () next) :
    next.records = cluster.records := by
  obtain ⟨replied, rfl⟩ := deletePartition_ok.mp deleted
  funext place
  change (Function.update cluster.handlers partition.storageService _ place).records _ = _
  rw [Function.update_apply]
  split
  · rename_i same
    rw [StorageHandler.deletePartition_records replied, ← same]
    · rfl
    · intro key
      obtain ⟨other, bounds, different, neighbour, hosted, inside⟩ := covered key
      refine ⟨(other.partitionId, environment.handler bounds), neighbour ▸ hosted.contained, ?_, ?_, inside⟩
      · exact fun same => different (cluster.distinct other hosted.issued partition known same)
      · simp [handler, CreatePartitionRequest.handler, persistent]
  · rfl

end Environment

namespace Routable

variable [ToString K] {convertToRoutingKey : R → K} {routingKeyComp : K → K → Int}
  {services : List StorageService} {records : StorageService → List (K × V)} {old : List PartitionService}
  {ns middle next : RoutedNamespace K (Cluster environment)}

/-- The partitions that were made and not yet sent away are open, over these records. -/
structure Stored (records : StorageService → List (K × V)) (ns : RoutedNamespace K (Cluster environment)) :
    Prop where
  hosted : ∀ {partition bounds}, (partition, bounds) ∈ ns.creations → partition ∉ ns.deletions →
    Hosted ns.cluster partition bounds
  kept : ns.cluster.records = records

omit [ToString K] in
theorem createPartitions_stored {startKey endKey : Option K} {servers : List StorageService}
    {partitions : List PartitionService} (stored : Stored records ns)
    (made : (environment.routable convertToRoutingKey routingKeyComp).createPartitions startKey endKey servers
      ns = .ok partitions next) : Stored records next := by
  refine @mapM_invariant _ _ _ _ _ _ id (fun (_ : List PartitionService) state => Stored records state) _ []
    partitions ?_ stored (awaitAll_ok made)
  intro done program state reply after member held one
  obtain ⟨server, _, rfl⟩ := List.mem_map.mp member
  obtain ⟨partition, between, requested, rest⟩ := bind_ok.mp one
  obtain ⟨cluster, handled, rfl⟩ := onCluster_ok.mp requested
  cases rest
  obtain ⟨new, old, same⟩ := Environment.createPartition_hosted handled
  refine ⟨?_, same.trans held.kept⟩
  intro other bounds created unsent
  rcases List.mem_cons.mp created with equal | created
  · cases equal
    exact new
  · exact old other bounds (held.hosted created unsent)

/-- Every range is on these servers. -/
def Placed (services : List StorageService) (ns : RoutedNamespace K (Cluster environment)) : Prop :=
  ∀ range ∈ ns.routingTable.rTable, range.values.map (·.storageService) = services

variable {used : K → Prop}

omit [ToString K] in
theorem contains_of_located {table : RoutingTable K} {before after : List (RangeType K PartitionService)}
    {range : RangeType K PartitionService} {key : K} (located : table.At (some key) before range after) :
    Span.contains ⟨range.startKey, startOr none after⟩ key := by
  rw [Span.contains, Bool.and_eq_true]
  constructor
  · have reached := located.reached
    rw [RangeType.start] at reached
    cases start : range.startKey with
    | none => rfl
    | some low =>
        rw [start] at reached
        simpa using WithBot.coe_le_coe.mp reached
  · cases after with
    | nil => rfl
    | cons following rest =>
        have beyond := located.beyond following (by simp)
        rw [RangeType.start] at beyond
        change following.startKey.all _ = true
        cases start : following.startKey with
        | none => rfl
        | some high =>
            rw [start] at beyond
            simpa using WithBot.coe_lt_coe.mp beyond

omit [ToString K] in
/-- On each of its servers a table lists a partition for every key. -/
theorem Routed.covered (routed : Routed (environment.partitions convertToRoutingKey routingKeyComp) used ns)
    (placed : Placed services ns) {server : StorageService} (member : server ∈ services) (key : K) :
    ∃ partition bounds, Listed ns partition ∧ Created ns partition bounds ∧
      partition.storageService = server ∧ Span.contains ⟨bounds.1, bounds.2⟩ key := by
  obtain ⟨before, range, after, located⟩ := routed.arranged.exists_at (some key)
  have among : range ∈ ns.routingTable.rTable := by
    rw [located.split]
    simp
  rw [← placed range among] at member
  obtain ⟨partition, listed, rfl⟩ := List.mem_map.mp member
  have aligned := routed.aligned
  rw [located.split, aligned_append] at aligned
  exact ⟨partition, _, ⟨range, among, listed⟩, aligned.2.1 partition listed, rfl, contains_of_located located⟩

/-- The table lists the partitions of its ranges on these servers, which store these
records, and it no longer lists the old partitions. -/
structure Kept (convertToRoutingKey : R → K) (routingKeyComp : K → K → Int)
    (services : List StorageService) (records : StorageService → List (K × V)) (old : List PartitionService)
    (ns : RoutedNamespace K (Cluster environment)) : Prop where
  routed : Routed (environment.partitions convertToRoutingKey routingKeyComp) (fun _ => True) ns
  placed : Placed services ns
  stored : Stored records ns
  dropped : ∀ partition ∈ old,
    Dropped (environment.partitions convertToRoutingKey routingKeyComp) ns partition ∧
      partition.storageService ∈ services

section

variable {convertToRoutingKey : R → K} {routingKeyComp : K → K → Int}

omit [ToString K] in
/-- The deletion of partitions that a table no longer lists keeps the records. -/
theorem deletePartitionServices_kept {arrival : Iteration PartitionService}
    {partitions : List PartitionService} (persistent : environment.partitionType = "bdb")
    (replaced : ∀ partition ∈ partitions, partition ∈ old)
    (kept : Kept convertToRoutingKey routingKeyComp services records old ns)
    (ran : (environment.routable convertToRoutingKey routingKeyComp).deletePartitionServices arrival
      partitions ns = .ok .unit next) :
    Kept convertToRoutingKey routingKeyComp services records old next := by
  have gone := fun partition listed => kept.dropped partition (replaced partition listed)
  obtain ⟨routed, still⟩ := deletePartitionServices_routed kept.routed
    (fun partition listed => (gone partition listed).1) ran
  have held : Shrunk (environment.partitions convertToRoutingKey routingKeyComp) partitions ns next ∧
      Stored records next := by
    refine deletePartitionServices_invariant (fun state =>
      Shrunk (environment.partitions convertToRoutingKey routingKeyComp) partitions ns state ∧
        Stored records state) ?_ ?_ ran
    · intro partition state cluster listed found handled
      obtain ⟨shrunk, stored⟩ := found
      have issued := (shrunk.issued partition).mpr (gone partition listed).1.1
      have sent : partition ∈ state.deletions := by
        rw [shrunk.deletions]
        exact List.mem_append_right _ listed
      refine ⟨shrunk.deleted listed (gone partition listed).1.1 handled, ?_, ?_⟩
      · intro other bounds created unsent
        exact Environment.deletePartition_hosted issued (fun same => unsent (same ▸ sent)) handled
          (stored.hosted created unsent)
      · rw [← stored.kept]
        refine Environment.deletePartition_keeps_records persistent issued (fun key => ?_) handled
        obtain ⟨other, bounds, among, created, place, inside⟩ :=
          kept.routed.covered kept.placed (gone partition listed).2 key
        obtain ⟨range, member, known⟩ := among
        have unsent : other ∉ state.deletions := by
          rw [shrunk.deletions, List.mem_append, not_or]
          exact ⟨(kept.routed.listed range member other known).1,
            fun also => (gone other also).1.2 range member known⟩
        refine ⟨other, bounds, fun same => unsent (same ▸ sent), place, ?_, inside⟩
        exact stored.hosted (shrunk.creations ▸ created) unsent
    · exact ⟨.requested partitions, fun created unsent => kept.stored.hosted created fun sent =>
        unsent (List.mem_append_left _ sent), kept.stored.kept⟩
  refine ⟨routed, ?_, held.2, fun partition member => ?_⟩
  · rw [Placed, held.1.table]
    exact kept.placed
  · exact ⟨still (kept.dropped partition member).1, (kept.dropped partition member).2⟩

variable {key : K} {values : List PartitionService}

omit [ToString K] in
theorem Kept.weaken (kept : Kept convertToRoutingKey routingKeyComp services records old ns)
    (among : ∀ partition ∈ values, partition ∈ old) :
    Kept convertToRoutingKey routingKeyComp services records values ns :=
  ⟨kept.routed, kept.placed, kept.stored,
    fun partition member => kept.dropped partition (among partition member)⟩

omit [ToString K] in
theorem Kept.edited (kept : Kept convertToRoutingKey routingKeyComp services records old ns)
    (edited : Edited (environment.partitions convertToRoutingKey routingKeyComp) (fun _ => True) values ns next)
    (placed : Placed services next) (stored : Stored records next)
    (places : ∀ partition ∈ values, partition.storageService ∈ services) :
    Kept convertToRoutingKey routingKeyComp services records (old ++ values) next := by
  refine ⟨edited.routed, placed, stored, fun partition member => ?_⟩
  rcases List.mem_append.mp member with early | late
  · exact ⟨edited.dropped (kept.dropped partition early).1, (kept.dropped partition early).2⟩
  · exact ⟨edited.replaced partition late, places partition late⟩

omit [ToString K] in
theorem Kept.place (kept : Kept convertToRoutingKey routingKeyComp services records old ns)
    {range : RangeType K PartitionService} (member : range ∈ ns.routingTable.rTable) :
    ∀ partition ∈ range.values, partition.storageService ∈ services :=
  fun _ listed => kept.placed range member ▸ List.mem_map_of_mem listed

theorem splitAt_kept (kept : Kept convertToRoutingKey routingKeyComp services records old ns)
    (ran : (environment.routable convertToRoutingKey routingKeyComp).splitAt key ns = .ok values next) :
    Kept convertToRoutingKey routingKeyComp services records (old ++ values) next := by
  have edited := splitAt_edited kept.routed trivial ran
  obtain ⟨before, range, after, left, right, between, last, located, inside, rfl, first, second, rfl⟩ :=
    splitAt_spec kept.routed.arranged trivial ran
  have stored := createPartitions_stored (createPartitions_stored kept.stored first) second
  have member : range ∈ ns.routingTable.rTable := by simp [located.split]
  refine kept.edited edited ?_ ⟨stored.hosted, stored.kept⟩ (kept.place member)
  intro other listed
  simp only [List.mem_append, List.mem_cons] at listed
  rcases listed with early | rfl | rfl | late
  · exact kept.placed other (by simp [located.split, early])
  · exact (createPartitions_grown environment.registry first).1.trans (kept.placed range member)
  · exact (createPartitions_grown environment.registry second).1.trans (kept.placed range member)
  · exact kept.placed other (by simp [located.split, late])

theorem mergeAt_kept {parts : List PartitionService × List PartitionService}
    (kept : Kept convertToRoutingKey routingKeyComp services records old ns)
    (ran : (environment.routable convertToRoutingKey routingKeyComp).mergeAt key ns = .ok parts next) :
    Kept convertToRoutingKey routingKeyComp services records (old ++ (parts.1 ++ parts.2)) next := by
  have edited := mergeAt_edited kept.routed trivial ran
  obtain ⟨front, left, range, after, values, last, split, _, _, rfl, made, rfl⟩ :=
    mergeAt_spec kept.routed.arranged trivial ran
  have stored := createPartitions_stored kept.stored made
  have leftMember : left ∈ ns.routingTable.rTable := by simp [split]
  have member : range ∈ ns.routingTable.rTable := by simp [split]
  refine kept.edited edited ?_ ⟨stored.hosted, stored.kept⟩ ?_
  · intro other listed
    simp only [List.mem_append, List.mem_cons] at listed
    rcases listed with early | rfl | late
    · exact kept.placed other (by simp [split, early])
    · exact (createPartitions_grown environment.registry made).1.trans (kept.placed left leftMember)
    · exact kept.placed other (by simp [split, late])
  · intro partition listed
    rcases List.mem_append.mp listed with early | late
    · exact kept.place leftMember partition early
    · exact kept.place member partition late

omit [ToString K] in
theorem stored_kept (kept : Kept convertToRoutingKey routingKeyComp services records old ns) :
    Kept convertToRoutingKey routingKeyComp services records old
      { ns with stored := ns.routingTable.rTable } :=
  ⟨stored_routed kept.routed, kept.placed, ⟨kept.stored.hosted, kept.stored.kept⟩, kept.dropped⟩

theorem splitPartition_kept {arrival : Iteration PartitionService} {splitKeys : List R}
    (persistent : environment.partitionType = "bdb")
    (kept : Kept convertToRoutingKey routingKeyComp services records [] ns)
    (ran : (environment.routable convertToRoutingKey routingKeyComp).splitPartition arrival splitKeys ns =
      .ok .unit next) : Kept convertToRoutingKey routingKeyComp services records [] next := by
  obtain ⟨_, held⟩ := splitPartition_invariant environment.registry
    (Kept convertToRoutingKey routingKeyComp services records) (fun _ held one => splitAt_kept held one)
    stored_kept (deletePartitionServices_kept persistent) kept ran
  exact held.weaken (by simp)

theorem mergePartition_kept {arrival : Iteration PartitionService} {mergeKeys : List R}
    (persistent : environment.partitionType = "bdb")
    (kept : Kept convertToRoutingKey routingKeyComp services records [] ns)
    (ran : (environment.routable convertToRoutingKey routingKeyComp).mergePartition arrival mergeKeys ns =
      .ok .unit next) : Kept convertToRoutingKey routingKeyComp services records [] next := by
  obtain ⟨_, held⟩ := mergePartition_invariant environment.registry
    (Kept convertToRoutingKey routingKeyComp services records) (fun _ held one => mergeAt_kept held one)
    stored_kept (deletePartitionServices_kept persistent) kept ran
  exact held.weaken (by simp)

end

/-- A call that splits or merges. -/
inductive Repartition (R : Type) where
  | splitPartition (splitKeys : List R)
  | mergePartition (mergeKeys : List R)

def Repartition.call : Repartition R → Call R K
  | .splitPartition splitKeys => .splitPartition splitKeys
  | .mergePartition mergeKeys => .mergePartition mergeKeys

/-- A namespace whose table is one range from one end of the line to the other. -/
def undivided (routingKeyComp : K → K → Int) (partitions : List PartitionService)
    (cluster : Cluster environment) : RoutedNamespace K (Cluster environment) :=
  ⟨⟨[⟨none, partitions⟩], routingKeyComp, mergeCond⟩, [⟨none, partitions⟩], cluster,
    partitions.map fun partition => (partition, none, none), []⟩

omit [ToString K] in
theorem undivided_kept {convertToRoutingKey : R → K} {routingKeyComp : K → K → Int}
    {partitions : List PartitionService} {cluster : Cluster environment} (compared : Agrees routingKeyComp)
    (hosted : ∀ partition ∈ partitions, Hosted cluster partition (none, none)) :
    Kept convertToRoutingKey routingKeyComp (partitions.map (·.storageService)) cluster.records []
      (undivided routingKeyComp partitions cluster) := by
  have whole : ∀ {partition bounds},
      (partition, bounds) ∈ (undivided routingKeyComp partitions cluster).creations →
        partition ∈ partitions ∧ bounds = (none, none) := by
    intro partition bounds created
    obtain ⟨known, member, same⟩ := List.mem_map.mp created
    cases same
    exact ⟨member, rfl⟩
  refine ⟨⟨⟨⟨rfl, List.pairwise_singleton _ _, compared, ?_⟩, ?_, ?_, ?_⟩, ?_⟩, ?_, ⟨?_, rfl⟩, ?_⟩
  · exact fun range member _ _ => trivial
  · intro partition bounds created
    obtain ⟨member, rfl⟩ := whole created
    exact ⟨(hosted partition member).issued, fun _ => congrArg (Option.map _) (hosted partition member).opened⟩
  · intro partition sent
    cases sent
  · intro range member partition listed
    cases List.mem_singleton.mp member
    exact ⟨List.not_mem_nil, _, List.mem_map_of_mem listed⟩
  · exact ⟨fun partition listed => List.mem_map_of_mem listed, trivial⟩
  · intro range member
    cases List.mem_singleton.mp member
    rfl
  · intro partition bounds created _
    obtain ⟨member, rfl⟩ := whole created
    exact hosted partition member
  · intro partition none
    cases none

end Routable

open Routable

/-- However a range-routed namespace is split and merged, and in whatever order the
deletions reach the servers, each server stores the records it stored before. -/
theorem Environment.repartitioning_keeps_records [ToString K] (environment : Environment K V)
    (persistent : environment.partitionType = "bdb") (comparator : Comparator K)
    {partitions : List PartitionService} {cluster : Cluster environment}
    (hosted : ∀ partition ∈ partitions, Hosted cluster partition (none, none))
    {calls : List (Repartition K × Iteration PartitionService)}
    {next : RoutedNamespace K (Cluster environment)}
    (ran : run (environment.routable id comparator.compare).step
      (undivided comparator.compare partitions cluster)
      (calls.map fun called => (called.1.call, called.2)) = some next) (server : StorageService) :
    next.cluster.records server = cluster.records server := by
  have kept := @run_invariant _ _ _
    (fun called : Call K K × Iteration PartitionService => ∃ made : Repartition K, called.1 = made.call)
    (Kept id comparator.compare (partitions.map (·.storageService)) cluster.records []) _ _ _ ?_ ran ?_
    (undivided_kept comparator.agrees hosted)
  · exact congrFun kept.stored.kept server
  · intro before given after found held taken
    obtain ⟨_, arrival⟩ := given
    obtain ⟨made, rfl⟩ := found
    rw [step] at taken
    split at taken
    · rename_i _ _ returned
      cases taken
      cases made with
      | splitPartition splitKeys => exact splitPartition_kept persistent held returned
      | mergePartition mergeKeys => exact mergePartition_kept persistent held returned
    · cases taken
  · intro called member
    obtain ⟨given, _, rfl⟩ := List.mem_map.mp member
    exact ⟨given.1, rfl⟩

/-- A server with one partition and two records. -/
def filledHandler : StorageHandler Nat Nat where
  partitions := Function.update (fun _ => none) "test0000000000" (some ⟨.bdb, "test", none, none⟩)
  namespaces := Function.update (fun _ => none) "test"
    (some [("test0000000000", ⟨.bdb, "test", none, none⟩)])
  partitionDb := Database.empty.put "test0000000000" (some ⟨"test", "bdb", none, none⟩)
  databases := Function.update (fun _ => none) "test" (some ⟨[(3, 30), (7, 70)], by simp⟩)

def filledPartition : PartitionService := ⟨"localhost", 9000, .number 0, "test0000000000", testServer 0⟩

def filledCluster : Cluster (testEnvironment Nat) where
  handlers := Function.update (fun _ => .empty) (testServer 0) filledHandler
  nextNode := 1
  issued := [filledPartition]
  numbered := by
    intro partition known
    cases List.mem_singleton.mp known
    exact ⟨0, by decide, by decide⟩
  distinct := by
    intro first known second also _
    rw [List.mem_singleton.mp known, List.mem_singleton.mp also]

theorem filledPartition_hosted : Hosted filledCluster filledPartition (none, none) :=
  ⟨by decide, by decide, by decide⟩

/-- The partitions on the server when the first one is deleted. -/
def splitContext : NamespaceContext Nat :=
  [("test0000000002", ⟨.bdb, "test", some 5, none⟩), ("test0000000001", ⟨.bdb, "test", none, some 5⟩),
    ("test0000000000", ⟨.bdb, "test", none, none⟩)]

theorem splitPartition_filled : ∃ next, rangeRouted.splitPartition (.inserted _) [5]
    (undivided (Comparator.threeWay Nat).compare [filledPartition] filledCluster) = .ok .unit next := by
  obtain ⟨old, edited, ran, facts⟩ := @exists_ok _ _ _
    (undivided (Comparator.threeWay Nat).compare [filledPartition] filledCluster)
    (do
      let oldPartitions ← ([5].map rangeRouted.convertToRoutingKey).mapM rangeRouted.splitAt
      rangeRouted.storeRoutingTable
      return oldPartitions)
    (fun old next => decide (old = [[filledPartition]]) &&
      decide ((next.cluster.handlers (testServer 0)).partitions "test0000000000" =
        some ⟨.bdb, "test", none, none⟩) &&
      decide ((next.cluster.handlers (testServer 0)).namespaces "test" = some splitContext) &&
      ((next.cluster.handlers (testServer 0)).databases "test").isSome) (by decide +kernel)
  simp only [Bool.and_eq_true, decide_eq_true_eq] at facts
  obtain ⟨⟨⟨rfl, opened⟩, context⟩, stored⟩ := facts
  obtain ⟨database, stored⟩ := Option.isSome_iff_exists.mp stored
  have answered := (StorageHandler.deletePartition_collects_garbage _ (.inserted _) opened context (by decide)
    (by decide) (by simp [splitContext, PartitionHandler.span, Span.Proper]) stored).1
  obtain ⟨_, middle, looped, ran⟩ := bind_ok.mp ran
  obtain ⟨_, _, checked, returned⟩ := bind_ok.mp ran
  cases returned
  have deleted : (testEnvironment Nat).deletePartition filledPartition edited.cluster = .ok () _ :=
    Environment.deletePartition_ok.mpr ⟨answered, rfl⟩
  have gone : rangeRouted.deletePartitionServices (.inserted _) [filledPartition] edited = .ok .unit _ :=
    bind_ok.mpr ⟨.unit, _, rfl, bind_ok.mpr ⟨[()], _,
      awaitAll_singleton (onCluster_ok.mpr ⟨_, deleted, rfl⟩), rfl⟩⟩
  exact ⟨_, bind_ok.mpr ⟨_, middle, looped, bind_ok.mpr ⟨_, edited, checked,
    forM_cons_ok.mpr ⟨_, gone, rfl⟩⟩⟩⟩

theorem repartitioning_keeps_filled : ∃ next,
    run rangeRouted.step (undivided (Comparator.threeWay Nat).compare [filledPartition] filledCluster)
        [(.splitPartition [5], .inserted _)] = some next ∧
      next.cluster.records (testServer 0) = [(3, 30), (7, 70)] := by
  obtain ⟨next, returned⟩ := splitPartition_filled
  have taken : run rangeRouted.step
      (undivided (Comparator.threeWay Nat).compare [filledPartition] filledCluster)
      [(.splitPartition [5], .inserted _)] = some next := by
    simp only [run, step, call, returned]
  refine ⟨next, taken, ?_⟩
  exact @Environment.repartitioning_keeps_records _ _ _ _ (testEnvironment Nat) rfl (Comparator.threeWay Nat)
    [filledPartition] filledCluster (by simpa using filledPartition_hosted)
    [(.splitPartition [5], .inserted _)] next taken (testServer 0)

end Scads.Client
