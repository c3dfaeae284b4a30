import Scads.Client.FailedCalls

namespace Scads.Client

open Scads.Data Scads.Comm Scads.Server Scads.Util RangeTable

/-! # Ranges with partitions

A range lists each of its partitions once, and it always lists one: the table refuses to
remove the only element of a range.
-/

namespace Routable

/-- Every range of the table has partitions, and none twice. -/
def Populated {K : Type} (table : RoutingTable K) : Prop :=
  ∀ range ∈ table.rTable, range.values ≠ [] ∧ range.values.Nodup

variable {R K σ : Type} [LinearOrder K] [DecidableEq K] [ToString K] {routable : Routable R K σ}
  {registry : Registry routable.servers} {used : K → Prop} {ns next : RoutedNamespace K σ}

omit [LinearOrder K] [DecidableEq K] [ToString K] in
theorem deletePartitionServices_leaves (arrival : Iteration PartitionService) (partitions : List PartitionService) :
    Leaves (·.routingTable) (routable.deletePartitionServices arrival partitions) := by
  refine Leaves.bind (leaves_modify fun _ => rfl) fun _ => ?_
  refine Leaves.bind (leaves_awaitAll fun program member => ?_) fun _ => leaves_pure _ _
  obtain ⟨partition, _, rfl⟩ := List.mem_map.mp member
  exact leaves_zoom _ fun _ _ => rfl

omit [LinearOrder K] in
/-- A call changes its table before it checks it, and not after that. -/
theorem call_ran {arrival : Iteration PartitionService} {made : Call R K} (registry : Registry routable.servers)
    (ran : routable.call arrival made ns = .ok .unit next) :
    ∃ edited, routable.edit made ns = .ok .unit edited ∧ next.routingTable = edited.routingTable := by
  have same : ∀ {α : Type} {edited state : RoutedNamespace K σ} {program : Method K σ α} {value : α},
      routable.storeRoutingTable edited = .ok .unit state → Leaves (·.routingTable) program →
        program state = .ok value next → next.routingTable = edited.routingTable := by
    intro _ edited state program value checked leaves ran
    obtain ⟨rfl, _⟩ := (storeRoutingTable_ok registry).mp checked
    have kept := leaves.of_ok ran
    exact kept
  cases made with
  | splitPartition splitKeys =>
      obtain ⟨old, edited, looped, ran⟩ := bind_ok.mp ran
      obtain ⟨_, _, checked, ran⟩ := bind_ok.mp ran
      exact ⟨edited, bind_ok.mpr ⟨_, _, looped, rfl⟩,
        same checked (leaves_forM fun _ _ => deletePartitionServices_leaves _ _) ran⟩
  | mergePartition mergeKeys =>
      obtain ⟨old, edited, looped, ran⟩ := bind_ok.mp ran
      obtain ⟨_, _, checked, ran⟩ := bind_ok.mp ran
      exact ⟨edited, bind_ok.mpr ⟨_, _, looped, rfl⟩, same checked (leaves_forM fun _ _ =>
        (deletePartitionServices_leaves _ _).bind fun _ => deletePartitionServices_leaves _ _) ran⟩
  | deletePartitions partitionHandlers =>
      obtain ⟨_, edited, looped, ran⟩ := bind_ok.mp ran
      obtain ⟨_, _, checked, ran⟩ := bind_ok.mp ran
      exact ⟨edited, looped, same checked (deletePartitionServices_leaves _ _) ran⟩
  | replicatePartitions targets =>
      obtain ⟨_, _, ran, returned⟩ := bind_ok.mp ran
      cases returned
      obtain ⟨result, edited, looped, ran⟩ := bind_ok.mp ran
      obtain ⟨_, _, checked, ran⟩ := bind_ok.mp ran
      obtain ⟨_, _, copied, returned⟩ := bind_ok.mp ran
      cases returned
      refine ⟨edited, bind_ok.mpr ⟨_, _, looped, rfl⟩, same checked (leaves_awaitAll fun program member => ?_) copied⟩
      obtain ⟨pair, _, rfl⟩ := List.mem_map.mp member
      exact leaves_zoom _ fun _ _ => rfl
  | setPartitionScheme scheme =>
      obtain ⟨_, _, nonempty, ran⟩ := bind_ok.mp ran
      obtain ⟨_, rfl⟩ := ofExcept_ok.mp nonempty
      obtain ⟨_, _, first, ran⟩ := bind_ok.mp ran
      obtain ⟨opened, rfl⟩ := ofExcept_ok.mp first
      obtain ⟨_, _, got, ran⟩ := bind_ok.mp ran
      cases got
      obtain ⟨rTable, middle, created, ran⟩ := bind_ok.mp ran
      obtain ⟨_, edited, replaced, ran⟩ := bind_ok.mp ran
      obtain ⟨_, _, checked, ran⟩ := bind_ok.mp ran
      refine ⟨edited, ?_, same checked (deletePartitionServices_leaves _ _) ran⟩
      rw [edit]
      refine bind_ok.mpr ⟨_, _, nonempty, bind_ok.mpr ⟨_, _, first, bind_ok.mpr ⟨_, _, created, replaced⟩⟩⟩

variable {table edited : RoutingTable K} {before block others after : List (RangeType K PartitionService)}

omit [LinearOrder K] [DecidableEq K] [ToString K] in
theorem Populated.replaced (populated : Populated table) (split : table.rTable = before ++ (block ++ after))
    (result : edited.rTable = before ++ (others ++ after))
    (new : ∀ range ∈ others, range.values ≠ [] ∧ range.values.Nodup) : Populated edited := by
  intro range member
  rw [result] at member
  rcases List.mem_append.mp member with early | member
  · exact populated range (by simp [split, early])
  · rcases List.mem_append.mp member with made | late
    · exact new range made
    · exact populated range (by simp [split, late])

omit [LinearOrder K] [DecidableEq K] [ToString K] in
/-- New partitions are as many as their servers, and differ from each other. -/
theorem createPartitions_nodup (registry : Registry routable.servers) {startKey endKey : Option K}
    {servers : List StorageService} {partitions : List PartitionService}
    (made : routable.createPartitions startKey endKey servers ns = .ok partitions next) (some : servers ≠ []) :
    partitions ≠ [] ∧ partitions.Nodup := by
  constructor
  · intro none
    rw [none] at made
    exact some (createPartitions_grown registry made).1.symm
  · have kept := @mapM_invariant _ _ _ _ _ _ id
      (fun (done : List PartitionService) state =>
        done.Nodup ∧ ∀ partition ∈ done, registry.issued state.cluster partition)
      _ [] partitions ?_ ⟨List.nodup_nil, by simp⟩ (awaitAll_ok made)
    · exact kept.1
    · intro done program state partition after member held one
      obtain ⟨distinct, known⟩ := held
      obtain ⟨server, _, rfl⟩ := List.mem_map.mp member
      have grown := (requestPartition_grown registry one).2
      have new := grown.fresh _ List.mem_cons_self
      refine ⟨?_, fun other among => ?_⟩
      · rw [← List.concat_eq_append, List.nodup_concat]
        exact ⟨fun old => new (known partition old), distinct⟩
      · rw [grown.issued]
        rcases List.mem_append.mp among with old | last
        · exact .inr (known other old)
        · exact .inl (by simpa using last)

omit [LinearOrder K] [DecidableEq K] in
theorem splitAt_populated (registry : Registry routable.servers) {key : K} {old : List PartitionService}
    (populated : Populated ns.routingTable) (ran : routable.splitAt key ns = .ok old next) :
    Populated next.routingTable := by
  obtain ⟨_, bound, left, _, right, _, table, bounded, _, first, second, splitted, rfl⟩ := splitAt_ran ran
  obtain ⟨before, range, after, split, result⟩ := split_ok splitted
  have servers : bound.center.values.map (·.storageService) ≠ [] := by
    rw [ne_eq, List.map_eq_nil_iff]
    exact (populated _ (lowerUpperBound_ok bounded).2).1
  refine @Populated.replaced _ _ table before [range] [⟨range.startKey, left⟩, ⟨some key, right⟩] after
    populated split result fun made member => ?_
  rcases List.mem_pair.mp member with rfl | rfl
  · exact createPartitions_nodup registry first servers
  · exact createPartitions_nodup registry second servers

omit [LinearOrder K] [DecidableEq K] in
theorem mergeAt_populated (registry : Registry routable.servers) {key : K}
    {old : List PartitionService × List PartitionService} (populated : Populated ns.routingTable)
    (ran : routable.mergeAt key ns = .ok old next) : Populated next.routingTable := by
  obtain ⟨_, bound, values, _, table, bounded, _, made, merged, rfl⟩ := mergeAt_ran ran
  obtain ⟨before, left, right, after, split, result⟩ := merge_ok merged
  have servers : bound.left.values.map (·.storageService) ≠ [] := by
    rw [ne_eq, List.map_eq_nil_iff]
    exact (populated _ (lowerUpperBound_ok bounded).1).1
  refine @Populated.replaced _ _ table before [left, right] [⟨left.startKey, values⟩] after populated split result
    fun one member => ?_
  rw [List.mem_singleton.mp member]
  exact createPartitions_nodup registry made servers

theorem filter_ne_nil {values : List PartitionService} (some : values ≠ []) (distinct : values.Nodup)
    (more : values.length ≠ 1) (partition : PartitionService) : values.filter (· ≠ partition) ≠ [] := by
  intro none
  cases values with
  | nil => exact some rfl
  | cons first rest =>
      cases rest with
      | nil => exact more rfl
      | cons second rest =>
          rw [List.filter_eq_nil_iff] at none
          have same : first = partition := by simpa using none first (by simp)
          have also : second = partition := by simpa using none second (by simp)
          exact (List.nodup_cons.mp distinct).1 (by simp [same, also])

omit [LinearOrder K] [DecidableEq K] in
/-- The table refuses to remove the only partition of a range. -/
theorem removePartition_populated {partition : PartitionService} (populated : Populated ns.routingTable)
    (ran : routable.removePartition partition ns = .ok .unit next) : Populated next.routingTable := by
  obtain ⟨_, state, read, ran⟩ := bind_ok.mp ran
  obtain ⟨cluster, _, rfl⟩ := onCluster_ok.mp read
  obtain ⟨_, _, got, ran⟩ := bind_ok.mp ran
  cases got
  obtain ⟨table, _, removed, ran⟩ := bind_ok.mp ran
  obtain ⟨changed, rfl⟩ := ofExcept_ok.mp removed
  cases ran
  obtain ⟨before, range, after, split, more, result⟩ := removeValueFromRange_ok changed
  obtain ⟨some, distinct⟩ := populated range (by rw [show ns.routingTable.rTable = _ from split]; simp)
  refine @Populated.replaced _ _ table before [range] [⟨range.startKey, range.values.filter (· ≠ partition)⟩] after
    populated split result fun made member => ?_
  rw [List.mem_singleton.mp member]
  exact ⟨filter_ne_nil some distinct more partition, distinct.filter _⟩

omit [LinearOrder K] [DecidableEq K] in
/-- The table refuses to list a partition twice. -/
theorem replicateOn_populated (registry : Registry routable.servers) {target : PartitionService × StorageService}
    {result : PartitionService × PartitionService} (populated : Populated ns.routingTable)
    (ran : routable.replicateOn target ns = .ok result next) : Populated next.routingTable := by
  obtain ⟨bounds, _, read, ran⟩ := bind_ok.mp ran
  obtain ⟨rfl, _⟩ := (getStartEndKey_ok registry).mp read
  obtain ⟨partitions, last, made, ran⟩ := bind_ok.mp ran
  obtain ⟨_, grown⟩ := createPartitions_grown registry made
  cases partitions with
  | nil => exact absurd ran throw_ok
  | cons partition others =>
      obtain ⟨_, _, got, ran⟩ := bind_ok.mp ran
      cases got
      obtain ⟨table, _, added, ran⟩ := bind_ok.mp ran
      obtain ⟨changed, rfl⟩ := ofExcept_ok.mp added
      obtain ⟨_, _, set, ran⟩ := bind_ok.mp ran
      cases set
      cases ran
      rw [grown.table] at changed
      obtain ⟨before, range, after, split, absent, result⟩ := addValueToRange_ok changed
      refine @Populated.replaced _ _ table before [range] [⟨range.startKey, partition :: range.values⟩] after
        populated split result fun one member => ?_
      rw [List.mem_singleton.mp member]
      exact ⟨List.cons_ne_nil _ _, List.nodup_cons.mpr ⟨absent, (populated range (by simp [split])).2⟩⟩

omit [LinearOrder K] [DecidableEq K] [ToString K] in
theorem createScheme_populated (registry : Registry routable.servers)
    {earlier : List (Option K × List StorageService)} {endKey : Option K}
    {rTable result : List (RangeType K PartitionService)} (servers : ∀ entry ∈ earlier, entry.2 ≠ [])
    (start : ∀ range ∈ rTable, range.values ≠ [] ∧ range.values.Nodup)
    (ran : routable.createScheme earlier endKey rTable ns = .ok result next) :
    ∀ range ∈ result, range.values ≠ [] ∧ range.values.Nodup := by
  induction earlier generalizing endKey rTable ns with
  | nil =>
      cases ran
      exact start
  | cons entry rest ih =>
      obtain ⟨handlers, between, one, ran⟩ := bind_ok.mp ran
      obtain ⟨given, servers⟩ := List.forall_mem_cons.mp servers
      refine ih servers ?_ ran
      exact List.forall_mem_cons.mpr ⟨createPartitions_nodup registry one given, start⟩

/-- A scheme gives each of its ranges a server. -/
def Serves : Call R K → Prop
  | .setPartitionScheme scheme => ∀ entry ∈ scheme, entry.2 ≠ []
  | _ => True

omit [LinearOrder K] in
theorem edit_populated (registry : Registry routable.servers) {made : Call R K} (populated : Populated ns.routingTable)
    (serves : Serves made) (ran : routable.edit made ns = .ok .unit next) : Populated next.routingTable := by
  cases made with
  | splitPartition splitKeys =>
      obtain ⟨old, _, looped, returned⟩ := bind_ok.mp ran
      cases returned
      exact @mapM_invariant _ _ _ _ _ _ routable.splitAt (fun _ state => Populated state.routingTable) _ [] _
        (fun _ held one => splitAt_populated registry held one) populated looped
  | mergePartition mergeKeys =>
      obtain ⟨old, _, looped, returned⟩ := bind_ok.mp ran
      cases returned
      exact @mapM_invariant _ _ _ _ _ _ routable.mergeAt (fun _ state => Populated state.routingTable) _ [] _
        (fun _ held one => mergeAt_populated registry held one) populated looped
  | deletePartitions partitionHandlers =>
      exact @forM_invariant _ _ _ _ _ routable.removePartition (fun _ state => Populated state.routingTable) _ []
        (fun _ held one => removePartition_populated held one) populated ran
  | replicatePartitions targets =>
      obtain ⟨result, _, looped, returned⟩ := bind_ok.mp ran
      cases returned
      exact @mapM_invariant _ _ _ _ _ _ routable.replicateOn (fun _ state => Populated state.routingTable) _ [] _
        (fun _ held one => replicateOn_populated registry held one) populated looped
  | setPartitionScheme scheme =>
      rw [edit] at ran
      obtain ⟨_, _, nonempty, ran⟩ := bind_ok.mp ran
      obtain ⟨_, rfl⟩ := ofExcept_ok.mp nonempty
      obtain ⟨_, _, first, ran⟩ := bind_ok.mp ran
      obtain ⟨_, rfl⟩ := ofExcept_ok.mp first
      obtain ⟨rTable, last, created, ran⟩ := bind_ok.mp ran
      obtain ⟨table, _, checked, ran⟩ := bind_ok.mp ran
      obtain ⟨passed, rfl⟩ := ofExcept_ok.mp checked
      cases ran
      rw [Populated, show table.rTable = rTable from create_ok passed]
      exact createScheme_populated registry (fun entry member => serves entry (List.mem_reverse.mp member))
        (by simp) created

omit [LinearOrder K] in
theorem step_populated (registry : Registry routable.servers) {called : Call R K × Iteration PartitionService}
    (populated : Populated ns.routingTable) (serves : Serves called.1)
    (taken : routable.step ns called = some next) : Populated next.routingTable := by
  rw [step] at taken
  split at taken
  · rename_i ran
    cases taken
    obtain ⟨edited, changed, same⟩ := call_ran registry ran
    rw [same]
    exact edit_populated registry populated serves changed
  · cases taken

omit [LinearOrder K] in
/-- The one range of a new namespace has one partition. -/
theorem doCreate_populated (registry : Registry routable.servers) {server : StorageService} {cluster : σ}
    (created : routable.doCreate server (routable.unopened cluster) = .ok .unit ns) :
    Populated ns.routingTable := by
  obtain ⟨partitions, last, made, ran⟩ := bind_ok.mp created
  obtain ⟨_, _, replaced, checked⟩ := bind_ok.mp ran
  obtain ⟨table, _, passed, ran⟩ := bind_ok.mp replaced
  obtain ⟨first, rfl⟩ := ofExcept_ok.mp passed
  cases ran
  obtain ⟨rfl, _⟩ := (storeRoutingTable_ok registry).mp checked
  intro range member
  change range ∈ table.rTable at member
  rw [show table.rTable = [⟨none, partitions⟩] from create_ok first] at member
  rw [List.mem_singleton.mp member]
  exact createPartitions_nodup registry made (List.cons_ne_nil _ _)

end Routable

/-- However a new namespace is repartitioned, each of its ranges has a partition and none
twice, as long as no scheme has a range without servers.  How keys are compared does not matter. -/
theorem Environment.ranges_stay_populated {R K V : Type} {stored : LinearOrder K} (environment : Environment K V)
    (convertToRoutingKey : R → K) (routingKeyComp : K → K → Int) [DecidableEq K] [ToString K]
    {server : StorageService} {cluster : Cluster environment}
    {calls : List (Routable.Call R K × Iteration PartitionService)}
    {ns next : RoutedNamespace K (Cluster environment)}
    (created : (environment.routable convertToRoutingKey routingKeyComp).doCreate server
      ((environment.routable convertToRoutingKey routingKeyComp).unopened cluster) = .ok .unit ns)
    (ran : run (environment.routable convertToRoutingKey routingKeyComp).step ns calls = some next)
    (serves : ∀ called ∈ calls, Routable.Serves called.1) : Routable.Populated next.routingTable := by
  have registry := environment.partitions convertToRoutingKey routingKeyComp
  exact @along_invariant _ _ (environment.routable convertToRoutingKey routingKeyComp).step _
    (fun ns => Routable.Populated ns.routingTable) ns next calls
    (fun populated taken given => Routable.step_populated registry populated given taken)
    (Routable.doCreate_populated registry created) (along_of_forall fun called member _ _ => serves called member) ran

theorem ranges_stay_populated_moved :
    ∃ ns next, rangeRouted.doCreate (testServer 0) (rangeRouted.unopened (testCluster Nat)) = .ok .unit ns ∧
      run rangeRouted.step ns schemeThenMove = some next ∧ Routable.Populated next.routingTable := by
  obtain ⟨ns, next, created, ran, _⟩ := @exists_run _ _ _ _ _ rangeRouted (testServer 0) (testCluster Nat)
    schemeThenMove (fun _ => true) (by decide +kernel)
  refine ⟨ns, next, created, ran, (testEnvironment Nat).ranges_stay_populated id (Comparator.threeWay Nat).compare
    created ran fun called member => ?_⟩
  rcases List.mem_cons.mp member with rfl | member
  · simp [Routable.Serves]
  · simp only [List.mem_cons, List.not_mem_nil, or_false] at member
    rcases member with rfl | rfl
    · trivial
    · trivial

end Scads.Client
