import Scads.Client.WatchedTables

namespace Scads.Client

open Scads.Data Scads.Comm Scads.Server Scads.Util RangeTable

/-! # Open partitions

A call opens the partitions of its new table before it stores the table, and then it deletes
those of the old one.  When it has returned, no partition is open that the table does not list.
-/

namespace Routable

section

variable {R K σ : Type} {routable : Routable R K σ} {registry : Registry routable.servers}
  {ns next : RoutedNamespace K σ} {old gone : List PartitionService}

/-- Every open partition is in the table, or it is one of these. -/
def Accounted (registry : Registry routable.servers) (old : List PartitionService) (ns : RoutedNamespace K σ) : Prop :=
  ∀ partition bounds, registry.live ns.cluster partition = some bounds → Listed ns partition ∨ partition ∈ old

theorem Accounted.stored (accounted : Accounted registry old ns) :
    Accounted registry old { ns with stored := ns.routingTable.rTable } := accounted

/-- A part of the table is replaced by one that lists all new partitions. -/
theorem Accounted.replaced {made : List (PartitionService × Option K × Option K)} {table : RoutingTable K}
    {before block others after : List (RangeType K PartitionService)} (accounted : Accounted registry old ns)
    (grown : Grown registry ns made next) (split : ns.routingTable.rTable = before ++ block ++ after)
    (result : table.rTable = before ++ others ++ after)
    (lists : ∀ entry ∈ made, ∃ range ∈ others, entry.1 ∈ range.values)
    (kept : ∀ range ∈ block, ∀ partition ∈ range.values,
      partition ∈ gone ∨ ∃ other ∈ others, partition ∈ other.values) :
    Accounted registry (old ++ gone) { next with routingTable := table } := by
  have among : ∀ range ∈ before ++ others ++ after, ∀ partition ∈ range.values,
      Listed { next with routingTable := table } partition :=
    fun range member partition listed => ⟨range, result ▸ member, listed⟩
  intro partition bounds live
  rcases (grown.issued partition).mp (registry.live_issued live) with new | known
  · obtain ⟨entry, member, rfl⟩ := List.mem_map.mp new
    obtain ⟨range, other, listed⟩ := lists entry member
    exact .inl (among range (by simp [other]) _ listed)
  · rw [show registry.live next.cluster partition = _ from grown.live known] at live
    rcases accounted partition bounds live with found | early
    · obtain ⟨range, member, listed⟩ := found
      rw [split, List.mem_append, List.mem_append] at member
      rcases member with (first | inside) | last
      · exact .inl (among range (by simp [first]) _ listed)
      · rcases kept range inside partition listed with dropped | ⟨other, new, still⟩
        · exact .inr (List.mem_append_right _ dropped)
        · exact .inl (among other (by simp [new]) _ still)
      · exact .inl (among range (by simp [last]) _ listed)
    · exact .inr (List.mem_append_left _ early)

variable [LinearOrder K] [ToString K] {used : K → Prop}

theorem splitAt_accounted {key : K} {values : List PartitionService} (routed : Routed registry used ns)
    (given : used key) (accounted : Accounted registry old ns) (ran : routable.splitAt key ns = .ok values next) :
    Accounted registry (old ++ values) next := by
  obtain ⟨before, range, after, left, right, between, last, located, _, rfl, first, second, rfl⟩ :=
    splitAt_spec routed.arranged given ran
  have grown := (createPartitions_grown registry first).2.trans (createPartitions_grown registry second).2
  refine accounted.replaced grown (show _ = before ++ [range] ++ after by simpa using located.split)
    (show _ = before ++ [⟨range.startKey, left⟩, ⟨some key, right⟩] ++ after by simp) ?_ ?_
  · intro entry member
    rcases List.mem_append.mp member with member | member
    · obtain ⟨partition, listed, rfl⟩ := List.mem_map.mp member
      exact ⟨_, List.mem_cons_self, listed⟩
    · obtain ⟨partition, listed, rfl⟩ := List.mem_map.mp member
      exact ⟨_, List.mem_cons_of_mem _ List.mem_cons_self, listed⟩
  · intro other only partition listed
    rw [List.mem_singleton.mp only] at listed
    exact .inl listed

theorem mergeAt_accounted {key : K} {values : List PartitionService × List PartitionService}
    (routed : Routed registry used ns) (given : used key) (accounted : Accounted registry old ns)
    (ran : routable.mergeAt key ns = .ok values next) : Accounted registry (old ++ (values.1 ++ values.2)) next := by
  obtain ⟨front, left, range, after, values, last, split, _, _, rfl, made, rfl⟩ :=
    mergeAt_spec routed.arranged given ran
  refine accounted.replaced (createPartitions_grown registry made).2
    (show _ = front ++ [left, range] ++ after by simpa using split)
    (show _ = front ++ [⟨left.startKey, values⟩] ++ after by simp) ?_ ?_
  · intro entry member
    obtain ⟨partition, listed, rfl⟩ := List.mem_map.mp member
    exact ⟨_, List.mem_cons_self, listed⟩
  · intro other among partition listed
    rcases List.mem_pair.mp among with rfl | rfl
    · exact .inl (List.mem_append_left _ listed)
    · exact .inl (List.mem_append_right _ listed)

theorem removePartition_accounted {partition : PartitionService} (routed : Routed registry used ns)
    (given : StartsInUse registry used ns [partition]) (accounted : Accounted registry old ns)
    (ran : routable.removePartition partition ns = .ok .unit next) : Accounted registry (old ++ [partition]) next := by
  obtain ⟨_, before, range, after, _, located, rfl⟩ := removePartition_spec routed.arranged given ran
  refine accounted.replaced (Grown.refl ns) (show _ = before ++ [range] ++ after by simpa using located.split)
    (show _ = before ++ [⟨range.startKey, range.values.filter (· ≠ partition)⟩] ++ after by simp) (by simp) ?_
  intro place only other listed
  rw [List.mem_singleton.mp only] at listed
  by_cases same : other = partition
  · exact .inl (List.mem_singleton.mpr same)
  · exact .inr ⟨_, List.mem_cons_self, List.mem_filter.mpr ⟨listed, by simpa using same⟩⟩

theorem replicateOn_accounted {target : PartitionService × StorageService}
    {result : PartitionService × PartitionService} (held : Held registry used ns)
    (given : StartsInUse registry used ns [target.1]) (accounted : Accounted registry old ns)
    (ran : routable.replicateOn target ns = .ok result next) : Accounted registry old next := by
  obtain ⟨_, before, range, after, last, _, located, _, made, rfl⟩ := replicateOn_spec held.arranged given ran
  have kept := @Accounted.replaced _ _ _ _ _ _ _ old [] _
    { ns.routingTable with rTable := before ++ ⟨range.startKey, result.1 :: range.values⟩ :: after } before [range]
    [⟨range.startKey, result.1 :: range.values⟩] after accounted (createPartitions_grown registry made).2
    (by simpa using located.split) (by simp) (by simp) ?_
  · rwa [List.append_nil] at kept
  · intro place only other listed
    rw [List.mem_singleton.mp only] at listed
    exact .inr ⟨_, List.mem_cons_self, List.mem_cons_of_mem _ listed⟩

omit [LinearOrder K] [ToString K] in
/-- The ranges of a scheme list all partitions that were made for it. -/
theorem createScheme_lists {earlier : List (Option K × List StorageService)} {endKey : Option K}
    {rTable result : List (RangeType K PartitionService)} {middle : RoutedNamespace K σ}
    {made : List (PartitionService × Option K × Option K)} (grown : Grown registry ns made middle)
    (lists : ∀ entry ∈ made, ∃ range ∈ rTable, entry.1 ∈ range.values)
    (ran : routable.createScheme earlier endKey rTable middle = .ok result next) :
    ∃ made, Grown registry ns made next ∧ ∀ entry ∈ made, ∃ range ∈ result, entry.1 ∈ range.values := by
  induction earlier generalizing endKey rTable made middle with
  | nil =>
      cases ran
      exact ⟨made, grown, lists⟩
  | cons entry rest ih =>
      obtain ⟨startKey, servers⟩ := entry
      obtain ⟨handlers, between, one, ran⟩ := bind_ok.mp ran
      refine ih (grown.trans (createPartitions_grown registry one).2) (fun entry member => ?_) ran
      rcases List.mem_append.mp member with early | new
      · obtain ⟨range, among, listed⟩ := lists entry early
        exact ⟨range, List.mem_cons_of_mem _ among, listed⟩
      · obtain ⟨partition, listed, rfl⟩ := List.mem_map.mp new
        exact ⟨_, List.mem_cons_self, listed⟩

omit [LinearOrder K] in
theorem scheme_accounted {scheme : List (Option K × List StorageService)} {middle : RoutedNamespace K σ}
    {rTable : List (RangeType K PartitionService)} (accounted : Accounted registry [] ns)
    (created : routable.createScheme scheme.reverse none [] ns = .ok rTable middle)
    (replaced : routable.createRoutingTable rTable middle = .ok .unit next) :
    Accounted registry (ns.routingTable.rTable.flatMap RangeType.values) next := by
  obtain ⟨made, grown, lists⟩ := createScheme_lists (Grown.refl ns) (by simp) created
  obtain ⟨table, _, built, set⟩ := bind_ok.mp replaced
  obtain ⟨checked, rfl⟩ := ofExcept_ok.mp built
  have edited := (EStateM.Result.ok.inj set).2
  rw [← edited]
  have kept := @Accounted.replaced _ _ _ _ _ _ _ [] (ns.routingTable.rTable.flatMap RangeType.values) _ table []
    ns.routingTable.rTable rTable [] accounted grown (by simp) (by simpa using create_ok checked) lists ?_
  · simpa using kept
  · exact fun range member partition listed => .inl (List.mem_flatMap.mpr ⟨range, member, listed⟩)

end

variable {R K V : Type} {stored : LinearOrder K} {environment : Environment K V} {convertToRoutingKey : R → K}
  {routingKeyComp : K → K → Int} {ns middle next : RoutedNamespace K (Cluster environment)}
  {partitions old gone : List PartitionService} {arrival : Iteration PartitionService}

/-- The requests have closed these partitions and opened none. -/
structure Closes (partitions : List PartitionService) (ns next : RoutedNamespace K (Cluster environment)) : Prop where
  table : next.routingTable = ns.routingTable
  issued : ∀ other, other ∈ next.cluster.issued ↔ other ∈ ns.cluster.issued
  closed : ∀ partition ∈ partitions, environment.registry.live next.cluster partition = none
  opens : ∀ {partition bounds}, environment.registry.live next.cluster partition = some bounds →
    environment.registry.live ns.cluster partition = some bounds

theorem Closes.refl (ns : RoutedNamespace K (Cluster environment)) : Closes [] ns ns :=
  ⟨rfl, fun _ => Iff.rfl, by simp, id⟩

theorem Closes.trans (closes : Closes old ns middle) (again : Closes gone middle next) :
    Closes (old ++ gone) ns next where
  table := again.table.trans closes.table
  issued other := (again.issued other).trans (closes.issued other)
  closed partition member := by
    rcases List.mem_append.mp member with early | late
    · refine Option.eq_none_iff_forall_ne_some.mpr fun bounds live => ?_
      have before := again.opens live
      rw [closes.closed partition early] at before
      cases before
    · exact again.closed partition late
  opens live := closes.opens (again.opens live)

theorem deletePartitionServices_shuts (known : ∀ partition ∈ partitions, partition ∈ ns.cluster.issued)
    (ran : (environment.routable convertToRoutingKey routingKeyComp).deletePartitionServices arrival partitions ns =
      .ok .unit next) : Closes partitions ns next := by
  have shrunk := @deletePartitionServices_shrunk _ _ _ _
    (environment.partitions convertToRoutingKey routingKeyComp) _ _ _ _ known ran
  have closed := deletePartitionServices_closes known ran
  refine ⟨shrunk.table, shrunk.issued, closed, fun {partition bounds} live => ?_⟩
  by_cases member : partition ∈ partitions
  · rw [closed partition member] at live
    cases live
  · exact (shrunk.live partition member).symm.trans live

/-- The same for a loop over groups of partitions. -/
theorem forM_shuts {α : Type} {given : List α} {values : α → List PartitionService}
    {program : α → Method K (Cluster environment) Unit}
    (shuts : ∀ {value before after}, value ∈ given → (∀ partition ∈ values value, partition ∈ before.cluster.issued) →
      program value before = .ok .unit after → Closes (values value) before after)
    (known : ∀ partition ∈ given.flatMap values, partition ∈ ns.cluster.issued)
    (ran : given.forM program ns = .ok .unit next) : Closes (given.flatMap values) ns next := by
  refine @forM_invariant _ _ _ _ _ program (fun done state => Closes (done.flatMap values) ns state) given [] ?_
    (Closes.refl ns) ran
  intro done value state after member held one
  rw [List.flatMap_append, List.flatMap_singleton]
  refine held.trans (shuts member (fun partition among => ?_) one)
  exact (held.issued partition).mpr (known partition (List.mem_flatMap.mpr ⟨value, member, among⟩))

/-- When all others are closed, the open partitions are those of the table. -/
theorem Accounted.closed (accounted : Accounted (environment.partitions convertToRoutingKey routingKeyComp) old ns)
    (closes : Closes gone ns next) (all : ∀ partition ∈ old, partition ∈ gone) :
    Accounted (environment.partitions convertToRoutingKey routingKeyComp) [] next := by
  intro partition bounds live
  rcases accounted partition bounds (closes.opens live) with listed | among
  · rw [Listed, closes.table]
    exact .inl listed
  · have shut := closes.closed partition (all partition among)
    rw [show environment.registry.live next.cluster partition = some bounds from live] at shut
    cases shut

variable [routing : LinearOrder K] [ToString K] [DecidableEq K] {used : K → Prop}

theorem splitPartition_accounted {splitKeys : List R}
    (routed : Routed (environment.partitions convertToRoutingKey routingKeyComp) used ns)
    (accounted : Accounted (environment.partitions convertToRoutingKey routingKeyComp) [] ns)
    (admitted : Admitted (environment.partitions convertToRoutingKey routingKeyComp) used ns
      (.splitPartition splitKeys))
    (ran : (environment.routable convertToRoutingKey routingKeyComp).call arrival (.splitPartition splitKeys) ns =
      .ok .unit next) :
    Accounted (environment.partitions convertToRoutingKey routingKeyComp) [] next := by
  obtain ⟨groups, edited, looped, ran⟩ := bind_ok.mp ran
  obtain ⟨_, _, checked, removed⟩ := bind_ok.mp ran
  have kept := @mapM_invariant _ _ _ _ _ _ (environment.routable convertToRoutingKey routingKeyComp).splitAt
    (fun done state =>
      Edited (environment.partitions convertToRoutingKey routingKeyComp) used done.flatten ns state ∧
        Accounted (environment.partitions convertToRoutingKey routingKeyComp) done.flatten state)
    _ [] groups ?_ ⟨routed.edited_refl, accounted⟩ looped
  · obtain ⟨changed, held⟩ := kept
    obtain ⟨rfl, _⟩ := (storeRoutingTable_ok (environment.partitions convertToRoutingKey routingKeyComp)).mp checked
    have closes : Closes (groups.flatMap id) { edited with stored := edited.routingTable.rTable } next := by
      refine forM_shuts (fun _ known one => deletePartitionServices_shuts known one) ?_ removed
      exact fun partition member => (changed.replaced partition (by simpa using member)).1
    exact held.stored.closed closes fun partition member => by simpa using member
  · intro done key state values after member held one
    obtain ⟨given, known, rfl⟩ := List.mem_map.mp member
    have inUse := admitted given known
    rw [List.flatten_append]
    simpa using And.intro (held.1.trans (splitAt_edited held.1.routed inUse one))
      (splitAt_accounted held.1.routed inUse held.2 one)

theorem mergePartition_accounted {mergeKeys : List R}
    (routed : Routed (environment.partitions convertToRoutingKey routingKeyComp) used ns)
    (accounted : Accounted (environment.partitions convertToRoutingKey routingKeyComp) [] ns)
    (admitted : Admitted (environment.partitions convertToRoutingKey routingKeyComp) used ns
      (.mergePartition mergeKeys))
    (ran : (environment.routable convertToRoutingKey routingKeyComp).call arrival (.mergePartition mergeKeys) ns =
      .ok .unit next) :
    Accounted (environment.partitions convertToRoutingKey routingKeyComp) [] next := by
  obtain ⟨pairs, edited, looped, ran⟩ := bind_ok.mp ran
  obtain ⟨_, _, checked, removed⟩ := bind_ok.mp ran
  have kept := @mapM_invariant _ _ _ _ _ _ (environment.routable convertToRoutingKey routingKeyComp).mergeAt
    (fun done state =>
      Edited (environment.partitions convertToRoutingKey routingKeyComp) used
        (done.flatMap fun pair => pair.1 ++ pair.2) ns state ∧
        Accounted (environment.partitions convertToRoutingKey routingKeyComp)
          (done.flatMap fun pair => pair.1 ++ pair.2) state)
    _ [] pairs ?_ ⟨routed.edited_refl, accounted⟩ looped
  · obtain ⟨changed, held⟩ := kept
    obtain ⟨rfl, _⟩ := (storeRoutingTable_ok (environment.partitions convertToRoutingKey routingKeyComp)).mp checked
    have closes : Closes (pairs.flatMap fun pair => pair.1 ++ pair.2)
        { edited with stored := edited.routingTable.rTable } next := by
      refine forM_shuts ?_ (fun partition member => (changed.replaced partition member).1) removed
      intro pair before after _ known one
      obtain ⟨_, between, first, second⟩ := bind_ok.mp one
      have left := deletePartitionServices_shuts (fun partition member => known partition (by simp [member])) first
      refine left.trans (deletePartitionServices_shuts (fun partition member => ?_) second)
      exact (left.issued partition).mpr (known partition (by simp [member]))
    exact held.stored.closed closes fun partition member => member
  · intro done key state values after member held one
    obtain ⟨given, known, rfl⟩ := List.mem_map.mp member
    have inUse := admitted given known
    rw [List.flatMap_append]
    simpa using And.intro (held.1.trans (mergeAt_edited held.1.routed inUse one))
      (mergeAt_accounted held.1.routed inUse held.2 one)

theorem deletePartitions_accounted {partitionHandlers : List PartitionService}
    (routed : Routed (environment.partitions convertToRoutingKey routingKeyComp) used ns)
    (accounted : Accounted (environment.partitions convertToRoutingKey routingKeyComp) [] ns)
    (admitted : Admitted (environment.partitions convertToRoutingKey routingKeyComp) used ns
      (.deletePartitions partitionHandlers))
    (ran : (environment.routable convertToRoutingKey routingKeyComp).call arrival (.deletePartitions partitionHandlers) ns =
      .ok .unit next) :
    Accounted (environment.partitions convertToRoutingKey routingKeyComp) [] next := by
  obtain ⟨_, edited, looped, ran⟩ := bind_ok.mp ran
  obtain ⟨_, _, checked, removed⟩ := bind_ok.mp ran
  have kept := @forM_invariant _ _ _ _ _ (environment.routable convertToRoutingKey routingKeyComp).removePartition
    (fun done state =>
      (Edited (environment.partitions convertToRoutingKey routingKeyComp) used done ns state ∧
        state.cluster = ns.cluster) ∧
        Accounted (environment.partitions convertToRoutingKey routingKeyComp) done state)
    partitionHandlers [] ?_ ⟨⟨routed.edited_refl, rfl⟩, accounted⟩ looped
  · obtain ⟨⟨changed, _⟩, held⟩ := kept
    obtain ⟨rfl, _⟩ := (storeRoutingTable_ok (environment.partitions convertToRoutingKey routingKeyComp)).mp checked
    refine held.stored.closed (deletePartitionServices_shuts (fun partition member => ?_) removed) fun _ => id
    exact (changed.replaced partition member).1
  · intro done partition state after member held one
    obtain ⟨⟨changed, same⟩, held⟩ := held
    have inUse :
        StartsInUse (environment.partitions convertToRoutingKey routingKeyComp) used state [partition] := by
      intro other only
      rw [List.mem_singleton.mp only, same]
      exact admitted partition member
    obtain ⟨removed, alike⟩ := removePartition_edited changed.routed inUse one
    exact ⟨⟨changed.trans removed, alike.trans same⟩, removePartition_accounted changed.routed inUse held one⟩

theorem replicatePartitions_accounted {targets : List (PartitionService × StorageService)}
    (routed : Routed (environment.partitions convertToRoutingKey routingKeyComp) used ns)
    (accounted : Accounted (environment.partitions convertToRoutingKey routingKeyComp) [] ns)
    (admitted : Admitted (environment.partitions convertToRoutingKey routingKeyComp) used ns
      (.replicatePartitions targets))
    (ran : (environment.routable convertToRoutingKey routingKeyComp).call arrival (.replicatePartitions targets) ns =
      .ok .unit next) :
    Accounted (environment.partitions convertToRoutingKey routingKeyComp) [] next := by
  obtain ⟨replicas, _, replicated, returned⟩ := bind_ok.mp ran
  cases returned
  obtain ⟨result, edited, looped, ran⟩ := bind_ok.mp replicated
  obtain ⟨_, _, checked, ran⟩ := bind_ok.mp ran
  obtain ⟨_, _, copied, ran⟩ := bind_ok.mp ran
  cases ran
  have kept := @mapM_invariant _ _ _ _ _ _ (environment.routable convertToRoutingKey routingKeyComp).replicateOn
    (fun (_ : List (PartitionService × PartitionService)) state =>
      (Held (environment.partitions convertToRoutingKey routingKeyComp) used state ∧
        StartsInUse (environment.partitions convertToRoutingKey routingKeyComp) used state (targets.map Prod.fst)) ∧
        Accounted (environment.partitions convertToRoutingKey routingKeyComp) [] state)
    targets [] result ?_ ⟨⟨routed.toHeld, admitted⟩, accounted⟩ looped
  · obtain ⟨rfl, _⟩ := (storeRoutingTable_ok (environment.partitions convertToRoutingKey routingKeyComp)).mp checked
    refine @mapM_invariant _ _ _ _ _ _ id (fun (_ : List Unit) state =>
      Accounted (environment.partitions convertToRoutingKey routingKeyComp) [] state) _ [] _ ?_ kept.2.stored
      (awaitAll_ok copied)
    intro done program state reply after member held one
    obtain ⟨pair, _, rfl⟩ := List.mem_map.mp member
    obtain ⟨cluster, handled, rfl⟩ := onCluster_ok.mp one
    obtain ⟨_, live⟩ := environment.registry.copied handled
    exact fun partition bounds opened => held partition bounds ((live partition).symm.trans opened)
  · intro done target state reply after member held one
    obtain ⟨⟨held, given⟩, also⟩ := held
    have source : target.1 ∈ targets.map Prod.fst := List.mem_map_of_mem member
    have inUse : StartsInUse (environment.partitions convertToRoutingKey routingKeyComp) used state [target.1] :=
      fun partition only => List.mem_singleton.mp only ▸ given target.1 source
    exact ⟨replicateOn_held held given source one, replicateOn_accounted held inUse also one⟩

theorem setPartitionScheme_accounted {scheme : List (Option K × List StorageService)}
    (routed : Routed (environment.partitions convertToRoutingKey routingKeyComp) used ns)
    (compared : AgreesOn used routingKeyComp)
    (accounted : Accounted (environment.partitions convertToRoutingKey routingKeyComp) [] ns)
    (admitted : Admitted (environment.partitions convertToRoutingKey routingKeyComp) used ns
      (.setPartitionScheme scheme))
    (ran : (environment.routable convertToRoutingKey routingKeyComp).call arrival (.setPartitionScheme scheme) ns =
      .ok .unit next) :
    Accounted (environment.partitions convertToRoutingKey routingKeyComp) [] next := by
  rw [call, setPartitionScheme] at ran
  obtain ⟨_, _, nonempty, ran⟩ := bind_ok.mp ran
  obtain ⟨_, rfl⟩ := ofExcept_ok.mp nonempty
  obtain ⟨_, _, first, ran⟩ := bind_ok.mp ran
  obtain ⟨opened, rfl⟩ := require_head first
  obtain ⟨_, _, got, ran⟩ := bind_ok.mp ran
  cases got
  obtain ⟨rTable, last, created, ran⟩ := bind_ok.mp ran
  obtain ⟨_, edited, replaced, ran⟩ := bind_ok.mp ran
  obtain ⟨_, _, checked, removed⟩ := bind_ok.mp ran
  have changed := scheme_edited routed compared admitted.1 admitted.2 opened created replaced
  obtain ⟨rfl, _⟩ := (storeRoutingTable_ok (environment.partitions convertToRoutingKey routingKeyComp)).mp checked
  have held := scheme_accounted accounted created replaced
  refine held.stored.closed (deletePartitionServices_shuts (fun partition member => ?_) removed) fun partition => ?_
  · exact (changed.replaced partition (List.mem_eraseDups.mp member)).1
  · exact List.mem_eraseDups.mpr

theorem call_accounted {made : Call R K}
    (routed : Routed (environment.partitions convertToRoutingKey routingKeyComp) used ns)
    (compared : AgreesOn used routingKeyComp)
    (accounted : Accounted (environment.partitions convertToRoutingKey routingKeyComp) [] ns)
    (admitted : Admitted (environment.partitions convertToRoutingKey routingKeyComp) used ns made)
    (ran : (environment.routable convertToRoutingKey routingKeyComp).call arrival made ns = .ok .unit next) :
    Accounted (environment.partitions convertToRoutingKey routingKeyComp) [] next := by
  cases made with
  | splitPartition splitKeys => exact splitPartition_accounted routed accounted admitted ran
  | mergePartition mergeKeys => exact mergePartition_accounted routed accounted admitted ran
  | deletePartitions partitionHandlers => exact deletePartitions_accounted routed accounted admitted ran
  | replicatePartitions targets => exact replicatePartitions_accounted routed accounted admitted ran
  | setPartitionScheme scheme => exact setPartitionScheme_accounted routed compared accounted admitted ran

omit routing in
/-- A new namespace on servers that have none of its partitions has only the one of its table. -/
theorem doCreate_accounted {server : StorageService} {cluster : Cluster environment}
    (unopened : ∀ partition, environment.registry.live cluster partition = none)
    (created : (environment.routable convertToRoutingKey routingKeyComp).doCreate server
      ((environment.routable convertToRoutingKey routingKeyComp).unopened cluster) = .ok .unit ns) :
    Accounted (environment.partitions convertToRoutingKey routingKeyComp) [] ns := by
  obtain ⟨partitions, last, made, ran⟩ := bind_ok.mp created
  obtain ⟨_, _, replaced, checked⟩ := bind_ok.mp ran
  obtain ⟨table, _, passed, set⟩ := bind_ok.mp replaced
  obtain ⟨first, rfl⟩ := ofExcept_ok.mp passed
  obtain ⟨rfl, _⟩ := (storeRoutingTable_ok (environment.partitions convertToRoutingKey routingKeyComp)).mp checked
  have edited := (EStateM.Result.ok.inj set).2
  rw [← edited]
  have grown := (createPartitions_grown (environment.partitions convertToRoutingKey routingKeyComp) made).2
  have empty : ((environment.routable convertToRoutingKey routingKeyComp).unopened cluster).routingTable.rTable =
      [] ++ [] ++ [] := rfl
  have closed : Accounted (environment.partitions convertToRoutingKey routingKeyComp) []
      ((environment.routable convertToRoutingKey routingKeyComp).unopened cluster) := by
    intro partition bounds live
    have none := unopened partition
    rw [show environment.registry.live cluster partition = some bounds from live] at none
    cases none
  have kept := @Accounted.replaced _ _ _ _ _ _ _ [] [] _ table [] [] [⟨none, partitions⟩] [] closed grown empty
    (create_ok first) ?_ (by simp)
  · exact kept
  · intro entry member
    obtain ⟨partition, listed, rfl⟩ := List.mem_map.mp member
    exact ⟨_, List.mem_cons_self, listed⟩

end Routable

open Routable

/-- No partition is left behind: however a new namespace is repartitioned by admitted calls that return, its
open partitions are exactly those that the table lists, each with the bounds of its range. -/
theorem Environment.open_partitions_listed {R K V : Type} {stored : LinearOrder K} (environment : Environment K V)
    (convertToRoutingKey : R → K) (routingKeyComp : K → K → Int) [LinearOrder K] [DecidableEq K] [ToString K]
    (used : K → Prop) (compared : AgreesOn used routingKeyComp) {server : StorageService}
    {cluster : Cluster environment} {calls : List (Call R K × Iteration PartitionService)}
    {ns next : RoutedNamespace K (Cluster environment)}
    (unopened : ∀ partition, environment.registry.live cluster partition = none)
    (created : (environment.routable convertToRoutingKey routingKeyComp).doCreate server
      ((environment.routable convertToRoutingKey routingKeyComp).unopened cluster) = .ok .unit ns)
    (ran : run (environment.routable convertToRoutingKey routingKeyComp).step ns calls = some next)
    (admitted : Along (environment.routable convertToRoutingKey routingKeyComp).step (fun before called _ =>
      Admitted (environment.partitions convertToRoutingKey routingKeyComp) used before called.1) ns calls) :
    ∀ partition bounds, environment.registry.live next.cluster partition = some bounds ↔
      ∃ before range after, next.routingTable.rTable = before ++ range :: after ∧ partition ∈ range.values ∧
        bounds = (range.startKey, startOr none after) := by
  have kept := @along_invariant _ _ (environment.routable convertToRoutingKey routingKeyComp).step _
    (fun ns => Routed (environment.partitions convertToRoutingKey routingKeyComp) used ns ∧
      Accounted (environment.partitions convertToRoutingKey routingKeyComp) [] ns) ns next calls ?_
    ⟨doCreate_routed compared created, doCreate_accounted unopened created⟩ admitted ran
  · obtain ⟨routed, accounted⟩ := kept
    have opened : ∀ {before range after} {partition : PartitionService},
        next.routingTable.rTable = before ++ range :: after →
        partition ∈ range.values → environment.registry.live next.cluster partition =
          some (range.startKey, startOr none after) := by
      intro before range after partition split listed
      have aligned := routed.aligned
      rw [split, aligned_append] at aligned
      exact routed.live (by simp [split]) listed (aligned.2.1 partition listed)
    intro partition bounds
    constructor
    · intro live
      obtain ⟨range, member, listed⟩ := (accounted partition bounds live).resolve_right (by simp)
      obtain ⟨before, after, split⟩ := List.append_of_mem member
      rw [opened split listed] at live
      exact ⟨before, range, after, split, listed, (Option.some_inj.mp live).symm⟩
    · intro found
      obtain ⟨before, range, after, split, listed, rfl⟩ := found
      exact opened split listed
  · intro before called after held taken allowed
    refine ⟨step_routed held.1 compared allowed taken, ?_⟩
    rw [step] at taken
    split at taken
    · rename_i ran
      cases taken
      exact call_accounted held.1 compared held.2 allowed ran
    · cases taken

theorem open_partitions_listed_moved :
    ∃ ns next, rangeRouted.doCreate (testServer 0) (rangeRouted.unopened (testCluster Nat)) = .ok .unit ns ∧
      run rangeRouted.step ns schemeThenMove = some next ∧
      ∀ partition bounds, (testEnvironment Nat).registry.live next.cluster partition = some bounds ↔
        ∃ before range after, next.routingTable.rTable = before ++ range :: after ∧ partition ∈ range.values ∧
          bounds = (range.startKey, startOr none after) := by
  obtain ⟨ns, next, created, ran, _⟩ := @exists_run _ _ _ _ _ rangeRouted (testServer 0) (testCluster Nat)
    schemeThenMove (fun _ => true) (by decide +kernel)
  refine ⟨ns, next, created, ran, ?_⟩
  refine (testEnvironment Nat).open_partitions_listed id (Comparator.threeWay Nat).compare (fun _ => True)
    (Comparator.threeWay Nat).agrees (fun _ => rfl) created ran (along_of_forall fun called member _ _ => ?_)
  refine admitted_of_increasing fun scheme given => ?_
  rcases List.mem_cons.mp member with rfl | member
  · cases given
    unfold Increasing
    decide
  · simp only [List.mem_cons, List.not_mem_nil, or_false] at member
    rcases member with rfl | rfl
    · cases given
    · cases given

end Scads.Client
