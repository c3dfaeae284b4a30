import Scads.Client.RoutedRanges

namespace Scads.Client

open Scads.Data Scads.Comm Scads.Server Scads.Util RangeTable

/-! # What the calls of a namespace do to its table -/

namespace Routable

section

variable {R K σ : Type} [ToString K] {routable : Routable R K σ} {ns next : RoutedNamespace K σ}

omit [ToString K] in
theorem replaceTable_ok {changed : Except Failure (Option (RoutingTable K))} :
    replaceTable changed ns = .ok .unit next ↔
      ∃ table, changed = .ok (some table) ∧ next = { ns with routingTable := table } := by
  rw [replaceTable, bind_ok]
  constructor
  · intro found
    obtain ⟨result, _, given, ran⟩ := found
    obtain ⟨rfl, rfl⟩ := ofExcept_ok.mp given
    cases result with
    | none => exact absurd ran throw_ok
    | some table =>
        cases ran
        exact ⟨table, rfl, rfl⟩
  · intro found
    obtain ⟨table, rfl, rfl⟩ := found
    exact ⟨some table, ns, ofExcept_ok.mpr ⟨rfl, rfl⟩, rfl⟩

theorem splitAt_ran {key : K} {old : List PartitionService} (ran : routable.splitAt key ns = .ok old next) :
    ns.routingTable.isSplitKey key ≠ true ∧ ∃ bound left between right last table,
      ns.routingTable.lowerUpperBound (some key) = .ok bound ∧ old = bound.center.values ∧
        routable.createPartitions bound.center.startKey (some key) (bound.center.values.map (·.storageService)) ns =
          .ok left between ∧
        routable.createPartitions (some key) bound.right.startKey (bound.center.values.map (·.storageService))
          between = .ok right last ∧
        ns.routingTable.split key left right = .ok (some table) ∧ next = { last with routingTable := table } := by
  rw [splitAt] at ran
  obtain ⟨read, _, got, ran⟩ := bind_ok.mp ran
  cases got
  dsimp only at ran
  split at ran
  · obtain ⟨_, _, thrown, _⟩ := bind_ok.mp ran
    exact absurd thrown throw_ok
  · rename_i inside
    obtain ⟨bound, _, looked, ran⟩ := bind_ok.mp ran
    obtain ⟨found, rfl⟩ := ofExcept_ok.mp looked
    obtain ⟨left, between, first, ran⟩ := bind_ok.mp ran
    obtain ⟨right, last, second, ran⟩ := bind_ok.mp ran
    obtain ⟨_, _, replaced, ran⟩ := bind_ok.mp ran
    cases ran
    obtain ⟨table, splitted, rfl⟩ := replaceTable_ok.mp replaced
    exact ⟨inside, bound, left, between, right, last, table, found, rfl, first, second, splitted, rfl⟩

theorem mergeAt_ran {key : K} {old : List PartitionService × List PartitionService}
    (ran : routable.mergeAt key ns = .ok old next) :
    ns.routingTable.checkMergeCondition (ns.routingTable.binarySearch (some key)) = .ok true ∧
      ∃ bound values last table, ns.routingTable.lowerUpperBound (some key) = .ok bound ∧
        old = (bound.left.values, bound.center.values) ∧
        routable.createPartitions bound.left.startKey bound.right.startKey
          (bound.left.values.map (·.storageService)) ns = .ok values last ∧
        ns.routingTable.merge key values = .ok (some table) ∧ next = { last with routingTable := table } := by
  rw [mergeAt] at ran
  obtain ⟨read, _, got, ran⟩ := bind_ok.mp ran
  cases got
  dsimp only at ran
  obtain ⟨merges, _, asked, ran⟩ := bind_ok.mp ran
  obtain ⟨checked, rfl⟩ := ofExcept_ok.mp asked
  split at ran
  · rename_i allowed
    rw [allowed] at checked
    obtain ⟨bound, _, looked, ran⟩ := bind_ok.mp ran
    obtain ⟨found, rfl⟩ := ofExcept_ok.mp looked
    obtain ⟨values, last, made, ran⟩ := bind_ok.mp ran
    obtain ⟨_, _, replaced, ran⟩ := bind_ok.mp ran
    cases ran
    obtain ⟨table, merged, rfl⟩ := replaceTable_ok.mp replaced
    exact ⟨checked, bound, values, last, table, found, rfl, made, merged, rfl⟩
  · obtain ⟨_, _, thrown, _⟩ := bind_ok.mp ran
    exact absurd thrown throw_ok

end

variable {R K σ : Type} [LinearOrder K] [ToString K] {routable : Routable R K σ}
  {registry : Registry routable.servers} {used : K → Prop} {ns middle next : RoutedNamespace K σ}

/-- A split makes two sets of partitions, for the ranges left and right of the key. -/
theorem splitAt_spec {key : K} {old : List PartitionService} (arranged : ns.routingTable.Arranged used)
    (given : used key) (ran : routable.splitAt key ns = .ok old next) :
    ∃ before range after left right between last,
      ns.routingTable.At (some key) before range after ∧ range.startKey ≠ some key ∧ old = range.values ∧
        routable.createPartitions range.startKey (some key) (range.values.map (·.storageService)) ns =
          .ok left between ∧
        routable.createPartitions (some key) (startOr none after) (range.values.map (·.storageService))
          between = .ok right last ∧
        next = { last with routingTable := { ns.routingTable with
          rTable := before ++ ⟨range.startKey, left⟩ :: ⟨some key, right⟩ :: after } } := by
  obtain ⟨before, range, after, located⟩ := arranged.exists_at (some key)
  have found : ns.routingTable.Found (some key) before range after :=
    arranged.found (fun _ same => Option.some.inj same ▸ given) located
  obtain ⟨inside, bound, left, between, right, last, table, same, rfl, first, second, splitted, rfl⟩ := splitAt_ran ran
  rw [isSplitKey_found found, ne_eq, decide_eq_true_iff] at inside
  rw [lowerUpperBound_found found] at same
  cases same
  rw [startKey_head] at second
  rw [split_found found inside] at splitted
  cases splitted
  exact ⟨before, range, after, left, right, between, last, located, inside, rfl, first, second, rfl⟩

/-- A merge makes one set of partitions, for the ranges on both sides of the key. -/
theorem mergeAt_spec {key : K} {old : List PartitionService × List PartitionService}
    (arranged : ns.routingTable.Arranged used) (given : used key)
    (ran : routable.mergeAt key ns = .ok old next) :
    ∃ front left range after values last,
      ns.routingTable.rTable = front ++ left :: range :: after ∧ range.startKey = some key ∧
        ns.routingTable.mergeCondition left.values range.values = true ∧ old = (left.values, range.values) ∧
        routable.createPartitions left.startKey (startOr none after) (left.values.map (·.storageService)) ns =
          .ok values last ∧
        next = { last with routingTable := { ns.routingTable with
          rTable := front ++ ⟨left.startKey, values⟩ :: after } } := by
  obtain ⟨before, range, after, located⟩ := arranged.exists_at (some key)
  have found : ns.routingTable.Found (some key) before range after :=
    arranged.found (fun _ same => Option.some.inj same ▸ given) located
  obtain ⟨allowed, bound, values, last, table, same, rfl, made, merged, rfl⟩ := mergeAt_ran ran
  have boundary : range.startKey = some key := by
    by_contra inside
    rw [checkMergeCondition_inside found inside] at allowed
    cases allowed
  obtain ⟨front, left, rfl⟩ := arranged.shaped.before_boundary located boundary
  have split : ns.routingTable.rTable = front ++ left :: range :: after := by simp [located.split]
  rw [checkMergeCondition_found found boundary] at allowed
  have merges : ns.routingTable.mergeCondition left.values range.values = true := Except.ok.inj allowed
  rw [lowerUpperBound_found found] at same
  cases same
  simp only [startKey_head, List.getLast?_append, List.getLast?_singleton, Option.some_or,
    Option.getD_some] at made
  rw [merge_found found boundary, if_pos merges] at merged
  cases merged
  exact ⟨front, left, range, after, values, last, split, boundary, merges, by simp, made, rfl⟩

theorem splitAt_edited {key : K} {old : List PartitionService} (routed : Routed registry used ns)
    (given : used key) (ran : routable.splitAt key ns = .ok old next) :
    Edited registry used old ns next := by
  obtain ⟨before, range, after, left, right, between, last, located, inside, rfl, first, second, rfl⟩ :=
    splitAt_spec routed.arranged given ran
  obtain ⟨_, leftMade⟩ := createPartitions_grown registry first
  obtain ⟨_, rightMade⟩ := createPartitions_grown registry second
  have grown := leftMade.trans rightMade
  have edited := routed.edited grown (show _ = before ++ [range] ++ after by simpa using located.split)
    (routed.arranged.inserted located inside given left right)
    (show _ = before ++ [⟨range.startKey, left⟩, ⟨some key, right⟩] ++ after by simp) rfl ?_ ?_
  · simpa using edited
  · refine ⟨fun partition listed => ?_, fun partition listed => ?_, trivial⟩
    · exact (grown.creations _).mpr (.inl (List.mem_append_left _ (List.mem_map_of_mem listed)))
    · exact (grown.creations _).mpr (.inl (List.mem_append_right _ (List.mem_map_of_mem listed)))
  · intro other member partition listed
    simp only [List.mem_cons, List.not_mem_nil, or_false] at member
    rcases member with rfl | rfl
    · exact ⟨_, List.mem_append_left _ (List.mem_map_of_mem listed)⟩
    · exact ⟨_, List.mem_append_right _ (List.mem_map_of_mem listed)⟩

theorem mergeAt_edited {key : K} {old : List PartitionService × List PartitionService}
    (routed : Routed registry used ns) (given : used key)
    (ran : routable.mergeAt key ns = .ok old next) :
    Edited registry used (old.1 ++ old.2) ns next := by
  obtain ⟨front, left, range, after, values, last, split, _, _, rfl, made, rfl⟩ :=
    mergeAt_spec routed.arranged given ran
  obtain ⟨_, grown⟩ := createPartitions_grown registry made
  have edited := routed.edited grown (show _ = front ++ [left, range] ++ after by simpa using split)
    (routed.arranged.joined split values) (show _ = front ++ [⟨left.startKey, values⟩] ++ after by simp)
    rfl ?_ ?_
  · simpa using edited
  · refine ⟨fun partition listed => ?_, trivial⟩
    exact (grown.creations _).mpr (.inl (List.mem_map_of_mem listed))
  · intro other member partition listed
    cases List.mem_singleton.mp member
    exact ⟨_, List.mem_map_of_mem listed⟩

omit [ToString K] in
theorem stored_routed (routed : Routed registry used ns) :
    Routed registry used { ns with stored := ns.routingTable.rTable } :=
  ⟨⟨routed.arranged, routed.known, routed.sent, routed.listed⟩, routed.aligned⟩

theorem splits_edited {keys : List K} {old : List (List PartitionService)}
    (routed : Routed registry used ns) (given : ∀ key ∈ keys, used key)
    (ran : keys.mapM routable.splitAt ns = .ok old next) : Edited registry used old.flatten ns next := by
  have edited := @mapM_invariant _ _ _ _ _ _ routable.splitAt
    (fun done state => Edited registry used done.flatten ns state) keys [] old ?_ routed.edited_refl ran
  · exact edited
  · intro done key state result after member held one
    rw [List.flatten_append]
    simpa using held.trans (splitAt_edited held.routed (given key member) one)

theorem merges_edited {keys : List K} {old : List (List PartitionService × List PartitionService)}
    (routed : Routed registry used ns) (given : ∀ key ∈ keys, used key)
    (ran : keys.mapM routable.mergeAt ns = .ok old next) :
    Edited registry used (old.flatMap fun pair => pair.1 ++ pair.2) ns next := by
  have edited := @mapM_invariant _ _ _ _ _ _ routable.mergeAt
    (fun done state => Edited registry used (done.flatMap fun pair => pair.1 ++ pair.2) ns state) keys [] old
    ?_ routed.edited_refl ran
  · exact edited
  · intro done key state result after member held one
    rw [List.flatMap_append]
    simpa using held.trans (mergeAt_edited held.routed (given key member) one)

section

variable {arrival : Iteration PartitionService} {splitKeys mergeKeys : List R}

omit [LinearOrder K] in
/-- What the splits, the storing of the table and the deletion of the partitions that
were split preserve holds after the call. -/
theorem splitPartition_invariant [DecidableEq K] (registry : Registry routable.servers)
    (holds : List PartitionService → RoutedNamespace K σ → Prop)
    (split : ∀ {old key values state after}, key ∈ splitKeys → holds old state →
      routable.splitAt (routable.convertToRoutingKey key) state = .ok values after →
        holds (old ++ values) after)
    (stored : ∀ {old state}, holds old state → holds old { state with stored := state.routingTable.rTable })
    (deleted : ∀ {old partitions state after}, (∀ partition ∈ partitions, partition ∈ old) →
      holds old state → routable.deletePartitionServices arrival partitions state = .ok .unit after →
        holds old after)
    (start : holds [] ns) (ran : routable.splitPartition arrival splitKeys ns = .ok .unit next) :
    ∃ old, holds old next := by
  obtain ⟨groups, _, looped, ran⟩ := bind_ok.mp ran
  obtain ⟨_, _, checked, removed⟩ := bind_ok.mp ran
  obtain ⟨rfl, _⟩ := (storeRoutingTable_ok registry).mp checked
  have edited := @mapM_invariant _ _ _ _ _ _ _
    (fun (done : List (List PartitionService)) state => holds done.flatten state) _ [] groups ?_ start looped
  · refine ⟨groups.flatten, @forM_invariant _ _ _ _ _ _
      (fun (_ : List (List PartitionService)) state => holds groups.flatten state) _ [] ?_ (stored edited)
      removed⟩
    intro _ group state after member held one
    exact deleted (fun partition listed => List.mem_flatten.mpr ⟨group, member, listed⟩) held one
  · intro done routingKey state values after member held one
    obtain ⟨key, given, rfl⟩ := List.mem_map.mp member
    simpa using split given held one

omit [LinearOrder K] in
/-- The same for merges, which delete the partitions on both sides of a key. -/
theorem mergePartition_invariant [DecidableEq K] (registry : Registry routable.servers)
    (holds : List PartitionService → RoutedNamespace K σ → Prop)
    (merge : ∀ {old key values state after}, key ∈ mergeKeys → holds old state →
      routable.mergeAt (routable.convertToRoutingKey key) state = .ok values after →
        holds (old ++ (values.1 ++ values.2)) after)
    (stored : ∀ {old state}, holds old state → holds old { state with stored := state.routingTable.rTable })
    (deleted : ∀ {old partitions state after}, (∀ partition ∈ partitions, partition ∈ old) →
      holds old state → routable.deletePartitionServices arrival partitions state = .ok .unit after →
        holds old after)
    (start : holds [] ns) (ran : routable.mergePartition arrival mergeKeys ns = .ok .unit next) :
    ∃ old, holds old next := by
  obtain ⟨pairs, _, looped, ran⟩ := bind_ok.mp ran
  obtain ⟨_, _, checked, removed⟩ := bind_ok.mp ran
  obtain ⟨rfl, _⟩ := (storeRoutingTable_ok registry).mp checked
  have edited := @mapM_invariant _ _ _ _ _ _ _
    (fun (done : List (List PartitionService × List PartitionService)) state =>
      holds (done.flatMap fun pair => pair.1 ++ pair.2) state) _ [] pairs ?_ start looped
  · refine ⟨pairs.flatMap fun pair => pair.1 ++ pair.2, @forM_invariant _ _ _ _ _ _
      (fun (_ : List (List PartitionService × List PartitionService)) state =>
        holds (pairs.flatMap fun pair => pair.1 ++ pair.2) state) _ [] ?_ (stored edited) removed⟩
    intro _ found state after member held one
    obtain ⟨leftPart, rightPart⟩ := found
    obtain ⟨_, between, first, second⟩ := bind_ok.mp one
    have among : ∀ partition ∈ leftPart ++ rightPart,
        partition ∈ pairs.flatMap fun pair => pair.1 ++ pair.2 :=
      fun partition listed => List.mem_flatMap.mpr ⟨_, member, listed⟩
    have left := deleted (fun partition listed => among partition (List.mem_append_left _ listed)) held first
    exact deleted (fun partition listed => among partition (List.mem_append_right _ listed)) left second
  · intro done routingKey state values after member held one
    obtain ⟨key, given, rfl⟩ := List.mem_map.mp member
    simpa using merge given held one

/-- The table lists the right partitions and none of the old ones. -/
structure RoutedWithout (registry : Registry routable.servers) (used : K → Prop)
    (old : List PartitionService) (ns : RoutedNamespace K σ) : Prop where
  routed : Routed registry used ns
  dropped : ∀ partition ∈ old, Dropped registry ns partition

omit [ToString K] in
theorem RoutedWithout.edited {old values : List PartitionService}
    (without : RoutedWithout registry used old ns) (edited : Edited registry used values ns next) :
    RoutedWithout registry used (old ++ values) next where
  routed := edited.routed
  dropped partition member := by
    rcases List.mem_append.mp member with early | late
    · exact edited.dropped (without.dropped partition early)
    · exact edited.replaced partition late

omit [ToString K] in
theorem RoutedWithout.deleted {old partitions : List PartitionService}
    (among : ∀ partition ∈ partitions, partition ∈ old) (without : RoutedWithout registry used old ns)
    (ran : routable.deletePartitionServices arrival partitions ns = .ok .unit next) :
    RoutedWithout registry used old next := by
  obtain ⟨routed, still⟩ := deletePartitionServices_routed without.routed
    (fun partition listed => without.dropped partition (among partition listed)) ran
  exact ⟨routed, fun partition listed => still (without.dropped partition listed)⟩

theorem splitPartition_routed [DecidableEq K] (routed : Routed registry used ns)
    (given : ∀ key ∈ splitKeys, used (routable.convertToRoutingKey key))
    (ran : routable.splitPartition arrival splitKeys ns = .ok .unit next) : Routed registry used next := by
  obtain ⟨_, without⟩ := splitPartition_invariant registry (RoutedWithout registry used)
    (fun member without one => without.edited (splitAt_edited without.routed (given _ member) one))
    (fun without => ⟨stored_routed without.routed, without.dropped⟩) RoutedWithout.deleted
    ⟨routed, by simp⟩ ran
  exact without.routed

theorem mergePartition_routed [DecidableEq K] (routed : Routed registry used ns)
    (given : ∀ key ∈ mergeKeys, used (routable.convertToRoutingKey key))
    (ran : routable.mergePartition arrival mergeKeys ns = .ok .unit next) : Routed registry used next := by
  obtain ⟨_, without⟩ := mergePartition_invariant registry (RoutedWithout registry used)
    (fun member without one => without.edited (mergeAt_edited without.routed (given _ member) one))
    (fun without => ⟨stored_routed without.routed, without.dropped⟩) RoutedWithout.deleted
    ⟨routed, by simp⟩ ran
  exact without.routed

end

/-- The start keys of these partitions are in use. -/
def StartsInUse (registry : Registry routable.servers) (used : K → Prop) (ns : RoutedNamespace K σ)
    (partitions : List PartitionService) : Prop :=
  ∀ partition ∈ partitions, ∀ bounds, registry.live ns.cluster partition = some bounds → InUse used bounds.1

theorem removePartition_spec {partition : PartitionService} (arranged : ns.routingTable.Arranged used)
    (given : StartsInUse registry used ns [partition])
    (ran : routable.removePartition partition ns = .ok .unit next) :
    ∃ bounds before range after, registry.live ns.cluster partition = some bounds ∧
      ns.routingTable.At bounds.1 before range after ∧
        next = { ns with routingTable := { ns.routingTable with
          rTable := before ++ ⟨range.startKey, range.values.filter (· ≠ partition)⟩ :: after } } := by
  rw [removePartition] at ran
  obtain ⟨bounds, _, read, ran⟩ := bind_ok.mp ran
  obtain ⟨rfl, live⟩ := (getStartEndKey_ok registry).mp read
  obtain ⟨_, _, got, ran⟩ := bind_ok.mp ran
  cases got
  obtain ⟨table, _, removed, ran⟩ := bind_ok.mp ran
  obtain ⟨removed, rfl⟩ := ofExcept_ok.mp removed
  cases ran
  obtain ⟨before, range, after, located⟩ := arranged.exists_at bounds.1
  have found := arranged.found (given partition (by simp) bounds live) located
  refine ⟨bounds, before, range, after, live, located, ?_⟩
  rw [removeValueFromRange_found found, replaceValues_found found] at removed
  split at removed
  · cases removed
  · cases removed
    rfl

theorem removePartition_edited {partition : PartitionService} (routed : Routed registry used ns)
    (given : StartsInUse registry used ns [partition])
    (ran : routable.removePartition partition ns = .ok .unit next) :
    Edited registry used [partition] ns next ∧ next.cluster = ns.cluster := by
  obtain ⟨bounds, before, range, after, live, located, rfl⟩ := removePartition_spec routed.arranged given ran
  have aligned := routed.aligned
  rw [located.split, aligned_append] at aligned
  have nodup := routed.arranged.nodup
  rw [located.split, List.nodup_append, List.nodup_cons] at nodup
  refine ⟨⟨?_, ?_, ?_⟩, rfl⟩
  · refine routed.replaced (Grown.refl ns) (show _ = before ++ [range] ++ after by simpa using located.split)
      (routed.arranged.updated located (range.values.filter (· ≠ partition)))
      (show _ = before ++ [⟨range.startKey, range.values.filter (· ≠ partition)⟩] ++ after by simp) rfl ?_ ?_
    · exact ⟨fun other listed => aligned.2.1 other (List.mem_filter.mp listed).1, trivial⟩
    · intro other member kept listed
      cases List.mem_singleton.mp member
      exact .inr ⟨range, by simp, (List.mem_filter.mp listed).1⟩
  · intro other found
    obtain ⟨issued, absent⟩ := found
    refine ⟨issued, fun place member listed => ?_⟩
    rcases List.mem_append.mp member with early | member
    · exact absent place (by simp [located.split, early]) listed
    · rcases List.mem_cons.mp member with rfl | late
      · exact absent range (by simp [located.split]) (List.mem_filter.mp listed).1
      · exact absent place (by simp [located.split, late]) listed
  · intro other member
    cases List.mem_singleton.mp member
    refine ⟨registry.live_issued live, fun place member listed => ?_⟩
    -- a range that lists the partition starts at the key the search was made with
    have only : place ∈ ns.routingTable.rTable → place = range := by
      intro known
      obtain ⟨endKey, created⟩ := routed.aligned.mem known listed
      have same := routed.live known listed created
      rw [live] at same
      cases same
      obtain ⟨front, back, split⟩ := List.append_of_mem known
      exact ((routed.arranged.at_start split).unique located).2.1
    rcases List.mem_append.mp member with early | member
    · exact nodup.2.2 place early range (by simp) (only (by simp [located.split, early]))
    · rcases List.mem_cons.mp member with rfl | late
      · simp at listed
      · exact nodup.2.1.1 (only (by simp [located.split, late]) ▸ late)

theorem removes_edited {partitions : List PartitionService} (routed : Routed registry used ns)
    (given : StartsInUse registry used ns partitions)
    (ran : partitions.forM routable.removePartition ns = .ok .unit next) :
    Edited registry used partitions ns next := by
  have kept := @forM_invariant _ _ _ _ _ routable.removePartition
    (fun done state => Edited registry used done ns state ∧ state.cluster = ns.cluster) partitions []
    ?_ ⟨routed.edited_refl, rfl⟩ ran
  · exact kept.1
  · intro done partition state after member found one
    obtain ⟨held, same⟩ := found
    have inUse : StartsInUse registry used state [partition] := by
      intro other among bounds live
      cases List.mem_singleton.mp among
      rw [same] at live
      exact given partition member bounds live
    obtain ⟨removed, cluster⟩ := removePartition_edited held.routed inUse one
    exact ⟨held.trans removed, cluster.trans same⟩

theorem deletePartitions_routed [DecidableEq K] {arrival : Iteration PartitionService}
    {partitions : List PartitionService}
    (routed : Routed registry used ns) (given : StartsInUse registry used ns partitions)
    (ran : routable.deletePartitions arrival partitions ns = .ok .unit next) :
    Routed registry used next := by
  obtain ⟨_, edited, looped, ran⟩ := bind_ok.mp ran
  obtain ⟨_, stored, checked, deleted⟩ := bind_ok.mp ran
  have done := removes_edited routed given looped
  obtain ⟨rfl, _⟩ := (storeRoutingTable_ok registry).mp checked
  exact (deletePartitionServices_routed (stored_routed done.routed) done.replaced deleted).1

/-- A replica is made for the key range of the given partition and listed where it starts. -/
theorem replicateOn_spec {target : PartitionService × StorageService}
    {result : PartitionService × PartitionService} (arranged : ns.routingTable.Arranged used)
    (given : StartsInUse registry used ns [target.1])
    (ran : routable.replicateOn target ns = .ok result next) :
    ∃ bounds before range after last, registry.live ns.cluster target.1 = some bounds ∧
      ns.routingTable.At bounds.1 before range after ∧ result.2 = target.1 ∧
        routable.createPartitions bounds.1 bounds.2 [target.2] ns = .ok [result.1] last ∧
        next = { last with routingTable := { ns.routingTable with
          rTable := before ++ ⟨range.startKey, result.1 :: range.values⟩ :: after } } := by
  rw [replicateOn] at ran
  obtain ⟨bounds, _, read, ran⟩ := bind_ok.mp ran
  obtain ⟨rfl, live⟩ := (getStartEndKey_ok registry).mp read
  obtain ⟨partitions, last, made, ran⟩ := bind_ok.mp ran
  obtain ⟨placed, grown⟩ := createPartitions_grown registry made
  cases partitions with
  | nil => cases placed
  | cons partition others =>
      obtain ⟨_, none⟩ : partition.storageService = target.2 ∧ others = [] := by simpa using placed
      subst none
      obtain ⟨_, _, got, ran⟩ := bind_ok.mp ran
      cases got
      obtain ⟨table, _, added, ran⟩ := bind_ok.mp ran
      obtain ⟨added, rfl⟩ := ofExcept_ok.mp added
      obtain ⟨_, _, set, ran⟩ := bind_ok.mp ran
      cases set
      cases ran
      obtain ⟨before, range, after, located⟩ := arranged.exists_at bounds.1
      have found := arranged.found (given target.1 (by simp) bounds live) located
      refine ⟨bounds, before, range, after, last, live, located, rfl, made, ?_⟩
      rw [grown.table, addValueToRange_found found, replaceValues_found found] at added
      split at added
      · cases added
      · cases added
        rfl

theorem replicateOn_held {target : PartitionService × StorageService}
    {result : PartitionService × PartitionService} {partitions : List PartitionService}
    (held : Held registry used ns) (given : StartsInUse registry used ns partitions)
    (member : target.1 ∈ partitions) (ran : routable.replicateOn target ns = .ok result next) :
    Held registry used next ∧ StartsInUse registry used next partitions := by
  have source : StartsInUse registry used ns [target.1] := by
    intro partition among
    cases List.mem_singleton.mp among
    exact given target.1 member
  obtain ⟨bounds, before, range, after, last, live, located, _, made, rfl⟩ :=
    replicateOn_spec held.arranged source ran
  have grown : Grown registry ns [(result.1, bounds)] last := (createPartitions_grown registry made).2
  constructor
  · refine (held.grown grown).retable (held.arranged.updated located _) ?_
    have old : ∀ range ∈ ns.routingTable.rTable, ∀ partition ∈ range.values,
        partition ∉ last.deletions ∧ ∃ bounds, (partition, bounds) ∈ last.creations := by
      rw [← grown.table]
      exact (held.grown grown).listed
    intro place member partition listed
    rcases List.mem_append.mp member with early | member
    · exact old place (by simp [located.split, early]) partition listed
    · rcases List.mem_cons.mp member with rfl | late
      · rcases List.mem_cons.mp listed with rfl | listed
        · exact held.new_listed grown (List.mem_singleton.mpr rfl)
        · exact old range (by simp [located.split]) partition listed
      · exact old place (by simp [located.split, late]) partition listed
  · intro partition among bounds found
    have issued := (grown.issued partition).mp (registry.live_issued found)
    rcases issued with new | known
    · obtain rfl : partition = result.1 := by simpa using new
      have same := grown.opened _ (List.mem_singleton.mpr rfl)
      rw [show registry.live last.cluster result.1 = some bounds from found] at same
      cases same
      exact given target.1 member _ live
    · exact given partition among bounds ((grown.live known).symm.trans found)

/-- A replica of a partition of the table is made for the range that it is added to. -/
theorem replicateOn_routed {target : PartitionService × StorageService}
    {result : PartitionService × PartitionService} {source : RangeType K PartitionService}
    (routed : Routed registry used ns) (member : source ∈ ns.routingTable.rTable)
    (listed : target.1 ∈ source.values) (ran : routable.replicateOn target ns = .ok result next) :
    Routed registry used next ∧ ∀ place ∈ ns.routingTable.rTable, ∀ partition ∈ place.values,
      ∃ found ∈ next.routingTable.rTable, partition ∈ found.values := by
  obtain ⟨front, back, split⟩ := List.append_of_mem member
  have aligned := routed.aligned
  rw [split, aligned_append] at aligned
  have live := routed.live member listed (aligned.2.1 target.1 listed)
  have given : StartsInUse registry used ns [target.1] := by
    intro partition among bounds found
    cases List.mem_singleton.mp among
    rw [live] at found
    cases found
    exact routed.arranged.starts source member
  obtain ⟨bounds, before, range, after, last, found, located, _, made, rfl⟩ :=
    replicateOn_spec routed.arranged given ran
  rw [live] at found
  cases found
  have grown : Grown registry ns [(result.1, _)] last := (createPartitions_grown registry made).2
  obtain ⟨rfl, rfl, rfl⟩ := located.unique (routed.arranged.at_start split)
  constructor
  · refine routed.replaced grown (show _ = before ++ [range] ++ after by simpa using split)
      (routed.arranged.updated located (result.1 :: range.values))
      (show _ = before ++ [⟨range.startKey, result.1 :: range.values⟩] ++ after by simp) rfl ?_ ?_
    · refine ⟨fun partition known => ?_, trivial⟩
      rcases List.mem_cons.mp known with rfl | known
      · exact (grown.creations _).mpr (.inl (List.mem_singleton.mpr rfl))
      · exact grown.created (aligned.2.1 partition known)
    · intro place among partition known
      cases List.mem_singleton.mp among
      rcases List.mem_cons.mp known with rfl | known
      · exact .inl ⟨_, List.mem_singleton.mpr rfl⟩
      · exact .inr ⟨range, by simp, known⟩
  · intro place among partition known
    rw [split] at among
    rcases List.mem_append.mp among with early | among
    · exact ⟨place, by simp [early], known⟩
    · rcases List.mem_cons.mp among with rfl | late
      · exact ⟨⟨place.startKey, result.1 :: place.values⟩, by simp, by simp [known]⟩
      · exact ⟨place, by simp [late], known⟩

theorem replicatePartitions_routed [DecidableEq K] {targets : List (PartitionService × StorageService)}
    {replicas : List PartitionService} (routed : Routed registry used ns)
    (given : StartsInUse registry used ns (targets.map Prod.fst))
    (ran : routable.replicatePartitions targets ns = .ok replicas next) : Routed registry used next := by
  obtain ⟨result, edited, looped, ran⟩ := bind_ok.mp ran
  obtain ⟨_, stored, checked, ran⟩ := bind_ok.mp ran
  obtain ⟨_, _, copied, ran⟩ := bind_ok.mp ran
  cases ran
  have kept := @mapM_invariant _ _ _ _ _ _ routable.replicateOn
    (fun _ state => Held registry used state ∧ StartsInUse registry used state (targets.map Prod.fst))
    targets [] result ?_ ⟨routed.toHeld, given⟩ looped
  · obtain ⟨rfl, answers⟩ := (storeRoutingTable_ok registry).mp checked
    have before := stored_routed (kept.1.routed answers)
    have shrunk := @mapM_invariant _ _ _ _ _ _ id
      (fun (_ : List Unit) state =>
        Shrunk registry [] { edited with stored := edited.routingTable.rTable } state) _ [] _ ?_ ?_
      (awaitAll_ok copied)
    · exact before.shrunk (by simp) shrunk
    · intro done program state reply after member held one
      obtain ⟨pair, _, rfl⟩ := List.mem_map.mp member
      obtain ⟨cluster, handled, rfl⟩ := onCluster_ok.mp one
      obtain ⟨issued, live⟩ := registry.copied handled
      exact ⟨held.table, held.creations, held.deletions, fun other => (issued other).trans (held.issued other),
        fun other absent => (live other).trans (held.live other absent)⟩
    · exact ⟨rfl, rfl, (List.append_nil _).symm, fun _ => Iff.rfl, fun _ _ => rfl⟩
  · intro done target state reply after member found one
    obtain ⟨held, inUse⟩ := found
    exact replicateOn_held held inUse (List.mem_map_of_mem member) one

/-- The entries of a scheme start at increasing keys. -/
def Increasing (scheme : List (Option K × List StorageService)) : Prop :=
  (scheme.map fun entry => onLine entry.1).Pairwise (· < ·)

omit [LinearOrder K] [ToString K] in
theorem createScheme_spec {earlier : List (Option K × List StorageService)} {endKey : Option K}
    {rTable result : List (RangeType K PartitionService)}
    {made : List (PartitionService × Option K × Option K)} (grown : Grown registry ns made middle)
    (aligned : Aligned (Created middle) none rTable) (stop : endKey = startOr none rTable)
    (values : ∀ range ∈ rTable, ∀ partition ∈ range.values, ∃ bounds, (partition, bounds) ∈ made)
    (ran : routable.createScheme earlier endKey rTable middle = .ok result next) :
    ∃ made, Grown registry ns made next ∧ Aligned (Created next) none result ∧
      result.map RangeType.startKey = earlier.reverse.map Prod.fst ++ rTable.map RangeType.startKey ∧
      ∀ range ∈ result, ∀ partition ∈ range.values, ∃ bounds, (partition, bounds) ∈ made := by
  induction earlier generalizing endKey rTable made middle with
  | nil =>
      cases ran
      exact ⟨made, grown, aligned, by simp, values⟩
  | cons entry rest ih =>
      obtain ⟨startKey, servers⟩ := entry
      rw [createScheme] at ran
      obtain ⟨handlers, between, one, ran⟩ := bind_ok.mp ran
      obtain ⟨_, new⟩ := createPartitions_grown registry one
      have lined : Aligned (Created between) none (⟨startKey, handlers⟩ :: rTable) := by
        refine ⟨fun partition member => ?_, aligned.imp fun _ _ _ _ _ created => new.created created⟩
        rw [← stop]
        exact (new.creations _).mpr (.inl (List.mem_map_of_mem member))
      have listed : ∀ range ∈ ⟨startKey, handlers⟩ :: rTable, ∀ partition ∈ range.values,
          ∃ bounds, (partition, bounds) ∈
            made ++ handlers.map fun partition => (partition, startKey, endKey) := by
        intro range member partition known
        rcases List.mem_cons.mp member with rfl | old
        · exact ⟨_, List.mem_append_right _ (List.mem_map_of_mem known)⟩
        · obtain ⟨bounds, early⟩ := values range old partition known
          exact ⟨bounds, List.mem_append_left _ early⟩
      obtain ⟨all, final, aligned, starts, values⟩ := ih (grown.trans new) lined rfl listed ran
      exact ⟨all, final, aligned, by simpa using starts, values⟩

omit [LinearOrder K] [ToString K] in
theorem startOr_opened {stop : Option K} {ranges : List (RangeType K PartitionService)}
    (opened : ranges.head?.map RangeType.startKey = some none) : startOr stop ranges = none := by
  cases ranges with
  | nil => cases opened
  | cons first rest => simpa [startOr] using opened

omit [ToString K] in
/-- The table of a scheme is arranged as the scheme is. -/
theorem scheme_arranged {scheme : List (Option K × List StorageService)}
    {rTable : List (RangeType K PartitionService)} (compared : AgreesOn used routable.routingKeyComp)
    (increasing : Increasing scheme) (given : ∀ entry ∈ scheme, InUse used entry.1)
    (opened : scheme.head?.map Prod.fst = some none)
    (starts : rTable.map RangeType.startKey = scheme.map Prod.fst) :
    Arranged used (⟨rTable, routable.routingKeyComp, mergeCond⟩ : RoutingTable K) where
  opened := by
    rw [← List.head?_map] at opened ⊢
    rw [starts, opened]
  ascending := by
    have same : rTable.map RangeType.start = scheme.map fun entry => onLine entry.1 := by
      have mapped := congrArg (List.map onLine) starts
      rw [List.map_map, List.map_map] at mapped
      exact mapped
    rw [Ascending, same]
    exact increasing
  compared := compared
  starts := by
    intro range member
    have among : range.startKey ∈ scheme.map Prod.fst := starts ▸ List.mem_map_of_mem member
    obtain ⟨entry, known, same⟩ := List.mem_map.mp among
    rw [← same]
    exact given entry known

/-- The table of a scheme lists new partitions only. -/
theorem scheme_edited {scheme : List (Option K × List StorageService)}
    {rTable : List (RangeType K PartitionService)} (routed : Routed registry used ns)
    (compared : AgreesOn used routable.routingKeyComp) (increasing : Increasing scheme)
    (given : ∀ entry ∈ scheme, InUse used entry.1) (opened : scheme.head?.map Prod.fst = some none)
    (created : routable.createScheme scheme.reverse none [] ns = .ok rTable middle)
    (replaced : routable.createRoutingTable rTable middle = .ok .unit next) :
    Edited registry used (ns.routingTable.rTable.flatMap RangeType.values) ns next := by
  obtain ⟨made, grown, aligned, starts, values⟩ := createScheme_spec (Grown.refl ns)
    (show Aligned (Created ns) none [] from trivial) rfl (by simp) created
  rw [List.reverse_reverse, List.map_nil, List.append_nil] at starts
  have arranged := scheme_arranged compared increasing given opened starts
  obtain ⟨table, _, built, set⟩ := bind_ok.mp replaced
  obtain ⟨checked, rfl⟩ := ofExcept_ok.mp built
  rw [create_of_head _ _ arranged.opened] at checked
  cases checked
  have edited := (EStateM.Result.ok.inj set).2
  rw [← edited]
  exact routed.edited grown (show _ = [] ++ ns.routingTable.rTable ++ [] by simp) arranged
    (show _ = [] ++ rTable ++ [] by simp)
    ((startOr_opened arranged.opened).trans (startOr_opened routed.arranged.opened).symm) aligned values

omit [LinearOrder K] [ToString K] in
theorem require_head [DecidableEq K] {scheme : List (Option K × List StorageService)} {text : String}
    {value : Unit}
    (required : (ofExcept (require (decide (scheme.head?.map Prod.fst = some none)) text) :
      Method K σ Unit) ns = .ok value next) : scheme.head?.map Prod.fst = some none ∧ ns = next := by
  obtain ⟨required, same⟩ := ofExcept_ok.mp required
  refine ⟨?_, same⟩
  by_contra closed
  simp [require, closed] at required

theorem setPartitionScheme_routed [DecidableEq K] {arrival : Iteration PartitionService}
    {scheme : List (Option K × List StorageService)} (routed : Routed registry used ns)
    (compared : AgreesOn used routable.routingKeyComp) (increasing : Increasing scheme)
    (given : ∀ entry ∈ scheme, InUse used entry.1)
    (ran : routable.setPartitionScheme arrival scheme ns = .ok .unit next) : Routed registry used next := by
  rw [setPartitionScheme] at ran
  obtain ⟨_, _, nonempty, ran⟩ := bind_ok.mp ran
  obtain ⟨_, rfl⟩ := ofExcept_ok.mp nonempty
  obtain ⟨_, _, first, ran⟩ := bind_ok.mp ran
  obtain ⟨opened, rfl⟩ := require_head first
  obtain ⟨_, _, got, ran⟩ := bind_ok.mp ran
  cases got
  obtain ⟨rTable, last, created, ran⟩ := bind_ok.mp ran
  obtain ⟨_, edited, replaced, ran⟩ := bind_ok.mp ran
  obtain ⟨_, _, checked, deleted⟩ := bind_ok.mp ran
  have done := scheme_edited routed compared increasing given opened created replaced
  obtain ⟨rfl, _⟩ := (storeRoutingTable_ok registry).mp checked
  refine (deletePartitionServices_routed (stored_routed done.routed) (fun partition member => ?_) deleted).1
  exact done.replaced partition (List.mem_eraseDups.mp member)

end Routable

end Scads.Client
