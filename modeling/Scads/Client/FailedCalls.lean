import Scads.Client.HostedRecords

namespace Scads.Client

open Scads.Data Scads.Comm Scads.Server Scads.Util RangeTable

/-! # Repartitioning that fails

A call replaces its routing table once for each of its keys and stores it after
the last one, so a failure in between leaves a table that nobody else knows.
-/

namespace Routable

variable {R K σ : Type} [DecidableEq K] [ToString K] (routable : Routable R K σ)

/-- What a call does until its table is stored. -/
def beforeDeletions : Repartition R → Method K σ Unit
  | .splitPartition splitKeys => do
      let _ ← (splitKeys.map routable.convertToRoutingKey).mapM routable.splitAt
      routable.storeRoutingTable
  | .mergePartition mergeKeys => do
      let _ ← (mergeKeys.map routable.convertToRoutingKey).mapM routable.mergeAt
      routable.storeRoutingTable

/-- A key that is a boundary already, or for which the two partitions cannot be
made or the table cannot be split. -/
def SplitRefused (ns : RoutedNamespace K σ) (key : K) : Prop :=
  ns.routingTable.isSplitKey key = true ∨
    ∀ bound left between right last, ns.routingTable.lowerUpperBound (some key) = .ok bound →
      routable.createPartitions bound.center.startKey (some key)
        (bound.center.values.map (·.storageService)) ns = .ok left between →
      routable.createPartitions (some key) bound.right.startKey
        (bound.center.values.map (·.storageService)) between = .ok right last →
      ∀ table, ns.routingTable.split key left right ≠ .ok (some table)

/-- A key that is no boundary between ranges on the same servers, or for which the
partition cannot be made or the table cannot be merged. -/
def MergeRefused (ns : RoutedNamespace K σ) (key : K) : Prop :=
  ns.routingTable.checkMergeCondition (ns.routingTable.binarySearch (some key)) ≠ .ok true ∨
    ∀ bound values last, ns.routingTable.lowerUpperBound (some key) = .ok bound →
      routable.createPartitions bound.left.startKey bound.right.startKey
        (bound.left.values.map (·.storageService)) ns = .ok values last →
      ∀ table, ns.routingTable.merge key values ≠ .ok (some table)

/-- The call has no key, or its first key is refused. -/
def RefusedAtOnce (ns : RoutedNamespace K σ) : Repartition R → Prop
  | .splitPartition splitKeys => ∀ key ∈ splitKeys.head?, routable.SplitRefused ns (routable.convertToRoutingKey key)
  | .mergePartition mergeKeys => ∀ key ∈ mergeKeys.head?, routable.MergeRefused ns (routable.convertToRoutingKey key)

/-- The routing table of the client and the stored one. -/
def tables (ns : RoutedNamespace K σ) : RoutingTable K × List (RangeType K PartitionService) :=
  (ns.routingTable, ns.stored)

section

variable {routable} {ns next : RoutedNamespace K σ} {key : K}

omit [DecidableEq K] [ToString K] in
theorem onCluster_leaves {α : Type} (program : EStateM Failure σ α) :
    Leaves tables (onCluster program : Method K σ α) :=
  leaves_zoom program fun _ _ => rfl

omit [DecidableEq K] [ToString K] in
theorem createPartitions_leaves (startKey endKey : Option K) (servers : List StorageService) :
    Leaves tables (routable.createPartitions startKey endKey servers) := by
  refine leaves_awaitAll fun program member => ?_
  obtain ⟨server, _, rfl⟩ := List.mem_map.mp member
  refine (onCluster_leaves _).bind fun partition => ?_
  have logged : Leaves tables (modify fun ns : RoutedNamespace K σ =>
      { ns with creations := (partition, startKey, endKey) :: ns.creations } : Method K σ Unit) :=
    leaves_modify fun _ => rfl
  exact logged.bind fun _ => leaves_pure _ _

theorem validateRanges_leaves (ranges : List (RangeType K PartitionService)) (endKey : Option K) :
    Leaves tables (routable.validateRanges ranges endKey) := by
  induction ranges generalizing endKey with
  | nil => exact leaves_pure _ _
  | cons range earlier ih =>
      refine (leaves_forM fun partition _ => ?_).bind fun _ => ih range.startKey
      refine (onCluster_leaves _).bind fun keys => ?_
      split
      · exact (leaves_get _).bind fun _ => leaves_throw _ _
      · exact leaves_pure _ _

theorem storeRoutingTable_failsCleanly : FailsCleanly tables routable.storeRoutingTable := by
  have validated : Leaves tables routable.validateRoutingTable :=
    (leaves_get _).bind fun _ => (validateRanges_leaves _ _).bind fun _ => leaves_pure _ _
  refine validated.bind_failsCleanly fun valid => ?_
  intro state failure final failed
  cases valid with
  | false =>
      cases failed
      rfl
  | true => cases failed

omit [DecidableEq K] [ToString K] in
theorem replaceTable_failsCleanly (changed : Except Failure (Option (RoutingTable K))) :
    FailsCleanly tables (replaceTable changed : Method K σ Unit) := by
  refine (leaves_ofExcept _ _).bind_failsCleanly fun table => ?_
  intro state failure final failed
  cases table with
  | none =>
      cases failed
      rfl
  | some table => cases failed

omit [DecidableEq K] in
theorem splitAt_failsCleanly (key : K) : FailsCleanly tables (routable.splitAt key) := by
  refine (leaves_get _).bind_failsCleanly fun ns => ?_
  dsimp only
  split
  · exact failsCleanly_throw _ _ _
  · refine (leaves_ofExcept _ _).bind_failsCleanly fun bound => ?_
    refine (createPartitions_leaves _ _ _).bind_failsCleanly fun left => ?_
    refine (createPartitions_leaves _ _ _).bind_failsCleanly fun right => ?_
    refine (replaceTable_failsCleanly _).bind fun _ _ _ _ failed => ?_
    cases failed

omit [DecidableEq K] in
theorem mergeAt_failsCleanly (key : K) : FailsCleanly tables (routable.mergeAt key) := by
  refine (leaves_get _).bind_failsCleanly fun ns => ?_
  refine (leaves_ofExcept _ _).bind_failsCleanly fun merges => ?_
  dsimp only
  split
  · refine (leaves_ofExcept _ _).bind_failsCleanly fun bound => ?_
    refine (createPartitions_leaves _ _ _).bind_failsCleanly fun values => ?_
    refine (replaceTable_failsCleanly _).bind fun _ _ _ _ failed => ?_
    cases failed
  · exact failsCleanly_throw _ _ _

omit [DecidableEq K] in
/-- A split at a key that is not refused adds one range. -/
theorem splitAt_ok {old : List PartitionService} (ran : routable.splitAt key ns = .ok old next) :
    ¬ routable.SplitRefused ns key ∧ next.routingTable.rTable.length = ns.routingTable.rTable.length + 1 := by
  obtain ⟨inside, bound, left, between, right, last, table, found, -, first, second, splitted, rfl⟩ := splitAt_ran ran
  refine ⟨?_, split_length splitted⟩
  intro found
  obtain boundary | refused := found
  · exact inside boundary
  · exact refused bound left between right last found first second table splitted

omit [DecidableEq K] in
/-- A merge at a key that is not refused takes one range away. -/
theorem mergeAt_ok {old : List PartitionService × List PartitionService}
    (ran : routable.mergeAt key ns = .ok old next) :
    ¬ routable.MergeRefused ns key ∧ next.routingTable.rTable.length + 1 = ns.routingTable.rTable.length := by
  obtain ⟨allowed, bound, values, last, table, found, -, made, merged, rfl⟩ := mergeAt_ran ran
  refine ⟨?_, merge_length merged⟩
  intro found
  obtain unmergeable | refused := found
  · exact unmergeable allowed
  · exact refused bound values last found made table merged

omit [DecidableEq K] in
theorem splitAt_error {failure : Failure} (failed : routable.splitAt key ns = .error failure next) :
    routable.SplitRefused ns key := by
  by_contra accepted
  rw [SplitRefused] at accepted
  push Not at accepted
  obtain ⟨inside, bound, left, between, right, last, found, first, second, table, splitted⟩ := accepted
  have ran : routable.splitAt key ns = .ok bound.center.values { last with routingTable := table } := by
    rw [splitAt]
    refine bind_ok.mpr ⟨ns, ns, rfl, ?_⟩
    dsimp only
    rw [if_neg inside]
    refine bind_ok.mpr ⟨bound, ns, ofExcept_ok.mpr ⟨found, rfl⟩, ?_⟩
    refine bind_ok.mpr ⟨left, between, first, bind_ok.mpr ⟨right, last, second, ?_⟩⟩
    exact bind_ok.mpr ⟨.unit, _, replaceTable_ok.mpr ⟨table, splitted, rfl⟩, rfl⟩
  cases ran.symm.trans failed

omit [DecidableEq K] in
theorem mergeAt_error {failure : Failure} (failed : routable.mergeAt key ns = .error failure next) :
    routable.MergeRefused ns key := by
  by_contra accepted
  rw [MergeRefused] at accepted
  push Not at accepted
  obtain ⟨checked, bound, values, last, found, made, table, merged⟩ := accepted
  have ran : routable.mergeAt key ns =
      .ok (bound.left.values, bound.center.values) { last with routingTable := table } := by
    rw [mergeAt]
    refine bind_ok.mpr ⟨ns, ns, rfl, bind_ok.mpr ⟨true, ns, ofExcept_ok.mpr ⟨checked, rfl⟩, ?_⟩⟩
    refine bind_ok.mpr ⟨bound, ns, ofExcept_ok.mpr ⟨found, rfl⟩, ?_⟩
    refine bind_ok.mpr ⟨values, last, made, ?_⟩
    exact bind_ok.mpr ⟨.unit, _, replaceTable_ok.mpr ⟨table, merged, rfl⟩, rfl⟩
  cases ran.symm.trans failed

/-- A failure before the table is stored leaves both tables as they were, if the
call is refused at once, and otherwise another number of ranges. -/
theorem beforeDeletions_error {made : Repartition R} {failure : Failure}
    (failed : routable.beforeDeletions made ns = .error failure next) :
    (routable.RefusedAtOnce ns made ∧ tables next = tables ns) ∨
      (¬ routable.RefusedAtOnce ns made ∧
        next.routingTable.rTable.length ≠ ns.routingTable.rTable.length) := by
  cases made with
  | splitPartition splitKeys =>
      have outcome := mapM_bind_error tables
        (fun before after => before.1.rTable.length < after.1.rTable.length) Nat.lt_trans
        (fun ran => by have := (splitAt_ok ran).2; simp only [tables]; omega) splitAt_failsCleanly
        (fun _ => storeRoutingTable_failsCleanly) failed
      simp only [List.head?_map, Option.mem_map, forall_exists_index, and_imp, forall_apply_eq_imp_iff₂]
        at outcome
      rcases outcome with ⟨first, same⟩ | ⟨⟨_, ⟨key, head, rfl⟩, _, _, ran⟩, grown⟩
      · refine .inl ⟨fun key head => ?_, same⟩
        obtain ⟨_, _, refused⟩ := first key head
        exact splitAt_error refused
      · exact .inr ⟨fun refused => (splitAt_ok ran).1 (refused key head), Nat.ne_of_gt grown⟩
  | mergePartition mergeKeys =>
      have outcome := mapM_bind_error tables
        (fun before after => after.1.rTable.length < before.1.rTable.length)
        (fun first second => Nat.lt_trans second first)
        (fun ran => by have := (mergeAt_ok ran).2; simp only [tables]; omega) mergeAt_failsCleanly
        (fun _ => storeRoutingTable_failsCleanly) failed
      simp only [List.head?_map, Option.mem_map, forall_exists_index, and_imp, forall_apply_eq_imp_iff₂]
        at outcome
      rcases outcome with ⟨first, same⟩ | ⟨⟨_, ⟨key, head, rfl⟩, _, _, ran⟩, shrunk⟩
      · refine .inl ⟨fun key head => ?_, same⟩
        obtain ⟨_, _, refused⟩ := first key head
        exact mergeAt_error refused
      · exact .inr ⟨fun refused => (mergeAt_ok ran).1 (refused key head), Nat.ne_of_lt shrunk⟩

/-- A call that fails before its table is stored fails there. -/
theorem call_error {made : Repartition R} {arrival : Iteration PartitionService} {failure : Failure}
    (failed : routable.call arrival made.call ns = .error failure next)
    (unstored : ∀ stored, routable.beforeDeletions made ns ≠ .ok .unit stored) :
    routable.beforeDeletions made ns = .error failure next := by
  cases made with
  | splitPartition splitKeys =>
      rcases bind_error.mp failed with early | ⟨old, middle, looped, late⟩
      · exact bind_error.mpr (.inl early)
      · rcases bind_error.mp late with unchecked | ⟨_, last, stored, _⟩
        · exact bind_error.mpr (.inr ⟨old, middle, looped, unchecked⟩)
        · exact absurd (bind_ok.mpr ⟨old, middle, looped, stored⟩) (unstored last)
  | mergePartition mergeKeys =>
      rcases bind_error.mp failed with early | ⟨old, middle, looped, late⟩
      · exact bind_error.mpr (.inl early)
      · rcases bind_error.mp late with unchecked | ⟨_, last, stored, _⟩
        · exact bind_error.mpr (.inr ⟨old, middle, looped, unchecked⟩)
        · exact absurd (bind_ok.mpr ⟨old, middle, looped, stored⟩) (unstored last)

end

end Routable

open Routable

/-- A split or merge that fails before its table is stored leaves the table of the
client as it was, and equal to the stored one, exactly when it is refused at once. -/
theorem Routable.failed_call_leaves_table_iff {R K σ : Type} [DecidableEq K] [ToString K]
    (routable : Routable R K σ) {made : Repartition R} {arrival : Iteration PartitionService}
    {failure : Failure} {ns next : RoutedNamespace K σ} (synchronized : ns.stored = ns.routingTable.rTable)
    (failed : routable.call arrival made.call ns = .error failure next)
    (unstored : ∀ stored, routable.beforeDeletions made ns ≠ .ok .unit stored) :
    (next.routingTable = ns.routingTable ∧ next.stored = next.routingTable.rTable) ↔
      routable.RefusedAtOnce ns made := by
  rcases beforeDeletions_error (call_error failed unstored) with ⟨refused, same⟩ | ⟨accepted, different⟩
  · obtain ⟨table, stored⟩ := Prod.mk.inj same
    refine iff_of_true ⟨table, ?_⟩ refused
    rw [stored, table, synchronized]
  · refine iff_of_false ?_ accepted
    intro found
    obtain ⟨table, _⟩ := found
    exact different (congrArg (fun table => table.rTable.length) table)

/-- The stored table is not the one of the client. -/
def outdated (ns : RoutedNamespace Nat (Cluster (testEnvironment Nat))) : Bool :=
  decide (ns.stored ≠ ns.routingTable.rTable)

/-- A new namespace has no boundary to merge at. -/
theorem refused_merge_leaves_table : ∃ ns failure next,
    rangeRouted.doCreate (testServer 0) (rangeRouted.unopened (testCluster Nat)) = .ok .unit ns ∧
      rangeRouted.call (.inserted _) (Repartition.mergePartition [5, 7]).call ns = .error failure next ∧
      next.routingTable = ns.routingTable ∧ next.stored = next.routingTable.rTable := by
  obtain ⟨_, ns, created, held⟩ := @exists_ok _ _ _ (rangeRouted.unopened (testCluster Nat))
    (rangeRouted.doCreate (testServer 0))
    (fun _ ns => !outdated ns &&
      throws (fun _ _ => true) (rangeRouted.call (.inserted _) (Repartition.mergePartition [5, 7]).call ns) &&
      throws (fun _ _ => true) (rangeRouted.beforeDeletions (.mergePartition [5, 7]) ns) &&
      decide (ns.routingTable.checkMergeCondition (ns.routingTable.binarySearch (some 5)) ≠ .ok true))
    (by decide +kernel)
  simp only [Bool.and_eq_true, Bool.not_eq_true', outdated, decide_eq_false_iff_not, not_not,
    decide_eq_true_eq] at held
  obtain ⟨⟨⟨synchronized, called⟩, unstored⟩, unmergeable⟩ := held
  obtain ⟨failure, next, failed, _⟩ := exists_error called
  obtain ⟨_, _, stopped, _⟩ := exists_error unstored
  refine ⟨ns, failure, next, created, failed, ?_⟩
  refine (rangeRouted.failed_call_leaves_table_iff synchronized failed fun stored ran => ?_).mpr ?_
  · cases ran.symm.trans stopped
  · intro key head
    cases head
    exact .inl unmergeable

/-- A new namespace is split at 5 twice in one call. -/
theorem second_key_fails_after_first : ∃ ns failure next,
    rangeRouted.doCreate (testServer 0) (rangeRouted.unopened (testCluster Nat)) = .ok .unit ns ∧
      ns.stored = ns.routingTable.rTable ∧
      rangeRouted.call (.inserted _) (Repartition.splitPartition [5, 5]).call ns = .error failure next ∧
      (∀ stored, rangeRouted.beforeDeletions (.splitPartition [5, 5]) ns ≠ .ok .unit stored) ∧
      ¬ (next.routingTable = ns.routingTable ∧ next.stored = next.routingTable.rTable) := by
  obtain ⟨_, ns, created, held⟩ := @exists_ok _ _ _ (rangeRouted.unopened (testCluster Nat))
    (rangeRouted.doCreate (testServer 0))
    (fun _ ns => !outdated ns &&
      throws (fun _ next => outdated next)
        (rangeRouted.call (.inserted _) (Repartition.splitPartition [5, 5]).call ns) &&
      throws (fun _ _ => true) (rangeRouted.beforeDeletions (.splitPartition [5, 5]) ns)) (by decide +kernel)
  simp only [Bool.and_eq_true, Bool.not_eq_true', outdated, decide_eq_false_iff_not, not_not] at held
  obtain ⟨⟨synchronized, called⟩, unstored⟩ := held
  obtain ⟨failure, next, failed, different⟩ := exists_error called
  obtain ⟨_, _, stopped, _⟩ := exists_error unstored
  refine ⟨ns, failure, next, created, synchronized, failed, fun stored ran => ?_, fun same => ?_⟩
  · cases ran.symm.trans stopped
  · exact of_decide_eq_true different same.2

end Scads.Client
