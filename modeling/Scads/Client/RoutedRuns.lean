import Scads.Client.RoutedCalls

namespace Scads.Client

open Scads.Data Scads.Comm Scads.Server Scads.Util RangeTable

/-! # Runs of calls -/

namespace Routable

variable {R K σ : Type} [LinearOrder K] [DecidableEq K] [ToString K] {routable : Routable R K σ}
  {registry : Registry routable.servers} {used : K → Prop} {ns next : RoutedNamespace K σ}

/-- The routing keys that a call compares are in use, and schemes increase. -/
def Admitted (registry : Registry routable.servers) (used : K → Prop) (ns : RoutedNamespace K σ) :
    Call R K → Prop
  | .splitPartition splitKeys => ∀ key ∈ splitKeys, used (routable.convertToRoutingKey key)
  | .mergePartition mergeKeys => ∀ key ∈ mergeKeys, used (routable.convertToRoutingKey key)
  | .deletePartitions partitionHandlers => StartsInUse registry used ns partitionHandlers
  | .replicatePartitions targets => StartsInUse registry used ns (targets.map Prod.fst)
  | .setPartitionScheme scheme => Increasing scheme ∧ ∀ entry ∈ scheme, InUse used entry.1

omit [DecidableEq K] [ToString K] in
/-- Where all keys are in use, only schemes are restricted. -/
theorem admitted_of_increasing {made : Call R K}
    (increasing : ∀ scheme, made = .setPartitionScheme scheme → Increasing scheme) :
    Admitted registry (fun _ => True) ns made := by
  cases made with
  | splitPartition splitKeys => exact fun _ _ => trivial
  | mergePartition mergeKeys => exact fun _ _ => trivial
  | deletePartitions partitionHandlers => exact fun _ _ _ _ _ _ => trivial
  | replicatePartitions targets => exact fun _ _ _ _ _ _ => trivial
  | setPartitionScheme scheme => exact ⟨increasing scheme rfl, fun _ _ _ _ => trivial⟩

theorem step_routed {called : Call R K × Iteration PartitionService} (routed : Routed registry used ns)
    (compared : AgreesOn used routable.routingKeyComp) (admitted : Admitted registry used ns called.1)
    (taken : routable.step ns called = some next) : Routed registry used next := by
  obtain ⟨made, arrival⟩ := called
  rw [step] at taken
  split at taken
  · rename_i _ after ran
    cases taken
    cases made with
    | splitPartition splitKeys => exact splitPartition_routed routed admitted ran
    | mergePartition mergeKeys => exact mergePartition_routed routed admitted ran
    | deletePartitions partitionHandlers => exact deletePartitions_routed routed admitted ran
    | replicatePartitions targets =>
        obtain ⟨replicas, _, replicated, returned⟩ := bind_ok.mp ran
        cases returned
        exact replicatePartitions_routed routed admitted replicated
    | setPartitionScheme scheme =>
        exact setPartitionScheme_routed routed compared admitted.1 admitted.2 ran
  · cases taken

/-- A new namespace is one range from one end of the line to the other. -/
theorem doCreate_routed {server : StorageService} {cluster : σ}
    (compared : AgreesOn used routable.routingKeyComp)
    (created : routable.doCreate server (routable.unopened cluster) = .ok .unit ns) :
    Routed registry used ns := by
  obtain ⟨partitions, last, made, ran⟩ := bind_ok.mp created
  obtain ⟨_, _, replaced, checked⟩ := bind_ok.mp ran
  obtain ⟨_, grown⟩ := createPartitions_grown registry made
  have arranged : Arranged used (⟨[⟨none, partitions⟩], routable.routingKeyComp, mergeCond⟩ : RoutingTable K) :=
    ⟨rfl, List.pairwise_singleton _ _, compared, by simp [InUse]⟩
  obtain ⟨table, _, given, set⟩ := bind_ok.mp replaced
  obtain ⟨given, rfl⟩ := ofExcept_ok.mp given
  rw [create_of_head _ _ arranged.opened] at given
  cases given
  cases set
  obtain ⟨rfl, answers⟩ := (storeRoutingTable_ok registry).mp checked
  have none : ∀ entry, entry ∉ (routable.unopened cluster).creations := by simp [unopened]
  have new : ∀ {entry}, entry ∈ last.creations →
      entry ∈ partitions.map fun partition => (partition, Option.none, Option.none) := by
    intro entry member
    exact ((grown.creations entry).mp member).resolve_right (none entry)
  have unsent : last.deletions = [] := grown.deletions
  refine stored_routed (Held.routed ⟨arranged, ?_, ?_, ?_⟩ answers)
  · intro partition bounds member
    exact ⟨(grown.issued _).mpr (.inl (List.mem_map_of_mem (new member))),
      fun _ => grown.opened _ (new member)⟩
  · intro partition sent
    rw [show last.deletions = [] from unsent] at sent
    cases sent
  · intro range member partition listed
    cases List.mem_singleton.mp member
    refine ⟨fun sent => ?_, _, (grown.creations _).mpr (.inl (List.mem_map_of_mem listed))⟩
    rw [show last.deletions = [] from unsent] at sent
    cases sent

theorem run_routed {server : StorageService} {cluster : σ}
    {calls : List (Call R K × Iteration PartitionService)}
    (compared : AgreesOn used routable.routingKeyComp)
    (created : routable.doCreate server (routable.unopened cluster) = .ok .unit ns)
    (ran : run routable.step ns calls = some next)
    (admitted : Along routable.step (fun before called _ => Admitted registry used before called.1) ns calls) :
    Routed registry used next :=
  @along_invariant _ _ routable.step _ (Routed registry used) _ _ _
    (fun routed taken allowed => step_routed routed compared allowed taken)
    (doCreate_routed compared created) admitted ran

/-- What a call does before it checks the table and stores it. -/
def edit (routable : Routable R K σ) : Call R K → Method K σ Unit
  | .splitPartition splitKeys => do
      let _ ← (splitKeys.map routable.convertToRoutingKey).mapM routable.splitAt
  | .mergePartition mergeKeys => do
      let _ ← (mergeKeys.map routable.convertToRoutingKey).mapM routable.mergeAt
  | .deletePartitions partitionHandlers => partitionHandlers.forM routable.removePartition
  | .replicatePartitions targets => do
      let _ ← targets.mapM routable.replicateOn
  | .setPartitionScheme scheme => do
      ofExcept (require (decide (1 ≤ scheme.length)) "Scheme must have at least 1 entry")
      ofExcept (require (decide (scheme.head?.map Prod.fst = some none)) "first entry in scheme must be None")
      routable.createRoutingTable (← routable.createScheme scheme.reverse none [])

def Listed (ns : RoutedNamespace K σ) (partition : PartitionService) : Prop :=
  ∃ range ∈ ns.routingTable.rTable, partition ∈ range.values

/-- What is replicated is in the table. -/
def ReplicatesListed (ns : RoutedNamespace K σ) : Call R K → Prop
  | .replicatePartitions targets => ∀ target ∈ targets, Listed ns target.1
  | _ => True

theorem edit_routed {made : Call R K} (routed : Routed registry used ns)
    (compared : AgreesOn used routable.routingKeyComp) (admitted : Admitted registry used ns made)
    (sources : ReplicatesListed ns made) (ran : routable.edit made ns = .ok .unit next) :
    Routed registry used next := by
  cases made with
  | splitPartition splitKeys =>
      obtain ⟨old, _, looped, returned⟩ := bind_ok.mp ran
      cases returned
      refine (splits_edited routed ?_ looped).routed
      exact List.forall_mem_map.mpr admitted
  | mergePartition mergeKeys =>
      obtain ⟨old, _, looped, returned⟩ := bind_ok.mp ran
      cases returned
      refine (merges_edited routed ?_ looped).routed
      exact List.forall_mem_map.mpr admitted
  | deletePartitions partitionHandlers => exact (removes_edited routed admitted ran).routed
  | replicatePartitions targets =>
      obtain ⟨result, _, looped, returned⟩ := bind_ok.mp ran
      cases returned
      have kept := @mapM_invariant _ _ _ _ _ _ routable.replicateOn
        (fun _ state => Routed registry used state ∧ ∀ target ∈ targets, Listed state target.1) targets []
        result ?_ ⟨routed, sources⟩ looped
      · exact kept.1
      · intro done target state reply after member found one
        obtain ⟨held, listed⟩ := found
        obtain ⟨range, among, known⟩ := listed target member
        obtain ⟨replicated, still⟩ := replicateOn_routed held among known one
        refine ⟨replicated, fun other chosen => ?_⟩
        obtain ⟨place, found, contained⟩ := listed other chosen
        exact still place found other.1 contained
  | setPartitionScheme scheme =>
      rw [edit] at ran
      obtain ⟨_, _, nonempty, ran⟩ := bind_ok.mp ran
      obtain ⟨_, rfl⟩ := ofExcept_ok.mp nonempty
      obtain ⟨_, _, first, ran⟩ := bind_ok.mp ran
      obtain ⟨opened, rfl⟩ := require_head first
      obtain ⟨rTable, last, created, replaced⟩ := bind_ok.mp ran
      exact (scheme_edited routed compared admitted.1 admitted.2 opened created replaced).routed

theorem Routed.valid (routed : Routed registry used ns) : routable.validateRoutingTable ns = .ok true ns :=
  (validateRoutingTable_ok registry).mpr ⟨rfl, rfl, routed.answers⟩

/-- Every listed partition was made for the key range that lists it and has not
been asked to go, and the table passes its check. -/
structure TableMatches (routable : Routable R K σ) (ns : RoutedNamespace K σ) : Prop where
  created : ∀ place range, ns.routingTable.rTable[place]? = some range → ∀ partition ∈ range.values,
    (partition, range.startKey, (ns.routingTable.rTable[place + 1]?).bind RangeType.startKey) ∈ ns.creations
  valid : routable.validateRoutingTable ns = .ok true ns
  kept : ∀ partition, Listed ns partition → partition ∉ ns.deletions

theorem Routed.tableMatches (routed : Routed registry used ns) : TableMatches routable ns where
  created := aligned_iff_getElem.mp routed.aligned
  valid := routed.valid
  kept partition := fun ⟨range, member, listed⟩ => (routed.listed range member partition listed).1

end Routable

end Scads.Client
