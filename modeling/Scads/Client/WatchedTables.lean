import Scads.Client.StoredRecords
import Scads.Data.WatchedValues

namespace Scads.Client

open Scads.Data Scads.Comm Scads.Server Scads.Util RangeTable

/-! # Routing tables that clients watch

Each client of a namespace has a table of its own.  A call to repartition the namespace
stores a new table, and the others load it when their watch of the metadata fires.  The
partitions of the old table go only after the new one has been propagated.

What a call does up to the table that it stores is one step here: no other client calls,
and no reader loads, between the first edit of the table of the caller and the write.
-/

namespace Routable

section

variable {R K σ : Type} [DecidableEq K] [ToString K] (routable : Routable R K σ)

/-- A call up to the table that it stores, and what remains of it. -/
def untilStored (arrival : Iteration PartitionService) : Call R K → Method K σ (Method K σ Unit)
  | .splitPartition splitKeys => do
      let oldPartitions ← (splitKeys.map routable.convertToRoutingKey).mapM routable.splitAt
      routable.storeRoutingTable
      return oldPartitions.forM (routable.deletePartitionServices arrival)
  | .mergePartition mergeKeys => do
      let oldPartitions ← (mergeKeys.map routable.convertToRoutingKey).mapM routable.mergeAt
      routable.storeRoutingTable
      return oldPartitions.forM fun (leftPart, rightPart) => do
        routable.deletePartitionServices arrival leftPart
        routable.deletePartitionServices arrival rightPart
  | .deletePartitions partitionHandlers => do
      partitionHandlers.forM routable.removePartition
      routable.storeRoutingTable
      return routable.deletePartitionServices arrival partitionHandlers
  | .replicatePartitions targets => do
      let result ← targets.mapM routable.replicateOn
      routable.storeRoutingTable
      return do
        let _ ← awaitAll (result.map fun (newPartition, oldPartition) =>
          onCluster (routable.servers.copyData newPartition oldPartition))
  | .setPartitionScheme scheme => do
      ofExcept (require (decide (1 ≤ scheme.length)) "Scheme must have at least 1 entry")
      ofExcept (require (decide (scheme.head?.map Prod.fst = some none)) "first entry in scheme must be None")
      let oldServices := ((← get).routingTable.rTable.flatMap RangeType.values).eraseDups
      let rTable ← routable.createScheme scheme.reverse none []
      routable.createRoutingTable rTable
      routable.storeRoutingTable
      return routable.deletePartitionServices arrival oldServices

/-- All calls but this one wait until their table is propagated. -/
def Waits : Call R K → Prop
  | .setPartitionScheme _ => False
  | _ => True

instance : (made : Call R K) → Decidable (Waits made)
  | .splitPartition _ => .isTrue trivial
  | .mergePartition _ => .isTrue trivial
  | .deletePartitions _ => .isTrue trivial
  | .replicatePartitions _ => .isTrue trivial
  | .setPartitionScheme _ => .isFalse id

end

variable {R K σ : Type} [DecidableEq K] [ToString K] {routable : Routable R K σ}

theorem call_untilStored (arrival : Iteration PartitionService) (made : Call R K) :
    routable.call arrival made = (do
      let rest ← routable.untilStored arrival made
      rest) := by
  cases made with
  | splitPartition splitKeys => simp [call, splitPartition, untilStored]
  | mergePartition mergeKeys => simp [call, mergePartition, untilStored]
  | deletePartitions partitionHandlers => simp [call, deletePartitions, untilStored]
  | replicatePartitions targets => simp [call, replicatePartitions, untilStored]
  | setPartitionScheme scheme => simp [call, setPartitionScheme, untilStored]

variable [LinearOrder K] {registry : Registry routable.servers} {used : K → Prop}
  {ns middle next : RoutedNamespace K σ}

omit [LinearOrder K] in
/-- The table is edited, checked and stored. -/
theorem untilStored_ran {arrival : Iteration PartitionService} {made : Call R K} {rest : Method K σ Unit}
    (registry : Registry routable.servers) (ran : routable.untilStored arrival made ns = .ok rest next) :
    ∃ edited, routable.edit made ns = .ok .unit edited ∧
      next = { edited with stored := edited.routingTable.rTable } ∧
      Aligned (fun partition bounds => registry.live edited.cluster partition = some bounds) none
        edited.routingTable.rTable := by
  cases made with
  | splitPartition splitKeys =>
      obtain ⟨old, edited, looped, ran⟩ := bind_ok.mp ran
      obtain ⟨_, _, checked, returned⟩ := bind_ok.mp ran
      cases returned
      exact ⟨edited, bind_ok.mpr ⟨_, _, looped, rfl⟩, (storeRoutingTable_ok registry).mp checked⟩
  | mergePartition mergeKeys =>
      obtain ⟨old, edited, looped, ran⟩ := bind_ok.mp ran
      obtain ⟨_, _, checked, returned⟩ := bind_ok.mp ran
      cases returned
      exact ⟨edited, bind_ok.mpr ⟨_, _, looped, rfl⟩, (storeRoutingTable_ok registry).mp checked⟩
  | deletePartitions partitionHandlers =>
      obtain ⟨_, edited, looped, ran⟩ := bind_ok.mp ran
      obtain ⟨_, _, checked, returned⟩ := bind_ok.mp ran
      cases returned
      exact ⟨edited, looped, (storeRoutingTable_ok registry).mp checked⟩
  | replicatePartitions targets =>
      obtain ⟨result, edited, looped, ran⟩ := bind_ok.mp ran
      obtain ⟨_, _, checked, returned⟩ := bind_ok.mp ran
      cases returned
      exact ⟨edited, bind_ok.mpr ⟨_, _, looped, rfl⟩, (storeRoutingTable_ok registry).mp checked⟩
  | setPartitionScheme scheme =>
      obtain ⟨_, _, nonempty, ran⟩ := bind_ok.mp ran
      obtain ⟨_, _, first, ran⟩ := bind_ok.mp ran
      obtain ⟨_, _, got, ran⟩ := bind_ok.mp ran
      cases got
      obtain ⟨rTable, last, created, ran⟩ := bind_ok.mp ran
      obtain ⟨_, edited, replaced, ran⟩ := bind_ok.mp ran
      obtain ⟨_, _, checked, returned⟩ := bind_ok.mp ran
      cases returned
      refine ⟨edited, ?_, (storeRoutingTable_ok registry).mp checked⟩
      exact bind_ok.mpr ⟨_, _, nonempty, bind_ok.mpr ⟨_, _, first, bind_ok.mpr ⟨_, _, created, replaced⟩⟩⟩

theorem edit_held {made : Call R K} (routed : Routed registry used ns)
    (compared : AgreesOn used routable.routingKeyComp) (admitted : Admitted registry used ns made)
    (ran : routable.edit made ns = .ok .unit next) : Held registry used next := by
  cases made with
  | splitPartition splitKeys => exact (edit_routed routed compared admitted trivial ran).toHeld
  | mergePartition mergeKeys => exact (edit_routed routed compared admitted trivial ran).toHeld
  | deletePartitions partitionHandlers => exact (edit_routed routed compared admitted trivial ran).toHeld
  | replicatePartitions targets =>
      obtain ⟨result, _, looped, returned⟩ := bind_ok.mp ran
      cases returned
      have kept := @mapM_invariant _ _ _ _ _ _ routable.replicateOn
        (fun _ state => Held registry used state ∧ StartsInUse registry used state (targets.map Prod.fst))
        targets [] result ?_ ⟨routed.toHeld, admitted⟩ looped
      · exact kept.1
      · intro done target state reply after member held one
        exact replicateOn_held held.1 held.2 (List.mem_map_of_mem member) one
  | setPartitionScheme scheme => exact (edit_routed routed compared admitted trivial ran).toHeld

/-- A table that has been stored lists partitions that were made for their ranges. -/
theorem untilStored_routed {arrival : Iteration PartitionService} {made : Call R K} {rest : Method K σ Unit}
    (routed : Routed registry used ns) (compared : AgreesOn used routable.routingKeyComp)
    (admitted : Admitted registry used ns made) (ran : routable.untilStored arrival made ns = .ok rest next) :
    Routed registry used next := by
  obtain ⟨edited, changed, rfl, answers⟩ := untilStored_ran registry ran
  exact stored_routed ((edit_held routed compared admitted changed).routed answers)

/-- All partitions that there were are open with the same bounds as before. -/
def Untouched (registry : Registry routable.servers) (ns next : RoutedNamespace K σ) : Prop :=
  ∀ partition, registry.issued ns.cluster partition →
    registry.issued next.cluster partition ∧ registry.live next.cluster partition = registry.live ns.cluster partition

omit [DecidableEq K] [ToString K] [LinearOrder K] in
theorem Untouched.trans (first : Untouched registry ns middle) (second : Untouched registry middle next) :
    Untouched registry ns next := by
  intro partition issued
  obtain ⟨still, same⟩ := first partition issued
  obtain ⟨last, equal⟩ := second partition still
  exact ⟨last, equal.trans same⟩

omit [DecidableEq K] [ToString K] [LinearOrder K] in
theorem Grown.untouched {made : List (PartitionService × Option K × Option K)}
    (grown : Grown registry ns made next) :
    Untouched registry ns next :=
  fun partition issued => ⟨(grown.issued partition).mpr (.inr issued), grown.live issued⟩

omit [DecidableEq K] [ToString K] [LinearOrder K] in
theorem untouched_refl (registry : Registry routable.servers) (ns : RoutedNamespace K σ) : Untouched registry ns ns :=
  fun _ issued => ⟨issued, rfl⟩

omit [DecidableEq K] in
theorem replicateOn_untouched {target : PartitionService × StorageService}
    {result : PartitionService × PartitionService} (held : Held registry used ns)
    (given : StartsInUse registry used ns [target.1]) (ran : routable.replicateOn target ns = .ok result next) :
    Untouched registry ns next := by
  obtain ⟨_, _, _, _, last, _, _, _, made, rfl⟩ := replicateOn_spec held.arranged given ran
  exact (createPartitions_grown registry made).2.untouched

omit [LinearOrder K] [DecidableEq K] [ToString K] in
theorem createScheme_untouched {earlier : List (Option K × List StorageService)} {endKey : Option K}
    {rTable result : List (RangeType K PartitionService)} (registry : Registry routable.servers)
    (ran : routable.createScheme earlier endKey rTable ns = .ok result next) : Untouched registry ns next := by
  induction earlier generalizing endKey rTable ns with
  | nil =>
      cases ran
      exact untouched_refl registry _
  | cons entry rest ih =>
      obtain ⟨handlers, between, one, ran⟩ := bind_ok.mp ran
      exact (createPartitions_grown registry one).2.untouched.trans (ih ran)

/-- Partitions are opened, and none is closed, until the table is stored. -/
theorem edit_untouched {made : Call R K} (routed : Routed registry used ns)
    (admitted : Admitted registry used ns made) (ran : routable.edit made ns = .ok .unit next) :
    Untouched registry ns next := by
  cases made with
  | splitPartition splitKeys =>
      obtain ⟨old, _, looped, returned⟩ := bind_ok.mp ran
      cases returned
      have kept := @mapM_invariant _ _ _ _ _ _ routable.splitAt
        (fun (_ : List (List PartitionService)) state => Routed registry used state ∧ Untouched registry ns state)
        _ [] old ?_ ⟨routed, untouched_refl registry ns⟩ looped
      · exact kept.2
      · intro done key state result after member held one
        obtain ⟨given, known, rfl⟩ := List.mem_map.mp member
        have inUse := admitted given known
        obtain ⟨_, _, _, _, _, between, last, _, _, _, first, second, rfl⟩ := splitAt_spec held.1.arranged inUse one
        refine ⟨(splitAt_edited held.1 inUse one).routed, held.2.trans ?_⟩
        exact (createPartitions_grown registry first).2.untouched.trans
          (createPartitions_grown registry second).2.untouched
  | mergePartition mergeKeys =>
      obtain ⟨old, _, looped, returned⟩ := bind_ok.mp ran
      cases returned
      have kept := @mapM_invariant _ _ _ _ _ _ routable.mergeAt
        (fun (_ : List (List PartitionService × List PartitionService)) state =>
          Routed registry used state ∧ Untouched registry ns state)
        _ [] old ?_ ⟨routed, untouched_refl registry ns⟩ looped
      · exact kept.2
      · intro done key state result after member held one
        obtain ⟨given, known, rfl⟩ := List.mem_map.mp member
        have inUse := admitted given known
        obtain ⟨_, _, _, _, _, last, _, _, _, _, made, rfl⟩ := mergeAt_spec held.1.arranged inUse one
        refine ⟨(mergeAt_edited held.1 inUse one).routed, held.2.trans ?_⟩
        exact (createPartitions_grown registry made).2.untouched
  | deletePartitions partitionHandlers =>
      have kept := @forM_invariant _ _ _ _ _ routable.removePartition
        (fun (_ : List PartitionService) state => Routed registry used state ∧ state.cluster = ns.cluster)
        partitionHandlers [] ?_ ⟨routed, rfl⟩ ran
      · intro partition issued
        rw [kept.2]
        exact ⟨issued, rfl⟩
      · intro done partition state after member held one
        obtain ⟨still, same⟩ := held
        have inUse : StartsInUse registry used state [partition] := by
          intro other only
          rw [List.mem_singleton.mp only, same]
          exact admitted partition member
        obtain ⟨edited, alike⟩ := removePartition_edited still inUse one
        exact ⟨edited.routed, alike.trans same⟩
  | replicatePartitions targets =>
      obtain ⟨result, _, looped, returned⟩ := bind_ok.mp ran
      cases returned
      have kept := @mapM_invariant _ _ _ _ _ _ routable.replicateOn
        (fun (_ : List (PartitionService × PartitionService)) state =>
          (Held registry used state ∧ StartsInUse registry used state (targets.map Prod.fst)) ∧
            Untouched registry ns state)
        targets [] result ?_ ⟨⟨routed.toHeld, admitted⟩, untouched_refl registry ns⟩ looped
      · exact kept.2
      · intro done target state reply after member held one
        have source : target.1 ∈ targets.map Prod.fst := List.mem_map_of_mem member
        have inUse : StartsInUse registry used state [target.1] :=
          fun partition only => List.mem_singleton.mp only ▸ held.1.2 target.1 source
        exact ⟨replicateOn_held held.1.1 held.1.2 source one, held.2.trans (replicateOn_untouched held.1.1 inUse one)⟩
  | setPartitionScheme scheme =>
      rw [edit] at ran
      obtain ⟨_, _, nonempty, ran⟩ := bind_ok.mp ran
      obtain ⟨_, rfl⟩ := ofExcept_ok.mp nonempty
      obtain ⟨_, _, first, ran⟩ := bind_ok.mp ran
      obtain ⟨_, rfl⟩ := ofExcept_ok.mp first
      obtain ⟨rTable, last, created, ran⟩ := bind_ok.mp ran
      obtain ⟨table, _, checked, ran⟩ := bind_ok.mp ran
      obtain ⟨_, rfl⟩ := ofExcept_ok.mp checked
      cases ran
      have untouched := createScheme_untouched registry created
      exact untouched

/-- The servers, the table in the metadata, and what remains of a call under way. -/
structure Clients (C K σ : Type) where
  ns : RoutedNamespace K σ
  tables : Watched C (List (RangeType K PartitionService))
  rest : Option (Method K σ Unit)

inductive ClientEvent (C R K : Type) where
  | reads (client : C) (event : ReaderEvent)
  | begins (client : C) (made : Call R K) (arrival : Iteration PartitionService)
  | ends

section

variable {C : Type} [DecidableEq C]

/-- A client has a table once it has loaded the ranges of one. -/
def Clients.table (clients : Clients C K σ) (routable : Routable R K σ) (client : C) :
    Option (Except Failure (RoutingTable K)) :=
  (clients.tables.readers client).copy.map fun ranges =>
    RangeTable.create ranges routable.routingKeyComp mergeCond

def Clients.step (routable : Routable R K σ) (clients : Clients C K σ) :
    ClientEvent C R K → Option (Clients C K σ)
  | .reads client event => (clients.tables.step client event).map fun tables => { clients with tables }
  | .begins client made arrival =>
      match clients.rest, clients.table routable client with
      | none, some (.ok routingTable) =>
          match routable.untilStored arrival made { clients.ns with routingTable } with
          | .ok rest ns => some ⟨ns, clients.tables.write client ns.routingTable.rTable, some rest⟩
          | .error _ _ => none
      | _, _ => none
  | .ends =>
      match clients.rest with
      | none => none
      | some rest =>
          match rest clients.ns with
          | .ok _ ns => some { clients with ns, rest := none }
          | .error _ _ => none

/-- A new namespace, before any client has opened it. -/
def Clients.created (ns : RoutedNamespace K σ) : Clients C K σ :=
  ⟨ns, ⟨[ns.routingTable.rTable], fun _ => .unread⟩, none⟩

/-- Clients load one table at a time, and a call goes on once its table is propagated. -/
def Clients.Careful (clients : Clients C K σ) : ClientEvent C R K → Prop
  | .reads client event => (clients.tables.readers client).LoadsOnce event
  | .begins _ made _ => Waits made
  | .ends => clients.tables.Settled

instance [Fintype C] (clients : Clients C K σ) : (event : ClientEvent C R K) → Decidable (clients.Careful event)
  | .reads client event => inferInstanceAs (Decidable ((clients.tables.readers client).LoadsOnce event))
  | .begins _ made _ => inferInstanceAs (Decidable (Waits made))
  | .ends => inferInstanceAs (Decidable clients.tables.Settled)

/-- The routing keys that a call compares are in use. -/
def Clients.Admits (registry : Registry routable.servers) (used : K → Prop) (clients : Clients C K σ) :
    ClientEvent C R K → Prop
  | .begins _ made _ => Admitted registry used clients.ns made
  | _ => True

/-- Where all keys are in use, careful clients need nothing else. -/
theorem Clients.careful_admits {clients : Clients C K σ} {events : List (ClientEvent C R K)}
    (careful : Along (Clients.step routable) (fun before event _ => before.Careful event) clients events) :
    Along (Clients.step routable)
      (fun before event _ => before.Careful event ∧ before.Admits registry (fun _ => True) event) clients events := by
  have every : ∀ {clients : Clients C K σ} {event : ClientEvent C R K}, clients.Careful event →
      clients.Admits registry (fun _ => True) event := by
    intro clients event careful
    cases event with
    | reads client event => trivial
    | begins client made arrival =>
        refine admitted_of_increasing fun scheme same => ?_
        subst same
        exact careful.elim
    | ends => trivial
  exact (along_iff (fun _ _ => ⟨fun careful => ⟨careful, every careful⟩, And.left⟩) (fun _ _ _ => trivial)
    trivial).mp careful

end

/-- Ranges in order that list open partitions, each for the range that lists it. -/
structure Valid (registry : Registry routable.servers) (used : K → Prop) (cluster : σ)
    (ranges : List (RangeType K PartitionService)) : Prop where
  arranged : Arranged used (⟨ranges, routable.routingKeyComp, mergeCond⟩ : RoutingTable K)
  issued : ∀ range ∈ ranges, ∀ partition ∈ range.values, registry.issued cluster partition
  answers : Aligned (fun partition bounds => registry.live cluster partition = some bounds) none ranges
  populated : ∀ range ∈ ranges, range.values ≠ [] ∧ range.values.Nodup

omit [DecidableEq K] [ToString K] in
theorem Routed.valid_ranges (routed : Routed registry used ns) (compared : AgreesOn used routable.routingKeyComp)
    (populated : Populated ns.routingTable) : Valid registry used ns.cluster ns.routingTable.rTable where
  arranged := ⟨routed.arranged.opened, routed.arranged.ascending, compared, routed.arranged.starts⟩
  issued _ member _ listed := routed.issued member listed
  answers := routed.answers
  populated := populated

omit [DecidableEq K] [ToString K] in
theorem Valid.untouched {ranges : List (RangeType K PartitionService)} (valid : Valid registry used ns.cluster ranges)
    (untouched : Untouched registry ns next) : Valid registry used next.cluster ranges where
  arranged := valid.arranged
  issued range member partition listed := (untouched partition (valid.issued range member partition listed)).1
  answers := valid.answers.imp fun range member partition listed _ live =>
    (untouched partition (valid.issued range member partition listed)).2.trans live
  populated := valid.populated

/-- For each key the table names at least one partition, and those that it names are open and
responsible for the key. -/
def Serving (registry : Registry routable.servers) (used : K → Prop) (ns : RoutedNamespace K σ)
    (routingTable : RoutingTable K) : Prop :=
  ∀ key, used (routable.convertToRoutingKey key) →
    ∃ servers, routable.serversForKey { ns with routingTable } key = .ok servers ∧ servers ≠ [] ∧
      ∀ partition ∈ servers, ∃ bounds, registry.live ns.cluster partition = some bounds ∧
        Within inferInstance bounds (routable.convertToRoutingKey key)

omit [DecidableEq K] [ToString K] in
theorem Valid.serversForKey {ranges : List (RangeType K PartitionService)} {cluster : σ}
    (valid : Valid registry used cluster ranges) (ns : RoutedNamespace K σ) {key : R}
    (given : used (routable.convertToRoutingKey key)) :
    ∃ before range after,
      At ⟨ranges, routable.routingKeyComp, mergeCond⟩ (some (routable.convertToRoutingKey key)) before range after ∧
        routable.serversForKey { ns with routingTable := ⟨ranges, routable.routingKeyComp, mergeCond⟩ } key =
          .ok range.values := by
  obtain ⟨before, range, after, located⟩ := valid.arranged.exists_at (some (routable.convertToRoutingKey key))
  have found := valid.arranged.found (fun _ same => Option.some.inj same ▸ given) located
  refine ⟨before, range, after, located, ?_⟩
  rw [Routable.serversForKey, valuesForKey, idxForKey_found found,
    show ranges = before ++ range :: after from located.split]
  simp

omit [DecidableEq K] [ToString K] in
theorem Valid.serving {ranges : List (RangeType K PartitionService)} (valid : Valid registry used ns.cluster ranges) :
    Serving registry used ns ⟨ranges, routable.routingKeyComp, mergeCond⟩ := by
  intro key given
  obtain ⟨before, range, after, located, routes⟩ := valid.serversForKey ns given
  have split : ranges = before ++ range :: after := located.split
  refine ⟨range.values, routes, (valid.populated range (by simp [split])).1, fun partition listed => ?_⟩
  have aligned := valid.answers
  rw [split, aligned_append] at aligned
  exact ⟨_, aligned.2.1 partition listed, contains_of_located located⟩

omit [DecidableEq K] in
theorem Valid.create {ranges : List (RangeType K PartitionService)} {cluster : σ}
    (valid : Valid registry used cluster ranges) :
    RangeTable.create ranges routable.routingKeyComp mergeCond = .ok ⟨ranges, routable.routingKeyComp, mergeCond⟩ :=
  create_of_head _ _ valid.arranged.opened

variable {C : Type} {clients after : Clients C K σ}

/-- What the clients may have loaded.  During a call it is the new table or the one before,
whose partitions are still there. -/
inductive Propagating (registry : Registry routable.servers) (used : K → Prop) (clients : Clients C K σ) : Prop where
  | idle (finished : clients.rest = none) (earlier : List (List (RangeType K PartitionService)))
      (writes : clients.tables.writes = earlier ++ [clients.ns.routingTable.rTable])
      (recent : clients.tables.Recent earlier.length)
  | waiting (rest : Method K σ Unit) (calling : clients.rest = some rest)
      (earlier : List (List (RangeType K PartitionService))) (previous : List (RangeType K PartitionService))
      (writes : clients.tables.writes = earlier ++ [previous, clients.ns.routingTable.rTable])
      (recent : clients.tables.Recent earlier.length) (valid : Valid registry used clients.ns.cluster previous)
      (finishes : ∀ next, rest clients.ns = .ok .unit next →
        Routed registry used next ∧ next.routingTable = clients.ns.routingTable)

structure Published (registry : Registry routable.servers) (used : K → Prop) (clients : Clients C K σ) : Prop where
  routed : Routed registry used clients.ns
  populated : Populated clients.ns.routingTable
  notified : clients.tables.Notified
  propagating : Propagating registry used clients

omit [DecidableEq K] [ToString K] in
/-- Whatever ranges a client has loaded, their partitions are there. -/
theorem Published.valid (published : Published registry used clients) (compared : AgreesOn used routable.routingKeyComp)
    {client : C} {ranges : List (RangeType K PartitionService)}
    (loaded : (clients.tables.readers client).copy = some ranges) : Valid registry used clients.ns.cluster ranges := by
  have newest := published.routed.valid_ranges compared published.populated
  cases published.propagating with
  | idle finished earlier writes recent =>
      have member := (recent.2 client).copies ranges loaded
      rw [writes, List.drop_left, List.mem_singleton] at member
      rw [member]
      exact newest
  | waiting rest calling earlier previous writes recent valid finishes =>
      have member := (recent.2 client).copies ranges loaded
      rw [writes, List.drop_left] at member
      rcases List.mem_pair.mp member with rfl | rfl
      · exact valid
      · exact newest

omit [DecidableEq K] [ToString K] in
theorem Routed.recreated (routed : Routed registry used ns) (compared : AgreesOn used routable.routingKeyComp) :
    Routed registry used
      { ns with routingTable := ⟨ns.routingTable.rTable, routable.routingKeyComp, mergeCond⟩ } :=
  ⟨⟨⟨routed.arranged.opened, routed.arranged.ascending, compared, routed.arranged.starts⟩, routed.known, routed.sent,
    routed.listed⟩, routed.aligned⟩

omit [DecidableEq K] [ToString K] in
theorem Admitted.retable {made : Call R K} (admitted : Admitted registry used ns made) (routingTable : RoutingTable K) :
    Admitted registry used { ns with routingTable } made := by
  cases made with
  | splitPartition splitKeys => exact admitted
  | mergePartition mergeKeys => exact admitted
  | deletePartitions partitionHandlers => exact admitted
  | replicatePartitions targets => exact admitted
  | setPartitionScheme scheme => exact admitted

omit [DecidableEq K] [ToString K] [LinearOrder K] in
theorem Waits.serves {made : Call R K} (waits : Waits made) : Serves made := by
  cases made with
  | setPartitionScheme scheme => exact waits.elim
  | _ => trivial

/-- What remains of a call after its table is stored deletes or fills partitions. -/
theorem untilStored_finishes {arrival : Iteration PartitionService} {made : Call R K} {rest : Method K σ Unit}
    (routed : Routed registry used ns) (compared : AgreesOn used routable.routingKeyComp)
    (admitted : Admitted registry used ns made) (ran : routable.untilStored arrival made ns = .ok rest middle)
    (returned : rest middle = .ok .unit next) :
    Routed registry used next ∧ next.routingTable = middle.routingTable := by
  have called : routable.call arrival made ns = .ok .unit next := by
    rw [call_untilStored]
    exact bind_ok.mpr ⟨rest, middle, ran, returned⟩
  have taken : routable.step ns (made, arrival) = some next := by
    rw [step, called]
  refine ⟨step_routed routed compared admitted taken, ?_⟩
  obtain ⟨edited, changed, same⟩ := call_ran registry called
  obtain ⟨other, also, rfl, _⟩ := untilStored_ran registry ran
  rw [changed] at also
  cases also
  exact same

variable [DecidableEq C]

omit [LinearOrder K] in
theorem step_begins {client : C} {made : Call R K} {arrival : Iteration PartitionService}
    (taken : clients.step routable (.begins client made arrival) = some after) :
    clients.rest = none ∧ ∃ routingTable rest next, clients.table routable client = some (.ok routingTable) ∧
      routable.untilStored arrival made { clients.ns with routingTable } = .ok rest next ∧
      after = ⟨next, clients.tables.write client next.routingTable.rTable, some rest⟩ := by
  rw [Clients.step] at taken
  split at taken
  · rename_i _ _ routingTable finished opened
    split at taken
    · rename_i rest next ran
      cases taken
      exact ⟨finished, routingTable, rest, next, opened, ran, rfl⟩
    · cases taken
  · cases taken

omit [LinearOrder K] in
theorem step_ends (taken : clients.step routable (.ends : ClientEvent C R K) = some after) :
    ∃ rest next, clients.rest = some rest ∧ rest clients.ns = .ok .unit next ∧
      after = { clients with ns := next, rest := none } := by
  rw [Clients.step] at taken
  split at taken
  · cases taken
  · rename_i rest called
    split at taken
    · rename_i next returned
      cases taken
      exact ⟨rest, next, called, returned, rfl⟩
    · cases taken

omit [LinearOrder K] in
theorem step_reads {client : C} {event : ReaderEvent}
    (taken : clients.step routable (.reads client event : ClientEvent C R K) = some after) :
    ∃ tables, clients.tables.step client event = some tables ∧ after = { clients with tables } := by
  obtain ⟨tables, moved, rfl⟩ := Option.map_eq_some_iff.mp taken
  exact ⟨tables, moved, rfl⟩

omit [DecidableEq C] [DecidableEq K] [ToString K] in
/-- Between calls every table is the last one. -/
theorem Published.idle (published : Published registry used clients) (finished : clients.rest = none) {client : C}
    {ranges : List (RangeType K PartitionService)} (loaded : (clients.tables.readers client).copy = some ranges) :
    ranges = clients.ns.routingTable.rTable := by
  cases published.propagating with
  | idle _ earlier writes recent =>
      have member := (recent.2 client).copies ranges loaded
      rwa [writes, List.drop_left, List.mem_singleton] at member
  | waiting rest calling earlier previous writes recent valid finishes =>
      rw [finished] at calling
      cases calling

theorem Published.begins {client : C} {made : Call R K} {arrival : Iteration PartitionService}
    (published : Published registry used clients) (compared : AgreesOn used routable.routingKeyComp)
    (waits : Waits made)
    (admitted : Admitted registry used clients.ns made)
    (taken : clients.step routable (.begins client made arrival) = some after) : Published registry used after := by
  obtain ⟨finished, routingTable, rest, next, opened, ran, rfl⟩ := step_begins taken
  obtain ⟨ranges, loaded, created⟩ := Option.map_eq_some_iff.mp opened
  have valid := published.valid compared loaded
  rw [valid.create] at created
  cases created
  obtain rfl := published.idle finished loaded
  have start := published.routed.recreated compared
  have admitted := admitted.retable ⟨clients.ns.routingTable.rTable, routable.routingKeyComp, mergeCond⟩
  obtain ⟨edited, changed, same, _⟩ := untilStored_ran registry ran
  have untouched := edit_untouched start admitted changed
  have kept : Valid registry used next.cluster clients.ns.routingTable.rTable := by
    rw [same]
    exact @Valid.untouched _ _ _ _ _ _ _ _ edited _ valid untouched
  have populated := edit_populated registry (by exact published.populated) waits.serves changed
  cases published.propagating with
  | waiting rest calling earlier previous writes recent valid finishes =>
      rw [finished] at calling
      cases calling
  | idle _ earlier writes recent =>
      refine ⟨untilStored_routed start compared admitted ran, ?_, published.notified.write loaded _, ?_⟩
      · rw [same]
        exact populated
      · refine .waiting rest rfl earlier clients.ns.routingTable.rTable ?_ (recent.write client _) kept ?_
        · simp [Watched.write, writes]
        · exact fun _ returned => untilStored_finishes start compared admitted ran returned

theorem Published.step {event : ClientEvent C R K} (published : Published registry used clients)
    (compared : AgreesOn used routable.routingKeyComp) (careful : clients.Careful event)
    (admits : clients.Admits registry used event) (taken : clients.step routable event = some after) :
    Published registry used after := by
  cases event with
  | reads client event =>
      obtain ⟨tables, moved, rfl⟩ := step_reads taken
      have same : tables.writes = clients.tables.writes := by
        obtain ⟨reader, _, rfl⟩ := Watched.step_taken moved
        rfl
      refine ⟨published.routed, published.populated, published.notified.step careful moved, ?_⟩
      cases published.propagating with
      | idle finished earlier writes recent => exact .idle finished earlier (same.trans writes) (recent.step moved)
      | waiting rest calling earlier previous writes recent valid finishes =>
          exact .waiting rest calling earlier previous (same.trans writes) (recent.step moved) valid finishes
  | begins client made arrival => exact published.begins compared careful admits taken
  | ends =>
      obtain ⟨rest, next, called, returned, rfl⟩ := step_ends taken
      cases published.propagating with
      | idle finished earlier writes recent =>
          rw [called] at finished
          cases finished
      | waiting other calling earlier previous writes recent valid finishes =>
          rw [called] at calling
          cases calling
          obtain ⟨routed, same⟩ := finishes next returned
          refine ⟨routed, ?_, published.notified, .idle rfl (earlier ++ [previous]) ?_ ?_⟩
          · rw [same]
            exact published.populated
          · simp [writes, same]
          · have settled := published.notified.settled careful (by simp [writes])
            rw [writes] at settled
            simpa using settled

omit [DecidableEq C] in
theorem created_published {server : StorageService} {cluster : σ} (compared : AgreesOn used routable.routingKeyComp)
    (created : routable.doCreate server (routable.unopened cluster) = .ok .unit ns) :
    Published registry used (Clients.created ns : Clients C K σ) where
  routed := doCreate_routed compared created
  populated := doCreate_populated registry created
  notified _ := Reader.unread_notified (by simp [Clients.created])
  propagating := .idle rfl [] rfl ⟨by simp [Clients.created], fun _ => Reader.unread_recent⟩

theorem run_published {server : StorageService} {cluster : σ} {events : List (ClientEvent C R K)}
    (compared : AgreesOn used routable.routingKeyComp)
    (created : routable.doCreate server (routable.unopened cluster) = .ok .unit ns)
    (ran : run (Clients.step routable) (Clients.created ns) events = some after)
    (careful : Along (Clients.step routable)
      (fun before event _ => before.Careful event ∧ before.Admits registry used event) (Clients.created ns) events) :
    Published registry used after :=
  @along_invariant _ _ (Clients.step routable) _ (Published registry used) _ _ _
    (fun published taken allowed => published.step compared allowed.1 allowed.2 taken)
    (created_published compared created)
    careful ran

omit [DecidableEq C] [DecidableEq K] in
/-- A client that has nothing left to load has the table that was stored last. -/
theorem Published.settled_table (published : Published registry used clients) {client : C} {table : RoutingTable K}
    (settled : (clients.tables.readers client).Settled clients.tables.writes)
    (opened : clients.table routable client = some (.ok table)) :
    clients.tables.writes.getLast? = some table.rTable := by
  obtain ⟨ranges, loaded, created⟩ := Option.map_eq_some_iff.mp opened
  have some : clients.tables.writes ≠ [] := by
    refine List.ne_nil_of_length_pos ?_
    rw [← settled.current]
    exact Nat.succ_pos _
  have member := ((published.notified client).settled settled).copies ranges loaded
  rw [List.drop_length_sub_one some, List.mem_singleton] at member
  rw [List.getLast?_eq_getLast_of_ne_nil some, ← member, create_ok created]

end Routable

/-- Any number of clients open a namespace, watch its routing table and repartition it, one
call at a time.  As long as every client loads one table at a time, and as long as the wait
of a call is over only when all clients have loaded its table, every key in use is served by the
table of every client: at least one partition is named, and all that are named are open and
responsible.  Clients with nothing left to load have the table that was stored last. -/
theorem Environment.clients_stay_served {C R K V : Type} {stored : LinearOrder K} (environment : Environment K V)
    (convertToRoutingKey : R → K) (routingKeyComp : K → K → Int) [LinearOrder K] [DecidableEq K] [ToString K]
    [DecidableEq C] (used : K → Prop) (compared : AgreesOn used routingKeyComp) {server : StorageService}
    {cluster : Cluster environment} {ns : RoutedNamespace K (Cluster environment)}
    {events : List (Routable.ClientEvent C R K)} {final : Routable.Clients C K (Cluster environment)}
    (created : (environment.routable convertToRoutingKey routingKeyComp).doCreate server
      ((environment.routable convertToRoutingKey routingKeyComp).unopened cluster) = .ok .unit ns)
    (ran : run (Routable.Clients.step (environment.routable convertToRoutingKey routingKeyComp)) (.created ns) events =
      some final)
    (careful : Along (Routable.Clients.step (environment.routable convertToRoutingKey routingKeyComp))
      (fun before event _ => before.Careful event ∧
        before.Admits (environment.partitions convertToRoutingKey routingKeyComp) used event)
      (.created ns) events) :
    (∀ client opened, final.table (environment.routable convertToRoutingKey routingKeyComp) client = some opened →
      ∃ table, opened = .ok table ∧
        Routable.Serving (environment.partitions convertToRoutingKey routingKeyComp) used final.ns table) ∧
      ∀ client table, (final.tables.readers client).Settled final.tables.writes →
        final.table (environment.routable convertToRoutingKey routingKeyComp) client = some (.ok table) →
          final.tables.writes.getLast? = some table.rTable := by
  have published := Routable.run_published compared created ran careful
  refine ⟨fun client opened found => ?_, fun client table settled found => published.settled_table settled found⟩
  obtain ⟨ranges, loaded, rfl⟩ := Option.map_eq_some_iff.mp found
  have valid := published.valid compared loaded
  exact ⟨_, valid.create, valid.serving⟩

def original : PartitionService := ⟨"localhost", 9000, .number 0, "test0000000000", testServer 0⟩

def opensNamespace (client : Bool) : List (Routable.ClientEvent Bool Nat Nat) :=
  [.reads client .start, .reads client (.read .caller), .reads client (.keep .caller)]

/-- Two clients open a namespace.  One replicates its partition, and the other one deletes
the original when that is done. -/
def replicateThenDelete : List (Routable.ClientEvent Bool Nat Nat) :=
  let reloads (client : Bool) : List (Routable.ClientEvent Bool Nat Nat) :=
    [.reads client .apply, .reads client .handle, .reads client (.read .handler), .reads client (.keep .handler)]
  opensNamespace true ++ opensNamespace false ++
    [.begins true (.replicatePartitions [(original, testServer 1)]) (.inserted _)] ++ reloads true ++ reloads false ++
    [.ends, .begins false (.deletePartitions [original]) (.inserted _)] ++ reloads true ++ reloads false ++ [.ends]

theorem clients_stay_served_replicated :
    ∃ ns final, rangeRouted.doCreate (testServer 0) (rangeRouted.unopened (testCluster Nat)) = .ok .unit ns ∧
      run (Routable.Clients.step rangeRouted) (.created ns) replicateThenDelete = some final ∧
      (∃ opened, final.table rangeRouted true = some opened) ∧
      ∀ opened, final.table rangeRouted true = some opened → ∃ table, opened = .ok table ∧
        Routable.Serving ((testEnvironment Nat).partitions id (Comparator.threeWay Nat).compare)
          (fun _ => True) final.ns
          table := by
  have evaluated : returns (fun _ ns =>
      decide (Along (Routable.Clients.step rangeRouted) (fun before event _ => before.Careful event) (.created ns)
        replicateThenDelete) &&
      (run (Routable.Clients.step rangeRouted) (.created ns) replicateThenDelete).any fun final =>
        (final.table rangeRouted true).isSome)
      (rangeRouted.doCreate (testServer 0) (rangeRouted.unopened (testCluster Nat))) = true := by decide +kernel
  obtain ⟨_, ns, created, held⟩ := exists_ok evaluated
  obtain ⟨careful, reached⟩ := Bool.and_eq_true_iff.mp held
  obtain ⟨final, ran, opened⟩ := (Option.any_eq_true _ _).mp reached
  refine ⟨ns, final, created, ran, Option.isSome_iff_exists.mp opened, fun opened found => ?_⟩
  exact ((testEnvironment Nat).clients_stay_served id (Comparator.threeWay Nat).compare (fun _ => True)
    (Comparator.threeWay Nat).agrees created ran (Routable.Clients.careful_admits (of_decide_eq_true careful))).1 true
      opened found

namespace Routable

variable {R K V : Type} {stored : LinearOrder K} {environment : Environment K V} {convertToRoutingKey : R → K}
  {routingKeyComp : K → K → Int} {ns next : RoutedNamespace K (Cluster environment)}

/-- Partitions that were deleted are not open afterwards. -/
theorem deletePartitionServices_closes {arrival : Iteration PartitionService} {partitions : List PartitionService}
    (known : ∀ partition ∈ partitions, partition ∈ ns.cluster.issued)
    (ran : (environment.routable convertToRoutingKey routingKeyComp).deletePartitionServices arrival partitions ns =
      .ok .unit next) :
    ∀ partition ∈ partitions, environment.registry.live next.cluster partition = none := by
  obtain ⟨_, _, logged, ran⟩ := bind_ok.mp ran
  cases logged
  obtain ⟨replies, _, awaited, returned⟩ := bind_ok.mp ran
  cases returned
  have handled : ∀ {others : List PartitionService} {replies : List Unit}
      {before after : RoutedNamespace K (Cluster environment)},
      (∀ partition ∈ others, partition ∈ before.cluster.issued) →
      (others.map fun partition => (onCluster (environment.servers.deletePartition partition) :
        Method K (Cluster environment) Unit)).mapM id before = .ok replies after →
      ∀ partition, partition ∈ others ∨ environment.registry.live before.cluster partition = none →
        environment.registry.live after.cluster partition = none := by
    intro others replies before after issued looped partition either
    induction others generalizing replies before with
    | nil =>
        cases looped
        exact either.resolve_left (by simp)
    | cons first rest ih =>
        rw [List.map_cons, List.mapM_cons] at looped
        obtain ⟨_, _, one, looped⟩ := bind_ok.mp looped
        obtain ⟨_, _, rest, same⟩ := bind_ok.mp looped
        cases same
        obtain ⟨cluster, deleted, rfl⟩ := onCluster_ok.mp one
        have there := issued first List.mem_cons_self
        refine ih (fun other member => ?_) rest ?_
        · exact ((environment.registry.deleted there deleted).1 other).mpr (issued other (by simp [member]))
        · rcases either with member | closed
          · rcases List.mem_cons.mp member with rfl | later
            · exact .inr (live_deleted there deleted)
            · exact .inl later
          · refine .inr (Option.eq_none_iff_forall_ne_some.mpr fun bounds live => ?_)
            rw [live_of_deleted there deleted live] at closed
            cases closed
  have looped := awaitAll_ok awaited
  intro partition member
  refine handled (fun other among => ?_) looped partition (.inl ((arrival.perm partitions).mem_iff.mpr member))
  exact known other ((arrival.perm partitions).mem_iff.mp among)

/-- None of the partitions that the table names for a key is open. -/
def Stranded (registry : Registry (environment.routable convertToRoutingKey routingKeyComp).servers)
    [LinearOrder K] (used : K → Prop) (ns : RoutedNamespace K (Cluster environment)) (routingTable : RoutingTable K) :
    Prop :=
  ∀ key, used (convertToRoutingKey key) →
    ∃ servers, (environment.routable convertToRoutingKey routingKeyComp).serversForKey { ns with routingTable } key =
        .ok servers ∧ servers ≠ [] ∧
      ∀ partition ∈ servers, registry.live ns.cluster partition = none

/-- A scheme makes new partitions, and its last step deletes those that the table had. -/
theorem untilStored_scheme {scheme : List (Option K × List StorageService)} [DecidableEq K] [ToString K]
    {arrival : Iteration PartitionService} {rest : Method K (Cluster environment) Unit}
    (ran : (environment.routable convertToRoutingKey routingKeyComp).untilStored arrival
      (.setPartitionScheme scheme) ns =
      .ok rest next) :
    rest = (environment.routable convertToRoutingKey routingKeyComp).deletePartitionServices arrival
        (ns.routingTable.rTable.flatMap RangeType.values).eraseDups ∧
      Untouched (environment.partitions convertToRoutingKey routingKeyComp) ns next := by
  obtain ⟨_, _, nonempty, ran⟩ := bind_ok.mp ran
  obtain ⟨_, rfl⟩ := ofExcept_ok.mp nonempty
  obtain ⟨_, _, first, ran⟩ := bind_ok.mp ran
  obtain ⟨_, rfl⟩ := ofExcept_ok.mp first
  obtain ⟨_, _, got, ran⟩ := bind_ok.mp ran
  cases got
  obtain ⟨rTable, last, created, ran⟩ := bind_ok.mp ran
  obtain ⟨_, edited, replaced, ran⟩ := bind_ok.mp ran
  obtain ⟨table, _, checked, set⟩ := bind_ok.mp replaced
  obtain ⟨_, rfl⟩ := ofExcept_ok.mp checked
  cases set
  obtain ⟨_, _, stored, returned⟩ := bind_ok.mp ran
  cases returned
  obtain ⟨rfl, _⟩ := (storeRoutingTable_ok (environment.partitions convertToRoutingKey routingKeyComp)).mp stored
  have untouched := createScheme_untouched (environment.partitions convertToRoutingKey routingKeyComp) created
  exact ⟨rfl, untouched⟩

end Routable

/-- `setPartitionScheme` deletes the partitions of the old table without waiting.  When it
returns, a client that has not loaded the new table finds no open partition for any key in use. -/
theorem Environment.scheme_strands_clients {C R K V : Type} {stored : LinearOrder K} (environment : Environment K V)
    (convertToRoutingKey : R → K) (routingKeyComp : K → K → Int) [LinearOrder K] [DecidableEq K] [ToString K]
    [DecidableEq C] (used : K → Prop) (compared : AgreesOn used routingKeyComp) {server : StorageService}
    {cluster : Cluster environment} {ns : RoutedNamespace K (Cluster environment)}
    {events : List (Routable.ClientEvent C R K)} {before final : Routable.Clients C K (Cluster environment)}
    (created : (environment.routable convertToRoutingKey routingKeyComp).doCreate server
      ((environment.routable convertToRoutingKey routingKeyComp).unopened cluster) = .ok .unit ns)
    (ran : run (Routable.Clients.step (environment.routable convertToRoutingKey routingKeyComp)) (.created ns) events =
      some before)
    (careful : Along (Routable.Clients.step (environment.routable convertToRoutingKey routingKeyComp))
      (fun before event _ => before.Careful event ∧
        before.Admits (environment.partitions convertToRoutingKey routingKeyComp) used event)
      (.created ns) events)
    {actor : C} {scheme : List (Option K × List StorageService)} {arrival : Iteration PartitionService}
    {reads : List (C × ReaderEvent)}
    (called : run (Routable.Clients.step (environment.routable convertToRoutingKey routingKeyComp)) before
      (.begins actor (.setPartitionScheme scheme) arrival :: reads.map (fun pair => .reads pair.1 pair.2) ++ [.ends]) =
        some final)
    {client : C} {table : RoutingTable K}
    (unloaded : final.table (environment.routable convertToRoutingKey routingKeyComp) client =
      before.table (environment.routable convertToRoutingKey routingKeyComp) client)
    (opened : final.table (environment.routable convertToRoutingKey routingKeyComp) client = some (.ok table)) :
    Routable.Stranded (environment.partitions convertToRoutingKey routingKeyComp) used final.ns table := by
  have published := Routable.run_published compared created ran careful
  obtain ⟨stored, taken, called⟩ := run_cons called
  obtain ⟨finished, routingTable, rest, next, own, made, rfl⟩ := Routable.step_begins taken
  obtain ⟨waiting, loaded, ended⟩ := run_snoc.mp called
  -- loads of the clients leave the servers and the call alone
  have same := @run_invariant _ _ (Routable.Clients.step (environment.routable convertToRoutingKey routingKeyComp))
    (fun event : Routable.ClientEvent C R K => ∃ client read, event = .reads client read)
    (fun clients => clients.ns = next ∧ clients.rest = some rest) _ _ _ ?_ loaded ?_ ⟨rfl, rfl⟩
  · obtain ⟨rest, last, calling, returned, rfl⟩ := Routable.step_ends ended
    rw [same.2] at calling
    cases calling
    rw [same.1] at returned
    obtain ⟨mine, found, built⟩ := Option.map_eq_some_iff.mp own
    have valid := published.valid compared found
    obtain rfl := published.idle finished found
    rw [valid.create] at built
    cases built
    obtain ⟨rfl, untouched⟩ := Routable.untilStored_scheme made
    have issued : ∀ partition ∈ (before.ns.routingTable.rTable.flatMap RangeType.values).eraseDups,
        partition ∈ next.cluster.issued := by
      intro partition member
      obtain ⟨range, among, listed⟩ := List.mem_flatMap.mp (List.mem_eraseDups.mp member)
      exact (untouched partition (valid.issued range among partition listed)).1
    have closed := Routable.deletePartitionServices_closes issued returned
    rw [unloaded] at opened
    obtain ⟨theirs, also, same⟩ := Option.map_eq_some_iff.mp opened
    obtain rfl := published.idle finished also
    rw [valid.create] at same
    cases same
    intro key given
    obtain ⟨front, range, back, located, routes⟩ := valid.serversForKey last given
    have member : range ∈ before.ns.routingTable.rTable := by
      rw [show before.ns.routingTable.rTable = front ++ range :: back from located.split]
      simp
    refine ⟨range.values, routes, (valid.populated range member).1, fun partition listed => closed partition ?_⟩
    exact List.mem_eraseDups.mpr (List.mem_flatMap.mpr ⟨range, member, listed⟩)
  · intro before event after quiet held moved
    obtain ⟨client, read, rfl⟩ := quiet
    obtain ⟨tables, _, rfl⟩ := Routable.step_reads moved
    exact held
  · intro event member
    obtain ⟨pair, _, rfl⟩ := List.mem_map.mp member
    exact ⟨_, _, rfl⟩

/-- The other client still has the table of the one partition that is gone. -/
theorem scheme_strands_clients_unloaded :
    ∃ ns before final table,
      rangeRouted.doCreate (testServer 0) (rangeRouted.unopened (testCluster Nat)) = .ok .unit ns ∧
      run (Routable.Clients.step rangeRouted) (.created ns) (opensNamespace true ++ opensNamespace false) =
        some before ∧
      run (Routable.Clients.step rangeRouted) before (.begins true
        (.setPartitionScheme [(none, [testServer 1]), (some 5, [testServer 2])]) (.inserted _) ::
          [(true, .apply)].map (fun pair => .reads pair.1 pair.2) ++ [.ends]) = some final ∧
      final.table rangeRouted false = some (.ok table) ∧
      Routable.Stranded ((testEnvironment Nat).partitions id (Comparator.threeWay Nat).compare) (fun _ => True) final.ns
        table := by
  have evaluated : returns (fun _ ns =>
      decide (Along (Routable.Clients.step rangeRouted) (fun before event _ => before.Careful event) (.created ns)
        (opensNamespace true ++ opensNamespace false)) &&
      (run (Routable.Clients.step rangeRouted) (.created ns) (opensNamespace true ++ opensNamespace false)).any
        fun before => (run (Routable.Clients.step rangeRouted) before (.begins true
          (.setPartitionScheme [(none, [testServer 1]), (some 5, [testServer 2])]) (.inserted _) ::
            [(true, .apply)].map (fun pair => .reads pair.1 pair.2) ++ [.ends])).any fun final =>
          decide ((final.tables.readers false).copy = (before.tables.readers false).copy) &&
            ((final.table rangeRouted false).any fun opened => opened.isOk))
      (rangeRouted.doCreate (testServer 0) (rangeRouted.unopened (testCluster Nat))) = true := by decide +kernel
  obtain ⟨_, ns, created, held⟩ := exists_ok evaluated
  obtain ⟨careful, reached⟩ := Bool.and_eq_true_iff.mp held
  obtain ⟨before, ran, reached⟩ := (Option.any_eq_true _ _).mp reached
  obtain ⟨final, called, reached⟩ := (Option.any_eq_true _ _).mp reached
  obtain ⟨unloaded, reached⟩ := Bool.and_eq_true_iff.mp reached
  obtain ⟨opened, found, loaded⟩ := (Option.any_eq_true _ _).mp reached
  cases opened with
  | error failure => cases loaded
  | ok table =>
      refine ⟨ns, before, final, table, created, ran, called, found, ?_⟩
      refine (testEnvironment Nat).scheme_strands_clients id (Comparator.threeWay Nat).compare (fun _ => True)
        (Comparator.threeWay Nat).agrees created ran
          (Routable.Clients.careful_admits (of_decide_eq_true careful)) called
        ?_ found
      rw [Routable.Clients.table, of_decide_eq_true unloaded]
      rfl

end Scads.Client
