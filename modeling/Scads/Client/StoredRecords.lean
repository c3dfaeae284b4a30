import Scads.Client.DataCopies
import Scads.Client.PlacedReplicas

namespace Scads.Client

open Scads.Data Scads.Comm Scads.Server Scads.Util RangeTable BdbStorageManager

/-! # Where the records of a namespace are

Each record is on the servers that the routing table names for its key, through every run
of splits, merges, replications and deletions.
-/

section

variable {K V : Type} {order : LinearOrder K} {environment : Environment K V}

/-- The iterators that copies read with are those of these settings. -/
def Environment.Iterates (environment : Environment K V) (settings : CopySettings) : Prop :=
  ∀ source startKey endKey records, environment.copyIterator source startKey endKey = .ok records →
    ∃ src : CopySource K V, source = some src.database ∧
      Settles (copyIteratorCtor settings src startKey endKey).drain
        (.ok (records.map fun entry => ⟨entry.1, some entry.2⟩))

theorem records_injective :
    Function.Injective (List.map fun entry : K × V => (⟨entry.1, some entry.2⟩ : Record K V)) := by
  refine List.map_injective_iff.mpr fun entry other same => ?_
  cases entry
  cases other
  cases same
  rfl

/-- The keys that a copy reads for a range: those up to its end and with it, or all of them. -/
def Reads (order : LinearOrder K) (settings : CopySettings) (bounds : Option K × Option K) (key : K) :
    Prop :=
  UsesCursor settings ∨ Database.InRange bounds.1 bounds.2 key = true

theorem Environment.Iterates.reads {settings : CopySettings} (iterates : environment.Iterates settings)
    {source : Option (Database K V)} {startKey endKey : Option K} {records : List (K × V)}
    (iterated : environment.copyIterator source startKey endKey = .ok records) :
    ∃ database, source = some database ∧
      ∀ entry, entry ∈ records ↔ entry ∈ database.entries ∧ Reads order settings (startKey, endKey) entry.1 := by
  obtain ⟨src, rfl, read⟩ := iterates source startKey endKey records iterated
  refine ⟨src.database, rfl, fun entry => ?_⟩
  have positive : 0 < copyRecsPerMessage settings := by
    by_contra few
    cases (drain_refused few).unique read
  by_cases cursor : UsesCursor settings
  · have nonempty : src.database.entries ≠ [] := by
      intro empty
      rw [copyIteratorCtor_cursor cursor] at read
      cases (FutureBasedIterator.drain_fails positive rfl
        (@CursorBasedPartitionIterator.first_page_fails _ _ _ src.database src.thrown startKey endKey _ positive empty
          src.cursors)).unique read
    have scanned := scanned_drain src.database src.thrown src.cursors startKey endKey positive nonempty
    rw [← copyIteratorCtor_cursor cursor] at scanned
    have same := records_injective (Except.ok.inj (scanned.unique read))
    rw [← same]
    exact (and_iff_left (.inl cursor)).symm
  · have paged := paged_drain src.database startKey endKey positive
    rw [← copyIteratorCtor_paged cursor] at paged
    have same := records_injective (Except.ok.inj (paged.unique read))
    rw [← same, List.mem_filter]
    exact and_congr_right fun _ => (or_iff_right cursor).symm

/-- Both iterators read every record of the range, and nothing that is not there. -/
theorem Environment.Iterates.copiesRange {settings : CopySettings} (iterates : environment.Iterates settings) :
    environment.CopiesRange := by
  intro source startKey endKey records iterated
  obtain ⟨database, rfl, reads⟩ := iterates.reads iterated
  refine ⟨database, rfl, fun entry member => ((reads entry).mp member).1, fun entry member inside => ?_⟩
  obtain ⟨above, below⟩ := Bool.and_eq_true_iff.mp inside
  exact (reads entry).mpr ⟨member, .inr (Database.inRange_of_lt above below)⟩

end

namespace Routable

section

variable {R K σ : Type} [LinearOrder K] [ToString K] {routable : Routable R K σ}
  {registry : Registry routable.servers} {used : K → Prop} {ns : RoutedNamespace K σ}

omit [LinearOrder K] [ToString K] in
def serversForKey (routable : Routable R K σ) (ns : RoutedNamespace K σ) (key : R) :
    Except Failure (List PartitionService) :=
  ns.routingTable.valuesForKey (some (routable.convertToRoutingKey key))

omit [ToString K] in
/-- The servers of a key are those of the range that its routing key is in. -/
theorem Routed.serversForKey (routed : Routed registry used ns) {key : R}
    (given : used (routable.convertToRoutingKey key)) :
    ∃ before range after, ns.routingTable.At (some (routable.convertToRoutingKey key)) before range after ∧
      routable.serversForKey ns key = .ok range.values := by
  obtain ⟨before, range, after, located⟩ := routed.arranged.exists_at (some (routable.convertToRoutingKey key))
  have found := routed.arranged.found (fun _ same => Option.some.inj same ▸ given) located
  refine ⟨before, range, after, located, ?_⟩
  rw [Routable.serversForKey, valuesForKey, idxForKey_found found, located.split]
  simp

end

variable {K V : Type} {stored : LinearOrder K} {environment : Environment K V} [routing : LinearOrder K]
  {convertToRoutingKey : K → K} {routingKeyComp : K → K → Int} {used : K → Prop} {all : K → Option V}
  {ns next : RoutedNamespace K (Cluster environment)}

/-- A record can be read from each of the servers of its key, and there is one. -/
def Readable (convertToRoutingKey : K → K) (routingKeyComp : K → K → Int) (used : K → Prop) (all : K → Option V)
    (ns : RoutedNamespace K (Cluster environment)) : Prop :=
  ∀ key value, used (convertToRoutingKey key) → all key = some value →
    ∃ servers, (environment.routable convertToRoutingKey routingKeyComp).serversForKey ns key = .ok servers ∧
      servers ≠ [] ∧ ∀ partition ∈ servers, ns.cluster.Stores partition.storageService key value

theorem Placement.readable (placement : Placement convertToRoutingKey routingKeyComp used all ns)
    (populated : Populated ns.routingTable) : Readable convertToRoutingKey routingKeyComp used all ns := by
  intro key value given present
  obtain ⟨before, range, after, located, routes⟩ := @Routed.serversForKey _ _ _ _ _ _ _ _ placement.routed key given
  change ns.routingTable.At (some (convertToRoutingKey key)) before range after at located
  have member : range ∈ ns.routingTable.rTable := by simp [located.split]
  refine ⟨range.values, routes, (populated range member).1, fun partition listed => ?_⟩
  have aligned := placement.routed.aligned
  rw [located.split, aligned_append] at aligned
  exact placement.holds partition _ key value ⟨range, member, listed⟩ (aligned.2.1 partition listed)
    (contains_of_located located) present

end Routable

variable {K V : Type} {stored : LinearOrder K}

/-- A namespace whose partitions store all records and whose calls are sound keeps each record
readable on all servers of its key, and never asks for a deletion that fails an assertion. -/
theorem Environment.records_stay_readable (environment : Environment K V) [routing : LinearOrder K] [DecidableEq K]
    [ToString K] (convertToRoutingKey : K → K) (routingKeyComp : K → K → Int) (used : K → Prop) (all : K → Option V)
    (settings : CopySettings) (persistent : environment.Persistent) (iterates : environment.Iterates settings)
    (compared : AgreesOn used routingKeyComp) (alike : Alike routing stored used)
    {partitions : List PartitionService} {cluster : Cluster environment} (given : partitions ≠ [])
    (once : partitions.Nodup) (hosted : ∀ partition ∈ partitions, cluster.Hosts partition (none, none))
    (stocked : Stocked all cluster)
    (whole : ∀ partition ∈ partitions, ∀ key value, all key = some value →
      cluster.Stores partition.storageService key value)
    {calls : List (Routable.Call K K × Iteration PartitionService)} {next : RoutedNamespace K (Cluster environment)}
    (ran : run (environment.routable convertToRoutingKey routingKeyComp).step (cluster.whole routingKeyComp partitions)
      calls = some next)
    (careful : Along (environment.routable convertToRoutingKey routingKeyComp).step (fun before called _ =>
        Routable.Admitted (environment.partitions convertToRoutingKey routingKeyComp) used before called.1 ∧
          Routable.Sound convertToRoutingKey all before called.1)
      (cluster.whole routingKeyComp partitions) calls) :
    Routable.Readable convertToRoutingKey routingKeyComp used all next ∧ next.cluster.DeletesSafely ∧
      ∀ made edited, Routable.Admitted (environment.partitions convertToRoutingKey routingKeyComp) used next made →
        Routable.Sound convertToRoutingKey all next made →
          (environment.routable convertToRoutingKey routingKeyComp).edit made next = .ok .unit edited →
            edited.cluster.DeletesSafely := by
  have reads := iterates.copiesRange
  have start : Routable.Populated (cluster.whole routingKeyComp partitions).routingTable := by
    intro range member
    rw [List.mem_singleton.mp member]
    exact ⟨given, once⟩
  have kept := @along_invariant _ _ _ _
    (fun ns => Routable.Placement convertToRoutingKey routingKeyComp used all ns ∧ Routable.Populated ns.routingTable)
    _ _ _ ?_ ⟨Routable.whole_placed compared hosted stocked whole, start⟩ careful ran
  · obtain ⟨placement, populated⟩ := kept
    exact ⟨placement.readable populated, placement.filled.stocked.deletesSafely,
      fun made edited admitted sound changed =>
        (Routable.edit_stocked persistent alike placement admitted sound changed).deletesSafely⟩
  · intro before called after held taken allowed
    exact ⟨Routable.step_placed persistent reads alike held.1 taken allowed.1 allowed.2,
      Routable.step_populated (environment.partitions convertToRoutingKey routingKeyComp) held.2 allowed.2.serves taken⟩

/-- The records of the filled server. -/
def filledRecords (key : Nat) : Option Nat :=
  if key = 3 then some 30 else if key = 7 then some 70 else none

theorem filledCluster_handlers {server : StorageService} (other : server ≠ testServer 0) :
    filledCluster.handlers server = .empty := by
  change Function.update (fun _ => StorageHandler.empty) (testServer 0) filledHandler server = _
  rw [Function.update_of_ne other]

theorem filledCluster_stocked : Stocked filledRecords filledCluster := by
  constructor
  · intro server that contained
    by_cases same : server = testServer 0
    · subst same
      cases List.mem_singleton.mp (show that ∈ [("test0000000000", ⟨.bdb, "test", none, none⟩)] from contained)
      exact ⟨rfl, by simp [PartitionHandler.span, Span.Proper]⟩
    · rw [Cluster.context, filledCluster_handlers same] at contained
      cases contained
  · intro server key value stores
    by_cases same : server = testServer 0
    · subst same
      have either : (key, value) ∈ [(3, 30), (7, 70)] := stores
      rcases List.mem_pair.mp either with equal | equal
      · cases equal
        rfl
      · cases equal
        rfl
    · rw [Cluster.Stores, Cluster.records, filledCluster_handlers same] at stores
      cases stores

theorem filledPartition_whole (key value : Nat) (present : filledRecords key = some value) :
    filledCluster.Stores filledPartition.storageService key value := by
  change (key, value) ∈ [(3, 30), (7, 70)]
  rw [filledRecords] at present
  split at present
  · rename_i same
    cases present
    simp [same]
  · split at present
    · rename_i same
      cases present
      simp [same]
    · cases present

/-- An iterator over the records of a range does what the paged one does. -/
theorem iterates_of_range {environment : Environment K V}
    (reads : ∀ source startKey endKey records, environment.copyIterator source startKey endKey = .ok records →
      ∃ database, source = some database ∧
        records = database.iterateOverRange startKey endKey none none true true) :
    environment.Iterates ⟨none, none⟩ := by
  intro source startKey endKey records iterated
  obtain ⟨database, rfl, rfl⟩ := reads source startKey endKey records iterated
  refine ⟨⟨database, ⟨0, ∅⟩, ⟨"", ""⟩⟩, rfl, ?_⟩
  have read : database.getRange startKey endKey none none true = database.recordsWithin startKey endKey :=
    database.getRange_eq startKey endKey none none true
  have paged := paged_drain database startKey endKey (show 0 < copyRecsPerMessage ⟨none, none⟩ by decide)
  rw [← read] at paged
  exact paged

theorem testEnvironment_iterates : (testEnvironment Nat).Iterates ⟨none, none⟩ := by
  refine iterates_of_range fun source startKey endKey records iterated => ?_
  cases source with
  | none => cases iterated
  | some database =>
      cases iterated
      exact ⟨database, rfl, rfl⟩

theorem records_stay_readable_filled : ∃ next,
    run rangeRouted.step (filledCluster.whole (Comparator.threeWay Nat).compare [filledPartition])
        [(.splitPartition [5], .inserted _)] = some next ∧
      Routable.Readable id (Comparator.threeWay Nat).compare (fun _ => True) filledRecords next := by
  obtain ⟨next, returned⟩ := splitPartition_filled
  have taken : run rangeRouted.step (filledCluster.whole (Comparator.threeWay Nat).compare [filledPartition])
      [(.splitPartition [5], .inserted _)] = some next := by
    simp only [Cluster.whole, run, Routable.step, Routable.call, returned]
  refine ⟨next, taken, ?_⟩
  have readable := (testEnvironment Nat).records_stay_readable id (Comparator.threeWay Nat).compare (fun _ => True)
    filledRecords ⟨none, none⟩ rfl testEnvironment_iterates (Comparator.threeWay Nat).agrees
    (fun _ _ _ _ proper => proper) (List.cons_ne_nil filledPartition []) (List.nodup_singleton _)
    (List.forall_mem_singleton.mpr filledPartition_hosted) filledCluster_stocked
    (List.forall_mem_singleton.mpr filledPartition_whole) taken
    (along_of_forall fun called member _ _ => ?_)
  · exact readable.1
  · cases List.mem_singleton.mp member
    exact ⟨fun _ _ => trivial, trivial⟩

end Scads.Client
