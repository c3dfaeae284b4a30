import Scads.Client.CallInvariants
import Scads.Client.OpenPartitions
import Scads.Client.TidyServers

namespace Scads.Client

open Scads.Data Scads.Comm Scads.Server Scads.Util RangeTable Routable BdbStorageManager

/-! # Namespaces that stand for a map

Each server of a key has its value, and no other server has one.  The calls, the puts and the
restarts of servers keep this.
-/

section

variable {K V : Type} [order : LinearOrder K]

/-- A namespace that is routed by its keys. -/
abbrev Environment.ranged (environment : Environment K V) (routingKeyComp : K → K → Int) :
    Routable K K (Cluster environment) :=
  environment.routable id routingKeyComp

end

namespace Routable

variable {K V : Type} [order : LinearOrder K] {environment : Environment K V} {routingKeyComp : K → K → Int}
  {used : K → Prop} {all : K → Option V} {ns next : RoutedNamespace K (Cluster environment)}
  {before after : List (RangeType K PartitionService)} {range : RangeType K PartitionService}

/-- The range whose bounds have a key is the one that is found for it. -/
theorem located_of_within {table : RoutingTable K} {key : K} (arranged : table.Arranged used)
    (split : table.rTable = before ++ range :: after)
    (inside : Within order (range.startKey, startOr none after) key) : table.At (some key) before range after := by
  obtain ⟨above, below⟩ := Bool.and_eq_true_iff.mp inside
  have ascending := arranged.ascending
  rw [split, Ascending, List.map_append, List.map_cons, List.pairwise_append, List.pairwise_cons] at ascending
  obtain ⟨-, ⟨later, increasing⟩, -⟩ := ascending
  refine ⟨split, ?_, fun other member => ?_⟩
  · rw [RangeType.start]
    cases starts : range.startKey with
    | none => exact bot_le
    | some low =>
        rw [starts] at above
        exact WithBot.coe_le_coe.mpr (by simpa using above)
  · cases after with
    | nil => cases member
    | cons following rest =>
        have greater := later following.start List.mem_cons_self
        have beyond : onLine (some key) < following.start := by
          rw [RangeType.start]
          cases starts : following.startKey with
          | none =>
              rw [show following.start = ⊥ from congrArg onLine starts] at greater
              exact absurd greater not_lt_bot
          | some high =>
              rw [startOr, starts] at below
              exact WithBot.coe_lt_coe.mpr (by simpa using below)
        rcases List.mem_cons.mp member with rfl | last
        · exact beyond
        · rw [List.map_cons, List.pairwise_cons] at increasing
          exact beyond.trans (increasing.1 _ (List.mem_map_of_mem last))

/-- The state of a namespace that stands for a map. -/
structure Mapped (routingKeyComp : K → K → Int) (used : K → Prop) (all : K → Option V)
    (ns : RoutedNamespace K (Cluster environment)) : Prop where
  placement : Placement id routingKeyComp used all ns
  populated : Populated ns.routingTable
  accounted : Accounted (environment.partitions id routingKeyComp) [] ns
  tidy : ns.cluster.Tidy

theorem Placement.hosts (placement : Placement id routingKeyComp used all ns)
    (split : ns.routingTable.rTable = before ++ range :: after) {partition : PartitionService}
    (listed : partition ∈ range.values) : Created ns partition (range.startKey, startOr none after) ∧
      ns.cluster.Hosts partition (range.startKey, startOr none after) := by
  have aligned := placement.routed.aligned
  rw [split, aligned_append] at aligned
  have created := aligned.2.1 partition listed
  have member : range ∈ ns.routingTable.rTable := by simp [split]
  exact ⟨created, placement.filled.hosted partition _ created (placement.routed.listed range member partition listed).1⟩

/-- The servers of a key are those of its range. -/
theorem Mapped.servers (mapped : Mapped routingKeyComp used all ns) {key : K} (given : used key) :
    ∃ before range after, ns.routingTable.At (some key) before range after ∧
      (environment.ranged routingKeyComp).serversForKey ns key = .ok range.values ∧ range.values ≠ [] := by
  obtain ⟨before, range, after, located, routes⟩ :=
    @Routed.serversForKey _ _ _ _ _ _ _ _ mapped.placement.routed key given
  exact ⟨before, range, after, located, routes, (mapped.populated range (by simp [located.split])).1⟩

/-- What is listed for a range that has the key is among the servers of the key. -/
theorem Routed.among (routed : Routed (environment.partitions id routingKeyComp) used ns) {key : K}
    {partition : PartitionService} {bounds : Option K × Option K}
    (located : ns.routingTable.At (some key) before range after) (listed : Listed ns partition)
    (created : Created ns partition bounds) (inside : Within order bounds key) : partition ∈ range.values := by
  obtain ⟨other, member, known⟩ := listed
  obtain ⟨front, back, split⟩ := List.append_of_mem member
  have aligned := routed.aligned
  rw [split, aligned_append] at aligned
  rw [routed.bounds_unique ⟨other, member, known⟩ created (aligned.2.1 partition known)] at inside
  obtain ⟨-, rfl, -⟩ := (located_of_within routed.arranged split inside).unique located
  exact known

/-- Only the servers of a key store a record for it. -/
theorem Mapped.stored (mapped : Mapped routingKeyComp used all ns) {key : K} {value : V} {server : StorageService}
    (located : ns.routingTable.At (some key) before range after) (stored : ns.cluster.Stores server key value) :
    ∃ partition ∈ range.values, partition.storageService = server := by
  obtain ⟨partition, bounds, live, place, inside⟩ := mapped.tidy.live stored
  obtain ⟨other, member, listed⟩ := (mapped.accounted partition bounds live).resolve_right (by simp)
  obtain ⟨front, back, split⟩ := List.append_of_mem member
  have opened := (mapped.placement.hosts split listed).2.live
  rw [live] at opened
  cases opened
  obtain ⟨-, rfl, -⟩ := (located_of_within mapped.placement.routed.arranged split inside).unique located
  exact ⟨partition, listed, place⟩

/-- Each server of a key has its value, and no other server has one. -/
theorem Mapped.stores_iff (mapped : Mapped routingKeyComp used all ns) {key : K} {value : V} {server : StorageService}
    (located : ns.routingTable.At (some key) before range after) :
    ns.cluster.Stores server key value ↔
      all key = some value ∧ ∃ partition ∈ range.values, partition.storageService = server := by
  constructor
  · exact fun stored => ⟨mapped.placement.filled.stocked.contents _ _ _ stored, mapped.stored located stored⟩
  · intro found
    obtain ⟨present, partition, listed, rfl⟩ := found
    have created := (mapped.placement.hosts located.split listed).1
    exact mapped.placement.holds partition _ key value ⟨range, by simp [located.split], listed⟩ created
      (contains_of_located located) present

/-- A put has reached these partitions. -/
structure Written (servers : List PartitionService) (key : K) (value : Option V)
    (cluster after : Cluster environment) : Prop where
  tidy : after.Tidy
  issued : after.issued = cluster.issued
  opened : after.opened = cluster.opened
  contexts : after.context = cluster.context
  stores : ∀ place other found, after.Stores place other found ↔
    if (∃ partition ∈ servers, partition.storageService = place) ∧ other = key then value = some found
    else cluster.Stores place other found

theorem Written.hosts {servers : List PartitionService} {key : K} {value : Option V}
    {cluster last : Cluster environment}
    (written : Written servers key value cluster last) {partition : PartitionService} {bounds : Option K × Option K}
    (hosts : cluster.Hosts partition bounds) : last.Hosts partition bounds := by
  refine ⟨?_, ?_, ?_⟩
  · rw [written.issued]
    exact hosts.issued
  · rw [written.opened]
    exact hosts.opened
  · have contained : _ ∈ cluster.context partition.storageService := hosts.contained
    rw [← written.contexts] at contained
    exact contained

theorem puts_ran (persistent : environment.Persistent) {servers : List PartitionService} {key : K} {value : Option V}
    (hosted : ∀ partition ∈ servers, ∃ bounds, ns.cluster.Hosts partition bounds ∧ Within order bounds key)
    (tidy : ns.cluster.Tidy) :
    ∃ cluster, (servers.mapM fun partition =>
        (onCluster (environment.request none partition (.putRequest ⟨key, value⟩)) : Method K _ _)) ns =
        .ok (servers.map fun _ => some .putResponse) { ns with cluster } ∧
      Written servers key value ns.cluster cluster := by
  induction servers generalizing ns with
  | nil => exact ⟨ns.cluster, rfl, tidy, rfl, rfl, rfl, by simp⟩
  | cons partition rest ih =>
      obtain ⟨bounds, hosts, inside⟩ := hosted partition List.mem_cons_self
      obtain ⟨middle, requested, rewritten, stores⟩ := request_put persistent tidy.toDurable hosts key value
      have still : middle.Tidy := by
        refine rewritten.tidy tidy fun other found stored => ?_
        rw [stores] at stored
        split at stored
        · rename_i same
          rw [same.2]
          exact .inr ⟨_, hosts.contained, inside⟩
        · exact .inl stored
      obtain ⟨last, requests, written⟩ := @ih { ns with cluster := middle } (fun other member => by
        obtain ⟨own, opened, within⟩ := hosted other (List.mem_cons_of_mem _ member)
        exact ⟨own, rewritten.hosts opened, within⟩) still
      refine ⟨last, ?_, written.tidy, written.issued.trans rewritten.issued, written.opened.trans rewritten.opened,
        ?_, fun place other found => ?_⟩
      · rw [List.mapM_cons]
        exact bind_ok.mpr ⟨_, _, onCluster_ok.mpr ⟨middle, requested, rfl⟩, bind_ok.mpr ⟨_, _, requests, rfl⟩⟩
      · rw [written.contexts]
        funext place
        exact congrFun (rewritten.contexts place) environment.ns
      · rw [written.stores, stores]
        by_cases same : other = key
        · by_cases later : ∃ partition ∈ rest, partition.storageService = place
          · have among : ∃ other ∈ partition :: rest, other.storageService = place := by
              obtain ⟨server, member, home⟩ := later
              exact ⟨server, List.mem_cons_of_mem _ member, home⟩
            rw [if_pos ⟨later, same⟩, if_pos ⟨among, same⟩]
          · rw [if_neg fun both => later both.1]
            by_cases first : place = partition.storageService
            · rw [if_pos ⟨first, same⟩, if_pos ⟨⟨partition, List.mem_cons_self, first.symm⟩, same⟩]
            · rw [if_neg fun both => first both.1, if_neg fun both => ?_]
              obtain ⟨server, member, home⟩ := both.1
              rcases List.mem_cons.mp member with rfl | member
              · exact first home.symm
              · exact later ⟨server, member, home⟩
        · rw [if_neg fun both => same both.2, if_neg fun both => same both.2, if_neg fun both => same both.2]

theorem Routed.recluster {cluster : Cluster environment}
    (routed : Routed (environment.partitions id routingKeyComp) used ns) (issued : cluster.issued = ns.cluster.issued)
    (opened : cluster.opened = ns.cluster.opened) :
    Routed (environment.partitions id routingKeyComp) used { ns with cluster } := by
  have shrunk : Shrunk (environment.partitions id routingKeyComp) [] ns { ns with cluster } := by
    refine ⟨rfl, rfl, (List.append_nil _).symm, fun other => ?_, fun other _ => ?_⟩
    · change other ∈ cluster.issued ↔ other ∈ ns.cluster.issued
      rw [issued]
    · change (cluster.opened other).map _ = (ns.cluster.opened other).map _
      rw [opened]
  exact routed.shrunk (by simp) shrunk

theorem Written.mapped {key : K} {value : Option V} {cluster : Cluster environment}
    (mapped : Mapped routingKeyComp used all ns) (located : ns.routingTable.At (some key) before range after)
    (written : Written range.values key value ns.cluster cluster) :
    Mapped routingKeyComp used (Function.update all key value) { ns with cluster } := by
  have placement := mapped.placement
  refine ⟨⟨placement.routed.recluster written.issued written.opened, ⟨⟨fun place that among => ?_, ?_⟩, ?_⟩,
    placement.merging, ?_⟩, mapped.populated, ?_, written.tidy⟩
  · rw [written.contexts] at among
    exact placement.filled.stocked.shared place that among
  · intro place other found stored
    rw [written.stores] at stored
    split at stored
    · rename_i same
      rw [same.2, Function.update_self]
      exact stored
    · rename_i different
      have elsewhere : other ≠ key := by
        intro same
        subst same
        exact different ⟨mapped.stored located stored, rfl⟩
      rw [Function.update_of_ne elsewhere]
      exact placement.filled.stocked.contents place other found stored
  · exact fun partition bounds created unsent => written.hosts (placement.filled.hosted partition bounds created unsent)
  · intro partition bounds other found known created inside present
    rw [written.stores]
    by_cases same : other = key
    · subst same
      rw [if_pos ⟨⟨partition, placement.routed.among located known created inside, rfl⟩, rfl⟩]
      rwa [Function.update_self] at present
    · rw [if_neg fun both => same both.2]
      rw [Function.update_of_ne same] at present
      exact placement.holds partition bounds other found known created inside present
  · intro partition bounds live
    refine mapped.accounted partition bounds ?_
    change (cluster.opened partition).map _ = _ at live
    rw [written.opened] at live
    exact live

theorem restart_mapped {zookeeper : String → Option NamespaceRoot} {server : StorageService}
    {cluster : Cluster environment} (mapped : Mapped routingKeyComp used all ns)
    (restarted : environment.restart zookeeper server ns.cluster = .ok () cluster) :
    Mapped routingKeyComp used all { ns with cluster } := by
  have back := restart_restarted mapped.tidy restarted
  have placement := mapped.placement
  refine ⟨⟨placement.routed.recluster back.issued back.opened, ⟨⟨fun place that among => ?_, ?_⟩, ?_⟩,
    placement.merging, ?_⟩, mapped.populated, ?_, back.tidy⟩
  · exact placement.filled.stocked.shared place that ((back.contexts place that).mp among)
  · intro place key value stored
    rw [back.stores] at stored
    exact placement.filled.stocked.contents place key value stored
  · intro partition bounds created unsent
    have hosts := placement.filled.hosted partition bounds created unsent
    refine ⟨?_, ?_, (back.contexts _ _).mpr hosts.contained⟩
    · rw [back.issued]
      exact hosts.issued
    · rw [back.opened]
      exact hosts.opened
  · intro partition bounds key value listed created inside present
    rw [back.stores]
    exact placement.holds partition bounds key value listed created inside present
  · intro partition bounds live
    refine mapped.accounted partition bounds ?_
    change (cluster.opened partition).map _ = _ at live
    rw [back.opened] at live
    exact live

/-- Merged ranges with the same numbers are on the same servers, what is replicated is listed and no
record is read for it that is out of its range, and a scheme is given before any record. -/
def Exact (settings : CopySettings) (ns : RoutedNamespace K (Cluster environment)) : Call K K → Prop
  | .splitPartition _ => True
  | .mergePartition _ => KnownByNumber ns.routingTable
  | .deletePartitions _ => True
  | .replicatePartitions targets => ∀ target ∈ targets, Listed ns target.1 ∧
      ∀ bounds, Created ns target.1 bounds → ∀ server key value, ns.cluster.Stores server key value →
        Reads order settings bounds key → Within order bounds key
  | .setPartitionScheme scheme => (∀ entry ∈ scheme, entry.2 ≠ []) ∧
      ∀ server key value, ¬ ns.cluster.Stores server key value

theorem alike_self : Alike order order used := fun _ _ _ _ less => less

theorem creates_tidy (persistent : environment.Persistent) (server : StorageService) (startKey endKey : Option K) :
    Keeps Cluster.Tidy (environment.servers.createPartition server startKey endKey) :=
  fun _ _ _ created tidy => createPartition_tidy persistent tidy created

theorem deletes_tidy (partition : PartitionService) :
    Keeps (fun cluster : Cluster environment => cluster.Tidy) (environment.servers.deletePartition partition) :=
  fun _ _ _ deleted tidy => deletePartition_tidy tidy deleted

/-- The copies keep the servers tidy. -/
theorem copies_tidy {settings : CopySettings} {pairs : List (PartitionService × PartitionService)} {replies : List Unit}
    (iterates : environment.Iterates settings) (stocked : Stocked all ns.cluster) (tidy : ns.cluster.Tidy)
    (hosted : ∀ pair ∈ pairs, ∃ bounds, ns.cluster.Hosts pair.1 bounds ∧ ∀ key value, all key = some value →
      Reads order settings bounds key → Within order bounds key)
    (ran : (pairs.map fun pair => (onCluster (environment.copyData pair.1 pair.2) : Method K _ Unit)).mapM id ns =
      .ok replies next) : next.cluster.Tidy := by
  induction pairs generalizing ns replies with
  | nil =>
      cases ran
      exact tidy
  | cons pair rest ih =>
      rw [List.map_cons, List.mapM_cons] at ran
      obtain ⟨_, between, one, ran⟩ := bind_ok.mp ran
      obtain ⟨_, last, others, same⟩ := bind_ok.mp ran
      cases same
      obtain ⟨cluster, handled, rfl⟩ := onCluster_ok.mp one
      obtain ⟨bounds, hosts, exact⟩ := hosted pair List.mem_cons_self
      refine ih (copyData_stocked iterates.copiesRange stocked hosts handled)
        (copyData_tidy iterates stocked hosts exact tidy handled) (fun later member => ?_) others
      obtain ⟨own, opened, also⟩ := hosted later (List.mem_cons_of_mem _ member)
      exact ⟨own, copyData_hosts opened handled, also⟩

variable [ToString K] [DecidableEq K]

theorem replicatePartitions_tidy {settings : CopySettings}
    {targets : List (PartitionService × StorageService)} {replicas : List PartitionService}
    (persistent : environment.Persistent) (iterates : environment.Iterates settings)
    (mapped : Mapped routingKeyComp used all ns) (listed : ∀ target ∈ targets, Listed ns target.1)
    (exact : ∀ target ∈ targets, ∀ bounds, Created ns target.1 bounds → ∀ key value, all key = some value →
      Reads order settings bounds key → Within order bounds key)
    (ran : (environment.ranged routingKeyComp).replicatePartitions targets ns = .ok replicas next) :
    next.cluster.Tidy := by
  obtain ⟨pairs, edited, looped, ran⟩ := bind_ok.mp ran
  obtain ⟨_, _, checked, ran⟩ := bind_ok.mp ran
  obtain ⟨_, last, awaited, ran⟩ := bind_ok.mp ran
  cases ran
  obtain ⟨rfl, _⟩ := (storeRoutingTable_ok (environment.partitions id routingKeyComp)).mp checked
  obtain ⟨routed, filled, replicated⟩ := replicates_placed persistent alike_self mapped.placement listed looped
  have keeps := keeps_mapM fun target (_ : target ∈ targets) =>
    replicateOn_keeps (creates_tidy persistent) (environment.partitions id routingKeyComp) target
  have tidy : edited.cluster.Tidy := keeps _ _ _ looped mapped.tidy
  have copying : (pairs.map fun pair => (onCluster (environment.copyData pair.1 pair.2) : Method K _ Unit)).mapM id
      { edited with stored := edited.routingTable.rTable } = .ok _ next := awaitAll_ok awaited
  refine copies_tidy iterates (filled.tables edited.routingTable edited.routingTable.rTable).stocked tidy
    (fun pair member => ?_) copying
  obtain ⟨target, among, bounds, _, _, made, created, known⟩ := replicated.sources pair member
  obtain ⟨range, contained, among'⟩ := known
  refine ⟨bounds, filled.hosted pair.1 bounds created (routed.listed range contained pair.1 among').1, ?_⟩
  exact exact target among bounds made

omit [ToString K] [DecidableEq K] in
/-- The partitions of an increasing scheme have their bounds in order. -/
theorem createScheme_filled {earlier : List (Option K × List StorageService)} {endKey : Option K}
    {rTable result : List (RangeType K PartitionService)} (persistent : environment.Persistent)
    (decreasing : (earlier.map fun entry => onLine entry.1).Pairwise (· > ·))
    (ends : ∀ entry ∈ earlier, ∀ high, endKey = some high → onLine entry.1 < onLine (some high))
    (filled : Filled all ns)
    (ran : (environment.ranged routingKeyComp).createScheme earlier endKey rTable ns = .ok result next) :
    Filled all next := by
  induction earlier generalizing endKey rTable ns with
  | nil =>
      cases ran
      exact filled
  | cons entry rest ih =>
      obtain ⟨handlers, between, one, ran⟩ := bind_ok.mp ran
      rw [List.map_cons, List.pairwise_cons] at decreasing
      have proper : Proper order (entry.1, endKey) := by
        intro low opens high closes
        have less := ends entry List.mem_cons_self high closes
        rw [show entry.1 = some low from opens] at less
        exact WithBot.coe_lt_coe.mp less
      refine ih decreasing.2 (fun other member high same => ?_)
        (createPartitions_filled persistent proper filled one).1 ran
      rw [← same]
      exact decreasing.1 _ (List.mem_map_of_mem member)

/-- While there is no record, a scheme may replace all partitions. -/
theorem setPartitionScheme_placed {scheme : List (Option K × List StorageService)}
    {arrival : Iteration PartitionService}
    (persistent : environment.Persistent) (compared : AgreesOn used routingKeyComp)
    (placement : Placement id routingKeyComp used (fun _ => none) ns)
    (admitted : Increasing scheme ∧ ∀ entry ∈ scheme, InUse used entry.1)
    (ran : (environment.ranged routingKeyComp).setPartitionScheme arrival scheme ns = .ok .unit next) :
    Placement id routingKeyComp used (fun _ => none) next := by
  rw [setPartitionScheme] at ran
  obtain ⟨_, _, nonempty, ran⟩ := bind_ok.mp ran
  obtain ⟨_, rfl⟩ := ofExcept_ok.mp nonempty
  obtain ⟨_, _, first, ran⟩ := bind_ok.mp ran
  obtain ⟨opened, rfl⟩ := require_head first
  obtain ⟨_, _, got, ran⟩ := bind_ok.mp ran
  cases got
  obtain ⟨rTable, last, created, ran⟩ := bind_ok.mp ran
  obtain ⟨_, edited, replaced, ran⟩ := bind_ok.mp ran
  obtain ⟨_, _, checked, removed⟩ := bind_ok.mp ran
  have changed := scheme_edited placement.routed compared admitted.1 admitted.2 opened created replaced
  obtain ⟨rfl, _⟩ := (storeRoutingTable_ok (environment.partitions id routingKeyComp)).mp checked
  have decreasing : (scheme.reverse.map fun entry => onLine entry.1).Pairwise (· > ·) := by
    rw [List.map_reverse, List.pairwise_reverse]
    exact admitted.1
  have filled := createScheme_filled persistent decreasing (by simp) placement.filled created
  obtain ⟨table, _, built, set⟩ := bind_ok.mp replaced
  obtain ⟨passed, rfl⟩ := ofExcept_ok.mp built
  have same := (EStateM.Result.ok.inj set).2
  rw [← same] at changed removed
  have opens := changed.routed.arranged.opened
  change table.rTable.head?.map RangeType.startKey = some none at opens
  rw [create_ok passed] at opens
  rw [create_of_head _ _ opens] at passed
  cases passed
  refine And.left (deletePartitionServices_placed persistent ?_ ?_ removed)
  · exact ⟨stored_routed changed.routed, filled.tables _ _, rfl, fun _ _ _ _ _ _ _ present => absurd present (by simp)⟩
  · exact ⟨fun partition member => changed.replaced partition (List.mem_eraseDups.mp member),
      fun _ _ _ _ _ _ _ _ present => absurd present (by simp)⟩

/-- A call leaves the map as it is. -/
theorem call_mapped {settings : CopySettings} {made : Call K K} {arrival : Iteration PartitionService}
    (persistent : environment.Persistent) (iterates : environment.Iterates settings)
    (compared : AgreesOn used routingKeyComp) (mapped : Mapped routingKeyComp used all ns)
    (admitted : Admitted (environment.partitions id routingKeyComp) used ns made) (exact : Exact settings ns made)
    (ran : (environment.ranged routingKeyComp).call arrival made ns = .ok .unit next) :
    Mapped routingKeyComp used all next := by
  have present : ∀ {key value}, all key = some value → ∃ server, ns.cluster.Stores server key value := by
    intro key value given
    obtain ⟨before, range, after, located⟩ := mapped.placement.routed.arranged.exists_at (some key)
    obtain ⟨partition, listed⟩ := List.exists_mem_of_ne_nil _ (mapped.populated range (by simp [located.split])).1
    exact ⟨_, (mapped.stores_iff located).mpr ⟨given, partition, listed, rfl⟩⟩
  have taken : (environment.ranged routingKeyComp).step ns (made, arrival) = some next := by
    rw [Routable.step, ran]
  have accounted := call_accounted mapped.placement.routed compared mapped.accounted admitted ran
  have keeps : (∀ targets, made ≠ .replicatePartitions targets) → next.cluster.Tidy := by
    intro fills
    have kept :=
      call_keeps (environment.partitions id routingKeyComp) (creates_tidy persistent) deletes_tidy arrival fills
    exact kept ns .unit next ran mapped.tidy
  have populates : Serves made → Populated next.routingTable := fun serves =>
    step_populated (environment.partitions id routingKeyComp) mapped.populated serves taken
  have places : Sound id all ns made → Placement id routingKeyComp used all next := fun sound =>
    step_placed persistent iterates.copiesRange alike_self mapped.placement taken admitted sound
  cases made with
  | splitPartition splitKeys => exact ⟨places trivial, populates trivial, accounted, keeps (by simp)⟩
  | mergePartition mergeKeys => exact ⟨places exact, populates trivial, accounted, keeps (by simp)⟩
  | deletePartitions partitionHandlers =>
      refine ⟨places ?_, populates trivial, accounted, keeps (by simp)⟩
      intro partition bounds key value listed remains created inside _
      exact .inl ⟨partition, bounds, listed, remains, created, rfl, inside⟩
  | replicatePartitions targets =>
      refine ⟨places fun target member => ⟨(exact target member).1, ?_⟩, populates trivial, accounted, ?_⟩
      · exact fun bounds key value _ inside _ => .inl inside
      · obtain ⟨replicas, _, replicated, returned⟩ := bind_ok.mp ran
        cases returned
        refine replicatePartitions_tidy persistent iterates mapped (fun target member => (exact target member).1) ?_
          replicated
        intro target member bounds created key value given
        obtain ⟨server, stored⟩ := present given
        exact (exact target member).2 bounds created server key value stored
  | setPartitionScheme scheme =>
      obtain ⟨serves, empty⟩ := exact
      obtain rfl : all = fun _ => none := by
        funext key
        refine Option.eq_none_iff_forall_ne_some.mpr fun value given => ?_
        obtain ⟨server, stored⟩ := present given
        exact empty server key value stored
      exact ⟨setPartitionScheme_placed persistent compared mapped.placement admitted ran, populates serves, accounted,
        keeps (by simp)⟩

end Routable

end Scads.Client
