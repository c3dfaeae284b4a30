import Scads.Client.HostedRecords

namespace Scads.Client

open Scads.Data Scads.Comm Scads.Server Scads.Util

/-! # The records of the servers

What the requests of a client do to the records that the servers store.  The bounds of
partitions are compared with keys in the order of the servers, which need not be the
one that the client routes by.
-/

section

variable {K : Type}

/-- The key is between these bounds in this order. -/
def Within (order : LinearOrder K) (bounds : Option K × Option K) (key : K) : Prop :=
  Span.contains ⟨bounds.1, bounds.2⟩ key = true

/-- The bounds are in this order. -/
def Proper (order : LinearOrder K) (bounds : Option K × Option K) : Prop := Span.Proper ⟨bounds.1, bounds.2⟩

theorem within_cases (order : LinearOrder K) {low high : Option K} {key boundary : K}
    (inside : Within order (low, high) key) :
    Within order (low, some boundary) key ∨ Within order (some boundary, high) key := by
  rw [Within, Span.contains, Bool.and_eq_true] at inside
  rcases lt_or_ge key boundary with below | above
  · exact .inl (by simpa [Within, Span.contains, below] using inside.1)
  · exact .inr (by simpa [Within, Span.contains, above] using inside.2)

theorem within_joined (order : LinearOrder K) {low high : Option K} {key boundary : K}
    (proper : Proper order (low, some boundary)) (other : Proper order (some boundary, high))
    (inside : Within order (low, some boundary) key ∨ Within order (some boundary, high) key) :
    Within order (low, high) key := by
  simp only [Within, Span.contains, Bool.and_eq_true, Option.all_some, decide_eq_true_eq] at inside ⊢
  rcases inside with ⟨above, below⟩ | ⟨above, below⟩
  · refine ⟨above, ?_⟩
    cases high with
    | none => rfl
    | some high => simpa using lt_trans below (other boundary rfl high rfl)
  · refine ⟨?_, below⟩
    cases low with
    | none => rfl
    | some low => simpa using le_trans (le_of_lt (proper low rfl boundary rfl)) above

end

variable {K V : Type} {order : LinearOrder K} {environment : Environment K V}

/-- The partitions of the namespace keep their records in a database. -/
def Environment.Persistent (environment : Environment K V) : Prop := environment.partitionType = "bdb"

/-- The iterator of a copy reads an open partition.  It gives records of its database, all
those of the key range among them. -/
def Environment.CopiesRange (environment : Environment K V) : Prop :=
  ∀ source startKey endKey records, environment.copyIterator source startKey endKey = .ok records →
    ∃ database, source = some database ∧ (∀ entry ∈ records, entry ∈ database.entries) ∧
      ∀ entry ∈ database.entries, Within order (startKey, endKey) entry.1 → entry ∈ records

/-- The server stores this record of the namespace. -/
def Cluster.Stores (cluster : Cluster environment) (server : StorageService) (key : K) (value : V) : Prop :=
  (key, value) ∈ cluster.records server

/-- A partition is open on its server, with these bounds. -/
def Cluster.Hosts (cluster : Cluster environment) (partition : PartitionService) (bounds : Option K × Option K) :
    Prop :=
  Hosted cluster partition bounds

def Cluster.context (cluster : Cluster environment) (server : StorageService) : NamespaceContext K :=
  (cluster.handlers server).getOrCreateContextForNamespace environment.ns

/-- The namespace with these partitions of the cluster and no splits. -/
def Cluster.whole (cluster : Cluster environment) (routingKeyComp : K → K → Int)
    (partitions : List PartitionService) : RoutedNamespace K (Cluster environment) :=
  Routable.undivided routingKeyComp partitions cluster

/-- All partitions have their bounds in order, and what is stored is a record of the namespace. -/
structure Stocked (all : K → Option V) (cluster : Cluster environment) : Prop where
  shared : ∀ server, ∀ that ∈ cluster.context server, that.2.manager = .bdb ∧ that.2.span.Proper
  contents : ∀ server key value, cluster.Stores server key value → all key = some value

variable {all : K → Option V} {cluster next : Cluster environment} {server : StorageService}
  {startKey endKey : Option K} {partition other : PartitionService} {bounds : Option K × Option K}
  {key : K} {value : V}

theorem Cluster.Hosts.issued (hosts : cluster.Hosts partition bounds) : partition ∈ cluster.issued :=
  Hosted.issued hosts

theorem Cluster.Hosts.live (hosts : cluster.Hosts partition bounds) :
    environment.registry.live cluster partition = some bounds := by
  have opened : cluster.opened partition = some (environment.handler bounds) := hosts.opened
  change (cluster.opened partition).map _ = _
  rw [opened]
  rfl

theorem live_eq_some : environment.registry.live cluster partition = some bounds ↔
    ∃ removed, cluster.opened partition = some removed ∧ bounds = (removed.startKey, removed.endKey) := by
  change (cluster.opened partition).map _ = _ ↔ _
  rw [Option.map_eq_some_iff]
  exact exists_congr fun removed => and_congr_right fun _ => eq_comm

theorem createPartition_context
    (created : environment.createPartition server startKey endKey cluster = .ok partition next)
    (place : StorageService) : ∀ that ∈ next.context place,
      that ∈ cluster.context place ∨ that.2 = environment.handler (startKey, endKey) := by
  obtain ⟨rfl, opened, new, rfl⟩ := Environment.createPartition_ok created
  intro that contained
  change that ∈ (Function.update cluster.handlers server opened place).getOrCreateContextForNamespace _ at contained
  rw [Function.update_apply] at contained
  split at contained
  · rename_i same
    subst same
    have context := new.contexts environment.ns
    rw [if_pos (show environment.ns = (environment.handler (startKey, endKey)).ns from rfl)] at context
    rw [context] at contained
    rcases List.mem_cons.mp contained with rfl | old
    · exact .inr rfl
    · exact .inl old
  · exact .inl contained

theorem handler_bdb (persistent : environment.Persistent) (bounds : Option K × Option K) :
    (environment.handler bounds).manager = .bdb := by
  have named : environment.partitionType = "bdb" := persistent
  simp [Environment.handler, CreatePartitionRequest.handler, named]

/-- A creation opens a partition and leaves the records as they are. -/
theorem createPartition_stocked (persistent : environment.Persistent)
    (proper : Proper order (startKey, endKey)) (stocked : Stocked all cluster)
    (created : environment.createPartition server startKey endKey cluster = .ok partition next) :
    Stocked all next ∧ next.Hosts partition (startKey, endKey) ∧
      (∀ other bounds, cluster.Hosts other bounds → next.Hosts other bounds) ∧ next.Stores = cluster.Stores := by
  obtain ⟨hosted, others, records⟩ := Environment.createPartition_hosted created
  have same : next.Stores = cluster.Stores := by
    funext place key value
    rw [Cluster.Stores, Cluster.Stores, records]
  refine ⟨⟨fun place that contained => ?_, ?_⟩, hosted, others, same⟩
  · rcases createPartition_context created place that contained with old | new
    · exact stocked.shared place that old
    · rw [new]
      exact ⟨handler_bdb persistent _, proper⟩
  · rw [same]
    exact stocked.contents

theorem deletePartition_stocked (deleted : environment.deletePartition partition cluster = .ok () next)
    (stocked : Stocked all cluster) : Stocked all next := by
  obtain ⟨replied, rfl⟩ := Environment.deletePartition_ok.mp deleted
  refine ⟨fun place that contained => ?_, fun place key value stored => ?_⟩
  · refine stocked.shared place that ?_
    change that ∈ (Function.update cluster.handlers partition.storageService _
      place).getOrCreateContextForNamespace _ at contained
    rw [Function.update_apply] at contained
    split at contained
    · rename_i same
      subst same
      exact StorageHandler.mem_context_of_deleted replied contained
    · exact contained
  · refine stocked.contents place key value ?_
    change (key, value) ∈ (Function.update cluster.handlers partition.storageService _ place).records _ at stored
    rw [Function.update_apply] at stored
    split at stored
    · rename_i same
      subst same
      exact StorageHandler.mem_records_of_deleted replied stored
    · exact stored

theorem deletePartition_hosts (known : partition ∈ cluster.issued)
    (deleted : environment.deletePartition partition cluster = .ok () next) (different : other ≠ partition)
    (hosts : cluster.Hosts other bounds) : next.Hosts other bounds :=
  Environment.deletePartition_hosted known different deleted hosts

/-- A record outlives a deletion on its server if another partition is open there that it is
in the range of, or if it is not in the range of the deleted one. -/
theorem deletePartition_stores (persistent : environment.Persistent)
    (known : partition ∈ cluster.issued)
    (deleted : environment.deletePartition partition cluster = .ok () next) (different : other ≠ partition)
    (hosts : cluster.Hosts other bounds)
    (kept : other.storageService = partition.storageService → Within order bounds key ∨
      ∀ removed, environment.registry.live cluster partition = some removed → ¬ Within order removed key)
    (stored : cluster.Stores other.storageService key value) : next.Stores other.storageService key value := by
  obtain ⟨replied, rfl⟩ := Environment.deletePartition_ok.mp deleted
  have separate : other.partitionId ≠ partition.partitionId :=
    fun same => different (cluster.distinct other hosts.issued partition known same)
  change (key, value) ∈ (Function.update cluster.handlers partition.storageService _ other.storageService).records _
  rw [Function.update_apply]
  split
  · rename_i neighbour
    have contained := hosts.contained
    rw [Cluster.Stores, Cluster.records, neighbour] at stored
    rw [neighbour] at contained
    refine StorageHandler.deletePartition_keeps replied contained separate (handler_bdb persistent bounds) ?_ stored
    refine (kept neighbour).imp id fun outside removed opened => ?_
    refine outside (removed.startKey, removed.endKey) (live_eq_some.mpr ⟨removed, ?_, rfl⟩)
    rw [Cluster.opened, if_pos known, opened]
  · exact stored

theorem live_deleted (known : partition ∈ cluster.issued)
    (deleted : environment.deletePartition partition cluster = .ok () next) :
    environment.registry.live next partition = none := by
  obtain ⟨-, rfl⟩ := Environment.deletePartition_ok.mp deleted
  have listed : partition ∈ (cluster.answered partition.storageService
      ((cluster.handlers partition.storageService).deletePartition partition.partitionId
        (environment.iteration partition.partitionId)).1).issued := known
  change (Cluster.opened _ partition).map _ = none
  rw [Cluster.opened, if_pos listed]
  change Option.map _ ((Function.update cluster.handlers partition.storageService _
    partition.storageService).partitions _) = _
  rw [Function.update_self, StorageHandler.deletePartition_partitions, Function.update_self]
  rfl

/-- A deletion opens no partition. -/
theorem live_of_deleted (known : partition ∈ cluster.issued)
    (deleted : environment.deletePartition partition cluster = .ok () next)
    (live : environment.registry.live next other = some bounds) :
    environment.registry.live cluster other = some bounds := by
  by_cases same : other = partition
  · subst same
    rw [live_deleted known deleted] at live
    cases live
  · rw [← (environment.registry.deleted known deleted).2 other same]
    exact live

/-- No request to delete an open partition fails an assertion. -/
def Cluster.DeletesSafely (cluster : Cluster environment) : Prop :=
  ∀ partition bounds, cluster.Hosts partition bounds → ∀ iteration text,
    ((cluster.handlers partition.storageService).deletePartition partition.partitionId iteration).2 ≠
      .error (.assertion text)

theorem Stocked.deletesSafely (stocked : Stocked all cluster) : cluster.DeletesSafely := by
  intro partition bounds hosts iteration text
  have opened := hosts.opened
  rw [Cluster.opened, if_pos hosts.issued] at opened
  exact StorageHandler.deletePartition_asserts opened hosts.contained (stocked.shared partition.storageService) text

theorem putNoOverwrite_entries (database : Database K V) (record : K × V) (entry : K × V) :
    entry ∈ (Environment.putNoOverwrite database record).entries ↔
      entry ∈ database.entries ∨ entry = record ∧ database.get record.1 = none := by
  obtain ⟨key, value⟩ := entry
  rw [Environment.putNoOverwrite]
  cases present : database.get record.1 with
  | some old => simp
  | none =>
      rw [if_neg (by simp), ← Database.get_eq_some, Database.get_insert]
      by_cases same : key = record.1
      · subst same
        rw [if_pos rfl, ← Database.get_eq_some, present]
        constructor
        · exact fun found => .inr ⟨Prod.ext rfl (Option.some_inj.mp found).symm, rfl⟩
        · intro either
          rcases either with found | ⟨equal, -⟩
          · cases found
          · exact congrArg some (congrArg Prod.snd equal).symm
      · rw [if_neg same, Database.get_eq_some]
        exact ⟨.inl, fun either => either.resolve_right fun both => same (congrArg Prod.fst both.1)⟩

/-- Where all entries are records of the namespace, a copy adds to the ones that are there. -/
theorem foldl_putNoOverwrite {records : List (K × V)} {database : Database K V}
    (known : ∀ entry ∈ records, all entry.1 = some entry.2)
    (stocked : ∀ entry ∈ database.entries, all entry.1 = some entry.2) (entry : K × V) :
    entry ∈ (records.foldl Environment.putNoOverwrite database).entries ↔
      entry ∈ database.entries ∨ entry ∈ records := by
  induction records generalizing database with
  | nil => simp
  | cons record rest ih =>
      rw [List.forall_mem_cons] at known
      have added : ∀ other, other ∈ (Environment.putNoOverwrite database record).entries ↔
          other ∈ database.entries ∨ other = record := by
        intro other
        rw [putNoOverwrite_entries]
        refine or_congr_right' fun absent => ⟨And.left, fun same => ⟨same, ?_⟩⟩
        subst same
        by_contra present
        obtain ⟨value, found⟩ := Option.ne_none_iff_exists'.mp present
        have member := Database.get_eq_some.mp found
        have same : some value = some other.2 := (stocked _ member).symm.trans known.1
        rw [Option.some_inj.mp same] at member
        exact absent member
      rw [List.foldl_cons, ih known.2, added, List.mem_cons, or_assoc]
      intro other member
      rcases (added other).mp member with old | rfl
      · exact stocked other old
      · exact known.1

/-- A copy adds records of its source, all those of the range among them, to its own server. -/
theorem copyData_stores (reads : environment.CopiesRange) (stocked : Stocked all cluster)
    (hosts : cluster.Hosts partition bounds)
    (copied : environment.copyData partition other cluster = .ok () next) :
    ∃ records : List (K × V), environment.copyIterator (cluster.source other) bounds.1 bounds.2 = .ok records ∧
      (∀ entry ∈ records, cluster.Stores other.storageService entry.1 entry.2) ∧
      (∀ key value, cluster.Stores other.storageService key value → Within order bounds key →
        (key, value) ∈ records) ∧
      ∀ place key value, next.Stores place key value ↔
        cluster.Stores place key value ∨ place = partition.storageService ∧ (key, value) ∈ records := by
  have opened := hosts.opened
  simp only [Environment.copyData, opened] at copied
  split at copied
  · cases copied
  · split at copied
    · cases copied
    · cases copied
    · rename_i records database iterated found
      cases copied
      obtain ⟨origin, source, given, whole⟩ := reads _ _ _ _ iterated
      -- The source is open, and reads the database of its server.
      have read : (cluster.handlers other.storageService).databases environment.ns = some origin := by
        simp only [Cluster.source, Option.bind_eq_bind, Option.bind_eq_some_iff] at source
        obtain ⟨handler, -, source⟩ := source
        split at source
        · exact source
        · cases source
      have origins : ∀ entry, entry ∈ origin.entries ↔ cluster.Stores other.storageService entry.1 entry.2 := by
        intro entry
        rw [Cluster.Stores, Cluster.records, StorageHandler.records, read]
        rfl
      have destination : ∀ entry, entry ∈ database.entries ↔
          cluster.Stores partition.storageService entry.1 entry.2 := by
        intro entry
        rw [Cluster.Stores, Cluster.records, StorageHandler.records, found]
        rfl
      have known : ∀ entry ∈ records, cluster.Stores other.storageService entry.1 entry.2 :=
        fun entry member => (origins entry).mp (given entry member)
      refine ⟨records, iterated, known,
        fun key value stored inside => whole _ ((origins (key, value)).mpr stored) inside,
        fun place key value => ?_⟩
      change (key, value) ∈ (Function.update cluster.handlers partition.storageService _ place).records _ ↔ _
      rw [Function.update_apply]
      split
      · rename_i same
        subst same
        have merged : (key, value) ∈ (records.foldl Environment.putNoOverwrite database).entries ↔ _ :=
          foldl_putNoOverwrite (fun entry member => stocked.contents _ _ _ (known entry member))
            (fun entry member => stocked.contents _ _ _ ((destination entry).mp member)) (key, value)
        simpa [StorageHandler.records] using merged.trans (or_congr_left (destination (key, value)))
      · rename_i different
        exact ⟨.inl, fun either => either.resolve_right fun both => different both.1⟩

/-- A copy changes no context. -/
theorem copyData_context (copied : environment.copyData partition other cluster = .ok () next) :
    next.context = cluster.context := by
  obtain ⟨databases, rfl⟩ := Environment.copyData_ok copied
  funext place
  change (Function.update cluster.handlers partition.storageService _ place).getOrCreateContextForNamespace _ = _
  rw [Function.update_apply]
  split
  · rename_i same
    subst same
    rfl
  · rfl

theorem copyData_hosts {another : PartitionService} (hosts : cluster.Hosts another bounds)
    (copied : environment.copyData partition other cluster = .ok () next) : next.Hosts another bounds := by
  have context := congrFun (copyData_context copied) another.storageService
  obtain ⟨databases, rfl⟩ := Environment.copyData_ok copied
  refine ⟨hosts.issued, ?_, ?_⟩
  · rw [Environment.opened_answered, hosts.opened]
    exact fun _ => rfl
  · have contained : _ ∈ cluster.context another.storageService := hosts.contained
    rw [← context] at contained
    exact contained

theorem copyData_stocked (reads : environment.CopiesRange) (stocked : Stocked all cluster)
    (hosts : cluster.Hosts partition bounds)
    (copied : environment.copyData partition other cluster = .ok () next) : Stocked all next := by
  obtain ⟨records, -, known, -, stores⟩ := copyData_stores reads stocked hosts copied
  refine ⟨?_, fun place key value stored => ?_⟩
  · rw [copyData_context copied]
    exact stocked.shared
  · rcases (stores place key value).mp stored with old | ⟨-, new⟩
    · exact stocked.contents place key value old
    · exact stocked.contents _ key value (known _ new)

end Scads.Client
