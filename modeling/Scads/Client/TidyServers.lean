import Scads.Client.StoredRecords
import Scads.Server.ContainedRecords
import Scads.Server.PartitionHandler

namespace Scads.Client

open Scads.Data Scads.Comm Scads.Server Scads.Util BdbStorageManager

/-! # Servers without stale records

A server is tidy as long as each of its records is in the range of an open partition of
the namespace.
-/

section

variable {K V : Type} {order : LinearOrder K}

/-- The database of the namespace on a server is replaced. -/
def Cluster.withDatabase {environment : Environment K V} (cluster : Cluster environment) (server : StorageService)
    (database : Database K V) : Cluster environment :=
  cluster.answered server { cluster.handlers server with
    databases := Function.update (cluster.handlers server).databases environment.ns (some database) }

/-- A request to an open partition that keeps its records in a database, and the reply to it. -/
def Environment.request (environment : Environment K V) (thrown : Option Fault) (partition : PartitionService)
    (msg : StorageMessage K V) : EStateM Failure (Cluster environment) (Option (StorageMessage K V)) := fun cluster =>
  match cluster.source partition with
  | none => .ok none cluster
  | some database =>
      let handled := process database thrown msg
      .ok (some handled.2) (cluster.withDatabase partition.storageService handled.1)

/-- A server stops and starts again. -/
def Environment.restart (environment : Environment K V) (zookeeper : String → Option NamespaceRoot)
    (server : StorageService) : EStateM Failure (Cluster environment) Unit := fun cluster =>
  match StorageHandler.startup zookeeper (cluster.handlers server).shutdown with
  | .ok restarted => .ok () (cluster.answered server restarted)
  | .error failure => .error failure cluster

variable {environment : Environment K V}

/-- The registries of each server are in step, and its partitions keep their records in databases. -/
structure Cluster.Durable (cluster : Cluster environment) : Prop where
  registered : ∀ server, (cluster.handlers server).Registered
  stored : ∀ server partitionId handler, (cluster.handlers server).partitions partitionId = some handler →
    handler.manager = .bdb

/-- The client was given the partitions of the namespace, and the records of each server are inside them. -/
structure Cluster.Tidy (cluster : Cluster environment) : Prop extends cluster.Durable where
  given : ∀ server partitionId handler, (cluster.handlers server).partitions partitionId = some handler →
    handler.ns = environment.ns →
      ∃ partition ∈ cluster.issued, partition.storageService = server ∧ partition.partitionId = partitionId
  contained : ∀ server, (cluster.handlers server).Contained environment.ns

/-- The servers have nothing of the namespace yet. -/
structure Cluster.Unused (cluster : Cluster environment) : Prop extends cluster.Durable where
  issued : cluster.issued = []
  closed : ∀ server partitionId handler, (cluster.handlers server).partitions partitionId = some handler →
    handler.ns ≠ environment.ns
  empty : ∀ server key value, ¬ cluster.Stores server key value

variable {cluster next : Cluster environment} {server : StorageService} {startKey endKey : Option K}
  {partition other : PartitionService} {bounds : Option K × Option K} {key : K} {value : V} {all : K → Option V}

theorem Cluster.Unused.tidy (unused : cluster.Unused) : cluster.Tidy where
  toDurable := unused.toDurable
  given server partitionId handler opened same := absurd same (unused.closed server partitionId handler opened)
  contained server entry stored := absurd stored (unused.empty server entry.1 entry.2)

theorem Cluster.Unused.live (unused : cluster.Unused) (partition : PartitionService) :
    environment.registry.live cluster partition = none := by
  change (cluster.opened partition).map _ = none
  rw [Cluster.opened, unused.issued, if_neg List.not_mem_nil]
  rfl

/-- Where a record is stored, a partition is open that has its key. -/
theorem Cluster.Tidy.live (tidy : cluster.Tidy) (stored : cluster.Stores server key value) :
    ∃ partition bounds, environment.registry.live cluster partition = some bounds ∧
      partition.storageService = server ∧ Within order bounds key := by
  obtain ⟨that, listed, inside⟩ := tidy.contained server (key, value) stored
  obtain ⟨opened, home⟩ := (tidy.registered server).listed listed
  obtain ⟨partition, issued, rfl, same⟩ := tidy.given server that.1 that.2 opened home
  refine ⟨partition, (that.2.startKey, that.2.endKey), live_eq_some.mpr ⟨that.2, ?_, rfl⟩, rfl, inside⟩
  rw [Cluster.opened, if_pos issued, same, opened]

theorem createPartition_durable (persistent : environment.Persistent) (durable : cluster.Durable)
    (created : environment.createPartition server startKey endKey cluster = .ok partition next) : next.Durable := by
  simp only [Environment.createPartition] at created
  split at created
  · rename_i _ reply replied
    cases created
    have opened := StorageHandler.createPartition_creates replied
    refine ⟨fun place => ?_, fun place partitionId handler found => ?_⟩
    · change (Function.update cluster.handlers server _ place).Registered
      rw [Function.update_apply]
      split
      · exact (durable.registered server).created persistent replied
      · exact durable.registered place
    · change (Function.update cluster.handlers server _ place).partitions partitionId = _ at found
      rw [Function.update_apply] at found
      split at found
      · rw [opened.partitions, Function.update_apply] at found
        split at found
        · cases found
          exact handler_bdb persistent (startKey, endKey)
        · exact durable.stored server partitionId handler found
      · exact durable.stored place partitionId handler found
  · cases created
  · cases created

theorem createPartition_tidy (persistent : environment.Persistent) (tidy : cluster.Tidy)
    (created : environment.createPartition server startKey endKey cluster = .ok partition next) : next.Tidy := by
  have durable := createPartition_durable persistent tidy.toDurable created
  simp only [Environment.createPartition] at created
  split at created
  · rename_i _ reply replied
    cases created
    have opened := StorageHandler.createPartition_creates replied
    refine ⟨durable, fun place partitionId handler found home => ?_, fun place => ?_⟩
    · have earlier : ∀ {place}, (cluster.handlers place).partitions partitionId = some handler →
          ∃ partition ∈ cluster.named server :: cluster.issued,
            partition.storageService = place ∧ partition.partitionId = partitionId := by
        intro place found
        obtain ⟨partition, issued, same⟩ := tidy.given place partitionId handler found home
        exact ⟨partition, List.mem_cons_of_mem _ issued, same⟩
      change (Function.update cluster.handlers server _ place).partitions partitionId = _ at found
      rw [Function.update_apply] at found
      split at found
      · rename_i same
        rw [opened.partitions, Function.update_apply] at found
        split at found
        · rename_i new
          exact ⟨cluster.named server, List.mem_cons_self, same.symm, new.symm⟩
        · rw [same]
          exact earlier found
      · exact earlier found
    · change (Function.update cluster.handlers server _ place).Contained _
      rw [Function.update_apply]
      split
      · intro entry stored
        rw [opened.records] at stored
        obtain ⟨that, listed, inside⟩ := tidy.contained server entry stored
        refine ⟨that, ?_, inside⟩
        rw [opened.contexts]
        split
        · exact List.mem_cons_of_mem _ listed
        · exact listed
      · exact tidy.contained place
  · cases created
  · cases created

theorem deletePartition_tidy (tidy : cluster.Tidy)
    (deleted : environment.deletePartition partition cluster = .ok () next) : next.Tidy := by
  obtain ⟨replied, rfl⟩ := Environment.deletePartition_ok.mp deleted
  have earlier : ∀ {place partitionId handler}, (Function.update cluster.handlers partition.storageService
      ((cluster.handlers partition.storageService).deletePartition partition.partitionId
        (environment.iteration partition.partitionId)).1 place).partitions partitionId = some handler →
      (cluster.handlers place).partitions partitionId = some handler := by
    intro place partitionId handler found
    rw [Function.update_apply] at found
    split at found
    · rename_i same
      rw [StorageHandler.deletePartition_partitions, Function.update_apply] at found
      split at found
      · cases found
      · rw [same]
        exact found
    · exact found
  refine ⟨⟨fun place => ?_, fun place partitionId handler found => ?_⟩,
    fun place partitionId handler found home => ?_, fun place => ?_⟩
  · change (Function.update cluster.handlers partition.storageService _ place).Registered
    rw [Function.update_apply]
    split
    · exact (tidy.registered _).deleted replied
    · exact tidy.registered place
  · exact tidy.stored place partitionId handler (earlier found)
  · exact tidy.given place partitionId handler (earlier found) home
  · change (Function.update cluster.handlers partition.storageService _ place).Contained _
    rw [Function.update_apply]
    split
    · exact (tidy.contained _).deleted replied
    · exact tidy.contained place

/-- Only the databases of one server have changed, and none of them was closed. -/
structure Cluster.Rewritten (server : StorageService) (cluster next : Cluster environment) : Prop where
  answered : ∃ databases, next = cluster.answered server { cluster.handlers server with databases }
  stored : ∀ ns, ((cluster.handlers server).databases ns).isSome → ((next.handlers server).databases ns).isSome

theorem Cluster.Rewritten.elsewhere (rewritten : cluster.Rewritten server next) {place : StorageService}
    (different : place ≠ server) : next.handlers place = cluster.handlers place := by
  obtain ⟨databases, rfl⟩ := rewritten.answered
  exact Function.update_of_ne different _ _

theorem Cluster.Rewritten.contexts (rewritten : cluster.Rewritten server next) (place : StorageService) :
    (next.handlers place).getOrCreateContextForNamespace =
      (cluster.handlers place).getOrCreateContextForNamespace := by
  by_cases same : place = server
  · subst same
    obtain ⟨databases, rfl⟩ := rewritten.answered
    change (Function.update cluster.handlers place _ place).getOrCreateContextForNamespace = _
    rw [Function.update_self]
    rfl
  · rw [rewritten.elsewhere same]

theorem Cluster.Rewritten.partitions (rewritten : cluster.Rewritten server next) (place : StorageService) :
    (next.handlers place).partitions = (cluster.handlers place).partitions := by
  by_cases same : place = server
  · subst same
    obtain ⟨databases, rfl⟩ := rewritten.answered
    change (Function.update cluster.handlers place _ place).partitions = _
    rw [Function.update_self]
  · rw [rewritten.elsewhere same]

theorem Cluster.Rewritten.issued (rewritten : cluster.Rewritten server next) : next.issued = cluster.issued := by
  obtain ⟨databases, rfl⟩ := rewritten.answered
  rfl

theorem Cluster.Rewritten.opened (rewritten : cluster.Rewritten server next) : next.opened = cluster.opened := by
  funext partition
  rw [Cluster.opened, Cluster.opened, rewritten.issued, rewritten.partitions]

theorem Cluster.Rewritten.hosts (rewritten : cluster.Rewritten server next) (hosts : cluster.Hosts partition bounds) :
    next.Hosts partition bounds := by
  refine ⟨?_, ?_, ?_⟩
  · rw [rewritten.issued]
    exact hosts.issued
  · rw [rewritten.opened]
    exact hosts.opened
  · rw [rewritten.contexts]
    exact hosts.contained

theorem Cluster.Rewritten.durable (rewritten : cluster.Rewritten server next) (durable : cluster.Durable) :
    next.Durable where
  registered place := by
    by_cases same : place = server
    · subst same
      refine (durable.registered place).congr (rewritten.partitions place) (rewritten.contexts place) ?_
        rewritten.stored
      obtain ⟨databases, rfl⟩ := rewritten.answered
      change (Function.update cluster.handlers place _ place).partitionDb = _
      rw [Function.update_self]
    · rw [rewritten.elsewhere same]
      exact durable.registered place
  stored place partitionId handler found := by
    rw [rewritten.partitions] at found
    exact durable.stored place partitionId handler found

/-- Where new records are inside open partitions, the servers stay tidy. -/
theorem Cluster.Rewritten.tidy (rewritten : cluster.Rewritten server next) (tidy : cluster.Tidy)
    (inside : ∀ key value, next.Stores server key value → cluster.Stores server key value ∨
      ∃ that ∈ cluster.context server, that.2.span.contains key = true) : next.Tidy where
  toDurable := rewritten.durable tidy.toDurable
  given place partitionId handler found home := by
    rw [rewritten.partitions] at found
    rw [rewritten.issued]
    exact tidy.given place partitionId handler found home
  contained place entry stored := by
    rw [rewritten.contexts]
    by_cases same : place = server
    · subst same
      rcases inside entry.1 entry.2 stored with old | new
      · exact tidy.contained place entry old
      · exact new
    · rw [rewritten.elsewhere same] at stored
      exact tidy.contained place entry stored

theorem withDatabase_rewritten (database : Database K V) :
    cluster.Rewritten server (cluster.withDatabase server database) := by
  refine ⟨⟨_, rfl⟩, fun ns stored => ?_⟩
  change (((Function.update cluster.handlers server _) server).databases ns).isSome
  rw [Function.update_self]
  change Option.isSome (Function.update (cluster.handlers server).databases environment.ns _ ns)
  rw [Function.update_apply]
  split
  · rfl
  · exact stored

theorem withDatabase_stores (database : Database K V) {place : StorageService} :
    (cluster.withDatabase server database).Stores place key value ↔
      if place = server then database.get key = some value else cluster.Stores place key value := by
  change (key, value) ∈ (Function.update cluster.handlers server _ place).records _ ↔ _
  rw [Function.update_apply]
  split
  · simp only [StorageHandler.records, Function.update_self, Option.map_some, Option.getD_some, Database.get_eq_some]
  · rfl

theorem copyData_rewritten (copied : environment.copyData partition other cluster = .ok () next) :
    cluster.Rewritten partition.storageService next := by
  simp only [Environment.copyData] at copied
  split at copied
  · cases copied
  · split at copied
    · cases copied
    · split at copied
      · cases copied
      · cases copied
      · cases copied
        exact withDatabase_rewritten _

/-- A copy keeps its server tidy if none of the records that it reads are outside of the range. -/
theorem copyData_tidy {settings : CopySettings} (iterates : environment.Iterates settings)
    (stocked : Stocked all cluster)
    (hosts : cluster.Hosts partition bounds)
    (exact : ∀ key value, all key = some value → Reads order settings bounds key → Within order bounds key)
    (tidy : cluster.Tidy) (copied : environment.copyData partition other cluster = .ok () next) : next.Tidy := by
  obtain ⟨records, iterated, known, -, stores⟩ := copyData_stores iterates.copiesRange stocked hosts copied
  obtain ⟨_, -, reads⟩ := iterates.reads iterated
  refine (copyData_rewritten copied).tidy tidy fun key value stored => ?_
  rcases (stores _ key value).mp stored with old | ⟨-, member⟩
  · exact .inl old
  · have present := stocked.contents _ key value (known _ member)
    exact .inr ⟨_, hosts.contained, exact key value present ((reads _).mp member).2⟩

/-- The database that an open partition reads. -/
theorem Cluster.Hosts.source (hosts : cluster.Hosts partition bounds) (persistent : environment.Persistent)
    (durable : cluster.Durable) : ∃ database, cluster.source partition = some database ∧
      (cluster.handlers partition.storageService).databases environment.ns = some database ∧
        ∀ key value, cluster.Stores partition.storageService key value ↔ database.get key = some value := by
  have opened := hosts.opened
  have managed := handler_bdb persistent bounds
  have found := opened
  rw [Cluster.opened, if_pos hosts.issued] at found
  obtain ⟨database, stored⟩ := Option.isSome_iff_exists.mp ((durable.registered _).stored found managed)
  have home : (cluster.handlers partition.storageService).databases environment.ns = some database := stored
  refine ⟨database, ?_, home, fun key value => ?_⟩
  · rw [Cluster.source, opened]
    simp only [Option.bind_eq_bind, Option.bind_some, managed]
    exact home
  · rw [Database.get_eq_some, Cluster.Stores, Cluster.records, StorageHandler.records, home]
    rfl

/-- A put changes the value of its key on one server. -/
theorem request_put (persistent : environment.Persistent) (durable : cluster.Durable)
    (hosts : cluster.Hosts partition bounds)
    (key : K) (value : Option V) :
    ∃ next, environment.request none partition (.putRequest ⟨key, value⟩) cluster = .ok (some .putResponse) next ∧
      cluster.Rewritten partition.storageService next ∧
        ∀ place other found, next.Stores place other found ↔
          if place = partition.storageService ∧ other = key then value = some found
          else cluster.Stores place other found := by
  obtain ⟨database, source, home, stores⟩ := hosts.source persistent durable
  refine ⟨cluster.withDatabase partition.storageService (database.put key value), ?_, withDatabase_rewritten _,
    fun place other found => ?_⟩
  · simp only [Environment.request, source, process]
  · rw [withDatabase_stores, Database.get_put]
    by_cases same : place = partition.storageService
    · subst same
      rw [if_pos rfl, stores]
      by_cases equal : other = key
      · simp [equal]
      · simp [equal]
    · rw [if_neg same, if_neg fun both => same both.1]

/-- A get answers with the value that its server stores. -/
theorem request_get (persistent : environment.Persistent) (durable : cluster.Durable)
    (hosts : cluster.Hosts partition bounds)
    (key : K) : ∃ value, environment.request none partition (.getRequest key) cluster =
        .ok (some (.getResponse value)) cluster ∧
      ∀ found, value = some found ↔ cluster.Stores partition.storageService key found := by
  obtain ⟨database, source, home, stores⟩ := hosts.source persistent durable
  refine ⟨database.get key, ?_, fun found => (stores key found).symm⟩
  have same : Function.update (cluster.handlers partition.storageService).databases environment.ns (some database) =
      (cluster.handlers partition.storageService).databases := by
    rw [← home, Function.update_eq_self]
  have unchanged : cluster.withDatabase partition.storageService database = cluster := by
    rw [Cluster.withDatabase, same, Cluster.answered]
    simp only [Function.update_eq_self]
  simp only [Environment.request, source, process, unchanged]

variable {zookeeper : String → Option NamespaceRoot}

/-- A restart brings back the partitions of a server and their records. -/
structure Cluster.Restarted (cluster next : Cluster environment) : Prop where
  tidy : next.Tidy
  issued : next.issued = cluster.issued
  opened : next.opened = cluster.opened
  contexts : ∀ server that, that ∈ next.context server ↔ that ∈ cluster.context server
  stores : next.Stores = cluster.Stores

theorem restart_restarted (tidy : cluster.Tidy)
    (restarted : environment.restart zookeeper server cluster = .ok () next) : cluster.Restarted next := by
  rw [Environment.restart] at restarted
  split at restarted
  · rename_i final started
    cases restarted
    obtain ⟨registered, partitions, records, contexts⟩ :=
      (tidy.registered server).restarted (tidy.stored server) started
    have opens : ∀ place, (Function.update cluster.handlers server final place).partitions =
        (cluster.handlers place).partitions := by
      intro place
      rw [Function.update_apply]
      split
      · rename_i same
        rw [partitions, same]
      · rfl
    have lists : ∀ place ns that,
        that ∈ (Function.update cluster.handlers server final place).getOrCreateContextForNamespace
        ns ↔ that ∈ (cluster.handlers place).getOrCreateContextForNamespace ns := by
      intro place ns that
      rw [Function.update_apply]
      split
      · rename_i same
        rw [contexts, same]
      · rfl
    have stores : ∀ place, (Function.update cluster.handlers server final place).records =
        (cluster.handlers place).records := by
      intro place
      rw [Function.update_apply]
      split
      · rename_i same
        rw [records, same]
      · rfl
    refine ⟨⟨⟨fun place => ?_, fun place partitionId handler found => ?_⟩,
      fun place partitionId handler found home => ?_, fun place entry stored => ?_⟩, rfl, ?_,
      fun place that => lists place _ that, ?_⟩
    · change (Function.update cluster.handlers server final place).Registered
      rw [Function.update_apply]
      split
      · exact registered
      · exact tidy.registered place
    · exact tidy.stored place partitionId handler ((congrFun (opens place) partitionId).symm.trans found)
    · exact tidy.given place partitionId handler ((congrFun (opens place) partitionId).symm.trans found) home
    · have before : entry ∈ (cluster.handlers place).records environment.ns := by
        rw [← stores]
        exact stored
      obtain ⟨that, listed, inside⟩ := tidy.contained place entry before
      exact ⟨that, (lists place _ that).mpr listed, inside⟩
    · funext partition
      exact Environment.opened_answered fun _ => by
        rw [partitions]
    · funext place key value
      change ((key, value) ∈ (Function.update cluster.handlers server final place).records _) = _
      rw [stores]
      rfl
  · cases restarted

end

end Scads.Client
