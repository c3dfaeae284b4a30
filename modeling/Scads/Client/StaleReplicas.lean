import Scads.Client.NamespaceMap

namespace Scads.Client

open Scads.Data Scads.Comm Scads.Server Scads.Util RangeTable BdbStorageManager

/-! # Replicas that answer with old records

A copy may bring a record to a server that is outside of the range it is made for.  A later put of its
key does not reach this server, and the copy of a range that has the key does not replace the record.
-/

section

variable {K V : Type} {order : LinearOrder K} {environment : Environment K V} {cluster next : Cluster environment}
  {partition other : PartitionService} {server : StorageService} {key : K} {value : V}

theorem foldl_putNoOverwrite_keeps {records : List (K × V)} {database : Database K V} {entry : K × V}
    (member : entry ∈ database.entries) : entry ∈ (records.foldl Environment.putNoOverwrite database).entries := by
  induction records generalizing database with
  | nil => exact member
  | cons record rest ih => exact ih ((putNoOverwrite_entries database record entry).mpr (.inl member))

/-- What a server stores of the namespace before a copy, it stores afterwards. -/
theorem copyData_keeps (stored : cluster.Stores server key value)
    (copied : environment.copyData partition other cluster = .ok () next) : next.Stores server key value := by
  simp only [Environment.copyData] at copied
  split at copied
  · cases copied
  · split at copied
    · cases copied
    · split at copied
      · cases copied
      · cases copied
      · rename_i records database _ found
        cases copied
        change (cluster.withDatabase partition.storageService _).Stores server key value
        rw [withDatabase_stores]
        split
        · rename_i same
          subst same
          rw [Cluster.Stores, Cluster.records, StorageHandler.records, found] at stored
          exact Database.get_eq_some.mpr (foldl_putNoOverwrite_keeps stored)
        · exact stored

/-- A request that reaches one server leaves the records of the others. -/
theorem request_ran {thrown : Option Fault} {msg : StorageMessage K V} {response : Option (StorageMessage K V)}
    (requested : environment.request thrown partition msg cluster = .ok response next) :
    cluster.Rewritten partition.storageService next ∧ ∀ place, place ≠ partition.storageService → ∀ key value,
      cluster.Stores place key value → next.Stores place key value := by
  rw [Environment.request] at requested
  split at requested
  · cases requested
    refine ⟨⟨⟨(cluster.handlers partition.storageService).databases, ?_⟩, fun _ => id⟩, fun _ _ _ _ => id⟩
    rw [Cluster.answered]
    simp only [Function.update_eq_self]
  · cases requested
    refine ⟨withDatabase_rewritten _, fun place different key value stored => ?_⟩
    rw [withDatabase_stores, if_neg different]
    exact stored

end

namespace Routable

variable {K V : Type} [order : LinearOrder K] {environment : Environment K V} {routingKeyComp : K → K → Int}
  {used : K → Prop} {all : K → Option V} {kept : StorageService → K → V → Prop}
  {ns middle next : RoutedNamespace K (Cluster environment)} {partition replica : PartitionService}
  {server : StorageService}

/-- The partitions are open, and the servers store these records. -/
structure Retains (kept : StorageService → K → V → Prop) (ns : RoutedNamespace K (Cluster environment)) : Prop where
  durable : ns.cluster.Durable
  hosted : ∀ partition bounds, Created ns partition bounds → partition ∉ ns.deletions →
    ns.cluster.Hosts partition bounds
  stores : ∀ server key value, kept server key value → ns.cluster.Stores server key value

theorem Retains.hosts (retains : Retains kept ns) (routed : Routed (environment.partitions id routingKeyComp) used ns)
    {bounds : Option K × Option K} (listed : Listed ns partition) (created : Created ns partition bounds) :
    ns.cluster.Hosts partition bounds := by
  obtain ⟨range, member, among⟩ := listed
  exact retains.hosted partition bounds created (routed.listed range member partition among).1

theorem createPartitions_retains {startKey endKey : Option K} {servers : List StorageService}
    {partitions : List PartitionService} (persistent : environment.Persistent) (retains : Retains kept ns)
    (made : (environment.ranged routingKeyComp).createPartitions startKey endKey servers ns = .ok partitions next) :
    Retains kept next := by
  have stored := createPartitions_stored
    (show Stored ns.cluster.records ns from ⟨fun created unsent => retains.hosted _ _ created unsent, rfl⟩) made
  have durable := createPartitions_keeps (fun server startKey endKey => ?_) startKey endKey servers ns partitions next
    made retains.durable
  · refine ⟨durable, fun partition bounds created unsent => stored.hosted created unsent,
      fun server key value known => ?_⟩
    rw [Cluster.Stores, stored.kept]
    exact retains.stores server key value known
  · exact fun _ _ _ created durable => createPartition_durable persistent durable created

/-- Requests to other servers leave what is retained, and all partitions as they are. -/
theorem requests_retain {thrown : PartitionService → Option Fault} {msg : StorageMessage K V}
    {servers : List PartitionService} {responses : List (Option (StorageMessage K V))} (retains : Retains kept ns)
    (away : ∀ partition ∈ servers, ∀ key value, ¬ kept partition.storageService key value)
    (ran : (servers.mapM fun partition =>
      (onCluster (environment.request (thrown partition) partition msg) : Method K _ _)) ns = .ok responses next) :
    Retains kept next ∧ next = { ns with cluster := next.cluster } ∧ next.cluster.issued = ns.cluster.issued ∧
      next.cluster.opened = ns.cluster.opened := by
  refine @mapM_invariant _ _ _ _ _ _ _ (fun (_ : List (Option (StorageMessage K V))) state =>
    Retains kept state ∧ state = { ns with cluster := state.cluster } ∧ state.cluster.issued = ns.cluster.issued ∧
      state.cluster.opened = ns.cluster.opened) servers [] responses ?_ ⟨retains, rfl, rfl, rfl⟩ ran
  intro done partition state response after member held one
  obtain ⟨retained, same, issued, opened⟩ := held
  obtain ⟨cluster, requested, rfl⟩ := onCluster_ok.mp one
  obtain ⟨rewritten, elsewhere⟩ := request_ran requested
  refine ⟨⟨rewritten.durable retained.durable, fun other bounds created unsent =>
    rewritten.hosts (retained.hosted other bounds created unsent), fun server key value known => ?_⟩, ?_,
    rewritten.issued.trans issued, rewritten.opened.trans opened⟩
  · refine elsewhere server (fun equal => ?_) key value (retained.stores server key value known)
    rw [equal] at known
    exact away partition member key value known
  · rw [same]

variable [DecidableEq K] [ToString K]

/-- A partition is replicated: a new one is made on the server and listed for the range, and then the
records are copied. -/
theorem replicatePartitions_one {arrival : Iteration PartitionService} (persistent : environment.Persistent)
    (routed : Routed (environment.partitions id routingKeyComp) used ns) (retains : Retains kept ns)
    (listed : Listed ns partition)
    (taken : (environment.ranged routingKeyComp).step ns (.replicatePartitions [(partition, server)], arrival) =
      some next) :
    ∃ replica edited cluster, (environment.ranged routingKeyComp).replicateOn (partition, server) ns =
        .ok (replica, partition) edited ∧
      Routed (environment.partitions id routingKeyComp) used edited ∧ Retains kept edited ∧
      Replicated [(partition, server)] [(replica, partition)] ns edited ∧
      environment.copyData replica partition edited.cluster = .ok () cluster ∧
      next = { edited with stored := edited.routingTable.rTable, cluster } := by
  rw [step] at taken
  split at taken
  · rename_i ran
    cases taken
    obtain ⟨_, _, ran, returned⟩ := bind_ok.mp ran
    cases returned
    obtain ⟨pairs, edited, looped, ran⟩ := bind_ok.mp ran
    obtain ⟨_, _, checked, ran⟩ := bind_ok.mp ran
    obtain ⟨_, last, awaited, ran⟩ := bind_ok.mp ran
    cases ran
    obtain ⟨rfl, _⟩ := (storeRoutingTable_ok (environment.partitions id routingKeyComp)).mp checked
    rw [List.mapM_cons] at looped
    obtain ⟨result, _, one, looped⟩ := bind_ok.mp looped
    cases looped
    obtain ⟨still, replicated⟩ := replicateOn_replicated routed listed one
    obtain ⟨replica, source⟩ := result
    obtain ⟨target, only, _, equal, _⟩ := replicated.sources _ (List.mem_singleton.mpr rfl)
    cases List.mem_singleton.mp only
    cases equal
    obtain ⟨bounds, before, range, after, last, _, _, _, made, same⟩ :=
      replicateOn_spec routed.arranged (routed.startsInUse listed) one
    have filled := createPartitions_retains persistent retains made
    have copying := awaitAll_ok awaited
    rw [List.map_cons, List.mapM_cons] at copying
    obtain ⟨_, _, copied, rest⟩ := bind_ok.mp copying
    cases rest
    obtain ⟨cluster, handled, equal⟩ := onCluster_ok.mp copied
    refine ⟨replica, edited, cluster, one, still, ?_, replicated, handled, equal.symm⟩
    rw [same]
    exact ⟨filled.durable, filled.hosted, filled.stores⟩
  · cases taken

omit [DecidableEq K] [ToString K] in
theorem Retains.copied {cluster : Cluster environment}
    {other : PartitionService} (retains : Retains kept ns)
    (copied : environment.copyData partition other ns.cluster = .ok () cluster)
    (stored : List (RangeType K PartitionService)) : Retains kept { ns with stored, cluster } where
  durable := (copyData_rewritten copied).durable retains.durable
  hosted partition bounds created unsent := copyData_hosts (retains.hosted partition bounds created unsent) copied
  stores server key value known := copyData_keeps (retains.stores server key value known) copied

omit [DecidableEq K] [ToString K] in
/-- The servers of a key are those it had before, unless the range of the replica has the key. -/
theorem Replicated.among {edited : RoutedNamespace K (Cluster environment)}
    {before after front back : List (RangeType K PartitionService)} {range found : RangeType K PartitionService}
    {other : PartitionService} {key : K} (routed : Routed (environment.partitions id routingKeyComp) used ns)
    (still : Routed (environment.partitions id routingKeyComp) used edited)
    (replicated : Replicated [(partition, server)] [(replica, partition)] ns edited)
    (located : ns.routingTable.At (some key) before range after)
    (new : edited.routingTable.At (some key) front found back) (member : other ∈ found.values) :
    other ∈ range.values ∨ ∃ bounds, Created ns partition bounds ∧ Within order bounds key := by
  have aligned := still.aligned
  rw [new.split, aligned_append] at aligned
  have listed : Listed edited other := ⟨found, by simp [new.split], member⟩
  have made : Created edited other (found.startKey, startOr none back) := aligned.2.1 other member
  rcases replicated.before other listed with old | ⟨pair, only, same⟩
  · obtain ⟨place, contained, known⟩ := old
    obtain ⟨_, bounds, created⟩ := routed.listed place contained other known
    have equal := still.bounds_unique listed made (replicated.created other bounds created)
    refine .inl (routed.among located ⟨place, contained, known⟩ created ?_)
    rw [← equal]
    exact contains_of_located new
  · obtain ⟨target, source, bounds, _, _, given, created, _⟩ := replicated.sources pair only
    cases List.mem_singleton.mp source
    rw [same] at created
    have equal := still.bounds_unique listed made created
    refine .inr ⟨bounds, given, ?_⟩
    rw [← equal]
    exact contains_of_located new

/-- A copy brings every record of its source that it reads. -/
theorem replicate_brings {settings : CopySettings} {arrival : Iteration PartitionService} {bounds : Option K × Option K}
    {key : K} {value : V} (persistent : environment.Persistent) (iterates : environment.Iterates settings)
    (placement : Placement id routingKeyComp used all ns) (durable : ns.cluster.Durable) (listed : Listed ns partition)
    (created : Created ns partition bounds) (stored : ns.cluster.Stores partition.storageService key value)
    (reads : Reads order settings bounds key)
    (taken : (environment.ranged routingKeyComp).step ns (.replicatePartitions [(partition, server)], arrival) =
      some next) :
    Retains (fun place other found => place = server ∧ other = key ∧ found = value) next := by
  have retains :
      Retains (fun place other found => place = partition.storageService ∧ other = key ∧ found = value) ns := by
    refine ⟨durable, placement.filled.hosted, fun place other found known => ?_⟩
    obtain ⟨rfl, rfl, rfl⟩ := known
    exact stored
  obtain ⟨replica, edited, cluster, one, still, retained, replicated, copied, rfl⟩ :=
    replicatePartitions_one persistent placement.routed retains listed taken
  have filled := (replicateOn_placed persistent alike_self placement.routed placement.filled listed one).2.1
  obtain ⟨target, only, own, _, place, given, made, known⟩ := replicated.sources _ (List.mem_singleton.mpr rfl)
  cases List.mem_singleton.mp only
  cases placement.routed.bounds_unique listed created given
  have hosts := retained.hosts still known made
  obtain ⟨records, iterated, _, _, stores⟩ := copyData_stores iterates.copiesRange filled.stocked hosts copied
  obtain ⟨database, source, read⟩ := iterates.reads iterated
  obtain ⟨_, same, _, holds⟩ := (retained.hosts still (replicated.after partition listed)
    (replicated.created partition bounds created)).source persistent retained.durable
  rw [source] at same
  cases same
  have kept := retained.copied copied edited.routingTable.rTable
  refine ⟨kept.durable, kept.hosted, fun place other found known => ?_⟩
  obtain ⟨rfl, rfl, rfl⟩ := known
  refine (stores _ _ _).mpr (.inr ⟨place.symm, (read _).mpr ⟨?_, reads⟩⟩)
  exact Database.get_eq_some.mp ((holds _ _).mp (retained.stores _ _ _ ⟨rfl, rfl, rfl⟩))

/-- A copy brings a record outside of the range it is made for to a server that does not become one of its key. -/
theorem replicate_outside {settings : CopySettings} {arrival : Iteration PartitionService} {all : K → Option V}
    {bounds : Option K × Option K} {key : K} {value : V} {before after : List (RangeType K PartitionService)}
    {range : RangeType K PartitionService} (persistent : environment.Persistent)
    (iterates : environment.Iterates settings) (compared : AgreesOn used routingKeyComp)
    (mapped : Mapped routingKeyComp used all ns) (listed : Listed ns partition) (created : Created ns partition bounds)
    (stored : ns.cluster.Stores partition.storageService key value) (reads : Reads order settings bounds key)
    (outside : ¬ Within order bounds key) (given : used key)
    (located : ns.routingTable.At (some key) before range after)
    (away : ∀ partition ∈ range.values, partition.storageService ≠ server)
    (taken : (environment.ranged routingKeyComp).step ns (.replicatePartitions [(partition, server)], arrival) =
      some next) :
    Routed (environment.partitions id routingKeyComp) used next ∧
      Retains (fun place other found => place = server ∧ other = key ∧ found = value) next ∧
        (∃ front place back, next.routingTable.At (some key) front place back ∧
          ∀ partition ∈ place.values, partition.storageService ≠ server) ∧
        ∀ partition bounds, Listed ns partition → Created ns partition bounds →
          Listed next partition ∧ Created next partition bounds := by
  have routed := mapped.placement.routed
  have brought := replicate_brings persistent iterates mapped.placement mapped.tidy.toDurable
    listed created stored reads taken
  have admitted : Admitted (environment.partitions id routingKeyComp) used ns
    (.replicatePartitions [(partition, server)]) := routed.startsInUse listed
  have routedNext := step_routed routed compared admitted taken
  have nothing : Retains (fun _ _ _ => False) ns := ⟨mapped.tidy.toDurable, mapped.placement.filled.hosted, by simp⟩
  obtain ⟨_, edited, _, _, still, _, copied, _, rfl⟩ := replicatePartitions_one persistent routed nothing listed taken
  obtain ⟨front, place, back, new, _⟩ := @Routed.serversForKey _ _ _ _ _ _ _ _ routedNext key given
  refine ⟨routedNext, brought, ⟨front, place, back, new, fun other among => ?_⟩,
    fun other bounds known made => ⟨copied.after other known, copied.created other bounds made⟩⟩
  rcases copied.among routed still located new among with old | ⟨own, creation, inside⟩
  · exact away other old
  · rw [routed.bounds_unique listed creation created] at inside
    exact absurd inside outside

/-- A later copy of a range to the server leaves the record, and the server becomes one of its key. -/
theorem replicate_stays {arrival : Iteration PartitionService} {bounds : Option K × Option K} {key : K}
    (persistent : environment.Persistent) (compared : AgreesOn used routingKeyComp)
    (routed : Routed (environment.partitions id routingKeyComp) used ns) (retains : Retains kept ns)
    (listed : Listed ns partition) (created : Created ns partition bounds) (inside : Within order bounds key)
    (given : used key)
    (taken : (environment.ranged routingKeyComp).step ns (.replicatePartitions [(partition, server)], arrival) =
      some next) :
    Routed (environment.partitions id routingKeyComp) used next ∧ Retains kept next ∧
      ∃ before range after replica, next.routingTable.At (some key) before range after ∧
        (environment.ranged routingKeyComp).serversForKey next key = .ok range.values ∧ replica ∈ range.values ∧
          replica.storageService = server ∧ next.cluster.Hosts replica bounds := by
  have admitted : Admitted (environment.partitions id routingKeyComp) used ns
    (.replicatePartitions [(partition, server)]) := routed.startsInUse listed
  have routedNext := step_routed routed compared admitted taken
  obtain ⟨replica, edited, _, _, _, retained, replicated, copied, rfl⟩ :=
    replicatePartitions_one persistent routed retains listed taken
  obtain ⟨source, only, _, _, home, issued, opened, new⟩ := replicated.sources _ (List.mem_singleton.mpr rfl)
  cases List.mem_singleton.mp only
  cases routed.bounds_unique listed created issued
  have lasting := retained.copied copied edited.routingTable.rTable
  obtain ⟨before, range, after, located, served⟩ := @Routed.serversForKey _ _ _ _ _ _ _ _ routedNext key given
  exact ⟨routedNext, lasting, before, range, after, replica, located, served,
    routedNext.among located new opened inside, home, lasting.hosts routedNext new opened⟩

end Routable

open Routable

/-- Any reply may be the first that arrives. -/
theorem exists_first_arrival {α : Type} {front back : List α} {first : α} :
    ∃ arrival : Iteration α, arrival.order (front ++ first :: back) = first :: (front ++ back) := by
  classical
  refine ⟨⟨fun values => if values = front ++ first :: back then first :: (front ++ back) else values,
    fun values => ?_⟩,
    if_pos rfl⟩
  split
  · rename_i same
    rw [same]
    exact List.perm_middle.symm
  · exact .refl values

/-- The first of the replies that arrive decides a get when one reply is enough. -/
theorem finishGetHandler_first {S K : Type} (key : K) (futures : Nat) (answer : S × Option Value)
    (rest : List (S × Option Value)) :
    finishGetHandler (GetHandler.opened key futures (answer :: rest)) 1 =
      .ok (answer.2.map extractRecordFromValue) := by
  obtain ⟨newest, finished, maximal, attained⟩ := GetHandler.finishGetHandler_newest key futures [answer] rest
  rw [GetHandler.newest_eq (List.cons_ne_nil _ _) (fun other member => by rw [List.mem_singleton.mp member]) maximal
    attained] at finished
  exact finished

section

variable {K : Type} [order : LinearOrder K] {environment : Environment K Value} {routingKeyComp : K → K → Int}
  {used : K → Prop} {ns next : RoutedNamespace K (Cluster environment)} {kept : StorageService → K → Value → Prop}

/-- The first reply to a get that arrives is the one of this replica. -/
def Environment.AnswersFirst (environment : Environment K Value) (routingKeyComp : K → K → Int)
    (arrival : Iteration (PartitionService × StorageMessage K Value)) (key : K) (replica : PartitionService)
    (ns : RoutedNamespace K (Cluster environment)) : Prop :=
  ∃ handler reply rest, environment.makeGetRequests routingKeyComp arrival key ns = .ok handler ns ∧
    handler.responses = (replica, reply) :: rest

theorem readQuorumFor_few {count : Nat} (some : 0 < count) (few : count ≤ 1000) :
    QuorumProtocolConfig.initial.readQuorumFor count = 1 := by
  refine le_antisymm (Nat.ceil_le.mpr ?_) (quorumOf_pos some (by norm_num [QuorumProtocolConfig.initial]))
  have bound : (count : ℚ) ≤ 1000 := by exact_mod_cast few
  rw [QuorumProtocolConfig.initial]
  linarith

/-- A get returns what the server that answers first has, if one reply is enough. -/
theorem getBytes_first {key : K} {value : Value} {replica : PartitionService}
    {before after : List (RangeType K PartitionService)} {range : RangeType K PartitionService}
    (persistent : environment.Persistent) (routed : Routed (environment.partitions id routingKeyComp) used ns)
    (retains : Retains kept ns) (located : ns.routingTable.At (some key) before range after) (given : used key)
    (serving : replica ∈ range.values) (stored : ns.cluster.Stores replica.storageService key value) :
    (∃ arrival, environment.AnswersFirst routingKeyComp arrival key replica ns) ∧
      (range.values.length ≤ 1000 → ∀ arrival, environment.AnswersFirst routingKeyComp arrival key replica ns →
        environment.getBytes routingKeyComp .initial arrival key ns =
          .ok (some (extractRecordFromValue value)) ns) := by
  obtain ⟨front, found, back, again, routes⟩ := @Routed.serversForKey _ _ _ _ _ _ _ _ routed key given
  obtain ⟨-, rfl, -⟩ := located.unique again
  have aligned := routed.aligned
  rw [located.split, aligned_append] at aligned
  obtain ⟨answers, servers, stores, requests⟩ := makeGetRequests_ran persistent retains.durable routes
    fun partition listed =>
      ⟨_, retains.hosts routed ⟨range, by simp [located.split], listed⟩ (aligned.2.1 partition listed)⟩
  rw [← servers, List.length_map]
  constructor
  · rw [← servers] at serving
    obtain ⟨answer, member, rfl⟩ := List.mem_map.mp serving
    obtain ⟨earlier, later, rfl⟩ := List.append_of_mem member
    obtain ⟨arrival, first⟩ := @exists_first_arrival _ (earlier.map (GetHandler.reply (K := K)))
      (later.map GetHandler.reply) (GetHandler.reply answer)
    refine ⟨arrival, _, .getResponse answer.2, (earlier ++ later).map GetHandler.reply, requests arrival, ?_⟩
    rw [List.map_append, List.map_append, List.map_cons]
    exact first
  · intro few arrival answersFirst
    obtain ⟨handler, reply, rest, made, first⟩ := answersFirst
    cases made.symm.trans (requests arrival)
    obtain ⟨arrived, replies, perm⟩ := arrival.exists_arrived GetHandler.reply answers
    obtain _ | ⟨answer, others⟩ := arrived
    · rw [replies] at first
      cases first
    obtain ⟨same, rfl⟩ := List.cons.inj (replies.symm.trans first)
    have newest : answer.2 = some value := by
      refine (stores answer (perm.subset List.mem_cons_self) value).mpr ?_
      rw [show answer.1 = replica from congrArg Prod.fst same]
      exact stored
    refine bind_ok.mpr ⟨_, ns, made, ofExcept_ok.mpr ⟨?_, rfl⟩⟩
    have some : 0 < answers.length := by
      rw [← perm.length_eq]
      exact Nat.succ_pos _
    change finishGetHandler _ (QuorumProtocolConfig.initial.readQuorumFor answers.length) = _
    rw [readQuorumFor_few some few, replies]
    refine (finishGetHandler_first key answers.length answer others).trans ?_
    rw [newest]
    rfl

/-- A put changes no partition, and no record of a server that it does not reach. -/
theorem putBytes_retains {config : QuorumProtocolConfig} {thrown : PartitionService → Option Fault}
    {currentTimeMillis clientID : Int64} {key : K} {value : Option Bytes}
    {before after : List (RangeType K PartitionService)} {range : RangeType K PartitionService}
    (routed : Routed (environment.partitions id routingKeyComp) used ns) (retains : Retains kept ns)
    (located : ns.routingTable.At (some key) before range after) (given : used key)
    (away : ∀ partition ∈ range.values, ∀ key value, ¬ kept partition.storageService key value)
    (ran : environment.putBytes routingKeyComp config thrown currentTimeMillis clientID key value ns = .ok .unit next) :
    Routed (environment.partitions id routingKeyComp) used next ∧ Retains kept next ∧
      next.routingTable = ns.routingTable ∧ next.creations = ns.creations := by
  obtain ⟨_, _, got, ran⟩ := bind_ok.mp ran
  cases got
  obtain ⟨servers, _, found, ran⟩ := bind_ok.mp ran
  obtain ⟨served, rfl⟩ := ofExcept_ok.mp found
  obtain ⟨responses, last, requested, ran⟩ := bind_ok.mp ran
  obtain ⟨_, _, blocked, ran⟩ := bind_ok.mp ran
  obtain ⟨_, rfl⟩ := ofExcept_ok.mp blocked
  cases ran
  obtain ⟨front, place, back, again, routes⟩ := @Routed.serversForKey _ _ _ _ _ _ _ _ routed key given
  obtain ⟨-, rfl, -⟩ := located.unique again
  cases served.symm.trans routes
  obtain ⟨retained, same, issued, opened⟩ := requests_retain retains away requested
  rw [same]
  refine ⟨routed.recluster issued opened, ?_, rfl, rfl⟩
  rw [← same]
  exact retained

end

/-- A copy that reads a record outside of its range makes gets go back: once the record is put again and
the range that has it is copied to the same server too, the first reply may be what was put before. -/
theorem Environment.inexact_copy_goes_stale {K : Type} [order : LinearOrder K] [DecidableEq K] [ToString K]
    (environment : Environment K Value) (routingKeyComp : K → K → Int) (zookeeper : String → Option NamespaceRoot)
    (used : K → Prop) (settings : CopySettings) (persistent : environment.Persistent)
    (iterates : environment.Iterates settings) (compared : AgreesOn used routingKeyComp) {server : StorageService}
    {cluster : Cluster environment} {events : List (NamespaceEvent K)}
    {ns before final : RoutedNamespace K (Cluster environment)} (unused : cluster.Unused)
    (created : (environment.ranged routingKeyComp).doCreate server
      ((environment.ranged routingKeyComp).unopened cluster) = .ok .unit ns)
    (ran : run (environment.step routingKeyComp zookeeper) ns events = some before)
    (careful : Along (environment.step routingKeyComp zookeeper)
      (fun before event _ => event.Careful routingKeyComp settings used before) ns events)
    {partition other : PartitionService} {target : StorageService} {bounds : Option K × Option K} {key : K}
    {old : Value} {servers : List PartitionService} (listed : Listed before partition)
    (made : Created before partition bounds) (stored : before.cluster.Stores partition.storageService key old)
    (reads : Reads order settings bounds key) (outside : ¬ Within order bounds key) (given : used key)
    (routes : (environment.ranged routingKeyComp).serversForKey before key = .ok servers) (serving : other ∈ servers)
    (away : ∀ partition ∈ servers, partition.storageService ≠ target)
    {first second : Iteration PartitionService} {currentTimeMillis clientID : Int64} {value : Option Bytes}
    (goes : run (environment.step routingKeyComp zookeeper) before
      [.call (.replicatePartitions [(partition, target)]) first, .put currentTimeMillis clientID key value,
        .call (.replicatePartitions [(other, target)]) second] = some final) :
    ∃ stale replica, (environment.ranged routingKeyComp).serversForKey final key = .ok stale ∧ replica ∈ stale ∧
      environment.request none replica (.getRequest key) final.cluster =
        .ok (some (.getResponse (some old))) final.cluster ∧
      (∃ arrival, environment.AnswersFirst routingKeyComp arrival key replica final) ∧
      (stale.length ≤ 1000 → ∀ arrival, environment.AnswersFirst routingKeyComp arrival key replica final →
        environment.getBytes routingKeyComp .initial arrival key final =
          .ok (NamespaceEvent.lastPut events key) final) := by
  have mapped := @along_refines _ _ (environment.step routingKeyComp zookeeper) _ _ NamespaceEvent.apply
    (Mapped routingKeyComp used) (fun _ => none) ns before events
    (fun mapped taken allowed => step_mapped persistent iterates compared mapped allowed taken)
    (doCreate_mapped persistent compared unused created) careful ran
  obtain ⟨replicated, one, goes⟩ := run_cons goes
  obtain ⟨written, put, goes⟩ := run_cons goes
  obtain ⟨_, two, goes⟩ := run_cons goes
  cases goes
  obtain ⟨front, range, back, located, known, _⟩ := mapped.servers given
  cases routes.symm.trans known
  obtain ⟨routed, brought, ⟨_, place, _, next, missed⟩, others⟩ := replicate_outside persistent iterates compared mapped
    listed made stored reads outside given located away one
  -- The put does not reach the server.
  obtain ⟨routedPut, retains, table, creations⟩ : Routed (environment.partitions id routingKeyComp) used written ∧
      Retains (fun place other found => place = target ∧ other = key ∧ found = old) written ∧
        written.routingTable = replicated.routingTable ∧ written.creations = replicated.creations := by
    rw [Environment.step] at put
    split at put
    · rename_i answered
      cases put
      exact putBytes_retains routed brought next given
        (fun partition among key value known => missed partition among known.1) answered
    · cases put
  obtain ⟨remains, creation⟩ := others other _ ⟨range, by simp [located.split], serving⟩
    (mapped.placement.hosts located.split serving).1
  rw [Listed, ← table] at remains
  rw [Created, ← creations] at creation
  obtain ⟨routedLast, lasting, _, found, _, replica, last, served, among, home, hosts⟩ := replicate_stays persistent
    compared routedPut retains remains creation (contains_of_located located) given two
  have stale := lasting.stores target key old ⟨rfl, rfl, rfl⟩
  rw [← home] at stale
  obtain ⟨value, answered, stores⟩ := request_get persistent lasting.durable hosts key
  obtain rfl : value = some old := (stores old).mpr stale
  have previous := (mapped.stores_iff located).mp stored
  rw [← NamespaceEvent.lastPut_eq, previous.1]
  exact ⟨found.values, replica, served, among, answered,
    getBytes_first persistent routedLast lasting last given among stale⟩

/-- Two halves of a namespace on one server, and a record where they meet. -/
def putAtBoundary : List (NamespaceEvent Nat) :=
  [.call (.setPartitionScheme [(none, [testServer 1]), (some 5, [testServer 1])]) (.inserted _),
    .put 1000 7 5 (some [1])]

def leftHalf : PartitionService := ⟨"localhost", 9001, .number 2, "test0000000002", testServer 1⟩

def rightHalf : PartitionService := ⟨"localhost", 9001, .number 1, "test0000000001", testServer 1⟩

/-- One half and then the other is replicated, and the record is put in between. -/
def replicateBoth : List (NamespaceEvent Nat) :=
  [.call (.replicatePartitions [(leftHalf, testServer 2)]) (.inserted _), .put 2000 7 5 (some [2]),
    .call (.replicatePartitions [(rightHalf, testServer 2)]) (.inserted _)]

theorem inexact_copy_goes_stale_boundary : ∃ final : RoutedNamespace Nat (Cluster recordEnvironment),
    NamespaceEvent.lastPut (putAtBoundary ++ replicateBoth) 5 = some [2] ∧
      ∃ replica arrival, recordEnvironment.AnswersFirst (Comparator.threeWay Nat).compare arrival 5 replica final ∧
        recordEnvironment.getBytes (Comparator.threeWay Nat).compare .initial arrival 5 final =
          .ok (some [1]) final := by
  have evaluated : returns
      (fun _ ns => (run (recordEnvironment.step (Comparator.threeWay Nat).compare testNamespaces) ns putAtBoundary).any
        fun before => decide (before.routingTable.rTable = [⟨none, [leftHalf]⟩, ⟨some 5, [rightHalf]⟩]) &&
          decide ((leftHalf, (none, some 5)) ∈ before.creations) &&
          decide ((5, createMetadata 1000 7 [1]) ∈ before.cluster.records (testServer 1)) &&
          decide (((recordEnvironment.ranged (Comparator.threeWay Nat).compare).serversForKey before 5).toOption =
            some [rightHalf]) &&
          (run (recordEnvironment.step (Comparator.threeWay Nat).compare testNamespaces) before replicateBoth).any
            fun final =>
              (((recordEnvironment.ranged (Comparator.threeWay Nat).compare).serversForKey final 5).toOption.any
              fun stale => decide (stale.length ≤ 1000)))
      ((recordEnvironment.ranged (Comparator.threeWay Nat).compare).doCreate (testServer 0)
        ((recordEnvironment.ranged (Comparator.threeWay Nat).compare).unopened recordCluster)) = true := by
    decide +kernel
  obtain ⟨_, ns, created, evaluated⟩ := exists_ok evaluated
  obtain ⟨before, ran, evaluated⟩ := (Option.any_eq_true _ _).mp evaluated
  simp only [Bool.and_eq_true, decide_eq_true_eq] at evaluated
  obtain ⟨⟨⟨⟨table, creation⟩, stored⟩, servers⟩, evaluated⟩ := evaluated
  obtain ⟨final, goes, few⟩ := (Option.any_eq_true _ _).mp evaluated
  have careful : Along (recordEnvironment.step (Comparator.threeWay Nat).compare testNamespaces)
      (fun before event _ => event.Careful (Comparator.threeWay Nat).compare ⟨none, none⟩ (fun _ => True) before) ns
      putAtBoundary :=
    careful_of_scheme (show recordEnvironment.Persistent from rfl) (Comparator.threeWay Nat).agrees recordCluster_unused
      created (by unfold Increasing; decide) (by decide) (by simp)
  have routes : (recordEnvironment.ranged (Comparator.threeWay Nat).compare).serversForKey before 5 =
      .ok [rightHalf] := by
    cases found : (recordEnvironment.ranged (Comparator.threeWay Nat).compare).serversForKey before 5 with
    | error failure =>
        rw [found] at servers
        cases servers
    | ok values =>
        rw [found] at servers
        rw [Option.some_inj.mp servers]
  obtain ⟨stale, replica, served, _, _, ⟨arrival, first⟩, answers⟩ := recordEnvironment.inexact_copy_goes_stale
    (Comparator.threeWay Nat).compare testNamespaces (fun _ => True) ⟨none, none⟩ rfl recordEnvironment_iterates
    (Comparator.threeWay Nat).agrees recordCluster_unused created ran careful
    ⟨⟨none, [leftHalf]⟩, by simp [table], List.mem_cons_self⟩ creation stored (.inr (by decide))
    (by unfold Within; decide) trivial routes List.mem_cons_self (by decide) goes
  rw [served] at few
  exact ⟨final, by decide, replica, arrival, first, answers (of_decide_eq_true few) arrival first⟩

end Scads.Client
