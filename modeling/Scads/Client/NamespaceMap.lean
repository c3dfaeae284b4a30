import Scads.Client.GetHandler
import Scads.Client.MappedRecords
import Scads.Comm.Futures

namespace Scads.Client

open Scads.Data Scads.Comm Scads.Server Scads.Util RangeTable Routable BdbStorageManager

/-! # A namespace as a map

Records are put and got while the namespace is split, merged, replicated and cut back and its
servers are restarted.
-/

section

variable {K : Type} [order : LinearOrder K]

/-- `putBytes`, with what the storage managers throw. -/
def Environment.putBytes (environment : Environment K Value) (routingKeyComp : K → K → Int)
    (config : QuorumProtocolConfig) (thrown : PartitionService → Option Fault) (currentTimeMillis clientID : Int64)
    (key : K) (value : Option Bytes) : Method K (Cluster environment) Unit := do
  let servers ← ofExcept ((environment.ranged routingKeyComp).serversForKey (← get) key)
  let putRequest : PutRequest K Value := ⟨key, value.map (createMetadata currentTimeMillis clientID)⟩
  let responses ← servers.mapM fun partition =>
    onCluster (environment.request (thrown partition) partition (.putRequest putRequest))
  let _ ← ofExcept (blockFor (config.writeQuorumFor servers.length) 5000 (responses.filterMap id))

/-- The handler of a get, whose replies arrive in the given order. -/
def Environment.makeGetRequests (environment : Environment K Value) (routingKeyComp : K → K → Int)
    (arrival : Iteration (PartitionService × StorageMessage K Value)) (key : K) :
    Method K (Cluster environment) (GetHandler PartitionService K) := do
  let servers ← ofExcept ((environment.ranged routingKeyComp).serversForKey (← get) key)
  let responses ← servers.mapM fun partition => do
    let response ← onCluster (environment.request none partition (.getRequest key))
    return response.map (partition, ·)
  return { key, futures := servers.length, responses := arrival.order (responses.filterMap id) }

def Environment.getBytes (environment : Environment K Value) (routingKeyComp : K → K → Int)
    (config : QuorumProtocolConfig) (arrival : Iteration (PartitionService × StorageMessage K Value)) (key : K) :
    Method K (Cluster environment) (Option Bytes) := do
  let handler ← environment.makeGetRequests routingKeyComp arrival key
  ofExcept (finishGetHandler handler (config.readQuorumFor handler.futures))

inductive NamespaceEvent (K : Type) where
  | call (made : Call K K) (arrival : Iteration PartitionService)
  | put (currentTimeMillis clientID : Int64) (key : K) (value : Option Bytes)
  | restart (server : StorageService)

/-- What a client or a server does next, if it returns. -/
def Environment.step [DecidableEq K] [ToString K] (environment : Environment K Value) (routingKeyComp : K → K → Int)
    (zookeeper : String → Option NamespaceRoot) (ns : RoutedNamespace K (Cluster environment)) :
    NamespaceEvent K → Option (RoutedNamespace K (Cluster environment))
  | .call made arrival => (environment.ranged routingKeyComp).step ns (made, arrival)
  | .put currentTimeMillis clientID key value =>
      match environment.putBytes routingKeyComp .initial (fun _ => none) currentTimeMillis clientID key value ns with
      | .ok _ next => some next
      | .error _ _ => none
  | .restart server =>
      match environment.restart zookeeper server ns.cluster with
      | .ok _ cluster => some { ns with cluster }
      | .error _ _ => none

namespace NamespaceEvent

/-- The map of the records after an event. -/
def apply (all : K → Option Value) : NamespaceEvent K → K → Option Value
  | .put currentTimeMillis clientID key value =>
      Function.update all key (value.map (createMetadata currentTimeMillis clientID))
  | _ => all

/-- Only keys in use are put. -/
def Careful [DecidableEq K] [ToString K] {environment : Environment K Value} (routingKeyComp : K → K → Int)
    (settings : CopySettings) (used : K → Prop) (ns : RoutedNamespace K (Cluster environment)) : NamespaceEvent K → Prop
  | .call made _ => Admitted (environment.partitions id routingKeyComp) used ns made ∧ Exact settings ns made
  | .put _ _ key _ => used key
  | .restart _ => True

/-- What is put last for a key. -/
def lastPut (events : List (NamespaceEvent K)) (key : K) : Option Bytes :=
  events.foldl (fun found event =>
    match event with
    | .put _ _ other value => if key = other then value else found
    | _ => found) none

theorem lastPut_eq (events : List (NamespaceEvent K)) (key : K) :
    (events.foldl apply (fun _ => none) key).map extractRecordFromValue = lastPut events key := by
  have follows : ∀ (all : K → Option Value) (found : Option Bytes), (all key).map extractRecordFromValue = found →
      (events.foldl apply all key).map extractRecordFromValue = events.foldl (fun found event =>
        match event with
        | .put _ _ other value => if key = other then value else found
        | _ => found) found := by
    induction events with
    | nil => exact fun _ _ same => same
    | cons event rest ih =>
        intro all found same
        refine ih _ _ ?_
        cases event with
        | call => exact same
        | restart => exact same
        | put currentTimeMillis clientID other value =>
            change (Function.update all other _ key).map _ = if key = other then value else found
            rw [Function.update_apply]
            split
            · simp [Option.map_map, Function.comp_def]
            · exact same
  exact follows _ none rfl

end NamespaceEvent

end

namespace GetHandler

variable {S : Type} {answers : List (S × Option Value)} {value newest : Option Value}

/-- Among answers with one value the newest is this value. -/
theorem newest_eq (answered : answers ≠ []) (same : ∀ answer ∈ answers, answer.2 = value)
    (maximal : ∀ answer ∈ answers, rank answer.2 ≤ rank newest)
    (attained : newest = none ∨ ∃ answer ∈ answers, answer.2 = newest) : newest = value := by
  rcases attained with rfl | ⟨answer, member, equal⟩
  · obtain ⟨answer, member⟩ := List.exists_mem_of_ne_nil _ answered
    have below := maximal answer member
    rw [same answer member] at below
    cases value with
    | none => rfl
    | some value => simp [rank] at below
  · exact equal.symm.trans (same answer member)

end GetHandler

namespace Routable

variable {K : Type} [order : LinearOrder K] {environment : Environment K Value} {routingKeyComp : K → K → Int}
  {used : K → Prop} {all : K → Option Value} {ns next : RoutedNamespace K (Cluster environment)}
  {settings : CopySettings} {zookeeper : String → Option NamespaceRoot}

/-- A put returns, and the map has its value. -/
theorem putBytes_mapped (persistent : environment.Persistent) (mapped : Mapped routingKeyComp used all ns)
    (currentTimeMillis clientID : Int64) {key : K} (given : used key) (value : Option Bytes) :
    ∃ next, environment.putBytes routingKeyComp .initial (fun _ => none) currentTimeMillis clientID key value ns =
        .ok .unit next ∧
      Mapped routingKeyComp used
        (Function.update all key (value.map (createMetadata currentTimeMillis clientID))) next := by
  obtain ⟨before, range, after, located, routes, _⟩ := mapped.servers given
  obtain ⟨cluster, requests, written⟩ := @puts_ran _ _ _ _ ns persistent range.values key
    (value.map (createMetadata currentTimeMillis clientID)) (fun partition listed =>
      ⟨_, (mapped.placement.hosts located.split listed).2, contains_of_located located⟩) mapped.tidy
  refine ⟨{ ns with cluster }, ?_, written.mapped mapped located⟩
  obtain ⟨taken, answered⟩ : ∃ taken, blockFor (QuorumProtocolConfig.initial.writeQuorumFor range.values.length) 5000
      ((range.values.map fun _ => some (.putResponse : StorageMessage K Value)).filterMap id) = .ok taken := by
    have enough : QuorumProtocolConfig.initial.writeQuorumFor range.values.length ≤ range.values.length :=
      quorumOf_le le_rfl
    rw [blockFor_eq, if_pos (by simpa using enough)]
    exact ⟨_, rfl⟩
  refine bind_ok.mpr ⟨ns, ns, rfl, bind_ok.mpr ⟨range.values, ns, ofExcept_ok.mpr ⟨routes, rfl⟩, ?_⟩⟩
  exact bind_ok.mpr ⟨_, _, requests, bind_ok.mpr ⟨_, _, ofExcept_ok.mpr ⟨answered, rfl⟩, rfl⟩⟩

/-- Open partitions answer a get with what their servers store. -/
theorem gets_ran (persistent : environment.Persistent) (durable : ns.cluster.Durable) {servers : List PartitionService}
    (hosted : ∀ partition ∈ servers, ∃ bounds, ns.cluster.Hosts partition bounds) (key : K) :
    ∃ answers : List (PartitionService × Option Value), answers.map Prod.fst = servers ∧
      (∀ answer ∈ answers, ∀ found, answer.2 = some found ↔
        ns.cluster.Stores answer.1.storageService key found) ∧
      (servers.mapM fun partition => (do
          let response ← onCluster (environment.request none partition (.getRequest key))
          return response.map (partition, ·) : Method K (Cluster environment) _)) ns =
        .ok (answers.map fun answer => some (GetHandler.reply answer)) ns := by
  induction servers with
  | nil => exact ⟨[], rfl, by simp, rfl⟩
  | cons partition rest ih =>
      obtain ⟨bounds, hosts⟩ := hosted partition List.mem_cons_self
      obtain ⟨value, answered, stores⟩ := request_get persistent durable hosts key
      obtain ⟨answers, rfl, others, requests⟩ := ih fun other member => hosted other (List.mem_cons_of_mem _ member)
      refine ⟨(partition, value) :: answers, rfl, List.forall_mem_cons.mpr ⟨stores, others⟩, ?_⟩
      rw [List.mapM_cons]
      refine bind_ok.mpr ⟨some (partition, .getResponse value), ns, ?_, bind_ok.mpr ⟨_, ns, requests, rfl⟩⟩
      exact bind_ok.mpr ⟨_, _, onCluster_ok.mpr ⟨_, answered, rfl⟩, rfl⟩

/-- The replies to a get, in the order of the servers. -/
theorem makeGetRequests_ran (persistent : environment.Persistent) (durable : ns.cluster.Durable)
    {servers : List PartitionService} {key : K}
    (routes : (environment.ranged routingKeyComp).serversForKey ns key = .ok servers)
    (hosted : ∀ partition ∈ servers, ∃ bounds, ns.cluster.Hosts partition bounds) :
    ∃ answers : List (PartitionService × Option Value), answers.map Prod.fst = servers ∧
      (∀ answer ∈ answers, ∀ found, answer.2 = some found ↔
        ns.cluster.Stores answer.1.storageService key found) ∧
      ∀ arrival, environment.makeGetRequests routingKeyComp arrival key ns =
        .ok { key, futures := answers.length, responses := arrival.order (answers.map GetHandler.reply) } ns := by
  obtain ⟨answers, rfl, stores, requests⟩ := gets_ran persistent durable hosted key
  refine ⟨answers, rfl, stores, fun arrival => ?_⟩
  refine bind_ok.mpr ⟨ns, ns, rfl, bind_ok.mpr ⟨_, ns, ofExcept_ok.mpr ⟨routes, rfl⟩,
    bind_ok.mpr ⟨_, ns, requests, ?_⟩⟩⟩
  simp [pure, EStateM.pure, List.filterMap_map]

variable [DecidableEq K] [ToString K]

theorem step_mapped {event : NamespaceEvent K} (persistent : environment.Persistent)
    (iterates : environment.Iterates settings) (compared : AgreesOn used routingKeyComp)
    (mapped : Mapped routingKeyComp used all ns) (careful : event.Careful routingKeyComp settings used ns)
    (taken : environment.step routingKeyComp zookeeper ns event = some next) :
    Mapped routingKeyComp used (event.apply all) next := by
  cases event with
  | call made arrival =>
      change Routable.step _ ns (made, arrival) = some next at taken
      rw [Routable.step] at taken
      split at taken
      · rename_i ran
        cases taken
        exact call_mapped persistent iterates compared mapped careful.1 careful.2 ran
      · cases taken
  | put currentTimeMillis clientID key value =>
      obtain ⟨last, ran, kept⟩ := putBytes_mapped persistent mapped currentTimeMillis clientID careful value
      rw [Environment.step, ran] at taken
      cases taken
      exact kept
  | restart server =>
      rw [Environment.step] at taken
      split at taken
      · rename_i restarted
        cases taken
        exact restart_mapped mapped restarted
      · cases taken

/-- A new namespace has no record. -/
theorem doCreate_mapped {server : StorageService} {cluster : Cluster environment} (persistent : environment.Persistent)
    (compared : AgreesOn used routingKeyComp) (unused : cluster.Unused)
    (created : (environment.ranged routingKeyComp).doCreate server
      ((environment.ranged routingKeyComp).unopened cluster) = .ok .unit ns) :
    Mapped routingKeyComp used (fun _ => none) ns := by
  have routed := @doCreate_routed _ _ _ _ _ _ _ (environment.partitions id routingKeyComp) _ _ _ _ compared created
  have populated := doCreate_populated (environment.partitions id routingKeyComp) created
  have accounted := doCreate_accounted unused.live created
  obtain ⟨partitions, last, made, ran⟩ := bind_ok.mp created
  obtain ⟨_, _, replaced, checked⟩ := bind_ok.mp ran
  obtain ⟨table, _, passed, set⟩ := bind_ok.mp replaced
  obtain ⟨first, rfl⟩ := ofExcept_ok.mp passed
  obtain ⟨rfl, _⟩ := (storeRoutingTable_ok (environment.partitions id routingKeyComp)).mp checked
  have edited := (EStateM.Result.ok.inj set).2
  rw [← edited] at routed populated accounted ⊢
  have empty : Filled (fun _ => none) ((environment.ranged routingKeyComp).unopened cluster) := by
    refine ⟨⟨fun place that listed => ?_, fun place key value stored => absurd stored (unused.empty place key value)⟩,
      fun partition bounds logged => by cases logged⟩
    obtain ⟨opened, home⟩ := (unused.registered place).listed listed
    exact absurd home (unused.closed place that.1 that.2 opened)
  have filled := (createPartitions_filled persistent (fun _ opens => by cases opens) empty made).1
  have tidy := createPartitions_keeps (creates_tidy persistent) _ _ _ _ _ _ made unused.tidy
  refine ⟨⟨routed, filled.tables _ _, ?_, fun _ _ _ _ _ _ _ present => absurd present (by simp)⟩, populated, accounted,
    tidy⟩
  rw [create_of_head _ _ rfl] at first
  cases first
  rfl

/-- A scheme may be the first call, before there are records. -/
theorem careful_of_scheme {server : StorageService} {cluster : Cluster environment}
    {scheme : List (Option K × List StorageService)} {settings : CopySettings}
    {zookeeper : String → Option NamespaceRoot}
    {events : List (NamespaceEvent K)} {arrival : Iteration PartitionService} (persistent : environment.Persistent)
    (compared : AgreesOn (fun _ => True) routingKeyComp) (unused : cluster.Unused)
    (created : (environment.ranged routingKeyComp).doCreate server
      ((environment.ranged routingKeyComp).unopened cluster) = .ok .unit ns)
    (increasing : Increasing scheme) (serves : ∀ entry ∈ scheme, entry.2 ≠ [])
    (others : ∀ event ∈ events, ∀ made arrival, event ≠ .call made arrival) :
    Along (environment.step routingKeyComp zookeeper)
      (fun before event _ => event.Careful routingKeyComp settings (fun _ => True) before) ns
      (.call (.setPartitionScheme scheme) arrival :: events) := by
  rw [Along]
  split
  · trivial
  · refine ⟨⟨admitted_of_increasing fun other given => ?_, serves, fun place key value stored => ?_⟩,
      along_of_forall fun event member before _ => ?_⟩
    · cases given
      exact increasing
    · have empty := doCreate_mapped persistent compared unused created
      cases empty.placement.filled.stocked.contents place key value stored
    · cases event with
      | call made arrival => exact absurd rfl (others _ member made arrival)
      | put => trivial
      | restart => trivial

end Routable

/-- The servers of a test, for records with their metadata. -/
def recordEnvironment : Environment Nat Value where
  ns := "test"
  partitionType := "bdb"
  root := some ⟨"IntRec", true⟩
  sequentialNode := sequentialName "test"
  sequentialNode_injective := sequentialName_injective "test"
  serviceId _ number := .number number
  iteration _ := .inserted _
  copyIterator source minKey maxKey :=
    match source with
    | none => .error "GetRangeRequest timedout"
    | some database => .ok (database.iterateOverRange minKey maxKey none none true true)
  printed _ := "\x7b\x7d"
  printedException cause := "\x7b\"cause\": \"" ++ cause ++ "\"\x7d"
  databaseClosed := "Database was closed."

theorem distinct_nil : ∀ first ∈ ([] : List PartitionService), ∀ second ∈ ([] : List PartitionService),
    first.partitionId = second.partitionId → first = second := by
  simp

def recordCluster : Cluster recordEnvironment := ⟨fun _ => .empty, 0, [], by simp, distinct_nil⟩

theorem recordEnvironment_iterates : recordEnvironment.Iterates ⟨none, none⟩ := by
  refine iterates_of_range fun source startKey endKey records iterated => ?_
  cases source with
  | none => cases iterated
  | some database =>
      cases iterated
      exact ⟨database, rfl, rfl⟩

theorem recordCluster_unused : recordCluster.Unused where
  issued := rfl
  registered _ := StorageHandler.registered_empty
  stored _ _ _ opened := by cases opened
  closed _ _ _ opened := by cases opened
  empty _ _ _ stored := by cases stored

def testNamespaces (ns : String) : Option NamespaceRoot :=
  if ns = "test" then some ⟨"IntRec", true⟩ else none

end Scads.Client
