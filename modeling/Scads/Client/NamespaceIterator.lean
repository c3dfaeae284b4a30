import Scads.Client.RangeReads
import Scads.Data.Chaining
import Scads.Data.Merging
import Scads.Server.PartitionIterators

namespace Scads.Client

open Scads.Data Scads.Comm Scads.Server Scads.Util

/-! # Iterating over a namespace

`NamespaceIterator` chains an iterator for each partition that a key range touches
and reads each from the first of its servers.  The databases of the servers are
whatever they are, as long as the servers of one range answer alike.
-/

section

variable {K Bulk : Type} [LinearOrder K]

/-- A partition with the first of its servers. -/
def firstServer (partition : RangeDesc K) : Except Failure (RangeDesc K × PartitionService) :=
  match partition.servers with
  | [] => .error (.noSuchElement "head of empty list")
  | server :: _ => .ok (partition, server)

def toBulk (bytesToBulk : K → Bytes → Bulk) (record : Record K Value) : Except Failure Bulk :=
  match record.value with
  | none => .error (.noSuchElement "None.get")
  | some value => .ok (bytesToBulk record.key (extractRecordFromValue value))

/-- The partition iterators one after the other, with their default page size. -/
def chained (databases : StorageService → Database K Value) (bytesToBulk : K → Bytes → Bulk)
    (partitions : List (RangeDesc K × PartitionService)) : Machine Failure Bulk :=
  let iterators := partitions.map fun partition =>
    ActorlessPartitionIterator.machine (answer (databases partition.2.storageService)) partition.1.startKey
      partition.1.endKey 1024
  (iterators.foldl Machine.append (.empty (.noSuchElement "next on empty iterator"))).map (toBulk bytesToBulk)

def iterateOverRange (routingTable : RoutingTable K) (databases : StorageService → Database K Value)
    (bytesToBulk : K → Bytes → Bulk) (startKey endKey : Option K) : Except Failure (Machine Failure Bulk) :=
  (serversForKeyRange routingTable startKey endKey >>= (·.mapM firstServer)).map (chained databases bytesToBulk)

/-- The replies of all servers of a range, each from its own database. -/
def serverReplies (databases : StorageService → Database K Value) (arrival : RangeDesc K → List PartitionService) :
    Network K :=
  fun range request => (arrival range).map fun server =>
    (server, (process (databases server.storageService) none (.getRangeRequest request)).2)

/-- The bounds of a request lie in a range of the table, which ends where the next one starts. -/
def RequestWithin (range : RangeType K PartitionService) (after : List (RangeType K PartitionService))
    (request : GetRangeRequest K) : Prop :=
  range.start ≤ onLine request.minKey ∧
    ∀ next ∈ after.head?, ∃ last, request.maxKey = some last ∧ onLine (some last) ≤ next.start

/-- The servers of a range give the same answer to every request for keys of the range. -/
def AnswerAlike (table : RoutingTable K) (databases : StorageService → Database K Value) : Prop :=
  ∀ before range after, table.rTable = before ++ range :: after → ∀ request, RequestWithin range after request →
    ∀ server ∈ range.values, ∀ other ∈ range.values,
      answer (databases server.storageService) request = answer (databases other.storageService) request

/-- All servers of a tile have these records of it. -/
def Agreed (databases : StorageService → Database K Value) (desc : RangeDesc K) (records : List (Record K Value)) :
    Prop :=
  desc.servers ≠ [] ∧ ∀ server ∈ desc.servers,
    (databases server.storageService).recordsWithin desc.startKey desc.endKey = records

theorem agreed_of_within {table : RoutingTable K} {databases : StorageService → Database K Value}
    (alike : AnswerAlike table databases) {before after : List (RangeType K PartitionService)}
    {range : RangeType K PartitionService} (split : table.rTable = before ++ range :: after)
    (replicated : range.values ≠ []) {startKey endKey : Option K}
    (within : RequestWithin range after ⟨startKey, endKey, none, none, true⟩) :
    ∃ records, Agreed databases ⟨startKey, endKey, range.values⟩ records := by
  obtain ⟨first, others, listed⟩ := List.exists_cons_of_ne_nil replicated
  have member : first ∈ range.values := by
    rw [listed]
    exact List.mem_cons_self
  refine ⟨(databases first.storageService).recordsWithin startKey endKey, replicated, fun server known => ?_⟩
  have same := alike before range after split _ within server known first member
  simp only [answer, process, Option.some.injEq, StorageMessage.getRangeResponse.injEq] at same
  rw [Database.getRange_eq, Database.getRange_eq] at same
  exact same

variable {table : RoutingTable K} {databases : StorageService → Database K Value} {startKey endKey : Option K}
  {descs : List (RangeDesc K)}

theorem agreed_tiles (replicated : ∀ range ∈ table.rTable, range.values ≠ []) (alike : AnswerAlike table databases)
    (tiling : Tiling table startKey endKey descs)
    (forward : ∀ first last, startKey = some first → endKey = some last → first ≤ last) :
    ∃ lists, List.Forall₂ (Agreed databases) descs lists := by
  induction tiling with
  | @last startKey endKey before after range located owned =>
      have within : RequestWithin range after ⟨startKey, endKey, none, none, true⟩ := by
        refine ⟨located.reached, fun next member => ?_⟩
        have later : next ∈ after := List.mem_of_mem_head? member
        cases endKey with
        | none =>
            -- the start of the next range would be one of the keys of this one
            exfalso
            have beyond : onLine startKey < next.start := located.beyond next later
            cases starts : next.startKey with
            | none =>
                rw [RangeType.start, starts] at beyond
                exact absurd beyond not_lt_bot
            | some boundary =>
                have starting : next.start = onLine (some boundary) := by rw [RangeType.start, starts]
                rw [starting] at beyond
                have reached : Database.InRange startKey none boundary = true := by
                  rw [Database.InRange, startKey_le.mpr beyond.le]
                  rfl
                have less := (owned boundary reached).beyond next later
                rw [starting] at less
                exact absurd less (lt_irrefl _)
        | some last =>
            have reached : Database.InRange startKey (some last) last = true := by
              have above : startKey.all (· ≤ last) = true := by
                cases startKey with
                | none => rfl
                | some first => simpa using forward first last rfl rfl
              rw [Database.InRange, above]
              simp
            exact ⟨last, rfl, ((owned last reached).beyond next later).le⟩
      obtain ⟨records, agreed⟩ := agreed_of_within alike located.split
        (replicated range (by simp [located.split])) within
      exact ⟨[records], .cons agreed .nil⟩
  | @more startKey endKey before after range next boundary rest located starts owned within tail ih =>
      have inside : RequestWithin range (next :: after) ⟨startKey, some boundary, none, none, true⟩ := by
        refine ⟨located.reached, fun other member => ?_⟩
        cases member
        exact ⟨boundary, rfl, by rw [RangeType.start, starts]⟩
      obtain ⟨records, agreed⟩ := agreed_of_within alike located.split
        (replicated range (by simp [located.split])) inside
      obtain ⟨lists, others⟩ := ih fun first last same ends => by
        cases same
        rw [ends] at within
        simpa using within
      exact ⟨records :: lists, .cons agreed others⟩

theorem recordsWithin_defined {database : Database K Value} {record : Record K Value}
    (member : record ∈ database.recordsWithin startKey endKey) : record.value ≠ none := by
  obtain ⟨entry, -, rfl⟩ := List.mem_map.mp member
  exact Option.some_ne_none _

section

variable {config : QuorumProtocolConfig} {readRatio writeRatio : ℚ} {arrival : RangeDesc K → List PartitionService}
  {desc : RangeDesc K} {records : List (Record K Value)}

theorem Agreed.defined (agreed : Agreed databases desc records) : ∀ record ∈ records, record.value ≠ none := by
  obtain ⟨server, others, listed⟩ := List.exists_cons_of_ne_nil agreed.1
  intro record member
  rw [← agreed.2 server (by rw [listed]; exact List.mem_cons_self)] at member
  exact recordsWithin_defined member

theorem Agreed.voted (agreed : Agreed databases desc records)
    (accepted : setReadWriteQuorum readRatio writeRatio = .ok config) (replies : AllReply arrival) :
    Voted config (sendRequest (serverReplies databases arrival) desc none none true) records := by
  refine @voted_same _ _ _ _ _ accepted _ ((arrival desc).map fun server => (server,
    (databases server.storageService).getRange desc.startKey desc.endKey none none true)) _ ?_ ?_
    (List.length_pos_iff.mpr agreed.1) ?_ agreed.defined
  · simp [sendRequest, serverReplies, process]
  · rw [List.length_map, (replies desc).length_eq]
    rfl
  · intro reply member
    obtain ⟨server, known, rfl⟩ := List.mem_map.mp member
    rw [← agreed.2 server ((replies desc).subset known), Database.getRange_eq]
    rfl

theorem Agreed.first (agreed : Agreed databases desc records) :
    ∃ server, firstServer desc = .ok (desc, server) ∧
      (ActorlessPartitionIterator.machine (answer (databases server.storageService)) desc.startKey desc.endKey
        1024).Opens (.ok (.ofList records)) := by
  obtain ⟨server, others, listed⟩ := List.exists_cons_of_ne_nil agreed.1
  refine ⟨server, by rw [firstServer, listed], ?_⟩
  rw [← agreed.2 server (by rw [listed]; exact List.mem_cons_self)]
  exact ActorlessPartitionIterator.opens (by decide) _ _ _

end

theorem chained_opens {lists : List (List (Record K Value))} (agreed : List.Forall₂ (Agreed databases) descs lists) :
    ∃ partitions, descs.mapM firstServer = .ok partitions ∧
      List.Forall₂ (fun machine records => machine.Opens (.ok (.ofList records)))
        (partitions.map fun partition => ActorlessPartitionIterator.machine
          (answer (databases partition.2.storageService)) partition.1.startKey partition.1.endKey 1024) lists := by
  induction agreed with
  | nil => exact ⟨[], rfl, .nil⟩
  | @cons desc records descs lists here others ih =>
      obtain ⟨server, first, opens⟩ := here.first
      obtain ⟨partitions, mapped, rest⟩ := ih
      refine ⟨(desc, server) :: partitions, ?_, .cons opens rest⟩
      rw [List.mapM_cons, first, mapped]
      rfl

omit [LinearOrder K] in
/-- A record with a value as `getKeys` and the iterator return it. -/
theorem toBulk_keyAndBytes (bytesToBulk : K → Bytes → Bulk) {records : List (Record K Value)}
    (defined : ∀ record ∈ records, record.value ≠ none) :
    List.Forall₂ (fun record bulk => toBulk bytesToBulk record = .ok bulk) records
      ((records.flatMap keyAndBytes).map fun pair => bytesToBulk pair.1 pair.2) := by
  induction records with
  | nil => exact .nil
  | cons record records ih =>
      obtain ⟨value, held⟩ := Option.ne_none_iff_exists'.mp (defined record List.mem_cons_self)
      rw [List.flatMap_cons, List.map_append]
      have here : keyAndBytes record = [(record.key, extractRecordFromValue value)] := by rw [keyAndBytes, held]; rfl
      rw [here]
      exact .cons (by rw [toBulk, held]) (ih fun other member => defined other (List.mem_cons_of_mem _ member))

/-- The iterator, read to its end, gives the records that `getKeys` returns for the
same bounds. -/
theorem iteration_agrees_with_getKeys (shaped : table.Shaped)
    (replicated : ∀ range ∈ table.rTable, range.values ≠ []) (alike : AnswerAlike table databases)
    {config : QuorumProtocolConfig} {readRatio writeRatio : ℚ}
    (accepted : setReadWriteQuorum readRatio writeRatio = .ok config)
    {arrival : RangeDesc K → List PartitionService} (replies : AllReply arrival) (bytesToBulk : K → Bytes → Bulk)
    (forward : ∀ first last, startKey = some first → endKey = some last → first ≤ last) :
    ∃ machine records, iterateOverRange table databases bytesToBulk startKey endKey = .ok machine ∧
      getKeys config table (serverReplies databases arrival) startKey endKey none none true = .ok records ∧
      Settles machine.drain (.ok (records.map fun pair => bytesToBulk pair.1 pair.2)) := by
  obtain ⟨descs, routed, tiled⟩ := serversForKeyRange_tiling shaped startKey endKey
  obtain ⟨lists, agreed⟩ : ∃ lists, List.Forall₂ (Agreed databases) descs lists := by
    obtain ⟨rfl, -⟩ | tiling := tiled
    · exact ⟨[], .nil⟩
    · exact agreed_tiles replicated alike tiling forward
  obtain ⟨partitions, mapped, opens⟩ := chained_opens agreed
  refine ⟨chained databases bytesToBulk partitions, lists.flatten.flatMap keyAndBytes, ?_, ?_, ?_⟩
  · rw [iterateOverRange, routed, ok_bind, mapped]
    rfl
  · refine (getKeys_unlimited routed).mpr ⟨lists, List.forall₂_map_left_iff.mpr ?_, rfl⟩
    exact agreed.imp fun desc records agreed => agreed.voted accepted replies
  · have defined : ∀ record ∈ lists.flatten, record.value ≠ none := by
      intro record member
      obtain ⟨records, listed, member⟩ := List.mem_flatten.mp member
      obtain ⟨desc, -, holds⟩ := forall₂_mem_right agreed listed
      exact holds.defined record member
    have whole := Machine.opens_foldl (Machine.empty_opens (Failure.noSuchElement "next on empty iterator")) opens
    have settles := (Machine.Opens.map whole (toBulk_keyAndBytes bytesToBulk defined)).begins.drain
    rw [ok_bind, Course.outcome_ofList] at settles
    exact settles

/-- Ranges with one server each answer alike. -/
theorem answerAlike_of_single (single : ∀ range ∈ table.rTable, ∃ server, range.values = [server]) :
    AnswerAlike table databases := by
  intro before range after split request _ server known other listed
  obtain ⟨only, alone⟩ := single range (by simp [split])
  rw [alone] at known listed
  rw [List.mem_singleton.mp known, List.mem_singleton.mp listed]

end

theorem two_partitions_iterated :
    let space := twoPartitions (partitionOn 1 "left") (partitionOn 1 "right")
      ⟨[recordOf 3 3, recordOf 5 5, recordOf 8 8], by decide⟩
    AnswerAlike space.routingTable space.databases ∧
      ∃ machine records, iterateOverRange space.routingTable space.databases Prod.mk (some 2) (some 7) = .ok machine ∧
        getKeys ⟨1, 1⟩ space.routingTable (serverReplies space.databases RangeDesc.servers) (some 2) (some 7) none none
          true = .ok records ∧
        Settles machine.drain (.ok (records.map fun pair => (pair.1, pair.2))) := by
  intro space
  have alike : AnswerAlike space.routingTable space.databases := by
    refine answerAlike_of_single fun range member => ?_
    obtain rfl | second := List.mem_cons.mp member
    · exact ⟨_, rfl⟩
    · exact ⟨_, by rw [List.mem_singleton.mp second]⟩
  refine ⟨alike, iteration_agrees_with_getKeys space.shaped space.replicated alike accepted_ones (fun _ => .refl _)
    Prod.mk ?_⟩
  intro first last starts ends
  cases starts
  cases ends
  decide

end Scads.Client
