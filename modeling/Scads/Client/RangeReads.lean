import Scads.Client.Namespace

namespace Scads.Client

open Scads.Data Scads.Comm Scads.Server Scads.Util

/-! # What range reads return -/

variable {K : Type} [LinearOrder K] {space : Namespace K} {config : QuorumProtocolConfig}
  {readRatio writeRatio : ℚ} {arrival : RangeDesc K → List PartitionService}

/-- Every server of a range replies once. -/
def AllReply (arrival : RangeDesc K → List PartitionService) : Prop :=
  ∀ range, (arrival range).Perm range.servers

omit [LinearOrder K] in
theorem flatMap_keyAndBytes (entries : List (K × Value)) :
    (entries.map toRecord).flatMap keyAndBytes = entries.map toBytes := by
  induction entries with
  | nil => rfl
  | cons entry rest ih => simp [keyAndBytes, toRecord, toBytes, ih]

/-- The handle of a request, with the replies as range reads of the databases. -/
theorem newRangeHandle_network (space : Namespace K) (arrival : RangeDesc K → List PartitionService)
    (desc : RangeDesc K) (limit offset : Option Int) (ascending : Bool) :
    newRangeHandle (sendRequest (space.network arrival) desc limit offset ascending) =
      RangeHandle.opened desc.servers.length ((arrival desc).map fun server =>
        (server, (space.databases server.storageService).getRange desc.startKey desc.endKey limit offset
          ascending)) := by
  simp [newRangeHandle, sendRequest, RangeHandle.opened, Namespace.network, process]

theorem readQuorum_bounds (accepted : setReadWriteQuorum readRatio writeRatio = .ok config) {count : Nat}
    (replicated : 1 ≤ count) : 1 ≤ config.readQuorumFor count ∧ config.readQuorumFor count ≤ count := by
  obtain ⟨⟨positive, bound⟩, _, _, rfl⟩ := setReadWriteQuorum_ok_iff.mp accepted
  exact ⟨quorumOf_pos replicated positive, quorumOf_le bound⟩

/-- A vote over equal replies of all servers of a range. -/
theorem voted_same (accepted : setReadWriteQuorum readRatio writeRatio = .ok config) {fetch : Fetch K}
    {replies : List (PartitionService × List (Record K Value))} {records : List (Record K Value)}
    (arrived : fetch.responses = replies.map fun reply => (reply.1, .getRangeResponse reply.2))
    (complete : replies.length = fetch.futures) (replicated : 1 ≤ fetch.futures)
    (same : ∀ reply ∈ replies, reply.2 = records) (defined : ∀ record ∈ records, record.value ≠ none) :
    Voted config fetch records := by
  obtain ⟨positive, bound⟩ := readQuorum_bounds accepted replicated
  obtain ⟨handle, voted, agreed⟩ := @RangeHandle.vote_agreed _ _ _ _ fetch.futures _ _ _ defined same
    positive (by rw [complete]; exact bound)
  refine ⟨handle, ?_, agreed.responded, agreed.winners⟩
  rw [newRangeHandle, arrived]
  exact voted

/-- A vote over a piece that all servers of its tile agree on. -/
theorem voted_piece (accepted : setReadWriteQuorum readRatio writeRatio = .ok config)
    (replies : AllReply arrival) {desc : RangeDesc K} {piece : List (K × Value)}
    (serves : Serves space desc piece) (limit offset : Option Int) (ascending : Bool) :
    Voted config (sendRequest (space.network arrival) desc limit offset ascending)
      ((Database.limited limit ((Database.directed ascending piece).drop (offset.getD 0).toNat)).map
        toRecord) := by
  refine @voted_same _ _ _ _ _ accepted _ ((arrival desc).map fun server => (server,
    (space.databases server.storageService).getRange desc.startKey desc.endKey limit offset ascending)) _ ?_ ?_
    (List.length_pos_iff.mpr serves.1) ?_ ?_
  · simp [sendRequest, Namespace.network, process]
  · rw [List.length_map, (replies desc).length_eq]
    rfl
  · intro reply member
    obtain ⟨server, known, rfl⟩ := List.mem_map.mp member
    rw [Database.getRange_eq, serves.2 server ((replies desc).subset known)]
    rfl
  · intro record member
    obtain ⟨entry, _, rfl⟩ := List.mem_map.mp member
    simp [toRecord]

theorem forall₂_directed {α β : Type} {related : α → β → Prop} {left : List α} {right : List β}
    (ascending : Bool) (pairs : List.Forall₂ related left right) :
    List.Forall₂ related (Database.directed ascending left) (Database.directed ascending right) := by
  cases ascending with
  | true => exact pairs
  | false => exact List.forall₂_reverse_iff.mpr pairs

/-- An unlimited read over separated partitions: each piece without as many records
as the offset says. -/
theorem getKeys_pieces (accepted : setReadWriteQuorum readRatio writeRatio = .ok config)
    (replies : AllReply arrival) {startKey endKey : Option K} {descs : List (RangeDesc K)}
    (routed : serversForKeyRange space.routingTable startKey endKey = .ok descs)
    (tiling : Tiling space.routingTable startKey endKey descs)
    (separated : space.Separated startKey endKey) (offset : Option Int) (ascending : Bool) :
    getKeys config space.routingTable (space.network arrival) startKey endKey none offset ascending =
      .ok (((Database.directed ascending (pieces space.content.entries descs)).flatMap fun piece =>
        (Database.directed ascending piece).drop (offset.getD 0).toNat).map toBytes) := by
  have served := forall₂_directed ascending (space.serves_pieces tiling separated)
  refine (getKeys_unlimited routed).mpr
    ⟨(Database.directed ascending (pieces space.content.entries descs)).map fun piece =>
      ((Database.directed ascending piece).drop (offset.getD 0).toNat).map toRecord, ?_, ?_⟩
  · rw [List.forall₂_map_left_iff, List.forall₂_map_right_iff]
    exact served.imp fun desc piece serves => voted_piece accepted replies serves none offset ascending
  · rw [← flatMap_keyAndBytes, List.map_flatMap]
    rfl

theorem flatMap_directed {α : Type} (ascending : Bool) (lists : List (List α)) :
    (Database.directed ascending lists).flatMap (Database.directed ascending) =
      Database.directed ascending lists.flatten := by
  cases ascending with
  | true =>
      have same : Database.directed true = (id : List α → List α) := rfl
      rw [same]
      exact List.flatMap_id
  | false =>
      have same : Database.directed false = (List.reverse : List α → List α) := rfl
      rw [same, List.reverse_flatten, List.flatMap_def, ← List.map_reverse]
      rfl

/-- The records of a key range, piece by piece in the direction of the read. -/
theorem Tiling.records_eq {startKey endKey : Option K} {descs : List (RangeDesc K)}
    (tiling : Tiling space.routingTable startKey endKey descs) (ascending : Bool) :
    space.records startKey endKey ascending =
      ((Database.directed ascending (pieces space.content.entries descs)).flatMap
        (Database.directed ascending)).map toBytes := by
  rw [flatMap_directed, tiling.pieces_flatten, Namespace.records]

/-- A record that the first server to reply holds is in the outcome of the vote. -/
theorem first_reply_counts (accepted : setReadWriteQuorum readRatio writeRatio = .ok config)
    {desc : RangeDesc K} {server : PartitionService} {others : List PartitionService}
    (replicated : 1 ≤ desc.servers.length) (first : arrival desc = server :: others) {ascending : Bool}
    {records : List (Record K Value)}
    (voted : Voted config (sendRequest (space.network arrival) desc none none ascending) records)
    {key : K} (held : (space.databases server.storageService).get key ≠ none)
    (inside : Database.InRange desc.startKey desc.endKey key) :
    key ∈ (records.flatMap keyAndBytes).map Prod.fst := by
  obtain ⟨handle, won, _, rfl⟩ := voted
  rw [newRangeHandle_network, first, List.map_cons] at won
  have kept := RangeHandle.vote_first (readQuorum_bounds accepted replicated).1 won
  obtain ⟨value, stored⟩ := Option.ne_none_iff_exists'.mp held
  have entry : (key, value) ∈ Database.directed ascending
      ((space.databases server.storageService).entries.filter fun entry =>
        Database.InRange desc.startKey desc.endKey entry.1) := by
    have member : (key, value) ∈ (space.databases server.storageService).entries.filter fun entry =>
        Database.InRange desc.startKey desc.endKey entry.1 :=
      List.mem_filter.mpr ⟨Database.get_eq_some.mp stored, inside⟩
    cases ascending with
    | true => exact member
    | false => exact List.mem_reverse.mpr member
  have marked : (key, true) ∈ (handle.winners.map Winner.record).map RangeHandle.mark := by
    refine kept.subset ?_
    rw [Database.getRange_eq]
    exact List.mem_map.mpr ⟨toRecord (key, value), List.mem_map_of_mem entry, rfl⟩
  obtain ⟨record, known, same⟩ := List.mem_map.mp marked
  obtain ⟨keyed, valued⟩ := Prod.mk.inj same
  obtain ⟨found, present⟩ := Option.isSome_iff_exists.mp valued
  refine List.mem_map.mpr ⟨(key, extractRecordFromValue found), List.mem_flatMap.mpr ⟨record, known, ?_⟩, rfl⟩
  simp [keyAndBytes, present, keyed]

/-- What two neighbours both contribute is there twice. -/
theorem not_nodup_of_neighbours {α β γ : Type} {related : α → List β → Prop} {front back : List α}
    {left right : α} {lists : List (List β)} {contribution : List β → List γ} {found : γ}
    (pairs : List.Forall₂ related (front ++ left :: right :: back) lists)
    (leftHas : ∀ list, related left list → found ∈ contribution list)
    (rightHas : ∀ list, related right list → found ∈ contribution list) :
    ¬ (lists.flatMap contribution).Nodup := by
  induction front generalizing lists with
  | nil =>
      cases pairs with
      | @cons _ first _ lists isLeft rest =>
          cases rest with
          | @cons _ second _ lists isRight rest =>
              intro distinct
              rw [List.flatMap_cons, List.flatMap_cons] at distinct
              exact (List.disjoint_of_nodup_append distinct) (leftHas first isLeft)
                (List.mem_append_left _ (rightHas second isRight))
  | cons other front ih =>
      cases pairs with
      | cons isOther rest =>
          intro distinct
          rw [List.flatMap_cons] at distinct
          exact ih rest (List.Nodup.of_append_right distinct)

theorem records_nodup (space : Namespace K) (startKey endKey : Option K) (ascending : Bool) :
    ((space.records startKey endKey ascending).map Prod.fst).Nodup := by
  have sorted : ((space.content.entries.filter fun entry =>
      Database.InRange startKey endKey entry.1).map Prod.fst).Nodup :=
    List.pairwise_map.mpr ((space.content.sorted.filter _).imp fun less => less.ne)
  cases ascending with
  | true => simpa [Namespace.records, Database.directed, Function.comp_def, toBytes] using sorted
  | false => simpa [Namespace.records, Database.directed, Function.comp_def, toBytes] using sorted

theorem Namespace.records_of_empty (space : Namespace K) {startKey endKey : Option K}
    (empty : ∀ key, Database.InRange startKey endKey key = false) (ascending : Bool) :
    space.records startKey endKey ascending = [] := by
  have none : (space.content.entries.filter fun entry => Database.InRange startKey endKey entry.1) = [] :=
    List.filter_eq_nil_iff.mpr fun entry _ => by simp [empty]
  cases ascending <;> simp [Namespace.records, none, Database.directed]

theorem Namespace.held_of_hosts (space : Namespace K) {storage : StorageService} {key : K}
    (stored : space.content.get key ≠ none) (hosted : hosts space.routingTable storage key = true) :
    (space.databases storage).get key ≠ none := by
  obtain ⟨value, known⟩ := Option.ne_none_iff_exists'.mp stored
  have member : (key, value) ∈ (space.databases storage).entries := by
    rw [space.consistent]
    exact List.mem_filter.mpr ⟨Database.get_eq_some.mp known, hosted⟩
  rw [Database.get_eq_some.mpr member]
  simp

theorem hosts_of_meet {table : RoutingTable K} (shaped : table.Shaped) {boundary : K}
    {left right : List PartitionService} (meet : table.Meet boundary left right) {server : PartitionService}
    (member : server ∈ right) : hosts table server.storageService boundary = true := by
  obtain ⟨before, after, leftKey, split⟩ := meet
  have place := shaped.at_start
    (show table.rTable = (before ++ [⟨leftKey, left⟩]) ++ ⟨some boundary, right⟩ :: after by simp [split])
  rw [hosts_at shaped place]
  exact List.any_eq_true.mpr ⟨server, member, by simp⟩

/-- Replies in the order of the table, except that one server always comes first. -/
def firstToReply (server : PartitionService) (desc : RangeDesc K) : List PartitionService :=
  if server ∈ desc.servers then server :: desc.servers.erase server else desc.servers

omit [LinearOrder K] in
theorem allReply_firstToReply (server : PartitionService) :
    AllReply (firstToReply server : RangeDesc K → List PartitionService) := by
  intro desc
  unfold firstToReply
  split
  · rename_i member
    exact (List.perm_cons_erase member).symm
  · exact .refl _

section

variable {boundary : K} {left right : List PartitionService} {server other : PartitionService}

/-- A replica of the left partition whose storage server also has the right one
returns the record on the boundary. -/
theorem boundary_in_left (accepted : setReadWriteQuorum readRatio writeRatio = .ok config)
    (meet : space.routingTable.Meet boundary left right) (stored : space.content.get boundary ≠ none)
    (member : server ∈ left) (known : other ∈ right) (shared : server.storageService = other.storageService)
    {desc : RangeDesc K} (above : desc.startKey.all (· < boundary)) (ends : desc.endKey = some boundary)
    (servers : desc.servers = left) {ascending : Bool} {records : List (Record K Value)}
    (voted : Voted config (sendRequest (space.network (firstToReply server)) desc none none ascending)
      records) : boundary ∈ (records.flatMap keyAndBytes).map Prod.fst := by
  rw [← servers] at member
  refine first_reply_counts accepted (List.length_pos_of_mem member) (if_pos member) voted ?_ ?_
  · refine space.held_of_hosts stored ?_
    rw [shared]
    exact hosts_of_meet space.shaped meet known
  · rw [Database.InRange, ends, startKey_le.mpr (startKey_lt.mp above).le]
    simp

/-- Every replica of the right partition returns the record on its start. -/
theorem boundary_in_right (accepted : setReadWriteQuorum readRatio writeRatio = .ok config)
    (meet : space.routingTable.Meet boundary left right) (stored : space.content.get boundary ≠ none)
    (known : other ∈ right) {desc : RangeDesc K} (starts : desc.startKey = some boundary)
    (within : desc.endKey.all (boundary ≤ ·)) (servers : desc.servers = right) {ascending : Bool}
    {records : List (Record K Value)}
    (voted : Voted config (sendRequest (space.network (firstToReply server)) desc none none ascending)
      records) : boundary ∈ (records.flatMap keyAndBytes).map Prod.fst := by
  have order := allReply_firstToReply server desc
  rw [← servers] at meet known
  cases arrived : firstToReply server desc with
  | nil =>
      rw [arrived] at order
      rw [order.symm.eq_nil] at known
      cases known
  | cons first others =>
      refine first_reply_counts accepted (List.length_pos_of_mem known) arrived voted ?_ ?_
      · refine space.held_of_hosts stored (hosts_of_meet space.shaped meet (order.subset ?_))
        rw [arrived]
        exact List.mem_cons_self
      · rw [Database.InRange, starts, within]
        simp

end

/-- A complete read needs the partitions to be separated: a record on the boundary of
two partitions with a storage server in common would come back twice. -/
theorem separated_of_complete (accepted : setReadWriteQuorum readRatio writeRatio = .ok config)
    {startKey endKey : Option K} {descs : List (RangeDesc K)} {ascending : Bool}
    (routed : serversForKeyRange space.routingTable startKey endKey = .ok descs)
    (tiling : Tiling space.routingTable startKey endKey descs)
    (complete : ∀ arrival, AllReply arrival →
      getKeys config space.routingTable (space.network arrival) startKey endKey none none ascending =
        .ok (space.records startKey endKey ascending)) :
    space.Separated startKey endKey := by
  intro boundary left right meet above within stored server member other known shared
  obtain ⟨front, leftDesc, rightDesc, back, split, leftAbove, leftEnd, leftServers, rightStart, rightEnd,
    rightServers⟩ := tiling.at_boundary space.shaped meet above within
  obtain ⟨lists, votes, same⟩ :=
    (getKeys_unlimited routed).mp (complete _ (allReply_firstToReply server))
  rw [List.forall₂_map_left_iff, split] at votes
  have inLeft : ∀ list, Voted config (sendRequest (space.network (firstToReply server)) leftDesc none none
      ascending) list → boundary ∈ (list.flatMap keyAndBytes).map Prod.fst := fun list voted =>
    boundary_in_left accepted meet stored member known shared leftAbove leftEnd leftServers voted
  have inRight : ∀ list, Voted config (sendRequest (space.network (firstToReply server)) rightDesc none none
      ascending) list → boundary ∈ (list.flatMap keyAndBytes).map Prod.fst := fun list voted =>
    boundary_in_right accepted meet stored known rightStart rightEnd rightServers voted
  have distinct : (lists.flatMap fun list => (list.flatMap keyAndBytes).map Prod.fst).Nodup := by
    have keys := records_nodup space startKey endKey ascending
    rw [same, ← List.flatMap_id, List.flatMap_assoc, List.map_flatMap] at keys
    exact keys
  cases ascending with
  | true => exact not_nodup_of_neighbours votes inLeft inRight distinct
  | false =>
      simp only [Database.directed, Bool.false_eq_true, if_false, List.reverse_append, List.reverse_cons,
        List.append_assoc, List.cons_append, List.nil_append] at votes
      exact not_nodup_of_neighbours votes inRight inLeft distinct

/-- An unlimited read returns every record of the key range once and in order, for
every order of replies, exactly when no stored record sits on a boundary between
two partitions that share a storage server. -/
theorem getKeys_complete_iff (space : Namespace K)
    (accepted : setReadWriteQuorum readRatio writeRatio = .ok config) (startKey endKey : Option K)
    (ascending : Bool) :
    (∀ arrival, AllReply arrival →
      getKeys config space.routingTable (space.network arrival) startKey endKey none none ascending =
        .ok (space.records startKey endKey ascending)) ↔
    space.Separated startKey endKey := by
  obtain ⟨descs, routed, ⟨rfl, empty⟩ | tiling⟩ :=
    serversForKeyRange_tiling space.shaped startKey endKey
  · refine iff_of_true (fun arrival _ => ?_) fun boundary left right _ above within => ?_
    · rw [space.records_of_empty empty]
      refine (getKeys_unlimited routed).mpr ⟨[], ?_, rfl⟩
      cases ascending <;> exact .nil
    · have inside := empty boundary
      rw [Database.InRange, within, startKey_le.mpr (startKey_lt.mp above).le] at inside
      cases inside
  · constructor
    · exact separated_of_complete accepted routed tiling
    · intro separated arrival replies
      rw [getKeys_pieces accepted replies routed tiling separated, tiling.records_eq]
      rfl

/-- Two storage servers, and a record on the boundary. -/
theorem getKeys_complete_on_two_servers :
    let space := twoPartitions (partitionOn 1 "left") (partitionOn 2 "right")
      ⟨[recordOf 3 3, recordOf 5 5], by decide⟩
    setReadWriteQuorum 1 1 = .ok ⟨1, 1⟩ ∧
      getKeys ⟨1, 1⟩ space.routingTable (space.network RangeDesc.servers) (some 1) none none none false =
        .ok [(5, [5]), (3, [3])] := by
  have distinct := @twoPartitions_distinct (partitionOn 1 "left") (partitionOn 2 "right")
    ⟨[recordOf 3 3, recordOf 5 5], by decide⟩ (by decide)
  refine ⟨accepted_ones, ?_⟩
  rw [(getKeys_complete_iff _ accepted_ones (some 1) none false).mpr (distinct.separated (some 1) none)
    RangeDesc.servers fun _ => .refl _]
  simp [Namespace.records, twoPartitions, Database.InRange, Database.directed, recordOf, toBytes]

/-- After `splitPartition` both partitions share a storage server, and the record on
the boundary comes back twice. -/
theorem shared_boundary_read_twice :
    let space := twoPartitions (partitionOn 1 "left") (partitionOn 1 "right") ⟨[recordOf 5 5], by decide⟩
    setReadWriteQuorum 1 1 = .ok ⟨1, 1⟩ ∧ AllReply (RangeDesc.servers : RangeDesc Nat → _) ∧
      getKeys ⟨1, 1⟩ space.routingTable (space.network RangeDesc.servers) none none none none true =
        .ok [(5, [5]), (5, [5])] ∧
      space.records none none true = [(5, [5])] := by
  intro space
  have replies : AllReply (RangeDesc.servers : RangeDesc Nat → _) := fun _ => .refl _
  have routed : serversForKeyRange space.routingTable none none =
    .ok [⟨none, some 5, [partitionOn 1 "left"]⟩, ⟨some 5, none, [partitionOn 1 "right"]⟩] := rfl
  have hosted : hosts space.routingTable ⟨"localhost", 1, .name "storage"⟩ 5 = true := by decide
  have held : (space.databases ⟨"localhost", 1, .name "storage"⟩).entries = [recordOf 5 5] := by
    rw [space.consistent]
    exact List.filter_eq_self.mpr fun entry member => by rw [List.mem_singleton.mp member]; exact hosted
  have left : Serves space ⟨none, some 5, [partitionOn 1 "left"]⟩ [recordOf 5 5] := by
    refine ⟨by simp, fun server member => ?_⟩
    rw [List.mem_singleton.mp member, partitionOn, held]
    rfl
  have right : Serves space ⟨some 5, none, [partitionOn 1 "right"]⟩ [recordOf 5 5] := by
    refine ⟨by simp, fun server member => ?_⟩
    rw [List.mem_singleton.mp member, partitionOn, held]
    rfl
  refine ⟨accepted_ones, replies, ?_, ?_⟩
  · refine (getKeys_unlimited routed).mpr ⟨[[toRecord (recordOf 5 5)], [toRecord (recordOf 5 5)]], ?_, ?_⟩
    · exact .cons (voted_piece accepted_ones replies left none none true)
        (.cons (voted_piece accepted_ones replies right none none true) .nil)
    · simp [keyAndBytes, toRecord, recordOf]
  · simp [Namespace.records, space, twoPartitions, Database.InRange, Database.directed, recordOf, toBytes]

end Scads.Client
