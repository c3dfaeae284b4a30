import Scads.Client.AggHandler
import Scads.Client.RangeReads
import Scads.Server.Aggregates
import Scads.Util.RoutingOrder

namespace Scads.Client

open Scads.Data Scads.Comm Scads.Server Scads.Util

/-! # Combining the results of an aggregation

`AggHandler.finish` gives the results of every reply to the local aggregates, and each
of them folds what it got, group by group.
-/

structure LocalAggregate (T R : Type) where
  init : T
  foldFunction : T → T → T
  finalize : T → R

/-- The variables of a local aggregate.  A builder that is none is null. -/
structure LocalResults (G T : Type) where
  curBuilder : Option (List T) := none
  replyMap : AList (fun _ : G => List T) := ∅

section

variable {G B T R : Type} [DecidableEq G]

def LocalResults.addForGroup (results : LocalResults G T) (group : Option G) (value : T) : LocalResults G T :=
  match group with
  | none => { results with curBuilder := some (results.curBuilder.getD [] ++ [value]) }
  | some group =>
      let builder := (results.replyMap.lookup group).getD [] ++ [value]
      { curBuilder := some builder, replyMap := results.replyMap.insert group builder }

def LocalAggregate.finishForGroup (aggregate : LocalAggregate T R) (results : LocalResults G T) (group : Option G) :
    Except Failure R :=
  let vls := match group with
    | none => results.curBuilder
    | some group => results.replyMap.lookup group
  match vls, group with
  | some vls, _ => .ok (aggregate.finalize (vls.foldl aggregate.foldFunction aggregate.init))
  | none, none => .error .nullPointer
  | none, some _ => .error (.noSuchElement "key not found: ")

/-- One result for every aggregate.  What a missing value throws is caught. -/
def addResult (group : Option G) : List T → List (LocalResults G T) → List (LocalResults G T)
  | value :: groupVals, results :: rest => results.addForGroup group value :: addResult group groupVals rest
  | _, rest => rest

namespace AggHandler

def addReplies (getRecord : B → G) (aggs : List (LocalAggregate T R)) (replies : List (List (GroupedAgg B T))) :
    List (LocalResults G T) :=
  replies.flatten.foldl (fun results result => addResult (result.group.map getRecord) result.groupVals results)
    (aggs.map fun _ => {})

/-- `replies` are those of `partitionReplies`, in the order of the hash map. -/
def finish (getRecord : B → G) (aggs : List (LocalAggregate T R)) (replies : List (List (GroupedAgg B T))) :
    Except Failure (List (Option G × List R)) :=
  let results := addReplies getRecord aggs replies
  let finished (group : Option G) : Except Failure (Option G × List R) := do
    return (group, ← (aggs.zip results).mapM fun pair => pair.1.finishForGroup pair.2 group)
  match results with
  | [] => .error (.indexOutOfBounds 0)
  | first :: _ =>
      if first.replyMap.keys.isEmpty then do return [← finished none]
      else first.replyMap.keys.mapM fun group => finished (some group)

end AggHandler

def sumLocal : LocalAggregate ℚ ℚ where
  init := 0
  foldFunction cur next := cur + next
  finalize curval := curval

namespace AggHandler

theorem addReplies_sums (getRecord : B → G) (sums : List ℚ) (nonempty : sums ≠ []) :
    addReplies getRecord [sumLocal] (sums.map fun sum => [(⟨none, [sum]⟩ : GroupedAgg B ℚ)]) =
      [({ curBuilder := some sums } : LocalResults G ℚ)] := by
  have added (before rest : List ℚ) :
      (rest.map fun sum => [(⟨none, [sum]⟩ : GroupedAgg B ℚ)]).flatten.foldl
        (fun results result => addResult (result.group.map getRecord) result.groupVals results)
        [({ curBuilder := some before } : LocalResults G ℚ)] = [{ curBuilder := some (before ++ rest) }] := by
    induction rest generalizing before with
    | nil => simp
    | cons sum rest ih =>
        have next := ih (before ++ [sum])
        rw [List.append_assoc, List.singleton_append] at next
        exact next
  obtain ⟨first, rest, rfl⟩ := List.exists_cons_of_ne_nil nonempty
  exact added [first] rest

theorem foldl_sumLocal (sums : List ℚ) (start : ℚ) : sums.foldl sumLocal.foldFunction start = start + sums.sum := by
  induction sums generalizing start with
  | nil => simp
  | cons sum rest ih =>
      rw [List.foldl_cons, ih, List.sum_cons]
      exact add_assoc start sum rest.sum

/-- The sums of the replies, added up. -/
theorem finish_sums (getRecord : B → G) {sums : List ℚ} (nonempty : sums ≠ []) :
    finish getRecord [sumLocal] (sums.map fun sum => [(⟨none, [sum]⟩ : GroupedAgg B ℚ)]) =
      .ok [(none, [sums.sum])] := by
  rw [finish, addReplies_sums getRecord sums nonempty]
  have total : sumLocal.finalize (sums.foldl sumLocal.foldFunction sumLocal.init) = sums.sum := by
    rw [foldl_sumLocal]
    exact zero_add _
  simp [LocalAggregate.finishForGroup, total]

end AggHandler

end

section

variable {K : Type}

/-- The descriptors of all ranges of a table. -/
def descsOf : List (RangeType K PartitionService) → List (RangeDesc K)
  | [] => []
  | range :: rest => ⟨range.startKey, RangeTable.startOr none rest, range.values⟩ :: descsOf rest

theorem describe_all (range : RangeType K PartitionService) (rest : List (RangeType K PartitionService)) :
    describe range.startKey (range :: rest).reverse none [] = descsOf (range :: rest) := by
  induction rest generalizing range with
  | nil => rfl
  | cons next rest ih =>
      have first := describe_first range.startKey rest.reverse next range none []
      rw [descsOf, ← ih next]
      simpa [RangeTable.startOr] using first

theorem mem_descsOf {desc : RangeDesc K} {ranges : List (RangeType K PartitionService)} :
    desc ∈ descsOf ranges ↔ ∃ before range after, ranges = before ++ range :: after ∧
      desc = ⟨range.startKey, RangeTable.startOr none after, range.values⟩ := by
  constructor
  · intro member
    induction ranges with
    | nil => cases member
    | cons first rest ih =>
        obtain rfl | later := List.mem_cons.mp member
        · exact ⟨[], first, rest, rfl, rfl⟩
        · obtain ⟨before, range, after, rfl, same⟩ := ih later
          exact ⟨first :: before, range, after, rfl, same⟩
  · intro found
    obtain ⟨before, range, after, rfl, rfl⟩ := found
    induction before with
    | nil => exact List.mem_cons_self
    | cons first before ih => exact List.mem_cons_of_mem _ ih

variable [LinearOrder K] {table : RoutingTable K}

theorem serversForKeyRange_whole (shaped : table.Shaped) :
    serversForKeyRange table none none = .ok (descsOf table.rTable) := by
  obtain ⟨first, located, opened⟩ := Option.map_eq_some_iff.mp shaped.opened
  obtain ⟨rest, split⟩ := List.head?_eq_some_iff.mp located
  have all := describe_all first rest
  rw [opened, ← split] at all
  rw [← all]
  rfl

/-- The span of a range holds the keys that the table finds there. -/
theorem contains_iff_at (shaped : table.Shaped) {before after : List (RangeType K PartitionService)}
    {range : RangeType K PartitionService} (split : table.rTable = before ++ range :: after) (key : K) :
    Span.contains ⟨range.startKey, RangeTable.startOr none after⟩ key = true ↔
      table.At (some key) before range after := by
  rw [Span.contains, Bool.and_eq_true, startKey_le]
  have place := shaped.at_start split
  constructor
  · intro found
    obtain ⟨reached, below⟩ := found
    refine ⟨split, reached, fun later member => ?_⟩
    cases after with
    | nil => cases member
    | cons next after =>
        have beyond : onLine range.startKey < next.start := place.beyond next List.mem_cons_self
        cases starts : next.startKey with
        | none =>
            rw [RangeType.start, starts] at beyond
            exact absurd beyond not_lt_bot
        | some boundary =>
            have less : onLine (some key) < next.start := by
              rw [RangeType.start, starts]
              rw [RangeTable.startOr, starts, Option.all_some, decide_eq_true_eq] at below
              exact WithBot.coe_lt_coe.mpr below
            obtain rfl | further := List.mem_cons.mp member
            · exact less
            · have split' : table.rTable = (before ++ [range]) ++ next :: after := by simp [split]
              exact less.trans ((shaped.at_start split').beyond later further)
  · intro located
    refine ⟨located.reached, ?_⟩
    cases after with
    | nil => rfl
    | cons next after =>
        have less := located.beyond next List.mem_cons_self
        rw [RangeTable.startOr]
        cases starts : next.startKey with
        | none => rfl
        | some boundary =>
            rw [RangeType.start, starts] at less
            simpa using WithBot.coe_lt_coe.mp less

theorem pieces_descsOf (entries : List (K × Value)) (ranges : List (RangeType K PartitionService)) :
    pieces entries (descsOf ranges) = (descsOf ranges).map fun desc =>
      entries.filter fun entry => Span.contains ⟨desc.startKey, desc.endKey⟩ entry.1 := by
  induction ranges with
  | nil => rfl
  | cons range rest ih =>
      cases rest with
      | nil => rfl
      | cons next rest =>
          rw [descsOf, List.map_cons, ← ih]
          rfl

/-- The records of all ranges are those of the namespace. -/
theorem flatten_descsOf (shaped : table.Shaped) (content : Database K Value) :
    ((descsOf table.rTable).map fun desc =>
      content.entries.filter fun entry => Span.contains ⟨desc.startKey, desc.endKey⟩ entry.1).flatten =
      content.entries := by
  obtain ⟨descs, routed, tiled⟩ := serversForKeyRange_tiling shaped none none
  rw [serversForKeyRange_whole shaped] at routed
  cases routed
  rw [← pieces_descsOf]
  obtain ⟨empty, -⟩ | tiling := tiled
  · obtain ⟨first, located, -⟩ := Option.map_eq_some_iff.mp shaped.opened
    obtain ⟨rest, split⟩ := List.head?_eq_some_iff.mp located
    rw [split, descsOf] at empty
    cases empty
  · rw [tiling.pieces_flatten content]
    exact List.filter_eq_self.mpr fun entry _ => rfl

end

namespace AggHandler

variable {R : Type} {reply : PartitionService → R} {partitions : List (List PartitionService)}
  {arrival : List (AggFuture R)}

/-- Every range has one server. -/
def OneServer (partitions : List (List PartitionService)) : Prop :=
  ∀ servers ∈ partitions, ∃ server, servers = [server]

theorem map_range_getElem? {α β : Type} (values : List α) (f : Option α → β) :
    (List.range values.length).map (fun place => f values[place]?) = values.map fun value => f (some value) := by
  refine List.ext_getElem (by simp) fun place left right => ?_
  rw [List.length_map] at right
  simp [List.getElem?_eq_getElem right]

/-- With one server for each range, every server is heard once. -/
theorem replies_perm (single : OneServer partitions) (order : arrival.Perm (aggFutures reply partitions))
    (heard : HeardOnce partitions arrival) :
    ∃ replies, Settles (getReplies (partitionMapOf partitions) partitions.length · arrival ∅) (.ok replies) ∧
      (replies.entries.map fun entry => entry.2.reply).Perm (partitions.flatten.map reply) := by
  have sent := sent_of_perm order
  obtain ⟨full, each⟩ := (heardOnce_iff sent).mp heard
  have settles := @getReplies_settles _ _ _ partitions.length _ sent ∅
  rw [if_neg full] at settles
  refine ⟨_, settles, ?_⟩
  have replied : ∀ entry ∈ (gathered partitions.length arrival ∅).entries,
      some entry.2.reply = (partitions[entry.2.range]?.bind List.head?).map reply := by
    refine gathered_forall sent ?_ nofun
    intro range servers server listed member
    obtain ⟨only, rfl⟩ := single servers (List.mem_of_getElem? listed)
    rw [List.mem_singleton.mp member, listed]
    rfl
  have places : (List.range partitions.length).map (fun range => (partitions[range]?.bind List.head?).map reply) =
      (partitions.flatten.map reply).map some := by
    rw [map_range_getElem? partitions fun found => (found.bind List.head?).map reply]
    clear settles replied each full sent order heard
    induction partitions with
    | nil => rfl
    | cons servers rest ih =>
        obtain ⟨server, rfl⟩ := single servers List.mem_cons_self
        rw [List.map_cons, ih fun servers member => single servers (List.mem_cons_of_mem _ member)]
        rfl
  have somes : (((gathered partitions.length arrival ∅).entries.map fun entry => entry.2.reply).map some).Perm
      ((partitions.flatten.map reply).map some) := by
    rw [← places, List.map_map]
    refine (List.Perm.of_eq (List.map_congr_left replied)).trans ?_
    have mapped := each.map fun range => (partitions[range]?.bind List.head?).map reply
    rw [List.map_map] at mapped
    exact mapped
  have values := somes.filterMap id
  simpa [List.filterMap_map] using values

/-- The loop ends only when there are as many addresses as ranges. -/
theorem single_of_settles (single : OneServer partitions) (order : arrival.Perm (aggFutures reply partitions))
    {replies : Replies R}
    (ended : Settles (getReplies (partitionMapOf partitions) partitions.length · arrival ∅) (.ok replies)) :
    SingleAddresses partitions := by
  have sent := sent_of_perm order
  have outcome := (@getReplies_settles _ _ _ partitions.length _ sent ∅).unique ended
  split at outcome
  · cases outcome
  · rename_i full
    have alike : ∀ range servers, partitions[range]? = some servers → ∀ server ∈ servers,
        server.toString = rangeAddress partitions range := by
      intro range servers listed server member
      obtain ⟨only, rfl⟩ := single servers (List.mem_of_getElem? listed)
      rw [List.mem_singleton.mp member, rangeAddress, listed]
      rfl
    have placed : ∀ entry ∈ (gathered partitions.length arrival ∅).entries,
        entry.2.range ∈ List.range partitions.length ∧ rangeAddress partitions entry.2.range = entry.1 := by
      refine gathered_forall sent ?_ (List.forall_mem_nil _)
      intro range servers server listed member
      exact ⟨List.mem_range.mpr (List.getElem?_eq_some_iff.mp listed).1,
        (alike range servers listed server member).symm⟩
    have addressed : (gathered partitions.length arrival ∅).entries.map Sigma.fst ⊆
        (List.range partitions.length).map (rangeAddress partitions) := by
      intro address member
      obtain ⟨entry, heard, rfl⟩ := List.mem_map.mp member
      exact List.mem_map.mpr ⟨entry.2.range, placed entry heard⟩
    have distinct : ((List.range partitions.length).map (rangeAddress partitions)).Nodup := by
      refine ((List.subperm_of_subset (nodup_keys _) addressed).perm_of_length_le ?_).nodup_iff.mp (nodup_keys _)
      rw [List.length_map, List.length_map, List.length_range]
      exact Nat.le_of_not_lt full
    refine ⟨rangeAddress partitions, fun range servers listed => ⟨?_, alike range servers listed⟩, ?_⟩
    · obtain ⟨only, rfl⟩ := single servers (List.mem_of_getElem? listed)
      exact List.cons_ne_nil _ _
    · intro range other bound below same
      exact List.inj_on_of_nodup_map distinct (List.mem_range.mpr bound) (List.mem_range.mpr below) same

/-- The handler comes to this result in whatever order its hash map gives the replies. -/
def Combines {B T G : Type} [DecidableEq G] (getRecord : B → G) (aggs : List (LocalAggregate T R))
    (partitions : List (List PartitionService)) (arrival : List (AggFuture (List (GroupedAgg B T))))
    (result : List (Option G × List R)) : Prop :=
  ∃ replies, Settles (getReplies (partitionMapOf partitions) partitions.length · arrival ∅) (.ok replies) ∧
    ∀ iterated, iterated.Perm (replies.entries.map fun entry => entry.2.reply) →
      finish getRecord aggs iterated = .ok result

theorem combines_sums {B G : Type} [DecidableEq G] (getRecord : B → G) {sum : PartitionService → ℚ}
    (nonempty : partitions ≠ []) (single : OneServer partitions) (addresses : SingleAddresses partitions)
    {arrival : List (AggFuture (List (GroupedAgg B ℚ)))}
    (order : arrival.Perm (aggFutures (fun server => [⟨none, [sum server]⟩]) partitions)) :
    Combines getRecord [sumLocal] partitions arrival [(none, [(partitions.flatten.map sum).sum])] := by
  obtain ⟨replies, settles, heard⟩ := replies_perm single order (heardOnce_of_single addresses order)
  refine ⟨replies, settles, fun iterated iteration => ?_⟩
  have alike := iteration.trans heard
  have given :
    iterated = (iterated.map fun reply => ((reply.head?.bind fun result => result.groupVals.head?).getD 0)).map
      fun sum => [(⟨none, [sum]⟩ : GroupedAgg B ℚ)] := by
    rw [List.map_map]
    refine (List.map_id _).symm.trans (List.map_congr_left fun reply member => ?_)
    obtain ⟨server, -, rfl⟩ := List.mem_map.mp (alike.subset member)
    rfl
  have sums := alike.map fun reply => (reply.head?.bind fun result => result.groupVals.head?).getD 0
  rw [List.map_map] at sums
  have same : (partitions.flatten.map sum).sum =
      (iterated.map fun reply => ((reply.head?.bind fun result => result.groupVals.head?).getD 0)).sum :=
        sums.symm.sum_eq
  rw [given, same, finish_sums]
  intro empty
  rw [List.map_eq_nil_iff] at empty
  rw [empty] at alike
  have none := List.map_eq_nil_iff.mp alike.symm.eq_nil
  obtain ⟨servers, rest, rfl⟩ := List.exists_cons_of_ne_nil nonempty
  obtain ⟨server, rfl⟩ := single servers List.mem_cons_self
  cases none

end AggHandler

section

variable {K : Type} [LinearOrder K]

/-- No record lies in a range whose storage server has another range. -/
def Namespace.Alone (space : Namespace K) : Prop :=
  ∀ entry ∈ space.content.entries, ∀ before range after, space.routingTable.At (some entry.1) before range after →
    ∀ other ∈ before ++ after, ∀ server ∈ range.values, ∀ second ∈ other.values,
      server.storageService ≠ second.storageService

variable {V : Type}

/-- The reply of a server to the aggregation of a sum without groups and filters. -/
def Namespace.sumReply (space : Namespace K) (parse : Bytes → V) (field : AggregateField V ℚ)
    (server : PartitionService) :
    List (GroupedAgg Bytes ℚ) :=
  (space.databases server.storageService).applyAggregate (fun value => parse (extractRecordFromValue value))
    (none : Option (Grouping V String Bytes)) [] [sumRemote field]

/-- The sum over all records of the namespace. -/
def Namespace.total (space : Namespace K) (parse : Bytes → V) (field : AggregateField V ℚ) : ℚ :=
  (space.content.entries.map fun entry => field.of (parse (extractRecordFromValue entry.2))).sum

/-- The server aggregates the records of this range. -/
def Namespace.AggregatesRange (space : Namespace K) (parse : Bytes → V) (partition : RangeDesc K)
    (server : PartitionService) : Prop :=
  (space.databases server.storageService).aggregated (fun value => parse (extractRecordFromValue value)) =
    (space.content.entries.filter fun entry => Span.contains ⟨partition.startKey, partition.endKey⟩ entry.1).map
      fun entry => (entry.1, parse (extractRecordFromValue entry.2))

variable {space : Namespace K}

theorem aggregatesRange_of_alone (alone : space.Alone) (parse : Bytes → V)
    {before after : List (RangeType K PartitionService)} {range : RangeType K PartitionService}
    (split : space.routingTable.rTable = before ++ range :: after) {server : PartitionService}
    (member : server ∈ range.values) :
    space.AggregatesRange parse ⟨range.startKey, RangeTable.startOr none after, range.values⟩ server := by
  rw [Namespace.AggregatesRange, Database.aggregated_eq, space.consistent]
  refine congrArg _ (List.filter_congr fun entry stored => ?_)
  have owned := contains_iff_at space.shaped split entry.1
  obtain ⟨others, found, later, located⟩ := space.shaped.exists_at (some entry.1)
  rw [hosts_at space.shaped located]
  cases inside : Span.contains ⟨range.startKey, RangeTable.startOr none after⟩ entry.1 with
  | true =>
      obtain ⟨rfl, rfl, rfl⟩ := located.unique (owned.mp inside)
      exact List.any_eq_true.mpr ⟨server, member, by simp⟩
  | false =>
      refine List.any_eq_false.mpr fun other known => ?_
      rw [decide_eq_true_eq]
      refine alone entry stored others found later located range ?_ other known server member
      -- the range is not the one of the record
      have listed : range ∈ others ++ found :: later := by
        rw [← located.split, split]
        simp
      have different : range ≠ found := by
        intro same
        subst same
        obtain ⟨rfl, -, rfl⟩ := (space.shaped.at_start split).unique (space.shaped.at_start located.split)
        rw [owned.mpr located] at inside
        cases inside
      obtain early | late := List.mem_append.mp listed
      · exact List.mem_append_left _ early
      · exact List.mem_append_right _ ((List.mem_cons.mp late).resolve_left different)

/-- A storage server with two ranges aggregates the records of both for each of them. -/
theorem alone_of_aggregatesRange {parse : Bytes → V}
    (each : ∀ partition ∈ descsOf space.routingTable.rTable, ∀ server ∈ partition.servers,
      space.AggregatesRange parse partition server) : space.Alone := by
  intro entry stored before range after located other listed server member second known shared
  obtain ⟨front, back, split⟩ : ∃ front back, space.routingTable.rTable = front ++ other :: back := by
    refine List.append_of_mem ?_
    rw [located.split]
    obtain early | late := List.mem_append.mp listed
    · exact List.mem_append_left _ early
    · exact List.mem_append_right _ (List.mem_cons_of_mem _ late)
  have same := each _ (mem_descsOf.mpr ⟨front, other, back, split, rfl⟩) second known
  rw [Namespace.AggregatesRange, Database.aggregated_eq, space.consistent] at same
  have hosted : entry ∈ space.content.entries.filter fun entry =>
      hosts space.routingTable second.storageService entry.1 := by
    refine List.mem_filter.mpr ⟨stored, ?_⟩
    rw [hosts_at space.shaped located]
    exact List.any_eq_true.mpr ⟨server, member, by simp [shared]⟩
  have keys := congrArg (List.map Prod.fst) same
  rw [List.map_map, List.map_map] at keys
  have key : entry.1 ∈ (space.content.entries.filter fun entry =>
      Span.contains ⟨other.startKey, RangeTable.startOr none back⟩ entry.1).map Prod.fst := by
    have there := List.mem_map_of_mem (f := Prod.fst) hosted
    exact (congrArg (entry.1 ∈ ·) keys).mp there
  obtain ⟨found, kept, matching⟩ := List.mem_map.mp key
  have inside := (List.mem_filter.mp kept).2
  rw [matching] at inside
  obtain ⟨rfl, rfl, rfl⟩ := located.unique ((contains_iff_at space.shaped split entry.1).mp inside)
  have ascending := space.shaped.ascending
  rw [split, Ascending, List.map_append, List.map_cons, List.pairwise_append] at ascending
  obtain early | late := List.mem_append.mp listed
  · exact lt_irrefl _ (ascending.2.2 _ (List.mem_map_of_mem early) _ List.mem_cons_self)
  · exact lt_irrefl _ ((List.pairwise_cons.mp ascending.2.1).1 _ (List.mem_map_of_mem late))

theorem sumReply_eq (space : Namespace K) (parse : Bytes → V) (field : AggregateField V ℚ) :
    space.sumReply parse field = fun server => [⟨none, [((space.databases server.storageService).entries.map
      fun entry => field.of (parse (extractRecordFromValue entry.2))).sum]⟩] := by
  funext server
  exact Database.applyAggregate_sum _ _ _

/-- The sums that the servers of all ranges reply are the sum over all records. -/
theorem total_of_alone (alone : space.Alone) (parse : Bytes → V) (field : AggregateField V ℚ)
    (single : AggHandler.OneServer (space.routingTable.rTable.map RangeType.values)) :
    ((space.routingTable.rTable.map RangeType.values).flatten.map fun server =>
      ((space.databases server.storageService).entries.map
        fun entry => field.of (parse (extractRecordFromValue entry.2))).sum).sum = space.total parse field := by
  have parts (before ranges : List (RangeType K PartitionService))
      (split : space.routingTable.rTable = before ++ ranges) :
      ((ranges.map RangeType.values).flatten.map fun server => ((space.databases server.storageService).entries.map
        fun entry => field.of (parse (extractRecordFromValue entry.2))).sum) =
        (descsOf ranges).map fun desc => ((space.content.entries.filter fun entry =>
          Span.contains ⟨desc.startKey, desc.endKey⟩ entry.1).map
            fun entry => field.of (parse (extractRecordFromValue entry.2))).sum := by
    induction ranges generalizing before with
    | nil => rfl
    | cons range after ih =>
        obtain ⟨server, only⟩ : ∃ server, range.values = [server] :=
          single range.values (List.mem_map_of_mem (by rw [split]; simp))
        have listed : server ∈ range.values := by
          rw [only]
          exact List.mem_cons_self
        have own := aggregatesRange_of_alone alone parse split listed
        rw [Namespace.AggregatesRange, Database.aggregated_eq] at own
        have fields := congrArg (List.map fun record => field.of record.2) own
        rw [List.map_map, List.map_map] at fields
        have rest := ih (before ++ [range]) (by rw [split]; simp)
        rw [List.map_cons, only, List.flatten_cons, List.map_append, rest, descsOf, List.map_cons]
        exact congrArg (fun values => List.sum values :: _) fields
  rw [parts [] _ rfl, Namespace.total]
  have whole := congrArg (List.map fun entry : K × Value => field.of (parse (extractRecordFromValue entry.2)))
    (flatten_descsOf space.shaped space.content)
  rw [← whole, List.map_flatten, List.sum_flatten, List.map_map, List.map_map]
  rfl

/-- With one server for each range, a sum over the namespace counts every record once,
and every range aggregates its own records, exactly when no two ranges have the same
partition service and no record lies in a range whose storage server has another one.
The sums are of rational numbers, and so they are exact. -/
theorem records_counted_once_iff {G : Type} [DecidableEq G] (getRecord : Bytes → G) (space : Namespace K)
    (single : ∀ range ∈ space.routingTable.rTable, ∃ server, range.values = [server]) (parse : Bytes → V)
    (field : AggregateField V ℚ) :
    ∃ partitions, serversForKeyRange space.routingTable none none = .ok partitions ∧
      ((∀ arrival, arrival.Perm (aggFutures (space.sumReply parse field) (partitions.map RangeDesc.servers)) →
          AggHandler.Combines getRecord [sumLocal] (partitions.map RangeDesc.servers) arrival
            [(none, [space.total parse field])]) ∧
        (∀ partition ∈ partitions, ∀ server ∈ partition.servers, space.AggregatesRange parse partition server) ↔
        AggHandler.SingleAddresses (space.routingTable.rTable.map RangeType.values) ∧ space.Alone) := by
  have served : (descsOf space.routingTable.rTable).map RangeDesc.servers =
      space.routingTable.rTable.map RangeType.values := by
    obtain ⟨partitions, routed, asked⟩ := AggHandler.serversForKeyRange_all space.routingTable
    rw [serversForKeyRange_whole space.shaped] at routed
    cases routed
    exact asked
  have one : AggHandler.OneServer (space.routingTable.rTable.map RangeType.values) := by
    intro servers member
    obtain ⟨range, listed, rfl⟩ := List.mem_map.mp member
    exact single range listed
  refine ⟨descsOf space.routingTable.rTable, serversForKeyRange_whole space.shaped, ?_⟩
  rw [served, sumReply_eq]
  constructor
  · intro ⟨combines, each⟩
    obtain ⟨replies, settles, -⟩ := combines _ (.refl _)
    exact ⟨AggHandler.single_of_settles one (.refl _) settles, alone_of_aggregatesRange each⟩
  · intro ⟨addresses, alone⟩
    refine ⟨fun arrival order => ?_, fun partition listed server member => ?_⟩
    · rw [← total_of_alone alone parse field one]
      refine AggHandler.combines_sums getRecord ?_ one addresses order
      obtain ⟨first, located, -⟩ := Option.map_eq_some_iff.mp space.shaped.opened
      exact List.ne_nil_of_mem (List.mem_map_of_mem (List.mem_of_mem_head? located))
    · obtain ⟨before, range, after, split, rfl⟩ := mem_descsOf.mp listed
      exact aggregatesRange_of_alone alone parse split member

end

theorem Namespace.Distinct.alone {K : Type} [LinearOrder K] {space : Namespace K} (distinct : space.Distinct) :
    space.Alone := by
  intro entry _ before range after located other listed server member second known
  rw [Namespace.Distinct, located.split, List.pairwise_append] at distinct
  obtain early | late := List.mem_append.mp listed
  · exact (distinct.2.2 other early range List.mem_cons_self second known server member).symm
  · exact (List.pairwise_cons.mp distinct.2.1).1 other late server member second known

/-- The length of a record, as a field of it. -/
def lengthField : AggregateField Bytes ℚ := ⟨0, fun record _ => record.length⟩

theorem twoPartitions_addresses (left right : PartitionService) (content : Database Nat Value)
    (different : left.toString ≠ right.toString) :
    AggHandler.SingleAddresses ((twoPartitions left right content).routingTable.rTable.map RangeType.values) := by
  refine ⟨fun range => if range = 0 then left.toString else right.toString, ?_, ?_⟩
  · intro range servers listed
    match range, listed with
    | 0, listed =>
        cases listed
        simp
    | 1, listed =>
        cases listed
        simp
  · intro range other bound below same
    match range, bound, other, below, same with
    | 0, _, 0, _, _ => rfl
    | 1, _, 1, _, _ => rfl
    | 0, _, 1, _, same => exact absurd same different
    | 1, _, 0, _, same => exact absurd same.symm different

theorem twoPartitions_single (left right : PartitionService) (content : Database Nat Value) :
    ∀ range ∈ (twoPartitions left right content).routingTable.rTable, ∃ server, range.values = [server] := by
  intro range member
  obtain rfl | second := List.mem_cons.mp member
  · exact ⟨left, rfl⟩
  · exact ⟨right, by rw [List.mem_singleton.mp second]⟩

/-- On two storage servers each record counts once. -/
theorem apart_counted_once :
    let space := twoPartitions (partitionOn 1 "left") (partitionOn 2 "right") ⟨[recordOf 3 3, recordOf 5 5], by decide⟩
    ∃ partitions, serversForKeyRange space.routingTable none none = .ok partitions ∧
      ∀ arrival, arrival.Perm (aggFutures (space.sumReply id lengthField) (partitions.map RangeDesc.servers)) →
        AggHandler.Combines (id : Bytes → Bytes) [sumLocal] (partitions.map RangeDesc.servers) arrival [(none, [2])] := by
  intro space
  have alone : space.Alone := (twoPartitions_distinct _ (by decide)).alone
  obtain ⟨partitions, routed, counted⟩ := records_counted_once_iff (id : Bytes → Bytes) space
    (twoPartitions_single _ _ _) id lengthField
  have total : space.total id lengthField = 2 := by
    simp [Namespace.total, space, twoPartitions, recordOf, lengthField, AggregateField.of]
    norm_num
  refine ⟨partitions, routed, ?_⟩
  rw [← total]
  exact (counted.mpr ⟨twoPartitions_addresses _ _ _ (by decide), alone⟩).1

/-- Two partitions of one storage server: each of them counts the records of both. -/
theorem shared_counted_twice :
    let space := twoPartitions (partitionOn 1 "left") (partitionOn 1 "right") ⟨[recordOf 3 3, recordOf 5 5], by decide⟩
    ∃ partitions, serversForKeyRange space.routingTable none none = .ok partitions ∧ space.total id lengthField = 2 ∧
      ∃ arrival, arrival.Perm (aggFutures (space.sumReply id lengthField) (partitions.map RangeDesc.servers)) ∧
        AggHandler.Combines (id : Bytes → Bytes) [sumLocal] (partitions.map RangeDesc.servers) arrival [(none, [4])] ∧
        ¬ AggHandler.Combines (id : Bytes → Bytes) [sumLocal] (partitions.map RangeDesc.servers) arrival
          [(none, [2])] := by
  intro space
  obtain ⟨partitions, routed, asked⟩ := AggHandler.serversForKeyRange_all space.routingTable
  have one : AggHandler.OneServer (space.routingTable.rTable.map RangeType.values) := by
    intro servers member
    obtain ⟨range, listed, rfl⟩ := List.mem_map.mp member
    exact twoPartitions_single _ _ _ range listed
  have hosted : ∀ key ∈ [3, 5], hosts space.routingTable ⟨"localhost", 1, .name "storage"⟩ key = true := by decide
  have held : (space.databases ⟨"localhost", 1, .name "storage"⟩).entries = [recordOf 3 3, recordOf 5 5] := by
    rw [space.consistent]
    refine List.filter_eq_self.mpr fun entry member => hosted entry.1 ?_
    exact List.mem_map_of_mem (f := Prod.fst) member
  have total : space.total id lengthField = 2 := by
    simp [Namespace.total, space, twoPartitions, recordOf, lengthField, AggregateField.of]
    norm_num
  have twice : ((space.routingTable.rTable.map RangeType.values).flatten.map fun server =>
      ((space.databases server.storageService).entries.map fun entry =>
        lengthField.of (id (extractRecordFromValue entry.2))).sum).sum = 4 := by
    have servers :
      (space.routingTable.rTable.map RangeType.values).flatten = [partitionOn 1 "left", partitionOn 1 "right"] :=
      rfl
    rw [servers]
    simp only [List.map_cons, List.map_nil, partitionOn, held]
    simp [recordOf, lengthField, AggregateField.of]
    norm_num
  have combines : AggHandler.Combines (id : Bytes → Bytes) [sumLocal] (space.routingTable.rTable.map RangeType.values)
      (aggFutures (space.sumReply id lengthField) (space.routingTable.rTable.map RangeType.values)) [(none, [4])] := by
    rw [← twice]
    refine AggHandler.combines_sums (id : Bytes → Bytes) (List.cons_ne_nil _ _) one
      (twoPartitions_addresses _ _ space.content (by decide)) ?_
    rw [sumReply_eq]
    exact .refl _
  refine ⟨partitions, routed, total, _, .refl _, ?_⟩
  rw [asked]
  refine ⟨combines, ?_⟩
  intro found
  obtain ⟨replies, settles, once⟩ := found
  obtain ⟨others, settled, finished⟩ := combines
  cases settles.unique settled
  have same := Except.ok.inj ((once _ (.refl _)).symm.trans (finished _ (.refl _)))
  have equal : (2 : ℚ) = 4 := (List.cons.inj (Prod.mk.inj (List.cons.inj same).1).2).1
  norm_num at equal

end Scads.Client
