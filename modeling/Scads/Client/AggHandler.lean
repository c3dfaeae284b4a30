import Mathlib.Data.List.AList
import Mathlib.Data.List.Nodup
import Mathlib.Data.List.Perm.Subperm
import Scads.Client.Routable
import Scads.Data.Machines
import Scads.Server.PartitionIterators

namespace Scads.Client

open Scads.Data Scads.Comm Scads.Server Scads.Util

/-! # Collecting the replies to an aggregation

`AnalyticsProtocol` asks every server of every range, and `AggHandler` takes replies
until it has as many as there are ranges.
-/

/-- A future whose reply has arrived.  `range` is the place of its partition in the
routing table, and of a `message` that is no `AggReply` it is known what it prints. -/
structure AggFuture (R : Type) where
  range : Nat
  source : Option PartitionService
  message : Except String R

/-- A reply with the range that it is for. -/
structure Heard (R : Type) where
  range : Nat
  reply : R

namespace AggHandler

variable {K R : Type}

abbrev Replies (R : Type) := AList fun _ : String => Heard R

def getReplies (partitionMap : AList fun _ : String => String) (numParts : Nat) :
    Nat → List (AggFuture R) → Replies R → Except Failure (Replies R)
  | 0, _, _ => .error default
  | rounds + 1, responses, partitionReplies =>
      if partitionReplies.entries.length < numParts then
        match responses with
        -- the poll timed out, and the loop goes on
        | [] => getReplies partitionMap numParts rounds [] partitionReplies
        | future :: responses =>
            match future.source with
            | none => getReplies partitionMap numParts rounds responses partitionReplies
            | some rap =>
                let pstr := rap.toString
                match partitionMap.lookup pstr with
                | none => .error (.noSuchElement ("key not found: " ++ pstr))
                | some _ =>
                    if pstr ∈ partitionReplies then getReplies partitionMap numParts rounds responses partitionReplies
                    else
                      match future.message with
                      | .error m => .error (.runtime ("Unexpected Message: " ++ m))
                      | .ok reply =>
                          getReplies partitionMap numParts rounds responses
                            (partitionReplies.insert pstr ⟨future.range, reply⟩)
      else .ok partitionReplies

end AggHandler

variable {R : Type}

/-- The futures of `applyAggregate` with their replies, in the order of the table. -/
def aggFutures (reply : PartitionService → R) (partitions : List (List PartitionService)) : List (AggFuture R) :=
  partitions.zipIdx.flatMap fun partition =>
    partition.1.map fun server => ⟨partition.2, some server, .ok (reply server)⟩

def partitionMapOf (partitions : List (List PartitionService)) : AList fun _ : String => String :=
  partitions.flatten.foldl (fun map server => map.insert server.toString server.partitionId) ∅

/-- The future is for a server of its range. -/
def Sent (reply : PartitionService → R) (partitions : List (List PartitionService)) (future : AggFuture R) : Prop :=
  ∃ servers server, partitions[future.range]? = some servers ∧ server ∈ servers ∧
    future = ⟨future.range, some server, .ok (reply server)⟩

theorem mem_aggFutures {reply : PartitionService → R} {partitions : List (List PartitionService)}
    {future : AggFuture R} : future ∈ aggFutures reply partitions ↔ Sent reply partitions future := by
  simp only [aggFutures, List.mem_flatMap, List.mem_map, Prod.exists, List.mem_zipIdx_iff_getElem?]
  constructor
  · intro found
    obtain ⟨servers, range, listed, server, member, rfl⟩ := found
    exact ⟨servers, server, listed, member, rfl⟩
  · intro found
    obtain ⟨servers, server, listed, member, same⟩ := found
    exact ⟨servers, future.range, listed, server, member, same.symm⟩

theorem lookup_partitionMapOf {partitions : List (List PartitionService)} {servers : List PartitionService}
    {server : PartitionService} (listed : servers ∈ partitions) (member : server ∈ servers) :
    ∃ partitionId, (partitionMapOf partitions).lookup server.toString = some partitionId := by
  have known (rest : List PartitionService) (map : AList fun _ : String => String)
      (there : server ∈ rest ∨ server.toString ∈ map) :
      server.toString ∈ rest.foldl (fun map server => map.insert server.toString server.partitionId) map := by
    induction rest generalizing map with
    | nil =>
        obtain none | there := there
        · cases none
        · exact there
    | cons other rest ih =>
        refine ih _ ?_
        obtain there | there := there
        · obtain rfl | later := List.mem_cons.mp there
          · exact .inr ((AList.mem_insert _).mpr (.inl rfl))
          · exact .inl later
        · exact .inr ((AList.mem_insert _).mpr (.inr there))
  exact Option.isSome_iff_exists.mp
    (AList.lookup_isSome.mpr (known _ ∅ (.inl (List.mem_flatten.mpr ⟨servers, listed, member⟩))))

namespace AggHandler

/-- The replies after one more has been taken from the queue. -/
def note (replies : Replies R) (future : AggFuture R) : Replies R :=
  match future.source, future.message with
  | some rap, .ok reply =>
      if rap.toString ∈ replies then replies else replies.insert rap.toString ⟨future.range, reply⟩
  | _, _ => replies

/-- The replies when the loop stops, or when the queue is used up. -/
def gathered (numParts : Nat) : List (AggFuture R) → Replies R → Replies R
  | [], replies => replies
  | future :: responses, replies =>
      if replies.entries.length < numParts then gathered numParts responses (note replies future) else replies

variable {reply : PartitionService → R} {partitions : List (List PartitionService)} {numParts : Nat}
  {responses : List (AggFuture R)} {replies : Replies R}

theorem getReplies_waits (map : AList fun _ : String => String) (short : replies.entries.length < numParts)
    (rounds : Nat) : getReplies map numParts rounds [] replies = .error default := by
  induction rounds with
  | zero => rfl
  | succ rounds ih =>
      rw [getReplies, if_pos short]
      exact ih

/-- The loop ends with the replies it has gathered, or waits for more for ever. -/
theorem getReplies_settles (sent : ∀ future ∈ responses, Sent reply partitions future) (replies : Replies R) :
    Settles (getReplies (partitionMapOf partitions) numParts · responses replies)
      (if (gathered numParts responses replies).entries.length < numParts then .error default
        else .ok (gathered numParts responses replies)) := by
  induction responses generalizing replies with
  | nil =>
      rw [gathered]
      by_cases short : replies.entries.length < numParts
      · rw [if_pos short]
        exact (Settles.const _).congr fun rounds => getReplies_waits _ short rounds
      · rw [if_neg short]
        refine .of_succ ((Settles.const _).congr fun rounds => ?_)
        rw [getReplies, if_neg short]
  | cons future responses ih =>
      rw [gathered]
      by_cases short : replies.entries.length < numParts
      · rw [if_pos short]
        refine .of_succ ((ih (fun other member => sent other (List.mem_cons_of_mem _ member)) _).congr fun rounds => ?_)
        obtain ⟨servers, server, listed, member, same⟩ := sent future List.mem_cons_self
        obtain ⟨partitionId, found⟩ := lookup_partitionMapOf (List.mem_of_getElem? listed) member
        rw [same]
        simp only [getReplies, short, if_true, found, note]
        split <;> rfl
      · rw [if_neg short, if_neg short]
        refine .of_succ ((Settles.const _).congr fun rounds => ?_)
        rw [getReplies, if_neg short]

/-- A reply of a server that was heard before changes nothing. -/
theorem note_cases {future : AggFuture R} (sent : Sent reply partitions future) (replies : Replies R) :
    ∃ servers server, partitions[future.range]? = some servers ∧ server ∈ servers ∧
      future.source = some server ∧
      (server.toString ∈ replies ∧ note replies future = replies ∨
        server.toString ∉ replies ∧ (note replies future).entries =
          ⟨server.toString, ⟨future.range, reply server⟩⟩ :: replies.entries) := by
  obtain ⟨servers, server, listed, member, same⟩ := sent
  refine ⟨servers, server, listed, member, by rw [same], ?_⟩
  rw [same, note]
  by_cases known : server.toString ∈ replies
  · exact .inl ⟨known, if_pos known⟩
  · refine .inr ⟨known, ?_⟩
    dsimp only
    rw [if_neg known]
    exact AList.entries_insert_of_notMem known

theorem gathered_keeps (sent : ∀ future ∈ responses, Sent reply partitions future)
    {entry : Sigma fun _ : String => Heard R} (member : entry ∈ replies.entries) :
    entry ∈ (gathered numParts responses replies).entries := by
  induction responses generalizing replies with
  | nil => exact member
  | cons future responses ih =>
      rw [gathered]
      split
      · refine ih (fun other later => sent other (List.mem_cons_of_mem _ later)) ?_
        obtain ⟨servers, server, -, -, -, ⟨-, same⟩ | ⟨-, added⟩⟩ := note_cases (sent future List.mem_cons_self) replies
        · rw [same]
          exact member
        · rw [added]
          exact List.mem_cons_of_mem _ member
      · exact member

/-- What every reply of the queue satisfies, the gathered replies satisfy too. -/
theorem gathered_forall (sent : ∀ future ∈ responses, Sent reply partitions future)
    {holds : (Sigma fun _ : String => Heard R) → Prop}
    (each : ∀ range servers server, partitions[range]? = some servers → server ∈ servers →
      holds ⟨server.toString, ⟨range, reply server⟩⟩)
    (before : ∀ entry ∈ replies.entries, holds entry) :
    ∀ entry ∈ (gathered numParts responses replies).entries, holds entry := by
  induction responses generalizing replies with
  | nil => exact before
  | cons future responses ih =>
      rw [gathered]
      split
      · refine ih (fun other later => sent other (List.mem_cons_of_mem _ later)) ?_
        obtain ⟨servers, server, listed, member, -, ⟨-, same⟩ | ⟨-, added⟩⟩ :=
          note_cases (sent future List.mem_cons_self) replies
        · rw [same]
          exact before
        · rw [added]
          exact List.forall_mem_cons.mpr ⟨each _ servers server listed member, before⟩
      · exact before

theorem gathered_length (sent : ∀ future ∈ responses, Sent reply partitions future)
    (within : replies.entries.length ≤ numParts) :
    (gathered numParts responses replies).entries.length ≤ numParts := by
  induction responses generalizing replies with
  | nil => exact within
  | cons future responses ih =>
      rw [gathered]
      split
      · rename_i short
        refine ih (fun other later => sent other (List.mem_cons_of_mem _ later)) ?_
        obtain ⟨servers, server, -, -, -, ⟨-, same⟩ | ⟨-, added⟩⟩ := note_cases (sent future List.mem_cons_self) replies
        · rw [same]
          exact within
        · rw [added]
          exact short
      · exact within

/-- When the queue is used up, every server in it was heard. -/
theorem gathered_short (sent : ∀ future ∈ responses, Sent reply partitions future)
    (short : (gathered numParts responses replies).entries.length < numParts)
    {future : AggFuture R} (member : future ∈ responses) {server : PartitionService}
    (source : future.source = some server) : server.toString ∈ gathered numParts responses replies := by
  induction responses generalizing replies with
  | nil => cases member
  | cons first responses ih =>
      have later := fun other later => sent other (List.mem_cons_of_mem first later)
      rw [gathered] at short ⊢
      split at short
      · rename_i going
        rw [if_pos going]
        obtain rfl | behind := List.mem_cons.mp member
        · obtain ⟨servers, other, -, -, from', noted⟩ := note_cases (sent future List.mem_cons_self) replies
          rw [source] at from'
          cases from'
          have heard : server.toString ∈ note replies future := by
            obtain ⟨known, same⟩ | ⟨-, added⟩ := noted
            · rw [same]
              exact known
            · rw [AList.mem_keys, AList.keys, added]
              exact List.mem_cons_self
          obtain ⟨entry, kept, same⟩ := List.mem_map.mp (AList.mem_keys.mp heard)
          rw [AList.mem_keys]
          exact List.mem_map.mpr ⟨entry, gathered_keeps later kept, same⟩
        · exact ih later short behind
      · rename_i full
        exact absurd short full

/-- The loop ends, and the replies it ends with are one from each range. -/
def HeardOnce (partitions : List (List PartitionService)) (responses : List (AggFuture R)) : Prop :=
  ∃ replies, Settles (getReplies (partitionMapOf partitions) partitions.length · responses ∅) (.ok replies) ∧
    (replies.entries.map fun entry => entry.2.range).Perm (List.range partitions.length)

/-- Every range has a server, all of its servers have the same address, and no other
range has it. -/
def SingleAddresses (partitions : List (List PartitionService)) : Prop :=
  ∃ address : Nat → String,
    (∀ range servers, partitions[range]? = some servers →
      servers ≠ [] ∧ ∀ server ∈ servers, server.toString = address range) ∧
    ∀ range other, range < partitions.length → other < partitions.length → address range = address other →
      range = other

theorem heardOnce_iff (sent : ∀ future ∈ responses, Sent reply partitions future) :
    HeardOnce partitions responses ↔
      ¬ (gathered partitions.length responses ∅).entries.length < partitions.length ∧
        ((gathered partitions.length responses ∅).entries.map fun entry => entry.2.range).Perm
          (List.range partitions.length) := by
  have settles := @getReplies_settles _ _ _ partitions.length _ sent ∅
  constructor
  · intro found
    obtain ⟨replies, ended, each⟩ := found
    have outcome := settles.unique ended
    split at outcome
    · cases outcome
    · rename_i full
      cases outcome
      exact ⟨full, each⟩
  · intro found
    obtain ⟨full, each⟩ := found
    rw [if_neg full] at settles
    exact ⟨_, settles, each⟩

/-- As many replies as there are ranges, no two from the same one. -/
theorem heardOnce_of_nodup (sent : ∀ future ∈ responses, Sent reply partitions future)
    (full : ¬ (gathered partitions.length responses ∅).entries.length < partitions.length)
    (distinct : ((gathered partitions.length responses ∅).entries.map fun entry => entry.2.range).Nodup) :
    HeardOnce partitions responses := by
  refine (heardOnce_iff sent).mpr ⟨full, ?_⟩
  have within : ∀ entry ∈ (gathered partitions.length responses ∅).entries, entry.2.range < partitions.length := by
    refine gathered_forall sent ?_ nofun
    intro range servers server listed _
    exact (List.getElem?_eq_some_iff.mp listed).1
  refine (List.subperm_of_subset distinct ?_).perm_of_length_le ?_
  · intro range member
    obtain ⟨entry, heard, rfl⟩ := List.mem_map.mp member
    exact List.mem_range.mpr (within entry heard)
  · rw [List.length_range, List.length_map]
    exact Nat.le_of_not_lt full

variable {arrival : List (AggFuture R)}

theorem sent_of_perm (order : arrival.Perm (aggFutures reply partitions)) :
    ∀ future ∈ arrival, Sent reply partitions future := by
  intro future member
  exact mem_aggFutures.mp (order.subset member)

theorem heardOnce_of_one {servers : List PartitionService} (replicated : servers ≠ [])
    (order : arrival.Perm (aggFutures reply [servers])) : HeardOnce [servers] arrival := by
  have sent := sent_of_perm order
  refine heardOnce_of_nodup sent ?_ ?_
  · intro short
    obtain ⟨server, others, listed⟩ := List.exists_cons_of_ne_nil replicated
    have member : (⟨0, some server, .ok (reply server)⟩ : AggFuture R) ∈ arrival := by
      refine order.symm.subset (mem_aggFutures.mpr ⟨servers, server, rfl, ?_, rfl⟩)
      rw [listed]
      exact List.mem_cons_self
    have heard := gathered_short sent short member rfl
    have empty := List.eq_nil_of_length_eq_zero (Nat.lt_one_iff.mp short)
    rw [AList.mem_keys, AList.keys, empty] at heard
    cases heard
  · have single := @gathered_length _ _ _ [servers].length _ ∅ sent (Nat.zero_le _)
    match (gathered [servers].length arrival ∅).entries, single with
    | [], _ => exact .nil
    | [entry], _ => exact List.nodup_singleton _

theorem nodup_keys (replies : Replies R) : (replies.entries.map Sigma.fst).Nodup := replies.nodupKeys

theorem heardOnce_of_single (single : SingleAddresses partitions)
    (order : arrival.Perm (aggFutures reply partitions)) : HeardOnce partitions arrival := by
  obtain ⟨address, each, distinct⟩ := single
  have sent := sent_of_perm order
  refine heardOnce_of_nodup sent ?_ ?_
  · intro short
    have listed : (List.range partitions.length).map address ⊆
        (gathered partitions.length arrival ∅).entries.map Sigma.fst := by
      intro known member
      obtain ⟨range, bound, rfl⟩ := List.mem_map.mp member
      obtain ⟨servers, located⟩ : ∃ servers, partitions[range]? = some servers :=
        ⟨_, List.getElem?_eq_getElem (List.mem_range.mp bound)⟩
      obtain ⟨replicated, alike⟩ := each range servers located
      obtain ⟨server, others, first⟩ := List.exists_cons_of_ne_nil replicated
      have member : server ∈ servers := by
        rw [first]
        exact List.mem_cons_self
      rw [← alike server member]
      have arrived : (⟨range, some server, .ok (reply server)⟩ : AggFuture R) ∈ arrival :=
        order.symm.subset (mem_aggFutures.mpr ⟨servers, server, located, member, rfl⟩)
      exact gathered_short sent short arrived rfl
    have distinct' : ((List.range partitions.length).map address).Nodup := by
      refine List.Nodup.map_on ?_ List.nodup_range
      intro range bound other below same
      exact distinct range other (List.mem_range.mp bound) (List.mem_range.mp below) same
    have count := (List.subperm_of_subset distinct' listed).length_le
    rw [List.length_map, List.length_map, List.length_range] at count
    omega
  · have addressed : ∀ entry ∈ (gathered partitions.length arrival ∅).entries, entry.1 = address entry.2.range := by
      refine gathered_forall sent ?_ nofun
      intro range servers server listed member
      exact (each range servers listed).2 server member
    have keys := nodup_keys (gathered partitions.length arrival ∅)
    rw [List.map_congr_left addressed] at keys
    refine List.Nodup.of_map address ?_
    rw [List.map_map]
    exact keys

/-- Two replies of one range that come first are both taken. -/
theorem not_heardOnce_of_twins (several : 2 ≤ partitions.length) {range : Nat} {first second : PartitionService}
    {rest : List (AggFuture R)} (different : first.toString ≠ second.toString)
    (sent : ∀ future ∈ (⟨range, some first, .ok (reply first)⟩ : AggFuture R) ::
      ⟨range, some second, .ok (reply second)⟩ :: rest, Sent reply partitions future) :
    ¬ HeardOnce partitions ((⟨range, some first, .ok (reply first)⟩ : AggFuture R) ::
      ⟨range, some second, .ok (reply second)⟩ :: rest) := by
  intro heard
  obtain ⟨-, each⟩ := (heardOnce_iff sent).mp heard
  have absent : first.toString ∉ (∅ : Replies R) := AList.notMem_empty _
  have one : (note ∅ (⟨range, some first, .ok (reply first)⟩ : AggFuture R)).entries =
      [⟨first.toString, ⟨range, reply first⟩⟩] := by
    simp only [note, absent, if_false]
    exact AList.entries_insert_of_notMem absent
  generalize taken : note ∅ (⟨range, some first, .ok (reply first)⟩ : AggFuture R) = replies at one
  have other : second.toString ∉ replies := by
    rw [AList.mem_keys, AList.keys, one]
    simpa [List.keys] using different.symm
  have two : (note replies (⟨range, some second, .ok (reply second)⟩ : AggFuture R)).entries =
      [⟨second.toString, ⟨range, reply second⟩⟩, ⟨first.toString, ⟨range, reply first⟩⟩] := by
    simp only [note, other, if_false]
    rw [AList.entries_insert_of_notMem other, one]
  have begun : gathered partitions.length ((⟨range, some first, .ok (reply first)⟩ : AggFuture R) ::
      ⟨range, some second, .ok (reply second)⟩ :: rest) ∅ = gathered partitions.length rest
        (note replies (⟨range, some second, .ok (reply second)⟩ : AggFuture R)) := by
    have empty : (∅ : Replies R).entries.length < partitions.length := Nat.lt_of_lt_of_le Nat.two_pos several
    have single : replies.entries.length < partitions.length := by
      rw [one]
      exact several
    rw [gathered, if_pos empty, gathered, taken, if_pos single]
  have sentRest : ∀ future ∈ rest, Sent reply partitions future := fun future member =>
    sent future (List.mem_cons_of_mem _ (List.mem_cons_of_mem _ member))
  have distinct := each.nodup_iff.mpr List.nodup_range
  rw [begun] at distinct
  have keptSecond := @gathered_keeps _ _ _ partitions.length _ _ sentRest ⟨second.toString, ⟨range, reply second⟩⟩
    (by rw [two]; exact List.mem_cons_self)
  have keptFirst := @gathered_keeps _ _ _ partitions.length _ _ sentRest ⟨first.toString, ⟨range, reply first⟩⟩
    (by rw [two]; exact List.mem_cons_of_mem _ List.mem_cons_self)
  have same := List.inj_on_of_nodup_map distinct keptFirst keptSecond rfl
  exact different (congrArg Sigma.fst same)

/-- Two members of a list may come first. -/
theorem perm_front {α : Type} {values : List α} {first second : α} (member : first ∈ values)
    (other : second ∈ values) (different : first ≠ second) : ∃ rest, (first :: second :: rest).Perm values := by
  obtain ⟨before, after, rfl⟩ := List.append_of_mem member
  have left : second ∈ before ++ after := by
    obtain there | there := List.mem_append.mp other
    · exact List.mem_append_left _ there
    · obtain same | there := List.mem_cons.mp there
      · exact absurd same.symm different
      · exact List.mem_append_right _ there
  obtain ⟨front, back, split⟩ := List.append_of_mem left
  refine ⟨front ++ back, (List.Perm.cons first ?_).trans List.perm_middle.symm⟩
  rw [split]
  exact List.perm_middle.symm

/-- The address of the first server of a range. -/
def rangeAddress (partitions : List (List PartitionService)) (range : Nat) : String :=
  ((partitions[range]?.bind List.head?).map PartitionService.toString).getD ""

theorem rangeAddress_eq {range : Nat} {servers : List PartitionService} {server : PartitionService}
    (listed : partitions[range]? = some servers) (member : server ∈ servers)
    (alike : ∀ first ∈ servers, ∀ second ∈ servers, first.toString = second.toString) :
    server.toString = rangeAddress partitions range := by
  cases servers with
  | nil => cases member
  | cons first rest =>
      rw [rangeAddress, listed]
      exact alike server member first List.mem_cons_self

theorem single_of_heardOnce (several : 2 ≤ partitions.length)
    (each : ∀ arrival, arrival.Perm (aggFutures reply partitions) → HeardOnce partitions arrival) :
    SingleAddresses partitions := by
  have alike : ∀ (range : Nat) (servers : List PartitionService), partitions[range]? = some servers →
      ∀ first ∈ servers, ∀ second ∈ servers, first.toString = second.toString := by
    intro range servers listed first member second other
    by_contra different
    have here : (⟨range, some first, .ok (reply first)⟩ : AggFuture R) ∈ aggFutures reply partitions :=
      mem_aggFutures.mpr ⟨servers, first, listed, member, rfl⟩
    have there : (⟨range, some second, .ok (reply second)⟩ : AggFuture R) ∈ aggFutures reply partitions :=
      mem_aggFutures.mpr ⟨servers, second, listed, other, rfl⟩
    obtain ⟨rest, order⟩ := perm_front here there fun same =>
      different (congrArg PartitionService.toString (Option.some.inj (congrArg AggFuture.source same)))
    exact not_heardOnce_of_twins several different (sent_of_perm order) (each _ order)
  have sent := sent_of_perm (List.Perm.refl (aggFutures reply partitions))
  obtain ⟨-, heard⟩ := (heardOnce_iff sent).mp (each _ (.refl _))
  have from' : ∀ entry ∈ (gathered partitions.length (aggFutures reply partitions) ∅).entries,
      ∃ servers server, partitions[entry.2.range]? = some servers ∧ server ∈ servers ∧ entry.1 = server.toString :=
    gathered_forall sent (fun range servers server listed member => ⟨servers, server, listed, member, rfl⟩) nofun
  have served : ∀ range < partitions.length, ∃ servers server, partitions[range]? = some servers ∧ server ∈ servers ∧
      ∃ entry ∈ (gathered partitions.length (aggFutures reply partitions) ∅).entries,
        entry.2.range = range ∧ entry.1 = server.toString := by
    intro range bound
    obtain ⟨entry, member, rfl⟩ := List.mem_map.mp (heard.symm.subset (List.mem_range.mpr bound))
    obtain ⟨servers, server, listed, known, same⟩ := from' entry member
    exact ⟨servers, server, listed, known, entry, member, rfl, same⟩
  refine ⟨rangeAddress partitions, ?_, ?_⟩
  · intro range servers listed
    obtain ⟨others, server, found, member, -⟩ := served range (List.getElem?_eq_some_iff.mp listed).1
    rw [listed] at found
    cases found
    exact ⟨List.ne_nil_of_mem member, fun other known => rangeAddress_eq listed known (alike range servers listed)⟩
  · intro range other bound below same
    obtain ⟨servers, server, listed, member, entry, heardHere, rfl, addressed⟩ := served range bound
    obtain ⟨others, second, found, known, later, heardThere, rfl, addressedToo⟩ := served other below
    rw [← rangeAddress_eq listed member (alike _ _ listed), ← rangeAddress_eq found known (alike _ _ found)] at same
    have one := List.inj_on_of_nodup_map (nodup_keys _) heardHere heardThere (by rw [addressed, addressedToo, same])
    rw [one]

/-- Every order of arrival gives one reply from each range exactly when there is one
range, or every range has one server. -/
theorem heardOnce_always_iff (reply : PartitionService → R) (partitions : List (List PartitionService)) :
    (∀ arrival, arrival.Perm (aggFutures reply partitions) → HeardOnce partitions arrival) ↔
      (∃ servers, partitions = [servers] ∧ servers ≠ []) ∨ SingleAddresses partitions := by
  constructor
  · intro each
    match partitions, each with
    | [], _ => exact .inr ⟨fun _ => "", nofun, nofun⟩
    | [servers], each =>
        refine .inl ⟨servers, rfl, ?_⟩
        intro same
        subst same
        have sent := sent_of_perm (List.Perm.refl (aggFutures reply [[]]))
        exact ((heardOnce_iff sent).mp (each _ (.refl _))).1 Nat.one_pos
    | first :: second :: rest, each => exact .inr (single_of_heardOnce (Nat.le_add_left 2 rest.length) each)
  · intro found arrival order
    obtain ⟨servers, rfl, replicated⟩ | single := found
    · exact heardOnce_of_one replicated order
    · exact heardOnce_of_single single order

section

variable {K : Type}

theorem describe_servers (startKey : Option K) (ranges : List (RangeType K PartitionService)) (eKey : Option K)
    (result : List (RangeDesc K)) :
    (describe startKey ranges eKey result).map RangeDesc.servers =
      ranges.reverse.map RangeType.values ++ result.map RangeDesc.servers := by
  induction ranges generalizing eKey result with
  | nil => rfl
  | cons range earlier ih =>
      rw [describe, ih, List.reverse_cons, List.map_append, List.append_assoc]
      rfl

/-- All ranges of the table are asked. -/
theorem serversForKeyRange_all (table : RoutingTable K) :
    ∃ partitions, serversForKeyRange table none none = .ok partitions ∧
      partitions.map RangeDesc.servers = table.rTable.map RangeType.values := by
  refine ⟨describe none table.rTable.reverse none [], rfl, ?_⟩
  rw [describe_servers, List.reverse_reverse, List.map_nil, List.append_nil]

/-- The handler hears every range once, whatever the order in which the replies come,
exactly when there is one range or every range has one server of its own. -/
theorem ranges_heard_once_iff (table : RoutingTable K) (reply : PartitionService → R) :
    ∃ partitions, serversForKeyRange table none none = .ok partitions ∧
      ((∀ arrival, arrival.Perm (aggFutures reply (partitions.map RangeDesc.servers)) →
          HeardOnce (partitions.map RangeDesc.servers) arrival) ↔
        (∃ range, table.rTable = [range] ∧ range.values ≠ []) ∨
          SingleAddresses (table.rTable.map RangeType.values)) := by
  obtain ⟨partitions, routed, asked⟩ := serversForKeyRange_all table
  refine ⟨partitions, routed, ?_⟩
  rw [asked, heardOnce_always_iff]
  refine or_congr ?_ Iff.rfl
  constructor
  · intro found
    obtain ⟨servers, one, replicated⟩ := found
    obtain ⟨range, alone, rfl⟩ := List.map_eq_singleton_iff.mp one
    exact ⟨range, alone, replicated⟩
  · intro found
    obtain ⟨range, alone, replicated⟩ := found
    exact ⟨range.values, by rw [alone, List.map_singleton], replicated⟩

end

/-- A partition service on a host of its own. -/
def replica (id : String) : PartitionService := ⟨"localhost", 9000, .name id, id, ⟨"localhost", 9000, .name "storage"⟩⟩

/-- Of two ranges with two servers each, the first is heard twice and the second not at
all when the servers of the first reply first. -/
theorem first_range_heard_twice :
    let table : RoutingTable Nat := ⟨[⟨none, [replica "a1", replica "a2"]⟩, ⟨some 5, [replica "b1", replica "b2"]⟩],
      (Comparator.threeWay Nat).compare, fun _ _ => true⟩
    ∃ partitions, serversForKeyRange table none none = .ok partitions ∧
      ∃ arrival, arrival.Perm (aggFutures (fun _ => ()) (partitions.map RangeDesc.servers)) ∧
        ¬ HeardOnce (partitions.map RangeDesc.servers) arrival := by
  intro table
  obtain ⟨partitions, routed, asked⟩ := serversForKeyRange_all table
  refine ⟨partitions, routed, _, .refl _, ?_⟩
  rw [asked]
  have sent := sent_of_perm (List.Perm.refl (aggFutures (fun _ => ()) (table.rTable.map RangeType.values)))
  exact @not_heardOnce_of_twins Unit (fun _ => ()) (table.rTable.map RangeType.values) (Nat.le_refl 2) 0
    (replica "a1") (replica "a2") _ (by decide) sent

end AggHandler

end Scads.Client
