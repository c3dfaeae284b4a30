import Mathlib.Data.List.Forall2
import Scads.Client.GetKeys
import Scads.Server.PartitionHandler

namespace Scads.Client

open Scads.Data Scads.Comm Scads.Server Scads.Util

/-! # A namespace with consistent replicas

All partitions of a namespace on one storage server share its database, so a
database holds the records of every range the server has a replica of.
-/

variable {K : Type} [LinearOrder K]

/-- The storage server has a replica of the range of the key. -/
def hosts (routingTable : RoutingTable K) (storage : StorageService) (key : K) : Bool :=
  match routingTable.valuesForKey (some key) with
  | .ok servers => servers.any fun server => server.storageService = storage
  | .error _ => false

structure Namespace (K : Type) [LinearOrder K] where
  routingTable : RoutingTable K
  shaped : routingTable.Shaped
  replicated : ∀ range ∈ routingTable.rTable, range.values ≠ []
  content : Database K Value

def toRecord (entry : K × Value) : Record K Value := ⟨entry.1, some entry.2⟩

def toBytes (entry : K × Value) : K × Bytes := (entry.1, extractRecordFromValue entry.2)

namespace Namespace

/-- The database of a storage server. -/
def databases (space : Namespace K) (storage : StorageService) : Database K Value where
  entries := space.content.entries.filter fun entry => hosts space.routingTable storage entry.1
  sorted := space.content.sorted.filter _

theorem consistent (space : Namespace K) (storage : StorageService) :
    (space.databases storage).entries =
      space.content.entries.filter fun entry => hosts space.routingTable storage entry.1 := rfl

/-- The records with `startKey ≤ key ≤ endKey` in the direction of the read. -/
def records (space : Namespace K) (startKey endKey : Option K) (ascending : Bool) : List (K × Bytes) :=
  (Database.directed ascending
    (space.content.entries.filter fun entry => Database.InRange startKey endKey entry.1)).map toBytes

/-- The replies of all servers of a range, in the given order of arrival. -/
def network (space : Namespace K) (arrival : RangeDesc K → List PartitionService) : Network K :=
  fun range request => (arrival range).map fun server =>
    (server, (process (space.databases server.storageService) none (.getRangeRequest request)).2)

end Namespace

/-- The entries of each tile: from its start up to the next one, and up to and
including the end for the last. -/
def pieces (entries : List (K × Value)) : List (RangeDesc K) → List (List (K × Value))
  | [] => []
  | [desc] => [entries.filter fun entry => Database.InRange desc.startKey desc.endKey entry.1]
  | desc :: next :: rest =>
      (entries.filter fun entry => desc.startKey.all (· ≤ entry.1) && desc.endKey.all (entry.1 < ·)) ::
        pieces entries (next :: rest)

theorem split_at_boundary (content : Database K Value) {startKey endKey : Option K} {boundary : K}
    (above : startKey.all (· < boundary)) (within : endKey.all (boundary ≤ ·)) :
    content.entries.filter (fun entry => Database.InRange startKey endKey entry.1) =
      content.entries.filter (fun entry => startKey.all (· ≤ entry.1) && decide (entry.1 < boundary)) ++
        content.entries.filter (fun entry => Database.InRange (some boundary) endKey entry.1) := by
  have closed := Database.prefixClosed_lt content boundary
  have parts : content.entries = content.entries.filter (fun entry => decide (entry.1 < boundary)) ++
      content.entries.filter (fun entry => !decide (entry.1 < boundary)) := by
    rw [← closed.takeWhile, ← closed.dropWhile, List.takeWhile_append_dropWhile]
  have filtered := congrArg (List.filter fun entry => Database.InRange startKey endKey entry.1) parts
  rw [List.filter_append, List.filter_filter, List.filter_filter] at filtered
  rw [filtered]
  congr 1
  · refine List.filter_congr fun entry _ => ?_
    by_cases early : entry.1 < boundary
    · have ends : endKey.all (entry.1 ≤ ·) = true := by
        cases endKey with
        | none => rfl
        | some last =>
            simp only [Option.all_some, decide_eq_true_eq] at within ⊢
            exact early.le.trans within
      simp [Database.InRange, early, ends]
    · simp [early]
  · refine List.filter_congr fun entry _ => ?_
    by_cases early : entry.1 < boundary
    · simp [Database.InRange, early, not_le.mpr early]
    · have starts : startKey.all (· ≤ entry.1) = true := by
        rw [startKey_le]
        exact (startKey_lt.mp above).le.trans (WithBot.coe_le_coe.mpr (not_lt.mp early))
      simp [Database.InRange, early, starts, not_lt.mp early]

namespace Tiling

variable {table : RoutingTable K} {startKey endKey : Option K} {descs : List (RangeDesc K)}

/-- The pieces of the tiles are the records of the whole key range. -/
theorem pieces_flatten (content : Database K Value) (tiling : Tiling table startKey endKey descs) :
    (pieces content.entries descs).flatten =
      content.entries.filter fun entry => Database.InRange startKey endKey entry.1 := by
  induction tiling with
  | last => simp [pieces]
  | @more startKey endKey before after range next boundary rest located starts owned within tail ih =>
      obtain ⟨desc, others, _, _, _, rfl, _⟩ := tail.head
      rw [pieces, List.flatten_cons, ih,
        split_at_boundary content (startKey_lt_next located starts) within]
      rfl

end Tiling

/-- No boundary inside the key range that holds a record separates two partitions
with a storage server in common. -/
def Namespace.Separated (space : Namespace K) (startKey endKey : Option K) : Prop :=
  ∀ boundary left right, space.routingTable.Meet boundary left right → startKey.all (· < boundary) →
    endKey.all (boundary ≤ ·) → space.content.get boundary ≠ none →
      ∀ server ∈ left, ∀ other ∈ right, server.storageService ≠ other.storageService

/-- No storage server has replicas of two partitions. -/
def Namespace.Distinct (space : Namespace K) : Prop :=
  space.routingTable.rTable.Pairwise fun left right =>
    ∀ server ∈ left.values, ∀ other ∈ right.values, server.storageService ≠ other.storageService

theorem Namespace.Distinct.separated {space : Namespace K} (distinct : space.Distinct)
    (startKey endKey : Option K) : space.Separated startKey endKey := by
  intro boundary left right found _ _ _
  obtain ⟨before, after, leftKey, split⟩ := found
  rw [Namespace.Distinct, split, List.pairwise_append] at distinct
  exact (List.pairwise_cons.mp distinct.2.1).1 ⟨some boundary, right⟩ List.mem_cons_self

theorem hosts_at {table : RoutingTable K} (shaped : table.Shaped)
    {before after : List (RangeType K PartitionService)} {range : RangeType K PartitionService} {key : K}
    (located : table.At (some key) before range after) (storage : StorageService) :
    hosts table storage key = range.values.any fun server => server.storageService = storage := by
  rw [hosts, RangeTable.valuesForKey_at shaped located]

/-- All servers of a tile hold the records of its piece, and nothing more that the
tile asks for. -/
def Serves (space : Namespace K) (desc : RangeDesc K) (piece : List (K × Value)) : Prop :=
  desc.servers ≠ [] ∧ ∀ server ∈ desc.servers,
    (space.databases server.storageService).entries.filter
      (fun entry => Database.InRange desc.startKey desc.endKey entry.1) = piece

theorem Namespace.serves_pieces (space : Namespace K) {startKey endKey : Option K}
    {descs : List (RangeDesc K)} (tiling : Tiling space.routingTable startKey endKey descs)
    (separated : space.Separated startKey endKey) :
    List.Forall₂ (Serves space) descs (pieces space.content.entries descs) := by
  induction tiling with
  | @last startKey endKey before after range located owned =>
      refine .cons ⟨space.replicated range (by simp [located.split]), fun server member => ?_⟩ .nil
      rw [space.consistent, List.filter_filter]
      refine List.filter_congr fun entry _ => ?_
      cases inside : Database.InRange startKey endKey entry.1 with
      | false => rfl
      | true =>
          rw [hosts_at space.shaped (owned entry.1 inside), Bool.true_and]
          exact List.any_eq_true.mpr ⟨server, member, by simp⟩
  | @more startKey endKey before after range next boundary rest located starts owned within tail ih =>
      have above := startKey_lt_next located starts
      have tailSeparated : space.Separated (some boundary) endKey := by
        intro other left right meet later
        refine separated other left right meet (startKey_lt.mpr ((startKey_lt.mp above).trans ?_))
        exact WithBot.coe_lt_coe.mpr (by simpa using later)
      obtain ⟨desc, others, _, _, _, rfl, _⟩ := tail.head
      refine .cons ⟨space.replicated range (by simp [located.split]), fun server member => ?_⟩
        (ih tailSeparated)
      rw [space.consistent, List.filter_filter]
      refine List.filter_congr fun entry stored => ?_
      simp only [Database.InRange, Option.all_some]
      rcases lt_trichotomy entry.1 boundary with early | equal | late
      · cases reached : startKey.all (· ≤ entry.1) with
        | false => rfl
        | true =>
            rw [hosts_at space.shaped (owned entry.1 reached early)]
            have held : (range.values.any fun other =>
                decide (other.storageService = server.storageService)) = true :=
              List.any_eq_true.mpr ⟨server, member, by simp⟩
            simp [early, early.le, held]
      · -- the record on the boundary belongs to the next partition
        have split : space.routingTable.rTable = (before ++ [range]) ++ next :: after := by
          simp [located.split]
        have place := space.shaped.at_start split
        rw [starts] at place
        have meet := (RangeTable.meet_iff space.shaped place starts range.values next.values).mpr ⟨rfl, rfl⟩
        have apart := separated boundary _ _ meet above within (by
          rw [Database.get_eq_some.mpr (show (boundary, entry.2) ∈ space.content.entries by
            rw [← equal]; exact stored)]
          simp) server member
        have absent : (next.values.any fun other =>
            decide (other.storageService = server.storageService)) = false := by
          refine List.any_eq_false.mpr fun other known => ?_
          simpa using (apart other known).symm
        rw [equal, hosts_at space.shaped place, absent]
        simp
      · simp [not_le.mpr late, not_lt.mpr late.le]

/-- The partitions below five and from five on, with one replica each. -/
def twoPartitions (left right : PartitionService) (content : Database Nat Value) : Namespace Nat where
  routingTable := ⟨[⟨none, [left]⟩, ⟨some 5, [right]⟩], (Comparator.threeWay Nat).compare, fun _ _ => true⟩
  shaped := ⟨rfl, List.pairwise_pair.mpr (WithBot.bot_lt_coe 5), (Comparator.threeWay Nat).agrees⟩
  replicated := by simp
  content

theorem twoPartitions_distinct {left right : PartitionService} (content : Database Nat Value)
    (apart : left.storageService ≠ right.storageService) : (twoPartitions left right content).Distinct := by
  refine List.pairwise_pair.mpr fun server first other second => ?_
  rw [List.mem_singleton.mp first, List.mem_singleton.mp second]
  exact apart

def partitionOn (port : Int) (partitionId : String) : PartitionService :=
  ⟨"localhost", port, .name partitionId, partitionId, ⟨"localhost", port, .name "storage"⟩⟩

def recordOf (key : Nat) (byte : Int8) : Nat × Value := (key, createMetadata 1 1 [byte])

end Scads.Client
