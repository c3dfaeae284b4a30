import Scads.Data.Chunks
import Scads.Client.RangeReads

namespace Scads.Client

open Scads.Data Scads.Comm Scads.Server Scads.Util

/-! # Range reads with a limit or an offset -/

variable {K : Type} [LinearOrder K] {config : QuorumProtocolConfig} {readRatio writeRatio : ℚ}

/-- The records of the partitions that the key range touches, in the order in which
the read comes to them. -/
def Namespace.visited (space : Namespace K) (startKey endKey : Option K) (ascending : Bool) :
    List (List (K × Value)) :=
  match serversForKeyRange space.routingTable startKey endKey with
  | .ok descs =>
      (Database.directed ascending (pieces space.content.entries descs)).map (Database.directed ascending)
  | .error _ => []

theorem Namespace.visited_eq (space : Namespace K) {startKey endKey : Option K} {descs : List (RangeDesc K)}
    (routed : serversForKeyRange space.routingTable startKey endKey = .ok descs) (ascending : Bool) :
    space.visited startKey endKey ascending =
      (Database.directed ascending (pieces space.content.entries descs)).map
        (Database.directed ascending) := by
  rw [Namespace.visited, routed]

theorem Namespace.records_eq_visited (space : Namespace K) (startKey endKey : Option K) (ascending : Bool) :
    space.records startKey endKey ascending =
      (space.visited startKey endKey ascending).flatten.map toBytes := by
  obtain ⟨descs, routed, ⟨rfl, empty⟩ | tiling⟩ :=
    serversForKeyRange_tiling space.shaped startKey endKey
  · rw [space.records_of_empty empty, space.visited_eq routed]
    cases ascending <;> rfl
  · rw [tiling.records_eq, space.visited_eq routed]
    rfl

/-- An unlimited read skips the offset in every partition. -/
theorem getKeys_offset {space : Namespace K} (distinct : space.Distinct)
    (accepted : setReadWriteQuorum readRatio writeRatio = .ok config)
    {arrival : RangeDesc K → List PartitionService} (replies : AllReply arrival)
    (startKey endKey : Option K) (offset : Option Int) (ascending : Bool) :
    getKeys config space.routingTable (space.network arrival) startKey endKey none offset ascending =
      .ok (((space.visited startKey endKey ascending).flatMap
        (List.drop (offset.getD 0).toNat)).map toBytes) := by
  obtain ⟨descs, routed, ⟨rfl, empty⟩ | tiling⟩ :=
    serversForKeyRange_tiling space.shaped startKey endKey
  · rw [space.visited_eq routed]
    refine (getKeys_unlimited routed).mpr ⟨[], ?_, ?_⟩
    · cases ascending <;> exact .nil
    · cases ascending <;> rfl
  · rw [getKeys_pieces accepted replies routed tiling (distinct.separated startKey endKey),
      space.visited_eq routed, List.flatMap_map]

/-- A limited read stops after the first partition, and throws where there is none. -/
theorem getKeys_limit {space : Namespace K} (distinct : space.Distinct)
    (accepted : setReadWriteQuorum readRatio writeRatio = .ok config)
    {arrival : RangeDesc K → List PartitionService} (replies : AllReply arrival)
    (startKey endKey : Option K) (count : Int) (offset : Option Int) (ascending : Bool) :
    getKeys config space.routingTable (space.network arrival) startKey endKey (some count) offset ascending =
      match space.visited startKey endKey ascending with
      | [] => .error (.noSuchElement "next on empty iterator")
      | first :: _ => .ok (((first.drop (offset.getD 0).toNat).take count.toNat).map toBytes) := by
  obtain ⟨descs, routed, ⟨rfl, empty⟩ | tiling⟩ :=
    serversForKeyRange_tiling space.shaped startKey endKey
  · rw [space.visited_eq routed, getKeys_nowhere routed]
    cases ascending <;> rfl
  · have served := forall₂_directed ascending
      (space.serves_pieces tiling (distinct.separated startKey endKey))
    rw [space.visited_eq routed]
    cases visits : Database.directed ascending descs with
    | nil =>
        obtain ⟨desc, rest, _, _, _, rfl, _⟩ := tiling.head
        cases ascending <;> simp [Database.directed] at visits
    | cons first rest =>
        rw [visits] at served
        generalize Database.directed ascending (pieces space.content.entries descs) = ordered at served ⊢
        cases served with
        | @cons _ piece _ more serves _ =>
            rw [getKeys_limited routed visits
              (voted_piece accepted replies serves (some count) offset ascending)]
            simp only [Database.limited, ← List.map_take, List.take_take, Nat.min_self,
              flatMap_keyAndBytes, List.map_cons]

omit [LinearOrder K] in
/-- What does not depend on the order of replies can be checked at one of them. -/
theorem forall_arrival_iff {outcome : (RangeDesc K → List PartitionService) → Except Failure (List (K × Bytes))}
    {result expected : Except Failure (List (K × Bytes))}
    (same : ∀ arrival, AllReply arrival → outcome arrival = result) :
    (∀ arrival, AllReply arrival → outcome arrival = expected) ↔ result = expected := by
  constructor
  · intro every
    rw [← same RangeDesc.servers fun _ => .refl _]
    exact every RangeDesc.servers fun _ => .refl _
  · intro same
    subst same
    exact same

/-- When the first partition gives what the whole read should. -/
theorem first_visited_iff (space : Namespace K) (startKey endKey : Option K) (ascending : Bool)
    (limit skipped : Nat) :
    (match space.visited startKey endKey ascending with
      | [] => .error (.noSuchElement "next on empty iterator")
      | first :: _ => .ok (((first.drop skipped).take limit).map toBytes)) =
        (.ok (((space.records startKey endKey ascending).drop skipped).take limit) :
          Except Failure (List (K × Bytes))) ↔
    ∃ first rest, space.visited startKey endKey ascending = first :: rest ∧
      (limit ≤ first.length - skipped ∨ rest.flatten.length ≤ skipped - first.length) := by
  rw [space.records_eq_visited]
  cases space.visited startKey endKey ascending with
  | nil => simp
  | cons first rest =>
      have cut := take_drop_append_iff (first.map toBytes) (rest.flatten.map toBytes) skipped limit
      rw [List.length_map, List.length_map] at cut
      simp only [List.flatten_cons, List.map_append, List.map_take, List.map_drop, Except.ok.injEq, cut]
      constructor
      · intro enough
        exact ⟨first, rest, rfl, enough⟩
      · intro found
        obtain ⟨_, _, same, enough⟩ := found
        cases same
        exact enough

/-- Three and five, on two storage servers. -/
def threeAndFive : Namespace Nat :=
  twoPartitions (partitionOn 1 "left") (partitionOn 2 "right") ⟨[recordOf 3 3, recordOf 5 5], by decide⟩

theorem threeAndFive_distinct : threeAndFive.Distinct := twoPartitions_distinct _ (by decide)

theorem threeAndFive_visited : threeAndFive.visited none none true = [[recordOf 3 3], [recordOf 5 5]] := by
  rw [threeAndFive.visited_eq rfl]
  rfl

theorem threeAndFive_records : threeAndFive.records none none true = [(3, [3]), (5, [5])] := by
  rw [threeAndFive.records_eq_visited, threeAndFive_visited]
  simp [toBytes, recordOf]

/-- A limited read returns the first records of the unlimited one, whatever the
order of replies, exactly when there is a partition to visit and the first one has
enough records or all of them. -/
theorem getKeys_limited_iff {space : Namespace K} (distinct : space.Distinct)
    (accepted : setReadWriteQuorum readRatio writeRatio = .ok config) (startKey endKey : Option K)
    (ascending : Bool) {count : Int} (positive : 1 ≤ count) :
    (∀ arrival, AllReply arrival →
      getKeys config space.routingTable (space.network arrival) startKey endKey (some count) none ascending =
        .ok ((space.records startKey endKey ascending).take count.toNat)) ↔
    ∃ first rest, space.visited startKey endKey ascending = first :: rest ∧
      (count ≤ first.length ∨ rest.flatten = []) := by
  rw [forall_arrival_iff fun arrival replies =>
    getKeys_limit distinct accepted replies startKey endKey count none ascending]
  have first := first_visited_iff space startKey endKey ascending count.toNat 0
  rw [List.drop_zero] at first
  refine first.trans (exists_congr fun first => exists_congr fun rest => and_congr_right fun _ => ?_)
  refine or_congr (by omega) ?_
  rw [Nat.zero_sub, Nat.le_zero, List.length_eq_zero_iff]

theorem getKeys_first_of_two :
    setReadWriteQuorum 1 1 = .ok ⟨1, 1⟩ ∧ threeAndFive.Distinct ∧
      getKeys ⟨1, 1⟩ threeAndFive.routingTable (threeAndFive.network RangeDesc.servers) none none (some 1)
        none true = .ok [(3, [3])] := by
  refine ⟨accepted_ones, threeAndFive_distinct, ?_⟩
  have enough := (getKeys_limited_iff threeAndFive_distinct accepted_ones none none true (le_refl 1)).mpr
    ⟨_, _, threeAndFive_visited, .inl (by simp)⟩
  rw [enough RangeDesc.servers fun _ => .refl _, threeAndFive_records]
  rfl

/-- Two records are asked for and the second partition is never read; and where the
start lies above the end, the read throws. -/
theorem getKeys_stops_after_first :
    setReadWriteQuorum 1 1 = .ok ⟨1, 1⟩ ∧ threeAndFive.Distinct ∧
      AllReply (RangeDesc.servers : RangeDesc Nat → _) ∧
      getKeys ⟨1, 1⟩ threeAndFive.routingTable (threeAndFive.network RangeDesc.servers) none none (some 2)
        none true = .ok [(3, [3])] ∧
      (threeAndFive.records none none true).take 2 = [(3, [3]), (5, [5])] ∧
      getKeys ⟨1, 1⟩ threeAndFive.routingTable (threeAndFive.network RangeDesc.servers) (some 7) (some 2)
        (some 2) none true = .error (.noSuchElement "next on empty iterator") := by
  refine ⟨accepted_ones, threeAndFive_distinct, fun _ => .refl _, ?_, ?_, getKeys_nowhere rfl⟩
  · rw [getKeys_limit threeAndFive_distinct accepted_ones fun _ => .refl _, threeAndFive_visited]
    simp [toBytes, recordOf]
  · rw [threeAndFive_records]
    rfl

/-- A read with an offset drops it from the whole result, whatever the order of
replies: without a limit exactly when the offset is zero, when it skips all records
or when at most one partition has records, and with a limit exactly when there is a
partition to visit and the first one has enough records after the offset or the
others have none. -/
theorem getKeys_offset_iff {space : Namespace K} (distinct : space.Distinct)
    (accepted : setReadWriteQuorum readRatio writeRatio = .ok config) (startKey endKey : Option K)
    (ascending : Bool) (limit : Option Int) (skipped : Nat) :
    (∀ arrival, AllReply arrival →
      getKeys config space.routingTable (space.network arrival) startKey endKey limit (some skipped)
        ascending = .ok (Database.limited limit ((space.records startKey endKey ascending).drop skipped))) ↔
    match limit with
    | none => skipped = 0 ∨ (space.records startKey endKey ascending).length ≤ skipped ∨
        ((space.visited startKey endKey ascending).filter fun piece => !piece.isEmpty).length ≤ 1
    | some count => ∃ first rest, space.visited startKey endKey ascending = first :: rest ∧
        (count.toNat ≤ first.length - skipped ∨ rest.flatten.length ≤ skipped - first.length) := by
  cases limit with
  | none =>
      rw [forall_arrival_iff fun arrival replies =>
        getKeys_offset distinct accepted replies startKey endKey (some skipped) ascending]
      have whole := flatMap_drop_eq_iff
        ((space.visited startKey endKey ascending).map (List.map toBytes)) skipped
      rw [← List.map_flatten, ← space.records_eq_visited, List.filter_map, List.length_map] at whole
      simp only [Function.comp_def, List.isEmpty_map] at whole
      rw [← whole]
      simp only [Database.limited, Except.ok.injEq, Option.getD_some, Int.toNat_natCast, List.map_flatMap,
        List.flatMap_map, List.map_drop]
  | some count =>
      rw [forall_arrival_iff fun arrival replies =>
        getKeys_limit distinct accepted replies startKey endKey count (some skipped) ascending]
      exact first_visited_iff space startKey endKey ascending count.toNat skipped

theorem getKeys_offset_zero_of_two :
    setReadWriteQuorum 1 1 = .ok ⟨1, 1⟩ ∧ threeAndFive.Distinct ∧
      getKeys ⟨1, 1⟩ threeAndFive.routingTable (threeAndFive.network RangeDesc.servers) none none none
        (some 0) true = .ok [(3, [3]), (5, [5])] := by
  refine ⟨accepted_ones, threeAndFive_distinct, ?_⟩
  have whole := (getKeys_offset_iff threeAndFive_distinct accepted_ones none none true none 0).mpr (.inl rfl)
  refine (whole RangeDesc.servers fun _ => .refl _).trans ?_
  rw [threeAndFive_records]
  rfl

/-- An offset of one skips the only record of either partition. -/
theorem getKeys_offset_skips_twice :
    setReadWriteQuorum 1 1 = .ok ⟨1, 1⟩ ∧ threeAndFive.Distinct ∧
      AllReply (RangeDesc.servers : RangeDesc Nat → _) ∧
      getKeys ⟨1, 1⟩ threeAndFive.routingTable (threeAndFive.network RangeDesc.servers) none none none
        (some 1) true = .ok [] ∧
      (threeAndFive.records none none true).drop 1 = [(5, [5])] := by
  refine ⟨accepted_ones, threeAndFive_distinct, fun _ => .refl _, ?_, ?_⟩
  · rw [getKeys_offset threeAndFive_distinct accepted_ones fun _ => .refl _, threeAndFive_visited]
    rfl
  · rw [threeAndFive_records]
    rfl

end Scads.Client
