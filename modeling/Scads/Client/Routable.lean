import Scads.Server.IterateOverRange
import Scads.Util.RangeSelection

namespace Scads.Client

open Scads.Data Scads.Comm Scads.Server Scads.Util

/-! # Routing a key range

Keys are their own routing keys here, as in `DefaultKeyRangeRoutable`.
-/

structure RangeDesc (K : Type) where
  startKey : Option K
  endKey : Option K
  servers : List PartitionService

abbrev RoutingTable (K : Type) := RangeTable K PartitionService

variable {K : Type} [LinearOrder K]

/-- The loop of `serversForKeyRange`, which goes from the last range to the first
and passes the start of each on as the end of the one before. -/
def describe (startKey : Option K) :
    List (RangeType K PartitionService) → Option K → List (RangeDesc K) → List (RangeDesc K)
  | [], _, result => result
  | range :: earlier, eKey, result =>
      let sKey := if earlier.isEmpty then startKey else range.startKey
      describe startKey earlier sKey (⟨sKey, eKey, range.values⟩ :: result)

def serversForKeyRange (routingTable : RoutingTable K) (startKey endKey : Option K) :
    Except Failure (List (RangeDesc K)) := do
  let ranges ← routingTable.valuesForRange startKey endKey
  return describe startKey ranges.reverse endKey []

/-- The descriptors lie side by side from `startKey` to `endKey`.  Each names the
servers of one range of the table, which holds the keys from its start up to the
next boundary, the last one up to and including `endKey`. -/
inductive Tiling (table : RoutingTable K) : Option K → Option K → List (RangeDesc K) → Prop where
  | last {startKey endKey : Option K} {before after : List (RangeType K PartitionService)}
      {range : RangeType K PartitionService} (located : table.At startKey before range after)
      (owned : ∀ key, Database.InRange startKey endKey key → table.At (some key) before range after) :
      Tiling table startKey endKey [⟨startKey, endKey, range.values⟩]
  | more {startKey endKey : Option K} {before after : List (RangeType K PartitionService)}
      {range next : RangeType K PartitionService} {boundary : K} {rest : List (RangeDesc K)}
      (located : table.At startKey before range (next :: after)) (starts : next.startKey = some boundary)
      (owned : ∀ key, startKey.all (· ≤ key) → key < boundary →
        table.At (some key) before range (next :: after))
      (within : endKey.all (boundary ≤ ·)) (tail : Tiling table (some boundary) endKey rest) :
      Tiling table startKey endKey (⟨startKey, some boundary, range.values⟩ :: rest)

omit [LinearOrder K] in
theorem describe_first (startKey : Option K) (later : List (RangeType K PartitionService))
    (second first : RangeType K PartitionService) (eKey : Option K) (result : List (RangeDesc K)) :
    describe startKey (later ++ [second, first]) eKey result =
      ⟨startKey, second.startKey, first.values⟩ ::
        describe second.startKey (later ++ [second]) eKey result := by
  induction later generalizing eKey result with
  | nil => simp [describe]
  | cons range later ih => simp [describe, ih]

theorem startKey_le {startKey : Option K} {key : K} :
    startKey.all (· ≤ key) = true ↔ onLine startKey ≤ onLine (some key) := by
  cases startKey with
  | none => exact iff_of_true rfl bot_le
  | some start => exact decide_eq_true_iff.trans WithBot.coe_le_coe.symm

theorem startKey_lt {startKey : Option K} {key : K} :
    startKey.all (· < key) = true ↔ onLine startKey < onLine (some key) := by
  cases startKey with
  | none => exact iff_of_true rfl (WithBot.bot_lt_coe key)
  | some start => exact decide_eq_true_iff.trans WithBot.coe_lt_coe.symm

theorem startKey_lt_next {table : RoutingTable K} {before after : List (RangeType K PartitionService)}
    {range next : RangeType K PartitionService} {startKey : Option K} {boundary : K}
    (located : table.At startKey before range (next :: after)) (starts : next.startKey = some boundary) :
    startKey.all (· < boundary) = true := by
  have later : onLine startKey < next.start := located.beyond next (by simp)
  rw [RangeType.start, starts] at later
  exact startKey_lt.mpr later

/-- The last range reaches beyond `endKey`. -/
theorem tiling_last {table : RoutingTable K} {before after : List (RangeType K PartitionService)}
    {range : RangeType K PartitionService} {startKey endKey : Option K} (located : table.At startKey before range after)
    (beyond : ∀ later ∈ after, ∃ last, endKey = some last ∧
      onLine (some last) < later.start) :
    Tiling table startKey endKey [⟨startKey, endKey, range.values⟩] := by
  refine .last located fun key inside => ?_
  obtain ⟨above, below⟩ := Bool.and_eq_true_iff.mp inside
  refine ⟨located.split, located.reached.trans (startKey_le.mp above), fun later member => ?_⟩
  obtain ⟨last, rfl, less⟩ := beyond later member
  have bound : key ≤ last := by simpa using below
  exact lt_of_le_of_lt (WithBot.coe_le_coe.mpr bound) less

/-- The ranges that start at or before `endKey` tile the key range. -/
theorem describe_tiling {table : RoutingTable K} (shaped : table.Shaped)
    {before after : List (RangeType K PartitionService)} {range : RangeType K PartitionService}
    {startKey endKey : Option K} {count : Nat} (located : table.At startKey before range after)
    (reached : ∀ later ∈ after.take count, ∀ last, endKey = some last →
      later.start ≤ onLine (some last))
    (beyond : ∀ later ∈ after.drop count, ∃ last, endKey = some last ∧
      onLine (some last) < later.start) :
    Tiling table startKey endKey (describe startKey (range :: after.take count).reverse endKey []) := by
  induction after generalizing before range startKey count with
  | nil =>
      rw [List.take_nil]
      exact tiling_last located (by simp)
  | cons next after ih =>
      cases count with
      | zero => exact tiling_last located beyond
      | succ count =>
          have later : onLine startKey < next.start := located.beyond next (by simp)
          have split : table.rTable = (before ++ [range]) ++ next :: after := by simp [located.split]
          obtain ⟨boundary, starts⟩ : ∃ boundary, next.startKey = some boundary := by
            cases starts : next.startKey with
            | none =>
                rw [RangeType.start, starts] at later
                exact absurd later not_lt_bot
            | some boundary => exact ⟨boundary, rfl⟩
          have starting : next.start = onLine (some boundary) := starts
          have place := shaped.at_start split
          have tail := ih place (fun found member => reached found (by simp [member])) beyond
          rw [starts] at tail
          have form : describe startKey (range :: (next :: after).take (count + 1)).reverse endKey [] =
              ⟨startKey, some boundary, range.values⟩ ::
                describe (some boundary) (next :: after.take count).reverse endKey [] := by
            have first := describe_first startKey (after.take count).reverse next range endKey []
            simpa [starts] using first
          rw [form]
          refine .more located starts (fun key above below => ?_) ?_ tail
          · have less : onLine (some key) < next.start := by
              rw [starting]
              exact WithBot.coe_lt_coe.mpr below
            refine ⟨located.split, located.reached.trans (startKey_le.mp above), fun found member => ?_⟩
            rcases List.mem_cons.mp member with rfl | others
            · exact less
            · exact less.trans (place.beyond found others)
          · cases endKey with
            | none => rfl
            | some last =>
                have bound := reached next (by simp) last rfl
                rw [starting] at bound
                simpa using WithBot.coe_le_coe.mp bound

theorem serversForKeyRange_forward {table : RoutingTable K} (shaped : table.Shaped) {startKey : Option K} {last : K}
    {before after others later : List (RangeType K PartitionService)} {range found : RangeType K PartitionService}
    (located : table.At startKey before range after) (place : table.At (some last) others found later)
    (forward : before.length ≤ others.length) :
    ∃ descs, serversForKeyRange table startKey (some last) = .ok descs ∧ Tiling table startKey (some last) descs := by
  obtain ⟨count, front, back⟩ := located.through place forward
  refine ⟨_, by rw [serversForKeyRange, RangeTable.valuesForRange_closed shaped located place]; rfl, ?_⟩
  have taken : table.rTable.take (others.length + 1) = before ++ range :: after.take count := by
    rw [← front]
    simp [place.split, List.take_append]
  rw [taken, List.drop_left]
  refine describe_tiling shaped located (fun other member final same => ?_) fun other member => ?_
  · cases same
    refine place.front_le shaped.ascending other ?_
    rw [front]
    simp [member]
  · rw [back] at member
    exact ⟨last, rfl, place.beyond other member⟩

theorem serversForKeyRange_open {table : RoutingTable K} (shaped : table.Shaped) (startKey : Option K) :
    ∃ descs, serversForKeyRange table startKey none = .ok descs ∧ Tiling table startKey none descs := by
  obtain ⟨before, range, after, located⟩ := shaped.exists_at startKey
  refine ⟨_, by rw [serversForKeyRange, RangeTable.valuesForRange_open shaped located]; rfl, ?_⟩
  have tiling := @describe_tiling _ _ _ shaped _ _ _ _ none after.length located (by simp) (by simp)
  simpa [located.split] using tiling

/-- The descriptors of a key range tile it.  There are none only where the range
itself is empty. -/
theorem serversForKeyRange_tiling {table : RoutingTable K} (shaped : table.Shaped)
    (startKey endKey : Option K) :
    ∃ descs, serversForKeyRange table startKey endKey = .ok descs ∧
      ((descs = [] ∧ ∀ key, Database.InRange startKey endKey key = false) ∨
        Tiling table startKey endKey descs) := by
  cases endKey with
  | none =>
      obtain ⟨descs, returned, tiling⟩ := serversForKeyRange_open shaped startKey
      exact ⟨descs, returned, .inr tiling⟩
  | some last =>
      obtain ⟨before, range, after, located⟩ := shaped.exists_at startKey
      obtain ⟨others, found, later, place⟩ := shaped.exists_at (some last)
      by_cases forward : before.length ≤ others.length
      · obtain ⟨descs, returned, tiling⟩ := serversForKeyRange_forward shaped located place forward
        exact ⟨descs, returned, .inr tiling⟩
      · have backward : others.length < before.length := not_le.mp forward
        refine ⟨_, by rw [serversForKeyRange, RangeTable.valuesForRange_closed shaped located place]; rfl,
          .inl ⟨?_, fun key => ?_⟩⟩
        · rw [List.drop_eq_nil_of_le (by simp; omega)]
          rfl
        · by_contra inside
          obtain ⟨above, below⟩ := Bool.and_eq_true_iff.mp (Bool.not_eq_false _ ▸ inside)
          have bound : key ≤ last := by simpa using below
          have less : onLine (some last) < range.start := by
            by_contra reached
            exact absurd (place.length_le located.split (not_lt.mp reached)) (by omega)
          have reached := located.reached.trans (startKey_le.mp above)
          exact absurd (WithBot.coe_le_coe.mpr bound) (not_le.mpr (less.trans_le reached))

namespace Tiling

variable {table : RoutingTable K} {startKey endKey : Option K} {descs : List (RangeDesc K)}

theorem head (tiling : Tiling table startKey endKey descs) :
    ∃ desc rest before range after, descs = desc :: rest ∧ desc.startKey = startKey ∧
      table.At startKey before range after ∧ desc.servers = range.values ∧
      ∀ first, startKey = some first → endKey.all (first ≤ ·) → desc.endKey.all (first ≤ ·) := by
  cases tiling with
  | last located owned =>
      exact ⟨_, _, _, _, _, rfl, rfl, located, rfl, fun _ _ within => within⟩
  | @more _ _ before after range next boundary rest located starts owned within tail =>
      refine ⟨_, _, _, _, _, rfl, rfl, located, rfl, fun first same _ => ?_⟩
      have above := startKey_lt_next located starts
      simp only [same, Option.all_some, decide_eq_true_eq] at above ⊢
      exact above.le

/-- The start of a range that holds the start of a tile is no boundary inside it. -/
theorem not_boundary {before after : List (RangeType K PartitionService)}
    {range : RangeType K PartitionService} {key : K} (shaped : table.Shaped)
    (located : table.At startKey before range after) (above : startKey.all (· < key))
    (owned : table.At (some key) before range after) : ¬ table.IsBoundary key := by
  intro boundary
  have starts : range.start = onLine (some key) :=
    (RangeTable.isBoundary_iff_at shaped owned).mp boundary
  have reached := located.reached
  rw [starts] at reached
  exact absurd reached (not_le.mpr (startKey_lt.mp above))

/-- Every boundary inside the key range separates two neighbouring tiles. -/
theorem at_boundary (shaped : table.Shaped) (tiling : Tiling table startKey endKey descs) {boundary : K}
    {left right : List PartitionService} (meet : table.Meet boundary left right)
    (above : startKey.all (· < boundary)) (within : endKey.all (boundary ≤ ·)) :
    ∃ front leftDesc rightDesc back, descs = front ++ leftDesc :: rightDesc :: back ∧
      leftDesc.startKey.all (· < boundary) ∧ leftDesc.endKey = some boundary ∧ leftDesc.servers = left ∧
      rightDesc.startKey = some boundary ∧ rightDesc.endKey.all (boundary ≤ ·) ∧
      rightDesc.servers = right := by
  have isBoundary : table.IsBoundary boundary := meet.isBoundary
  induction tiling with
  | @last startKey endKey before after range located owned =>
      have inside : Database.InRange startKey endKey boundary = true := by
        rw [Database.InRange, within, Bool.and_true, startKey_le]
        exact (startKey_lt.mp above).le
      exact absurd isBoundary (not_boundary shaped located above (owned boundary inside))
  | @more startKey endKey before after range next other rest located starts owned reached tail ih =>
      rcases lt_trichotomy boundary other with early | rfl | late
      · have place := owned boundary (startKey_le.mpr (startKey_lt.mp above).le) early
        exact absurd isBoundary (not_boundary shaped located above place)
      · have split : table.rTable = (before ++ [range]) ++ next :: after := by simp [located.split]
        have place := shaped.at_start split
        rw [starts] at place
        obtain ⟨rfl, rfl⟩ := (RangeTable.meet_iff shaped place starts left right).mp meet
        obtain ⟨desc, others, _, found, _, rfl, opens, there, servers, ends⟩ := tail.head
        obtain ⟨_, rfl, _⟩ := place.unique there
        exact ⟨[], _, desc, others, rfl, above, rfl, rfl, opens, ends boundary rfl within, servers⟩
      · obtain ⟨front, leftDesc, rightDesc, back, split, rest⟩ := ih (by simpa using late) within
        exact ⟨_ :: front, leftDesc, rightDesc, back, by rw [split]; rfl, rest⟩

end Tiling

/-- The descriptors reach from `startKey` to `endKey`, each ends at a split key where the next
one starts, and each names the servers of the range that holds all its keys. -/
structure Tiles (table : RoutingTable K) (startKey endKey : Option K) (descs : List (RangeDesc K)) : Prop where
  opens : descs.head?.map RangeDesc.startKey = some startKey
  closes : descs.getLast?.map RangeDesc.endKey = some endKey
  chained : descs.IsChain fun left right => left.endKey = right.startKey ∧
    ∃ boundary, right.startKey = some boundary ∧ table.IsBoundary boundary
  carries : ∀ desc ∈ descs, ∃ before range after, table.At desc.startKey before range after ∧
    desc.servers = range.values ∧ ∀ key, desc.startKey.all (· ≤ key) → desc.endKey.all (key < ·) →
      table.At (some key) before range after

theorem Tiling.tiles {table : RoutingTable K} {startKey endKey : Option K} {descs : List (RangeDesc K)}
    (tiling : Tiling table startKey endKey descs) : Tiles table startKey endKey descs := by
  induction tiling with
  | @last startKey endKey before after range located owned =>
      refine ⟨rfl, rfl, List.IsChain.singleton _, fun desc member => ?_⟩
      cases List.mem_singleton.mp member
      refine ⟨before, range, after, located, rfl, fun key above below => owned key ?_⟩
      exact Database.inRange_of_lt above below
  | @more startKey endKey before after range next boundary rest located starts owned within tail ih =>
      obtain ⟨desc, others, _, _, _, rfl, opens, -⟩ := tail.head
      have split : table.IsBoundary boundary := by
        rw [RangeTable.IsBoundary, located.split, ← starts]
        simp
      refine ⟨rfl, ?_, ?_, ?_⟩
      · rw [List.getLast?_cons_cons]
        exact ih.closes
      · exact List.isChain_cons_cons.mpr ⟨⟨opens.symm, boundary, opens, split⟩, ih.chained⟩
      · intro found member
        rcases List.mem_cons.mp member with rfl | later
        · exact ⟨before, range, next :: after, located, rfl, fun key above below =>
          owned key above (by simpa using below)⟩
        · exact ih.carries found later

/-- The servers of an interval of keys. -/
theorem serversForKeyRange_tiles {table : RoutingTable K} {startKey endKey : Option K} (shaped : table.Shaped)
    (forward : RangeTable.Forward startKey endKey) :
    ∃ descs, serversForKeyRange table startKey endKey = .ok descs ∧ Tiles table startKey endKey descs := by
  cases endKey with
  | none =>
      obtain ⟨descs, returned, tiling⟩ := serversForKeyRange_open shaped startKey
      exact ⟨descs, returned, tiling.tiles⟩
  | some last =>
      obtain ⟨before, range, after, located⟩ := shaped.exists_at startKey
      obtain ⟨others, found, later, place⟩ := shaped.exists_at (some last)
      have length := place.length_le located.split (located.reached.trans (forward last rfl))
      obtain ⟨descs, returned, tiling⟩ := serversForKeyRange_forward shaped located place length
      exact ⟨descs, returned, tiling.tiles⟩

def halfServer (partition : String) : PartitionService :=
  ⟨"host", 9000, .number 1, partition, ⟨"host", 9000, .number 0⟩⟩

/-- Two servers, one for the keys below 10 and one for the others. -/
def halves : RoutingTable Nat :=
  ⟨[⟨none, [halfServer "left"]⟩, ⟨some 10, [halfServer "right"]⟩], (Comparator.threeWay Nat).compare, fun _ _ => true⟩

/-- An interval from inside a range up to the next split key. -/
theorem serversForKeyRange_tiles_halves : Tiles halves (some 5) (some 10)
    [⟨some 5, some 10, [halfServer "left"]⟩, ⟨some 10, some 10, [halfServer "right"]⟩] := by
  have shaped : halves.Shaped := by
    refine ⟨rfl, ?_, (Comparator.threeWay Nat).agrees⟩
    change [(⊥ : WithBot Nat), ((10 : Nat) : WithBot Nat)].Pairwise (· < ·)
    decide
  obtain ⟨descs, returned, tiles⟩ := @serversForKeyRange_tiles _ _ _ (some 5) (some 10) shaped
    fun last final => by
      cases final
      decide
  have same : serversForKeyRange halves (some 5) (some 10) =
      .ok [⟨some 5, some 10, [halfServer "left"]⟩, ⟨some 10, some 10, [halfServer "right"]⟩] := by
    rfl
  rw [returned] at same
  cases same
  exact tiles

end Scads.Client
