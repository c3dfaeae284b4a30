import Scads.Data.Machines
import Scads.Client.LimitedReads

namespace Scads.Client

open Scads.Data Scads.Comm Scads.Server Scads.Util

/-! # The iterator of a key-value store -/

namespace RangeKeyValueStore

def windowSize : Nat := 16

/-- The variables of the iterator. -/
structure StoreIterator (K : Type) where
  lastFetchKey : Option K := none
  isDone : Bool := false
  buf : List (K × Bytes) := []

abbrev GetKeys (K : Type) :=
  Option K → Option K → Option Int → Option Int → Bool → Except Failure (List (K × Bytes))

variable {K Key Val : Type}

namespace StoreIterator

def hasNext (getKeys : GetKeys K) (iterator : StoreIterator K) : Except Failure (Bool × StoreIterator K) :=
  if iterator.isDone then .ok (!iterator.buf.isEmpty, iterator)
  else if iterator.buf.isEmpty then do
    let recs ← getKeys iterator.lastFetchKey none (some windowSize)
      ((iterator.lastFetchKey.map fun _ => 1).or (some 0)) true
    match recs.getLast? with
    | none => .error (.noSuchElement "next on empty iterator")
    | some last =>
        let buf := iterator.buf ++ recs
        return (!buf.isEmpty, ⟨some last.1, decide (recs.length < windowSize), buf⟩)
  else .ok (true, iterator)

def next (bytesToKey : K → Key) (bytesToValue : Bytes → Val) (getKeys : GetKeys K) (iterator : StoreIterator K) :
    Except Failure ((Key × Val) × StoreIterator K) := do
  let (more, iterator) ← iterator.hasNext getKeys
  if more then
    match iterator.buf with
    | [] => .error (.noSuchElement "queue empty")
    | (k, v) :: buf => return ((bytesToKey k, bytesToValue v), { iterator with buf })
  else .error (.runtime "next on empty iterator")

def machine (bytesToKey : K → Key) (bytesToValue : Bytes → Val) (getKeys : GetKeys K) :
    Machine Failure (Key × Val) where
  State := StoreIterator K
  initial := {}
  opened _ iterator := .ok iterator
  hasNext _ := hasNext getKeys
  next _ := next bytesToKey bytesToValue getKeys

/-- Reads by windows of a content: what comes after the last key that was read. -/
def Windowed (getKeys : GetKeys K) (content : List (K × Bytes)) : Prop :=
  ∀ front later, content = front ++ later →
    getKeys (front.getLast?.map Prod.fst) none (some windowSize)
      (((front.getLast?.map Prod.fst).map fun _ => 1).or (some 0)) true = .ok (later.take windowSize)

/-- The records that are still to come: those of the buffer and those that are still to be read. -/
structure Pending (content : List (K × Bytes)) (iterator : StoreIterator K) (later : List (K × Bytes)) : Prop where
  ended : iterator.isDone = true → later = []
  reads : iterator.isDone = false → ∃ front, content = front ++ later ∧
    iterator.lastFetchKey = front.getLast?.map Prod.fst ∧ windowSize ∣ front.length

variable {getKeys : GetKeys K} {content later : List (K × Bytes)} {iterator : StoreIterator K}
  {bytesToKey : K → Key} {bytesToValue : Bytes → Val}

theorem hasNext_buffered (some : iterator.buf ≠ []) : iterator.hasNext getKeys = .ok (true, iterator) := by
  have answer : iterator.buf.isEmpty = false := by
    cases stored : iterator.buf with
    | nil => exact absurd stored some
    | cons record buf => rfl
  rw [hasNext, answer]
  split <;> rfl

/-- A window that is not empty. -/
theorem hasNext_fetches (windowed : Windowed getKeys content) (pending : Pending content iterator later)
    (going : iterator.isDone = false) (empty : iterator.buf = []) (some : later ≠ []) :
    ∃ after, iterator.hasNext getKeys = .ok (true, after) ∧ after.buf = later.take windowSize ∧
      Pending content after (later.drop windowSize) ∧ after.isDone = decide (later.length < windowSize) := by
  obtain ⟨front, split, last, whole⟩ := pending.reads going
  have full : later.take windowSize ≠ [] := by
    cases later with
    | nil => exact absurd rfl some
    | cons record rest => exact List.cons_ne_nil _ _
  obtain ⟨others, final, window⟩ := List.eq_nil_or_concat (later.take windowSize) |>.resolve_left full
  rw [List.concat_eq_append] at window
  have fetched := windowed front later split
  rw [← last] at fetched
  have ending : (later.take windowSize).getLast? = Option.some final := by rw [window, List.getLast?_concat]
  have short : (later.take windowSize).length < windowSize ↔ later.length < windowSize := by
    rw [List.length_take]
    omega
  refine ⟨⟨Option.some final.1, decide (later.length < windowSize), later.take windowSize⟩, ?_, rfl, ⟨?_, ?_⟩, rfl⟩
  · rw [hasNext, going, empty]
    simp only [Bool.false_eq_true, if_false, List.isEmpty_nil, if_true, fetched, ok_bind, ending, List.nil_append,
      short]
    rw [window]
    simp
  · intro ended
    exact List.drop_eq_nil_of_le (of_decide_eq_true ended).le
  · intro more
    refine ⟨front ++ later.take windowSize, ?_, ?_, ?_⟩
    · rw [split, List.append_assoc, List.take_append_drop]
    · rw [List.getLast?_append_of_ne_nil _ full, ending]
      rfl
    · rw [List.length_append, List.length_take_of_le (not_lt.mp (of_decide_eq_false more))]
      exact Nat.dvd_add whole (Nat.dvd_refl _)

/-- An empty window has no last record. -/
theorem hasNext_throws (windowed : Windowed getKeys content) (pending : Pending content iterator [])
    (going : iterator.isDone = false) (empty : iterator.buf = []) :
    iterator.hasNext getKeys = .error (.noSuchElement "next on empty iterator") := by
  obtain ⟨front, split, last, -⟩ := pending.reads going
  have fetched := windowed front [] split
  rw [← last] at fetched
  rw [hasNext, going, empty]
  simp only [Bool.false_eq_true, if_false, List.isEmpty_nil, if_true, fetched, ok_bind, List.take_nil,
    List.getLast?_nil]

theorem next_of_hasNext {after : StoreIterator K} {k : K} {v : Bytes} {buf : List (K × Bytes)}
    (found : iterator.hasNext getKeys = .ok (true, after)) (holds : after.buf = (k, v) :: buf) :
    iterator.next bytesToKey bytesToValue getKeys = .ok ((bytesToKey k, bytesToValue v), { after with buf }) := by
  rw [next, found]
  simp only [ok_bind, if_true, holds]
  rfl

theorem Pending.with_buf (pending : Pending content iterator later) (buf : List (K × Bytes)) :
    Pending content { iterator with buf } later :=
  ⟨pending.ended, pending.reads⟩

/-- What `hasNext` finds where the last window is short. -/
theorem hasNext_found (windowed : Windowed getKeys content) (short : ¬ windowSize ∣ content.length)
    (pending : Pending content iterator later) :
    ∃ after rest, iterator.hasNext getKeys = .ok (!(iterator.buf ++ later).isEmpty, after) ∧
      Pending content after rest ∧ after.buf ++ rest = iterator.buf ++ later ∧ (after.buf = [] → rest = []) := by
  cases stored : iterator.buf with
  | cons record buf =>
      have some : iterator.buf ≠ [] := by
        rw [stored]
        exact List.cons_ne_nil _ _
      exact ⟨iterator, later, hasNext_buffered some, pending, by rw [stored], fun none => absurd none some⟩
  | nil =>
      cases done : iterator.isDone with
      | true =>
          cases pending.ended done
          refine ⟨iterator, [], ?_, pending, by rw [stored], fun _ => rfl⟩
          rw [hasNext, done, if_pos rfl, stored]
          rfl
      | false =>
          have some : later ≠ [] := by
            intro same
            subst same
            obtain ⟨front, split, -, whole⟩ := pending.reads done
            rw [split, List.append_nil] at short
            exact short whole
          obtain ⟨after, fetched, buf, pending, -⟩ := hasNext_fetches windowed pending done stored some
          refine ⟨after, _, ?_, pending, by rw [buf, List.take_append_drop, List.nil_append], fun none => ?_⟩
          · rw [fetched, List.nil_append]
            simp [some]
          · rw [buf] at none
            refine absurd (List.take_eq_nil_iff.mp none) ?_
            simp [some, windowSize]

theorem simulates (windowed : Windowed getKeys content) (short : ¬ windowSize ∣ content.length) :
    (machine bytesToKey bytesToValue getKeys).Simulates fun iterator course => ∃ later,
      Pending content iterator later ∧
        course = .ofList ((iterator.buf ++ later).map fun record => (bytesToKey record.1, bytesToValue record.2)) where
  hasNext := by
    intro iterator _ found
    obtain ⟨later, pending, rfl⟩ := found
    obtain ⟨after, rest, answered, pending, same, -⟩ := hasNext_found windowed short pending
    refine ⟨after, ?_, rest, pending, by rw [same]⟩
    rw [Course.pending_ofList, List.isEmpty_map]
    exact (Settles.const _).congr fun _ => answered
  next := by
    intro iterator value rest found
    obtain ⟨later, pending, same⟩ := found
    obtain ⟨after, others, answered, pending, parts, none⟩ := hasNext_found windowed short pending
    rw [← parts] at same answered
    cases stored : after.buf with
    | nil =>
        rw [stored, none stored] at same
        cases same
    | cons record buf =>
        rw [stored] at same answered
        cases same
        refine ⟨_, (Settles.const _).congr fun _ => next_of_hasNext answered stored, others, pending.with_buf buf, rfl⟩
  fails := by
    intro iterator failure found
    obtain ⟨later, -, same⟩ := found
    exact absurd same.symm Course.ofList_ne_fails

/-- Where the last window is full, the call of `hasNext` after the last record throws. -/
theorem replies_throw (windowed : Windowed getKeys content) (full : windowSize ∣ content.length)
    (pending : Pending content iterator later) (going : iterator.isDone = false) (rounds : Nat) :
    (machine bytesToKey bytesToValue getKeys).replies rounds
        (List.replicate (iterator.buf ++ later).length .next ++ [.hasNext]) iterator =
      .error (.noSuchElement "next on empty iterator") := by
  induction size : (iterator.buf ++ later).length generalizing iterator later with
  | zero =>
      obtain ⟨empty, rfl⟩ := List.append_eq_nil_iff.mp (List.length_eq_zero_iff.mp size)
      have throws := hasNext_throws windowed pending going empty
      rw [List.replicate_zero, List.nil_append]
      change (iterator.hasNext getKeys >>= _) = _
      rw [throws]
      rfl
  | succ count ih =>
      have found : ∃ after rest record buf, iterator.hasNext getKeys = .ok (true, after) ∧
          Pending content after rest ∧ after.isDone = false ∧ after.buf = record :: buf ∧
          (buf ++ rest).length = count := by
        cases stored : iterator.buf with
        | cons record buf =>
            have some : iterator.buf ≠ [] := by
              rw [stored]
              exact List.cons_ne_nil _ _
            rw [stored] at size
            exact ⟨iterator, later, record, buf, hasNext_buffered some, pending, going, stored, Nat.succ.inj size⟩
        | nil =>
            rw [stored, List.nil_append] at size
            have enough : windowSize ≤ later.length := by
              obtain ⟨front, split, -, whole⟩ := pending.reads going
              rw [split, List.length_append, Nat.dvd_add_right whole] at full
              exact Nat.le_of_dvd (by omega) full
            have some : later ≠ [] := List.ne_nil_of_length_pos (by omega)
            obtain ⟨after, fetched, buf, pending, done⟩ := hasNext_fetches windowed pending going stored some
            obtain ⟨record, others, window⟩ : ∃ record others, later.take windowSize = record :: others := by
              refine List.exists_cons_of_ne_nil (List.ne_nil_of_length_pos ?_)
              rw [List.length_take_of_le enough]
              decide
            refine ⟨after, _, record, others, fetched, pending, ?_, buf.trans window, ?_⟩
            · rw [done]
              exact decide_eq_false (not_lt.mpr enough)
            · have parts := congrArg List.length (List.take_append_drop windowSize later)
              rw [window, size] at parts
              exact Nat.succ.inj parts
      obtain ⟨after, rest, record, buf, answered, pending, going, stored, size⟩ := found
      have given : iterator.next bytesToKey bytesToValue getKeys = _ := next_of_hasNext answered stored
      have throws := @ih rest { after with buf } (pending.with_buf buf) going size
      rw [List.replicate_succ, List.cons_append]
      change (iterator.next bytesToKey bytesToValue getKeys >>= _) = _
      rw [given]
      exact congrArg (· >>= fun others => .ok (.value (bytesToKey record.1, bytesToValue record.2) :: others)) throws

/-- The iterator gives these records to every pattern of calls, and then ends. -/
def Yields (bytesToKey : K → Key) (bytesToValue : Bytes → Val) (getKeys : GetKeys K) (content : List (K × Bytes)) :
    Prop :=
  ∀ calls : List Machine.Call, calls.count .next ≤ content.length →
    Settles ((machine bytesToKey bytesToValue getKeys).openReplies calls)
      (.ok (Machine.listReplies calls (content.map fun record => (bytesToKey record.1, bytesToValue record.2))))

theorem yields_iff (windowed : Windowed getKeys content) :
    Yields bytesToKey bytesToValue getKeys content ↔ ¬ windowSize ∣ content.length := by
  have start : Pending content {} content := ⟨nofun, fun _ => ⟨[], rfl, rfl, Nat.dvd_zero _⟩⟩
  constructor
  · intro yields full
    have given := yields (List.replicate content.length .next ++ [.hasNext]) (by simp)
    have throws : Settles ((machine bytesToKey bytesToValue getKeys).openReplies
        (List.replicate content.length .next ++ [.hasNext])) (.error (.noSuchElement "next on empty iterator")) :=
      (Settles.const _).congr (replies_throw windowed full start rfl)
    cases given.unique throws
  · intro short calls enough
    have opens : (machine bytesToKey bytesToValue getKeys).Opens
        (.ok (.ofList (content.map fun record => (bytesToKey record.1, bytesToValue record.2)))) :=
      ⟨{}, .const _, _, simulates windowed short, content, start, rfl⟩
    exact opens.replies (by rwa [List.length_map])

end StoreIterator

section

variable {K Key Val : Type} [LinearOrder K] {space : Namespace K} {config : QuorumProtocolConfig}
  {readRatio writeRatio : ℚ}
  {arrival : RangeDesc K → List PartitionService}

theorem single_distinct (single : space.routingTable.rTable.length = 1) : space.Distinct := by
  obtain ⟨range, only⟩ := List.length_eq_one_iff.mp single
  rw [Namespace.Distinct, only]
  exact List.pairwise_singleton _ _

/-- The only partition has all the records from the start key on. -/
theorem single_visited (single : space.routingTable.rTable.length = 1) (startKey : Option K) :
    space.visited startKey none true =
      [space.content.entries.filter fun entry => Database.InRange startKey none entry.1] := by
  obtain ⟨before, range, after, located⟩ := space.shaped.exists_at startKey
  rw [located.split, List.length_append, List.length_cons] at single
  have first : before = [] := List.length_eq_zero_iff.mp (by omega)
  have last : after = [] := List.length_eq_zero_iff.mp (by omega)
  subst first last
  have routed : serversForKeyRange space.routingTable startKey none = .ok [⟨startKey, none, range.values⟩] := by
    rw [serversForKeyRange, RangeTable.valuesForRange_open space.shaped located, located.split]
    rfl
  rw [space.visited_eq routed]
  rfl

/-- From the key of an entry on, the entry comes first. -/
theorem filter_from {front back : List (K × Value)} {entry : K × Value}
    (split : space.content.entries = front ++ entry :: back) :
    (space.content.entries.filter fun other => Database.InRange (some entry.1) none other.1) = entry :: back := by
  have sorted := space.content.sorted
  rw [split, List.pairwise_append, List.pairwise_cons] at sorted
  obtain ⟨-, ⟨above, -⟩, below⟩ := sorted
  have early : front.filter (fun other => Database.InRange (some entry.1) none other.1) = [] := by
    refine List.filter_eq_nil_iff.mpr fun other member => ?_
    simpa [Database.InRange] using below other member entry List.mem_cons_self
  have late : back.filter (fun other => Database.InRange (some entry.1) none other.1) = back := by
    refine List.filter_eq_self.mpr fun other member => ?_
    simpa [Database.InRange] using (above other member).le
  rw [split, List.filter_append, early, List.nil_append, List.filter_cons_of_pos (by simp [Database.InRange]), late]

theorem getKeys_windowed (single : space.routingTable.rTable.length = 1)
    (accepted : setReadWriteQuorum readRatio writeRatio = .ok config) (replies : AllReply arrival) :
    StoreIterator.Windowed (getKeys config space.routingTable (space.network arrival))
      (space.content.entries.map toBytes) := by
  intro front later split
  obtain ⟨entries, others, stored, rfl, rfl⟩ := List.map_eq_append_iff.mp split
  rw [getKeys_limit (single_distinct single) accepted replies, single_visited single]
  dsimp only
  rcases List.eq_nil_or_concat entries with rfl | ⟨entries, entry, rfl⟩
  · have all : (space.content.entries.filter fun other => Database.InRange none none other.1) = others := by
      rw [stored, List.nil_append]
      exact List.filter_eq_self.mpr fun other member => rfl
    rw [List.map_nil, List.getLast?_nil, Option.map_none, all]
    simp [windowSize]
  · rw [List.concat_eq_append, List.append_assoc] at stored
    rw [List.concat_eq_append, List.map_append, List.map_singleton, List.getLast?_concat, Option.map_some]
    change Except.ok (((List.drop 1 (space.content.entries.filter fun other =>
      Database.InRange (some entry.1) none other.1)).take windowSize).map toBytes) = _
    rw [filter_from stored, List.drop_one, List.tail_cons, List.map_take]
    rfl

/-- The iterator of a store with one partition yields its records to every pattern of
calls and ends, exactly when the last window is not full. -/
theorem iterator_yields_iff (single : space.routingTable.rTable.length = 1)
    (accepted : setReadWriteQuorum readRatio writeRatio = .ok config) (replies : AllReply arrival)
    (bytesToKey : K → Key) (bytesToValue : Bytes → Val) :
    StoreIterator.Yields bytesToKey bytesToValue (getKeys config space.routingTable (space.network arrival))
        (space.content.entries.map toBytes) ↔ ¬ windowSize ∣ space.content.entries.length := by
  have yields := @StoreIterator.yields_iff _ _ _ _ _ bytesToKey bytesToValue (getKeys_windowed single accepted replies)
  rwa [List.length_map] at yields

/-- One partition with this content. -/
def onePartition (content : Database Nat Value) : Namespace Nat where
  routingTable := ⟨[⟨none, [partitionOn 1 "only"]⟩], (Comparator.threeWay Nat).compare, fun _ _ => true⟩
  shaped := ⟨rfl, List.pairwise_singleton _ _, (Comparator.threeWay Nat).agrees⟩
  replicated := by simp
  content

theorem servers_reply : AllReply (RangeDesc.servers : RangeDesc Nat → List PartitionService) := fun _ => .refl _

/-- An iterator over two records. -/
theorem two_records_yielded :
    StoreIterator.Yields id id (getKeys ⟨1, 1⟩ (onePartition ⟨[recordOf 3 3, recordOf 5 5], by decide⟩).routingTable
        ((onePartition ⟨[recordOf 3 3, recordOf 5 5], by decide⟩).network RangeDesc.servers))
      [(3, [3]), (5, [5])] := by
  have single : (onePartition ⟨[recordOf 3 3, recordOf 5 5], by decide⟩).routingTable.rTable.length = 1 := rfl
  exact (iterator_yields_iff single accepted_ones servers_reply id id).mpr (by decide)

/-- The first `hasNext` throws where there are no records. -/
theorem empty_store_throws :
    (onePartition Database.empty).routingTable.rTable.length = 1 ∧
      StoreIterator.hasNext (getKeys ⟨1, 1⟩ (onePartition Database.empty).routingTable
          ((onePartition Database.empty).network RangeDesc.servers)) {} =
        .error (.noSuchElement "next on empty iterator") ∧
      ¬ StoreIterator.Yields (id : Nat → Nat) (id : Bytes → Bytes)
        (getKeys ⟨1, 1⟩ (onePartition Database.empty).routingTable
          ((onePartition Database.empty).network RangeDesc.servers)) [] := by
  have single : (onePartition Database.empty).routingTable.rTable.length = 1 := rfl
  have windowed := getKeys_windowed single accepted_ones servers_reply
  refine ⟨single, StoreIterator.hasNext_throws windowed ⟨nofun, fun _ => ⟨[], rfl, rfl, Nat.dvd_zero _⟩⟩ rfl rfl, ?_⟩
  exact fun yields => (StoreIterator.yields_iff windowed).mp yields (Nat.dvd_zero _)

end

end RangeKeyValueStore

end Scads.Client
