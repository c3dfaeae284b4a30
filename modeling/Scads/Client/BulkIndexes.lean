import Scads.Client.IndexConsistency

namespace Scads.Client

open Scads.Data Scads.Comm

/-! # Writes without an old record

`asyncPut`, `++=` and `--=` write to a namespace with indexes and never read the
record that is stored there.
-/

inductive BulkCall (schema : PairSchema) (D : Type) where
  | asyncPut (key : PairKey schema D) (value : Option (PairValue schema D))
  | addAll (pairs : List (PairKey schema D × PairValue schema D))
  | removeAll (pairs : List (PairKey schema D × PairValue schema D))

section

variable {schema : PairSchema} {D : Type} [DecidableEq D]

/-- The namespaces once the futures of the call have completed. -/
def perform (cache : IndexCache schema) (store : IndexedStore schema D) :
    BulkCall schema D → Except Failure (IndexedStore schema D)
  | .asyncPut key value => .ok (asyncPut store key value)
  | .addAll pairs => pairs.foldlM (putBulk cache) store
  | .removeAll pairs => pairs.foldlM (deleteBulk cache) store

def bulkStep (cache : IndexCache schema) (store : IndexedStore schema D) (call : BulkCall schema D) :
    Option (IndexedStore schema D) :=
  (perform cache store call).toOption

/-- The entries of the record of a key, none where there is no record. -/
def IndexDefinition.optEntries (definition : IndexDefinition schema) (key : PairKey schema D)
    (optValue : Option (PairValue schema D)) : List (IndexedRecord D) :=
  (optValue.map (definition.entries key)).getD []

/-- The last record that a list of pairs has for a key. -/
def lastValue (pairs : List (PairKey schema D × PairValue schema D)) (key : PairKey schema D) :
    Option (PairValue schema D) :=
  (pairs.filter fun pair => pair.1 = key).getLast?.map Prod.snd

/-- What a call must bring along because it does not read the old record. -/
def Covered (cache : IndexCache schema) (store : IndexedStore schema D) : BulkCall schema D → Prop
  | .asyncPut key value => ∀ index ∈ cache.indexes,
      index.2.optEntries key (store.base key) ⊆ index.2.optEntries key value ∧
        index.2.optEntries key value ⊆ index.2.optEntries key (store.base key)
  | .addAll pairs => ∀ index ∈ cache.indexes, ∀ pair ∈ pairs,
      index.2.optEntries pair.1 (store.base pair.1) ⊆ index.2.optEntries pair.1 (lastValue pairs pair.1) ∧
        index.2.entries pair.1 pair.2 ⊆ index.2.optEntries pair.1 (lastValue pairs pair.1)
  | .removeAll pairs => ∀ index ∈ cache.indexes, ∀ pair ∈ pairs,
      index.2.optEntries pair.1 (store.base pair.1) ⊆
        (pairs.filter fun other => other.1 = pair.1).flatMap fun other => index.2.entries other.1 other.2

/-- The writes for one pair of a bulk put or a bulk deletion. -/
def pairWrites (cache : IndexCache schema) (present : Bool)
    (pair : PairKey schema D × PairValue schema D) : List (StoreWrite schema D) :=
  .base pair.1 (if present then some pair.2 else none) ::
    cacheWrites cache fun definition => (definition.entries pair.1 pair.2).map fun entry => (entry, present)

variable {cache : IndexCache schema} {store : IndexedStore schema D}
  {pairs : List (PairKey schema D × PairValue schema D)} {present : Bool}
  {name : String} {definition : IndexDefinition schema} {entry : IndexedRecord D}
  {key : PairKey schema D}

theorem putBulk_eq (pair : PairKey schema D × PairValue schema D) :
    putBulk cache store pair = .ok (store.finish (pairWrites cache true pair)) := by
  rw [putBulk, indexWrites_eq cache (bulkEntries_eq pair.1 pair.2 true)]
  rfl

theorem deleteBulk_eq (pair : PairKey schema D × PairValue schema D) :
    deleteBulk cache store pair = .ok (store.finish (pairWrites cache false pair)) := by
  rw [deleteBulk, indexWrites_eq cache (bulkEntries_eq pair.1 pair.2 false)]
  rfl

theorem foldlM_pairs {bulk : IndexedStore schema D → PairKey schema D × PairValue schema D →
      Except Failure (IndexedStore schema D)}
    (each : ∀ store pair, bulk store pair = .ok (store.finish (pairWrites cache present pair))) :
    pairs.foldlM bulk store = .ok (store.finish (pairs.flatMap (pairWrites cache present))) := by
  induction pairs generalizing store with
  | nil => rfl
  | cons pair rest ih =>
      rw [List.foldlM_cons, each, ok_bind, ih, List.flatMap_cons, IndexedStore.finish_append]

/-- The writes of a call in the order in which it makes them. -/
def callWrites (cache : IndexCache schema) : BulkCall schema D → List (StoreWrite schema D)
  | .asyncPut key value => [.base key value]
  | .addAll pairs => pairs.flatMap (pairWrites cache true)
  | .removeAll pairs => pairs.flatMap (pairWrites cache false)

theorem perform_eq (store : IndexedStore schema D) (call : BulkCall schema D) :
    perform cache store call = .ok (store.finish (callWrites cache call)) := by
  cases call with
  | asyncPut key value => rfl
  | addAll pairs => exact foldlM_pairs fun _ => putBulk_eq
  | removeAll pairs => exact foldlM_pairs fun _ => deleteBulk_eq

theorem bulkStep_eq (store : IndexedStore schema D) (call : BulkCall schema D) :
    bulkStep cache store call = some (store.finish (callWrites cache call)) := by
  rw [bulkStep, perform_eq]
  rfl

theorem index_mem_pairs (cached : (name, definition) ∈ cache.indexes) {other : Bool} :
    StoreWrite.index name entry other ∈ pairs.flatMap (pairWrites cache present) ↔
      other = present ∧ ∃ key value, (key, value) ∈ pairs ∧ definition.Yields key value entry := by
  simp only [List.mem_flatMap, pairWrites, List.mem_cons, reduceCtorEq, false_or,
    index_mem_cacheWrites cached, List.mem_map, Prod.mk.injEq]
  constructor
  · intro found
    obtain ⟨pair, member, _, yielded, rfl, rfl⟩ := found
    exact ⟨rfl, pair.1, pair.2, member, yielded⟩
  · intro found
    obtain ⟨rfl, key, value, member, yielded⟩ := found
    exact ⟨(key, value), member, entry, yielded, rfl, rfl⟩

/-- A list of pairs decides their entries and leaves the others. -/
theorem finish_pairs_index (cached : (name, definition) ∈ cache.indexes) :
    ((∃ key value, (key, value) ∈ pairs ∧ definition.Yields key value entry) ∧
        (store.finish (pairs.flatMap (pairWrites cache present))).indexes name entry = present) ∨
      ((¬ ∃ key value, (key, value) ∈ pairs ∧ definition.Yields key value entry) ∧
        (store.finish (pairs.flatMap (pairWrites cache present))).indexes name entry =
          store.indexes name entry) := by
  by_cases given : ∃ key value, (key, value) ∈ pairs ∧ definition.Yields key value entry
  · refine .inl ⟨given, IndexedStore.finish_written present ?_ ?_⟩
    · exact (index_mem_pairs cached).mpr ⟨rfl, given⟩
    · exact fun other member => ((index_mem_pairs cached).mp member).1
  · exact .inr ⟨given, IndexedStore.finish_untouched fun other member =>
      given ((index_mem_pairs cached).mp member).2⟩

theorem finish_pair_base (pair : PairKey schema D × PairValue schema D) :
    (store.finish (pairWrites cache present pair)).base key =
      if pair.1 = key then (if present then some pair.2 else none) else store.base key := by
  rw [pairWrites, IndexedStore.finish, List.foldl_cons]
  refine (IndexedStore.finish_base_untouched fun _ => base_notMem_cacheWrites).trans ?_
  simp only [IndexedStore.write, Function.update_apply, eq_comm]

theorem finish_added_base :
    (store.finish (pairs.flatMap (pairWrites cache true))).base key =
      (lastValue pairs key).or (store.base key) := by
  induction pairs generalizing store with
  | nil => rfl
  | cons pair rest ih =>
      rw [List.flatMap_cons, IndexedStore.finish_append, ih, finish_pair_base]
      by_cases same : pair.1 = key
      · cases last : (rest.filter fun pair => pair.1 = key).getLast? with
        | none => simp [lastValue, same, last, List.getLast?_cons]
        | some found => simp [lastValue, same, last, List.getLast?_cons]
      · simp [lastValue, same]

theorem finish_removed_base :
    (store.finish (pairs.flatMap (pairWrites cache false))).base key =
      if key ∈ pairs.map Prod.fst then none else store.base key := by
  induction pairs generalizing store with
  | nil => rfl
  | cons pair rest ih =>
      rw [List.flatMap_cons, IndexedStore.finish_append, ih, finish_pair_base]
      by_cases same : pair.1 = key
      · simp [same]
      · rw [List.map_cons, if_neg same]
        simp only [List.mem_cons, Ne.symm same, false_or]

theorem mem_optEntries {optValue : Option (PairValue schema D)} :
    entry ∈ definition.optEntries key optValue ↔
      ∃ value, optValue = some value ∧ definition.Yields key value entry := by
  cases optValue with
  | none => simp [IndexDefinition.optEntries]
  | some value => simp [IndexDefinition.optEntries, IndexDefinition.Yields]

theorem lastValue_mem {value : PairValue schema D} (last : lastValue pairs key = some value) :
    (key, value) ∈ pairs := by
  obtain ⟨pair, found, rfl⟩ := Option.map_eq_some_iff.mp last
  obtain ⟨member, same⟩ := List.mem_filter.mp (List.mem_of_getLast? found)
  obtain rfl : pair.1 = key := by simpa using same
  exact member

theorem lastValue_isSome {pair : PairKey schema D × PairValue schema D} (member : pair ∈ pairs) :
    ∃ value, lastValue pairs pair.1 = some value := by
  have among : pair ∈ pairs.filter fun other => other.1 = pair.1 := by simp [member]
  obtain ⟨last, found⟩ := Option.isSome_iff_exists.mp
    (List.getLast?_isSome.mpr (List.ne_nil_of_mem among))
  exact ⟨last.2, by rw [lastValue, found]; rfl⟩

variable (consistent : store.Consistent cache) (cached : (name, definition) ∈ cache.indexes)

include consistent cached

theorem asyncPut_exact_iff (value : Option (PairValue schema D)) :
    Exact definition.Yields (asyncPut store key value).base ((asyncPut store key value).indexes name) ↔
      definition.optEntries key (store.base key) ⊆ definition.optEntries key value ∧
        definition.optEntries key value ⊆ definition.optEntries key (store.base key) := by
  have written : (asyncPut store key value).base = Function.update store.base key value := rfl
  have untouched : (asyncPut store key value).indexes name = store.indexes name := rfl
  rw [untouched, exact_iff_described (yields_separate definition) (consistent name definition cached)
    fun key entry ⟨value, stored, yielded⟩ => ⟨value, yielded⟩]
  simp only [← mem_optEntries, written]
  constructor
  · intro each
    have here := each key
    rw [Function.update_self] at here
    exact ⟨fun entry => (here entry).mp, fun entry => (here entry).mpr⟩
  · intro found other entry
    obtain ⟨kept, known⟩ := found
    by_cases same : other = key
    · subst same
      rw [Function.update_self]
      exact ⟨fun member => kept member, fun member => known member⟩
    · rw [Function.update_of_ne same]

/-- An entry is there after a bulk put if it was there or a pair yields it. -/
theorem added_described (entry : IndexedRecord D) :
    (store.finish (pairs.flatMap (pairWrites cache true))).indexes name entry ↔
      ∃ key, entry ∈ definition.optEntries key (store.base key) ∨
        ∃ value, (key, value) ∈ pairs ∧ definition.Yields key value entry := by
  simp only [mem_optEntries, exists_or]
  rw [← consistent name definition cached entry]
  obtain ⟨given, written⟩ | ⟨missing, same⟩ := @finish_pairs_index schema D _ cache store pairs true name
    definition entry cached
  · exact iff_of_true written (.inr given)
  · rw [same, or_iff_left missing]

theorem removed_described (entry : IndexedRecord D) :
    (store.finish (pairs.flatMap (pairWrites cache false))).indexes name entry ↔
      ∃ key, entry ∈ definition.optEntries key (store.base key) ∧
        ¬ ∃ value, (key, value) ∈ pairs ∧ definition.Yields key value entry := by
  obtain ⟨⟨key, value, member, yielded⟩, written⟩ | ⟨missing, same⟩ :=
    @finish_pairs_index schema D _ cache store pairs false name definition entry cached
  · rw [written]
    refine iff_of_false (by simp) ?_
    intro found
    obtain ⟨other, present, absent⟩ := found
    obtain ⟨old, stored, before⟩ := mem_optEntries.mp present
    cases yields_separate definition yielded before
    exact absent ⟨value, member, yielded⟩
  · rw [same, consistent name definition cached entry]
    refine exists_congr fun key => ?_
    rw [mem_optEntries, and_iff_left]
    intro found
    obtain ⟨value, member, yielded⟩ := found
    exact missing ⟨key, value, member, yielded⟩

theorem addAll_exact_iff :
    Exact definition.Yields (store.finish (pairs.flatMap (pairWrites cache true))).base
        ((store.finish (pairs.flatMap (pairWrites cache true))).indexes name) ↔
      ∀ pair ∈ pairs,
        definition.optEntries pair.1 (store.base pair.1) ⊆
            definition.optEntries pair.1 (lastValue pairs pair.1) ∧
          definition.entries pair.1 pair.2 ⊆ definition.optEntries pair.1 (lastValue pairs pair.1) := by
  rw [exact_iff_described (yields_separate definition) (added_described consistent cached)]
  · simp only [finish_added_base, ← mem_optEntries]
    constructor
    · intro each pair member
      obtain ⟨last, found⟩ := lastValue_isSome member
      have here := each pair.1
      rw [found, Option.some_or, ← found] at here
      exact ⟨fun entry old => (here entry).mp (.inl old),
        fun entry yielded => (here entry).mp (.inr ⟨pair.2, member, yielded⟩)⟩
    · intro each key entry
      cases last : lastValue pairs key with
      | none =>
          rw [Option.none_or]
          refine or_iff_left ?_
          intro found
          obtain ⟨value, member, _⟩ := found
          obtain ⟨found, some⟩ := lastValue_isSome member
          rw [last] at some
          cases some
      | some value =>
          have covered := each (key, value) (lastValue_mem last)
          rw [last] at covered
          rw [Option.some_or]
          constructor
          · intro found
            obtain old | ⟨other, member, yielded⟩ := found
            · exact covered.1 old
            · have whole := (each (key, other) member).2 yielded
              rw [last] at whole
              exact whole
          · intro present
            obtain ⟨given, same, yielded⟩ := mem_optEntries.mp present
            cases same
            exact .inr ⟨value, lastValue_mem last, yielded⟩
  · intro key entry found
    obtain old | ⟨value, _, yielded⟩ := found
    · obtain ⟨value, _, yielded⟩ := mem_optEntries.mp old
      exact ⟨value, yielded⟩
    · exact ⟨value, yielded⟩

theorem removeAll_exact_iff :
    Exact definition.Yields (store.finish (pairs.flatMap (pairWrites cache false))).base
        ((store.finish (pairs.flatMap (pairWrites cache false))).indexes name) ↔
      ∀ pair ∈ pairs, definition.optEntries pair.1 (store.base pair.1) ⊆
        (pairs.filter fun other => other.1 = pair.1).flatMap fun other =>
          definition.entries other.1 other.2 := by
  rw [exact_iff_described (yields_separate definition) (removed_described consistent cached)]
  · simp only [finish_removed_base, ← mem_optEntries]
    constructor
    · intro each pair member entry old
      have here := each pair.1 entry
      rw [if_pos (List.mem_map_of_mem member)] at here
      by_contra uncovered
      refine absurd (here.mp ⟨old, ?_⟩) (by simp [IndexDefinition.optEntries])
      intro found
      obtain ⟨value, removed, yielded⟩ := found
      exact uncovered (List.mem_flatMap.mpr ⟨(pair.1, value), by simp [removed], yielded⟩)
    · intro each key entry
      split
      · rename_i listed
        obtain ⟨pair, member, rfl⟩ := List.mem_map.mp listed
        refine iff_of_false ?_ (by simp [IndexDefinition.optEntries])
        intro found
        obtain ⟨old, kept⟩ := found
        obtain ⟨other, among, yielded⟩ := List.mem_flatMap.mp (each pair member old)
        obtain ⟨removed, same⟩ := List.mem_filter.mp among
        obtain same : other.1 = pair.1 := by simpa using same
        exact kept ⟨other.2, same ▸ removed, same ▸ yielded⟩
      · rename_i unlisted
        refine and_iff_left ?_
        intro found
        obtain ⟨value, member, _⟩ := found
        exact unlisted (List.mem_map.mpr ⟨_, member, rfl⟩)
  · intro key entry found
    obtain ⟨old, _⟩ := found
    obtain ⟨value, _, yielded⟩ := mem_optEntries.mp old
    exact ⟨value, yielded⟩

omit cached in
/-- A call keeps the indexes exact if and only if its records cover those it replaces. -/
theorem finish_consistent_iff (call : BulkCall schema D) :
    (store.finish (callWrites cache call)).Consistent cache ↔ Covered cache store call := by
  have eachIndex : (store.finish (callWrites cache call)).Consistent cache ↔ ∀ index ∈ cache.indexes,
      Exact index.2.Yields (store.finish (callWrites cache call)).base
        ((store.finish (callWrites cache call)).indexes index.1) :=
    ⟨fun exact index member => exact index.1 index.2 member,
      fun exact name definition cached => exact (name, definition) cached⟩
  rw [eachIndex]
  cases call with
  | asyncPut key value => exact forall₂_congr fun _ member => asyncPut_exact_iff consistent member value
  | addAll pairs => exact forall₂_congr fun _ member => addAll_exact_iff consistent member
  | removeAll pairs => exact forall₂_congr fun _ member => removeAll_exact_iff consistent member

omit consistent cached

/-- Every sequence of calls succeeds, and it keeps every index exact if and only if
the records of each call cover those that it replaces. -/
theorem calls_keep_indexes_consistent_iff (cache : IndexCache schema) (store : IndexedStore schema D)
    (consistent : store.Consistent cache) (calls : List (BulkCall schema D)) :
    (∃ final, run (bulkStep cache) store calls = some final) ∧
      (Along (bulkStep cache) (fun _ _ after => after.Consistent cache) store calls ↔
        Along (bulkStep cache) (fun before call _ => Covered cache before call) store calls) := by
  constructor
  · clear consistent
    induction calls generalizing store with
    | nil => exact ⟨store, rfl⟩
    | cons call rest ih =>
        obtain ⟨final, ran⟩ := ih (store.finish (callWrites cache call))
        exact ⟨final, by rw [run, bulkStep_eq]; exact ran⟩
  · refine @along_iff _ _ _ _ _ (fun store => store.Consistent cache) _ _ ?_ ?_ consistent
    · intro before call after held stepped
      rw [bulkStep_eq] at stepped
      cases stepped
      exact finish_consistent_iff held call
    · intro before call after held stepped covered
      rw [bulkStep_eq] at stepped
      cases stepped
      exact (finish_consistent_iff held call).mpr covered

end

/-- A person is stored in bulk, again by an asynchronous put and deleted in bulk. -/
theorem calls_keep_people_consistent :
    Along (bulkStep peopleIndexes) (fun _ _ after => after.Consistent peopleIndexes) IndexedStore.empty
      [.addAll [(person 1, named "ann lee" 30)], .asyncPut (person 1) (some (named "ann lee" 30)),
        .removeAll [(person 1, named "ann lee" 30)]] := by
  refine (calls_keep_indexes_consistent_iff peopleIndexes IndexedStore.empty
    (IndexedStore.empty_consistent peopleIndexes) _).2.mpr ?_
  simp only [Along, bulkStep_eq, Covered, and_true]
  refine ⟨?_, ?_, ?_⟩
  · intro index _ pair member
    cases List.mem_singleton.mp member
    exact ⟨by simp [IndexDefinition.optEntries, IndexedStore.empty],
      by simp [IndexDefinition.optEntries, lastValue]⟩
  · intro index _
    rw [callWrites, finish_added_base]
    simp [lastValue]
  · intro index _ pair member
    cases List.mem_singleton.mp member
    simp [callWrites, IndexedStore.finish, IndexedStore.write, IndexDefinition.optEntries]

def annStored : IndexedStore peopleSchema Nat :=
  IndexedStore.empty.finish (IndexedStore.planned peopleIndexes (person 1) none (some (named "ann lee" 30)))

/-- None of the calls removes the entry of the old age. -/
theorem calls_leave_old_age :
    annStored.Consistent peopleIndexes ∧
      ∀ call ∈ ([.asyncPut (person 1) (some (named "ann lee" 31)),
          .addAll [(person 1, named "ann lee" 31)], .removeAll [(person 1, named "ann lee" 31)]] :
          List (BulkCall peopleSchema Nat)),
        ∃ after, perform peopleIndexes annStored call = .ok after ∧ ¬ after.Consistent peopleIndexes := by
  have consistent : annStored.Consistent peopleIndexes :=
    IndexedStore.planned_consistent (person 1) _ (IndexedStore.empty_consistent peopleIndexes)
  refine ⟨consistent, fun call member => ⟨_, perform_eq annStored call, fun kept => ?_⟩⟩
  have stored : annStored.base (person 1) = some (named "ann lee" 30) := IndexedStore.planned_base
  have byAge : ("age", (⟨[.attributeIndex "age", .attributeIndex "id"], [.attributeIndex "age"], rfl⟩ :
      IndexDefinition peopleSchema)) ∈ peopleIndexes.indexes := by simp [peopleIndexes]
  have covered := (finish_consistent_iff consistent call).mp kept
  simp only [List.mem_cons, List.not_mem_nil, or_false] at member
  rcases member with rfl | rfl | rfl
  · have old := (covered _ byAge).1
    rw [stored] at old
    revert old
    decide
  · have old := (covered _ byAge _ (List.mem_singleton.mpr rfl)).1
    rw [stored] at old
    revert old
    decide
  · have old := covered _ byAge _ (List.mem_singleton.mpr rfl)
    rw [stored] at old
    revert old
    decide

end Scads.Client
