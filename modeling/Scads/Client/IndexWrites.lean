import Scads.Data.Runs
import Scads.Client.IndexManager

namespace Scads.Client

open Scads.Data Scads.Comm

/-! # Index maintenance

A write to a namespace with indexes is a sequence of writes to the index
namespaces and to the base namespace.
-/

/-- The indexes of a namespace by their names. -/
structure IndexCache (schema : PairSchema) where
  indexes : List (String × IndexDefinition schema)
  distinct : (indexes.map Prod.fst).Nodup

/-- The pairs of a namespace and the entries of its index namespaces. -/
structure IndexedStore (schema : PairSchema) (D : Type) where
  base : PairKey schema D → Option (PairValue schema D)
  indexes : String → IndexedRecord D → Bool

/-- One put to the base namespace or to an index namespace, `false` for a deletion there. -/
inductive StoreWrite (schema : PairSchema) (D : Type) where
  | base (key : PairKey schema D) (value : Option (PairValue schema D))
  | index (name : String) (entry : IndexedRecord D) (present : Bool)

section

variable {schema : PairSchema} {D : Type} [DecidableEq D]

namespace IndexedStore

def write (store : IndexedStore schema D) : StoreWrite schema D → IndexedStore schema D
  | .base key value => { store with base := Function.update store.base key value }
  | .index name entry present =>
      { store with
        indexes := Function.update store.indexes name
          (Function.update (store.indexes name) entry present) }

def finish (store : IndexedStore schema D) (writes : List (StoreWrite schema D)) : IndexedStore schema D :=
  writes.foldl write store

end IndexedStore

/-- The puts to one index namespace for a write to the base namespace. -/
def maintenance (key : PairKey schema D) (optOldValue value : Option (PairValue schema D))
    (definition : IndexDefinition schema) : Except Failure (List (IndexedRecord D × Bool)) := do
  let oldIndexValues ←
    match optOldValue with
    | some oldValue => makeIndexFor schema key.1 oldValue.1 definition.fields
    | none => .ok []
  match value with
  | none => return oldIndexValues.map fun oldIndex => (oldIndex, false)
  | some newValue =>
      let newIndexValues ← makeIndexFor schema key.1 newValue.1 definition.fields
      let toDelete := oldIndexValues.diff newIndexValues
      let toAdd := newIndexValues.diff oldIndexValues
      return toAdd.map (fun entry => (entry, true)) ++ toDelete.map fun entry => (entry, false)

def namedWrites (name : String) (puts : List (IndexedRecord D × Bool)) : List (StoreWrite schema D) :=
  puts.map fun put => .index name put.1 put.2

/-- The same for every index of the cache. -/
def indexWrites (cache : IndexCache schema)
    (puts : IndexDefinition schema → Except Failure (List (IndexedRecord D × Bool))) :
    Except Failure (List (StoreWrite schema D)) := do
  let parts ← cache.indexes.mapM fun index => do return namedWrites index.1 (← puts index.2)
  return parts.flatten

def putWrites (cache : IndexCache schema) (key : PairKey schema D)
    (optOldValue value : Option (PairValue schema D)) : Except Failure (List (StoreWrite schema D)) := do
  return (← indexWrites cache (maintenance key optOldValue value)) ++ [.base key value]

def put (cache : IndexCache schema) (store : IndexedStore schema D) (key : PairKey schema D)
    (value : Option (PairValue schema D)) : Except Failure (IndexedStore schema D) := do
  return store.finish (← putWrites cache key (store.base key) value)

/-- The entries of a pair as a bulk put or a bulk deletion writes them. -/
def bulkEntries (key : PairKey schema D) (value : PairValue schema D) (present : Bool)
    (definition : IndexDefinition schema) : Except Failure (List (IndexedRecord D × Bool)) := do
  return (← makeIndexFor schema key.1 value.1 definition.fields).map fun entry => (entry, present)

/-- One pair of `++=`. -/
def putBulk (cache : IndexCache schema) (store : IndexedStore schema D)
    (pair : PairKey schema D × PairValue schema D) : Except Failure (IndexedStore schema D) := do
  return store.finish (.base pair.1 (some pair.2) :: (← indexWrites cache (bulkEntries pair.1 pair.2 true)))

/-- One pair of `--=`. -/
def deleteBulk (cache : IndexCache schema) (store : IndexedStore schema D)
    (pair : PairKey schema D × PairValue schema D) : Except Failure (IndexedStore schema D) := do
  return store.finish (.base pair.1 none :: (← indexWrites cache (bulkEntries pair.1 pair.2 false)))

/-- `asyncPut` is the one of the base store. -/
def asyncPut (store : IndexedStore schema D) (key : PairKey schema D)
    (value : Option (PairValue schema D)) : IndexedStore schema D :=
  store.finish [.base key value]

/-- The writes that are made where no entry computation fails. -/
def cacheWrites (cache : IndexCache schema)
    (puts : IndexDefinition schema → List (IndexedRecord D × Bool)) : List (StoreWrite schema D) :=
  cache.indexes.flatMap fun index => namedWrites index.1 (puts index.2)

def delta (key : PairKey schema D) (optOldValue value : Option (PairValue schema D))
    (definition : IndexDefinition schema) : List (IndexedRecord D × Bool) :=
  let oldIndexValues := (optOldValue.map (definition.entries key)).getD []
  match value with
  | none => oldIndexValues.map fun oldIndex => (oldIndex, false)
  | some newValue =>
      let newIndexValues := definition.entries key newValue
      (newIndexValues.diff oldIndexValues).map (fun entry => (entry, true)) ++
        (oldIndexValues.diff newIndexValues).map fun entry => (entry, false)

theorem maintenance_eq (key : PairKey schema D) (optOldValue value : Option (PairValue schema D))
    (definition : IndexDefinition schema) :
    maintenance key optOldValue value definition = .ok (delta key optOldValue value definition) := by
  cases optOldValue with
  | none =>
      cases value with
      | none => rfl
      | some newValue =>
          simp only [maintenance, delta, makeIndexFor_eq, ok_bind, pure_eq_ok]
          rfl
  | some oldValue =>
      cases value with
      | none =>
          simp only [maintenance, delta, makeIndexFor_eq, ok_bind, pure_eq_ok]
          rfl
      | some newValue =>
          simp only [maintenance, delta, makeIndexFor_eq, ok_bind, pure_eq_ok]
          rfl

omit [DecidableEq D] in
theorem indexWrites_eq (cache : IndexCache schema)
    {puts : IndexDefinition schema → Except Failure (List (IndexedRecord D × Bool))}
    {total : IndexDefinition schema → List (IndexedRecord D × Bool)}
    (each : ∀ definition, puts definition = .ok (total definition)) :
    indexWrites cache puts = .ok (cacheWrites cache total) := by
  have parts : ∀ indexes : List (String × IndexDefinition schema),
      (indexes.mapM fun index => do
        return (namedWrites index.1 (← puts index.2) : List (StoreWrite schema D))) =
        .ok (indexes.map fun index => namedWrites index.1 (total index.2)) := by
    intro indexes
    induction indexes with
    | nil => rfl
    | cons index rest ih =>
        rw [List.mapM_cons, ih, each]
        rfl
  rw [indexWrites, parts]
  rfl

theorem putWrites_eq (cache : IndexCache schema) (key : PairKey schema D)
    (optOldValue value : Option (PairValue schema D)) :
    putWrites cache key optOldValue value =
      .ok (cacheWrites cache (delta key optOldValue value) ++ [.base key value]) := by
  rw [putWrites, indexWrites_eq cache (maintenance_eq key optOldValue value)]
  rfl

theorem bulkEntries_eq (key : PairKey schema D) (value : PairValue schema D) (present : Bool)
    (definition : IndexDefinition schema) :
    bulkEntries key value present definition =
      .ok ((definition.entries key value).map fun entry => (entry, present)) := by
  rw [bulkEntries, makeIndexFor_eq]
  rfl

omit [DecidableEq D] in
theorem index_mem_cacheWrites {cache : IndexCache schema}
    {puts : IndexDefinition schema → List (IndexedRecord D × Bool)} {name : String}
    {definition : IndexDefinition schema} (cached : (name, definition) ∈ cache.indexes)
    {entry : IndexedRecord D} {present : Bool} :
    StoreWrite.index name entry present ∈ cacheWrites cache puts ↔ (entry, present) ∈ puts definition := by
  simp only [cacheWrites, namedWrites, List.mem_flatMap, List.mem_map]
  constructor
  · intro found
    obtain ⟨other, member, put, among, same⟩ := found
    cases same
    have unique := List.inj_on_of_nodup_map cache.distinct member cached rfl
    rw [unique] at among
    exact among
  · exact fun member => ⟨_, cached, _, member, rfl⟩

omit [DecidableEq D] in
theorem base_notMem_cacheWrites {cache : IndexCache schema}
    {puts : IndexDefinition schema → List (IndexedRecord D × Bool)} {key : PairKey schema D}
    {value : Option (PairValue schema D)} : StoreWrite.base key value ∉ cacheWrites cache puts := by
  simp [cacheWrites, namedWrites]

namespace IndexedStore

variable {store : IndexedStore schema D} {writes : List (StoreWrite schema D)} {name : String}
  {entry : IndexedRecord D} {key : PairKey schema D}

theorem finish_append (first second : List (StoreWrite schema D)) :
    store.finish (first ++ second) = (store.finish first).finish second :=
  List.foldl_append

theorem finish_untouched (untouched : ∀ present, StoreWrite.index name entry present ∉ writes) :
    (store.finish writes).indexes name entry = store.indexes name entry := by
  induction writes generalizing store with
  | nil => rfl
  | cons first rest ih =>
      have later := @ih (store.write first) fun present member => untouched present (by simp [member])
      rw [finish, List.foldl_cons]
      refine later.trans ?_
      cases first with
      | base other value => rfl
      | index otherName otherEntry present =>
          have different : ¬ (name = otherName ∧ entry = otherEntry) := by
            intro found
            obtain ⟨rfl, rfl⟩ := found
            exact untouched present (by simp)
          simp only [write, Function.update_apply]
          split
          · rename_i same
            subst same
            rw [Function.update_of_ne fun same => different ⟨rfl, same⟩]
          · rfl

/-- Writes that all say the same about an entry decide it. -/
theorem finish_written (present : Bool) (member : StoreWrite.index name entry present ∈ writes)
    (uniform : ∀ other, StoreWrite.index name entry other ∈ writes → other = present) :
    (store.finish writes).indexes name entry = present := by
  induction writes generalizing store with
  | nil => cases member
  | cons first rest ih =>
      have others : ∀ other, StoreWrite.index name entry other ∈ rest → other = present :=
        fun other later => uniform other (by simp [later])
      rw [finish, List.foldl_cons]
      by_cases again : StoreWrite.index name entry present ∈ rest
      · exact ih again others
      · have last := (List.mem_cons.mp member).resolve_right again
        subst last
        have none : ∀ other, StoreWrite.index name entry other ∉ rest := by
          intro other later
          rw [others other later] at later
          exact again later
        refine (finish_untouched none).trans ?_
        simp [write]

theorem finish_base_untouched (untouched : ∀ value, StoreWrite.base key value ∉ writes) :
    (store.finish writes).base key = store.base key := by
  induction writes generalizing store with
  | nil => rfl
  | cons first rest ih =>
      have later := @ih (store.write first) fun value member => untouched value (by simp [member])
      rw [finish, List.foldl_cons]
      refine later.trans ?_
      cases first with
      | base other value =>
          have different : key ≠ other := by
            intro same
            subst same
            exact untouched value (by simp)
          exact Function.update_of_ne different _ _
      | index otherName otherEntry present => rfl

end IndexedStore

end

end Scads.Client
