import Scads.Client.IndexWrites

namespace Scads.Client

open Scads.Data Scads.Comm

/-! # Consistent indexes -/

variable {schema : PairSchema} {D : Type} [DecidableEq D] {cache : IndexCache schema}

namespace IndexedStore

variable {store : IndexedStore schema D} {key other : PairKey schema D}
  {value : Option (PairValue schema D)} {write : StoreWrite schema D} {writes : List (StoreWrite schema D)}

/-- Every index contains exactly the entries of the stored pairs. -/
def Consistent (cache : IndexCache schema) (store : IndexedStore schema D) : Prop :=
  ∀ name definition, (name, definition) ∈ cache.indexes →
    Exact definition.Yields store.base (store.indexes name)

def ConsistentAt (cache : IndexCache schema) (store : IndexedStore schema D) (key : PairKey schema D) :
    Prop :=
  ∀ name definition, (name, definition) ∈ cache.indexes →
    ExactAt definition.Yields store.base (store.indexes name) key

def OwnedIn (cache : IndexCache schema) (store : IndexedStore schema D) : Prop :=
  ∀ name definition, (name, definition) ∈ cache.indexes → Owned definition.Yields (store.indexes name)

theorem consistent_iff :
    store.Consistent cache ↔ store.OwnedIn cache ∧ ∀ key, store.ConsistentAt cache key := by
  constructor
  · intro consistent
    constructor
    · intro name definition cached
      exact ((exact_iff_exactAt (yields_separate definition)).mp (consistent name definition cached)).1
    · intro key name definition cached
      exact ((exact_iff_exactAt (yields_separate definition)).mp (consistent name definition cached)).2 key
  · intro found name definition cached
    obtain ⟨owned, each⟩ := found
    exact (exact_iff_exactAt (yields_separate definition)).mpr
      ⟨owned name definition cached, fun key => each key name definition cached⟩

/-- The write is to the pair of a key or to an entry that the key may have. -/
def Concerns (cache : IndexCache schema) (key : PairKey schema D) : StoreWrite schema D → Prop
  | .base other _ => other = key
  | .index name entry _ => ∀ definition, (name, definition) ∈ cache.indexes →
      ∃ value, definition.Yields key value entry

theorem write_owned (owned : store.OwnedIn cache) (concerns : Concerns cache key write) :
    (store.write write).OwnedIn cache := by
  cases write with
  | base other value => exact owned
  | index otherName written present =>
      intro name definition cached entry found
      simp only [IndexedStore.write, Function.update_apply] at found
      split at found
      · rename_i same
        subst same
        rw [Function.update_apply] at found
        split at found
        · rename_i same
          subst same
          obtain ⟨value, yielded⟩ := concerns definition cached
          exact ⟨key, value, yielded⟩
        · exact owned _ definition cached entry found
      · exact owned name definition cached entry found

/-- The stores have the same for a key: its pair and the entries that it may have. -/
def AgreeAt (cache : IndexCache schema) (key : PairKey schema D) (first second : IndexedStore schema D) :
    Prop :=
  first.base key = second.base key ∧
    ∀ name definition, (name, definition) ∈ cache.indexes →
      ∀ entry, (∃ value, definition.Yields key value entry) →
        first.indexes name entry = second.indexes name entry

theorem AgreeAt.consistentAt {next : IndexedStore schema D} (agree : AgreeAt cache key next store)
    (consistent : store.ConsistentAt cache key) : next.ConsistentAt cache key := by
  intro name definition cached
  exact (consistent name definition cached).congr agree.1 (agree.2 name definition cached)

theorem agreeAt_write {next : IndexedStore schema D} (agree : AgreeAt cache key next store)
    (write : StoreWrite schema D) : AgreeAt cache key (next.write write) (store.write write) := by
  cases write with
  | base written value =>
      refine ⟨?_, agree.2⟩
      simp only [IndexedStore.write, Function.update_apply, agree.1]
  | index otherName written present =>
      refine ⟨agree.1, fun name definition cached entry possible => ?_⟩
      simp only [IndexedStore.write, Function.update_apply]
      split
      · rename_i same
        subst same
        simp only [Function.update_apply, agree.2 _ definition cached entry possible]
      · exact agree.2 name definition cached entry possible

theorem AgreeAt.finish {next : IndexedStore schema D} (agree : AgreeAt cache key next store)
    (writes : List (StoreWrite schema D)) : AgreeAt cache key (next.finish writes) (store.finish writes) := by
  induction writes generalizing next store with
  | nil => exact agree
  | cons write rest ih => exact ih (agreeAt_write agree write)

/-- A write for one key leaves the others as they are. -/
theorem write_agree (concerns : Concerns cache key write) (different : other ≠ key) :
    AgreeAt cache other (store.write write) store := by
  cases write with
  | base written value =>
      obtain rfl : written = key := concerns
      exact ⟨Function.update_of_ne different _ _, fun _ _ _ _ _ => rfl⟩
  | index otherName written present =>
      refine ⟨rfl, fun name definition cached entry possible => ?_⟩
      obtain ⟨value, yielded⟩ := possible
      simp only [IndexedStore.write, Function.update_apply]
      split
      · rename_i same
        subst same
        rw [Function.update_of_ne]
        intro same
        subst same
        obtain ⟨expected, owner⟩ := concerns definition cached
        exact different (yields_separate definition yielded owner)
      · rfl

theorem finish_owned (owned : store.OwnedIn cache) (concerns : ∀ write ∈ writes, Concerns cache key write) :
    (store.finish writes).OwnedIn cache := by
  induction writes generalizing store with
  | nil => exact owned
  | cons write rest ih =>
      exact ih (write_owned owned (concerns write (by simp)))
        fun later member => concerns later (by simp [member])

theorem finish_elsewhere (concerns : ∀ write ∈ writes, Concerns cache key write) (different : other ≠ key)
    (consistent : store.ConsistentAt cache other) : (store.finish writes).ConsistentAt cache other := by
  induction writes generalizing store with
  | nil => exact consistent
  | cons write rest ih =>
      exact ih (fun later member => concerns later (by simp [member]))
        ((write_agree (concerns write (by simp)) different).consistentAt consistent)

end IndexedStore

theorem mem_delta {definition : IndexDefinition schema} {key : PairKey schema D}
    {optOldValue value : Option (PairValue schema D)} {entry : IndexedRecord D} {present : Bool} :
    (entry, present) ∈ delta key optOldValue value definition ↔
      if present then
        (∃ new ∈ value, definition.Yields key new entry) ∧
          ¬ ∃ old ∈ optOldValue, definition.Yields key old entry
      else
        (∃ old ∈ optOldValue, definition.Yields key old entry) ∧
          ¬ ∃ new ∈ value, definition.Yields key new entry := by
  have before : ∀ entry, entry ∈ (optOldValue.map (definition.entries key)).getD [] ↔
      ∃ old ∈ optOldValue, definition.Yields key old entry := by
    intro entry
    cases optOldValue with
    | none => simp
    | some old => simp [IndexDefinition.Yields]
  have distinct : ((optOldValue.map (definition.entries key)).getD []).Nodup := by
    cases optOldValue with
    | none => exact .nil
    | some old => exact entries_nodup definition key old
  cases value with
  | none => cases present <;> simp [delta, before]
  | some new =>
      have added : entry ∈ (definition.entries key new).diff
          ((optOldValue.map (definition.entries key)).getD []) ↔ _ :=
        (entries_nodup definition key new).mem_sdiff_iff
      have deleted : entry ∈ ((optOldValue.map (definition.entries key)).getD []).diff
          (definition.entries key new) ↔ _ := distinct.mem_sdiff_iff
      rw [before] at added deleted
      cases present <;> simp [delta, added, deleted, IndexDefinition.Yields]

namespace IndexedStore

variable {store : IndexedStore schema D} {key : PairKey schema D} {value : Option (PairValue schema D)}

/-- The writes of a put for a key whose old value was read before. -/
def planned (cache : IndexCache schema) (key : PairKey schema D)
    (optOldValue value : Option (PairValue schema D)) : List (StoreWrite schema D) :=
  cacheWrites cache (delta key optOldValue value) ++ [.base key value]

theorem index_mem_planned {optOldValue : Option (PairValue schema D)} {name : String}
    {definition : IndexDefinition schema} (cached : (name, definition) ∈ cache.indexes)
    {entry : IndexedRecord D} {present : Bool} :
    StoreWrite.index name entry present ∈ planned cache key optOldValue value ↔
      (entry, present) ∈ delta key optOldValue value definition := by
  rw [planned, List.mem_append, index_mem_cacheWrites cached]
  simp

theorem planned_concern {optOldValue : Option (PairValue schema D)} :
    ∀ write ∈ planned cache key optOldValue value, Concerns cache key write := by
  intro write member
  cases write with
  | base other written =>
      rcases List.mem_append.mp member with member | member
      · exact absurd member base_notMem_cacheWrites
      · cases List.mem_singleton.mp member
        rfl
  | index name entry present =>
      intro definition cached
      have put := mem_delta.mp ((index_mem_planned cached).mp member)
      split at put
      · obtain ⟨⟨new, _, yielded⟩, _⟩ := put
        exact ⟨new, yielded⟩
      · obtain ⟨⟨old, _, yielded⟩, _⟩ := put
        exact ⟨old, yielded⟩

theorem planned_base {optOldValue : Option (PairValue schema D)} :
    (store.finish (planned cache key optOldValue value)).base key = value := by
  rw [planned, finish_append]
  exact Function.update_self ..

/-- The planned writes replace the entries of the old value by those of the new one. -/
theorem planned_consistentAt (consistent : store.ConsistentAt cache key) :
    (store.finish (planned cache key (store.base key) value)).ConsistentAt cache key := by
  intro name definition cached entry possible
  rw [planned_base]
  have before := consistent name definition cached entry possible
  by_cases new : ∃ new ∈ value, definition.Yields key new entry
  · by_cases old : ∃ old ∈ store.base key, definition.Yields key old entry
    · rw [finish_untouched, before]
      · exact iff_of_true old new
      · intro present member
        have put := mem_delta.mp ((index_mem_planned cached).mp member)
        split at put
        · exact put.2 old
        · exact put.2 new
    · rw [finish_written true]
      · exact iff_of_true rfl new
      · exact (index_mem_planned cached).mpr (mem_delta.mpr ⟨new, old⟩)
      · intro present member
        have put := mem_delta.mp ((index_mem_planned cached).mp member)
        cases present with
        | true => rfl
        | false => exact absurd put.1 old
  · by_cases old : ∃ old ∈ store.base key, definition.Yields key old entry
    · rw [finish_written false]
      · exact iff_of_false (by simp) new
      · exact (index_mem_planned cached).mpr (mem_delta.mpr ⟨old, new⟩)
      · intro present member
        have put := mem_delta.mp ((index_mem_planned cached).mp member)
        cases present with
        | true => exact absurd put.1 new
        | false => rfl
    · rw [finish_untouched, before]
      · exact iff_of_false old new
      · intro present member
        have put := mem_delta.mp ((index_mem_planned cached).mp member)
        split at put
        · exact new put.1
        · exact old put.1

theorem put_eq (cache : IndexCache schema) (store : IndexedStore schema D) (key : PairKey schema D)
    (value : Option (PairValue schema D)) :
    put cache store key value = .ok (store.finish (planned cache key (store.base key) value)) := by
  rw [put, putWrites_eq]
  rfl

theorem planned_consistent (key : PairKey schema D) (value : Option (PairValue schema D))
    (consistent : store.Consistent cache) :
    (store.finish (planned cache key (store.base key) value)).Consistent cache := by
  obtain ⟨owned, each⟩ := consistent_iff.mp consistent
  refine consistent_iff.mpr ⟨finish_owned owned planned_concern, fun other => ?_⟩
  by_cases same : other = key
  · subst same
    exact planned_consistentAt (each other)
  · exact finish_elsewhere planned_concern same (each other)

/-- Every sequence of puts succeeds and keeps every index exact. -/
theorem puts_keep_indexes_consistent (cache : IndexCache schema) (store : IndexedStore schema D)
    (consistent : store.Consistent cache)
    (puts : List (PairKey schema D × Option (PairValue schema D))) :
    ∃ final, puts.foldlM (fun store record => put cache store record.1 record.2) store = .ok final ∧
      final.Consistent cache := by
  induction puts generalizing store with
  | nil => exact ⟨store, rfl, consistent⟩
  | cons record rest ih =>
      obtain ⟨final, ran, exact⟩ := ih _ (planned_consistent record.1 record.2 consistent)
      refine ⟨final, ?_, exact⟩
      rw [List.foldlM_cons, put_eq, ok_bind, ran]

/-- A store without pairs and without entries. -/
def empty : IndexedStore schema D := ⟨fun _ => none, fun _ _ => false⟩

theorem empty_consistent (cache : IndexCache schema) : (empty : IndexedStore schema D).Consistent cache := by
  intro name definition cached entry
  simp [empty]

end IndexedStore

def peopleSchema : PairSchema where
  keyFields := [⟨"id", "\"int\""⟩]
  valueFields := [⟨"name", "\"string\""⟩, ⟨"age", "\"int\""⟩]
  distinct := by decide

/-- An index over the words of the name and one over the age. -/
def peopleIndexes : IndexCache peopleSchema where
  indexes :=
    [("tname", ⟨[.tokenIndex ["name"], .attributeIndex "id"], [.tokenIndex ["name"]], rfl⟩),
      ("age", ⟨[.attributeIndex "age", .attributeIndex "id"], [.attributeIndex "age"], rfl⟩)]
  distinct := by decide

def person (id : Nat) : PairKey peopleSchema Nat := ⟨[.other id], .cons rfl .nil⟩

def named (name : String) (age : Nat) : PairValue peopleSchema Nat :=
  ⟨[.utf8 name, .other age], .cons trivial (.cons rfl .nil)⟩

namespace IndexedStore

/-- A person is stored, gets another name and is deleted. -/
theorem puts_keep_people_consistent :
    ∃ final, ([(person 1, some (named "ann lee" 30)), (person 1, some (named "ann ray" 31)),
        (person 1, none)] : List (PairKey peopleSchema Nat × Option (PairValue peopleSchema Nat))).foldlM
        (fun store record => put peopleIndexes store record.1 record.2) empty = .ok final ∧
      final.Consistent peopleIndexes :=
  puts_keep_indexes_consistent peopleIndexes empty (empty_consistent peopleIndexes) _

end IndexedStore

end Scads.Client
