import Scads.Data.Runs
import Scads.Server.InMemory

namespace Scads.Server

open Scads.Data Scads.Comm

/-! # Writes to the two kinds of partitions

The BDB manager works in one transaction.  The in-memory manager changes its tree
map directly, and what it throws on the way leaves the changes made so far.
-/

/-- A write as the partition handler hands it to its manager. -/
inductive Write (K V : Type) where
  | put (key : K) (value : Option V)
  | bulkPut (records : List (PutRequest K V))
  | testAndSet (key : K) (value expectedValue : Option V)

/-- What a manager answers to a write, `true` and `false` for a conditional one. -/
inductive WriteReply where
  | done
  | tested (success : Bool)
deriving DecidableEq, Repr

namespace Database

variable {K V : Type} [LinearOrder K] [DecidableEq V]

def bulkPut (database : Database K V) (records : List (PutRequest K V)) : Database K V :=
  records.foldl (fun database record => database.put record.key record.value) database

def testAndSet (database : Database K V) (key : K) (value expectedValue : Option V) :
    Database K V × Bool :=
  if expectedValue = database.get key then (database.put key value, true) else (database, false)

def write (database : Database K V) : Write K V → Database K V × Except Failure WriteReply
  | .put key value => (database.put key value, .ok .done)
  | .bulkPut records => (database.bulkPut records, .ok .done)
  | .testAndSet key value expectedValue =>
      let (database, success) := database.testAndSet key value expectedValue
      (database, .ok (.tested success))

end Database

namespace TreeMap

variable {K M R V : Type} [LinearOrder K] [DecidableEq V] (format : RecordFormat M R V)

def put (map : TreeMap K (M × R)) (key : K) : Option V → TreeMap K (M × R)
  | some value => map.insert key (format.split value)
  | none => map.delete key

/-- `TreeMap.remove` with the bare array as its argument: the comparator is first
called when there is an entry to compare with. -/
def removeUnconverted {W : Type} (map : TreeMap K W) : Except Failure (TreeMap K W) :=
  if map.entries.isEmpty then .ok map
  else .error (.classCast "[B cannot be cast to edu.berkeley.cs.scads.storage.EQArray")

def testAndSet (map : TreeMap K (M × R)) (key : K) (value expectedValue : Option V) :
    TreeMap K (M × R) × Except Failure Bool :=
  if expectedValue = (Database.get map key).map format.toBytes then
    match value with
    | some value => (map.insert key (format.split value), .ok true)
    | none =>
        match map.removeUnconverted with
        | .ok map => (map, .ok true)
        | .error failure => (map, .error failure)
  else (map, .ok false)

def bulkPut : TreeMap K (M × R) → List (PutRequest K V) → TreeMap K (M × R) × Except Failure Unit
  | map, [] => (map, .ok ())
  | map, record :: rest =>
      match record.value with
      | some value => bulkPut (map.insert record.key (format.split value)) rest
      | none => (map, .error (.noSuchElement "None.get"))

def write (map : TreeMap K (M × R)) : Write K V → TreeMap K (M × R) × Except Failure WriteReply
  | .put key value => (map.put format key value, .ok .done)
  | .bulkPut records =>
      let (map, result) := map.bulkPut format records
      (map, result.map fun _ => .done)
  | .testAndSet key value expectedValue =>
      let (map, result) := map.testAndSet format key value expectedValue
      (map, result.map .tested)

end TreeMap

/-- An in-memory partition and a BDB partition. -/
structure Twins (K M R V : Type) [LinearOrder K] where
  inMemory : TreeMap K (M × R)
  bdb : Database K V

namespace Twins

variable {K M R V : Type} [LinearOrder K] [DecidableEq V] {format : RecordFormat M R V}
  {before after : Twins K M R V} {write : Write K V}

/-- Both partitions handle the same write. -/
def step (format : RecordFormat M R V) (twins : Twins K M R V) (write : Write K V) :
    Option (Twins K M R V) :=
  some ⟨(twins.inMemory.write format write).1, (twins.bdb.write write).1⟩

def SameContent (format : RecordFormat M R V) (twins : Twins K M R V) : Prop :=
  twins.inMemory.content format = twins.bdb

/-- Both partitions give the same reply and end with the same records, and what
fails changes neither of them. -/
structure Agree (format : RecordFormat M R V) (before : Twins K M R V) (write : Write K V)
    (after : Twins K M R V) : Prop where
  reply : (before.inMemory.write format write).2 = (before.bdb.write write).2
  content : after.SameContent format
  kept : ∀ failure, (before.inMemory.write format write).2 = .error failure ∨
      (before.bdb.write write).2 = .error failure →
    after.inMemory.content format = before.inMemory.content format ∧ after.bdb = before.bdb

/-- The writes that the in-memory manager can make: no deletion in a batch, and no
conditional deletion unless the partition is empty. -/
def Supported (before : Twins K M R V) : Write K V → Prop
  | .put _ _ => True
  | .bulkPut records => ∀ record ∈ records, record.value.isSome
  | .testAndSet key value expectedValue =>
      value = none → expectedValue = before.bdb.get key → before.bdb.entries = []

omit [DecidableEq V] in
theorem content_put (format : RecordFormat M R V) (map : TreeMap K (M × R)) (key : K) (value : Option V) :
    (map.put format key value).content format = (map.content format).put key value := by
  cases value with
  | some value => exact TreeMap.content_insert format map key value
  | none => exact TreeMap.content_delete format map key

omit [DecidableEq V] in
theorem bulkPut_values (format : RecordFormat M R V) (map : TreeMap K (M × R)) {records : List (PutRequest K V)}
    (values : ∀ record ∈ records, record.value.isSome) :
    (map.bulkPut format records).2 = .ok () ∧
      (map.bulkPut format records).1.content format = (map.content format).bulkPut records := by
  induction records generalizing map with
  | nil => exact ⟨rfl, rfl⟩
  | cons record rest ih =>
      obtain ⟨value, given⟩ := Option.isSome_iff_exists.mp (values record (by simp))
      have others := ih (map.insert record.key (format.split value))
        fun other member => values other (by simp [member])
      rw [TreeMap.content_insert] at others
      simpa [TreeMap.bulkPut, Database.bulkPut, given, Database.put] using others

omit [DecidableEq V] in
theorem bulkPut_deletion (format : RecordFormat M R V) (map : TreeMap K (M × R)) {records : List (PutRequest K V)}
    (deletes : ¬ ∀ record ∈ records, record.value.isSome) :
    (map.bulkPut format records).2 = .error (.noSuchElement "None.get") := by
  induction records generalizing map with
  | nil => exact absurd (by simp) deletes
  | cons record rest ih =>
      cases given : record.value with
      | none => simp [TreeMap.bulkPut, given]
      | some value =>
          have others : ¬ ∀ record ∈ rest, record.value.isSome := by
            simpa [given] using deletes
          simpa [TreeMap.bulkPut, given] using ih (map.insert record.key (format.split value)) others

theorem testAndSet_value (format : RecordFormat M R V) (map : TreeMap K (M × R)) (key : K) (value : V)
    (expectedValue : Option V) :
    (map.testAndSet format key (some value) expectedValue).2 =
        .ok ((map.content format).testAndSet key (some value) expectedValue).2 ∧
      (map.testAndSet format key (some value) expectedValue).1.content format =
        ((map.content format).testAndSet key (some value) expectedValue).1 := by
  simp only [TreeMap.testAndSet, Database.testAndSet, TreeMap.content_get]
  split
  · exact ⟨rfl, TreeMap.content_insert format map key value⟩
  · exact ⟨rfl, rfl⟩

theorem testAndSet_deletion (map : TreeMap K (M × R)) (key : K) (expectedValue : Option V) :
    map.testAndSet format key none expectedValue =
      if expectedValue = (map.content format).get key ∧ map.entries ≠ [] then
        (map, .error (.classCast "[B cannot be cast to edu.berkeley.cs.scads.storage.EQArray"))
      else (map, .ok (decide (expectedValue = (map.content format).get key))) := by
  rw [TreeMap.testAndSet, TreeMap.content_get]
  by_cases matched : expectedValue = (Database.get map key).map format.toBytes
  · by_cases vacant : map.entries = []
    · simp [matched, vacant, TreeMap.removeUnconverted]
    · simp [matched, vacant, TreeMap.removeUnconverted]
  · simp [matched]

omit [DecidableEq V] in
theorem content_entries_eq_nil (map : TreeMap K (M × R)) :
    (map.content format).entries = [] ↔ map.entries = [] :=
  List.map_eq_nil_iff

omit [DecidableEq V] in
theorem delete_vacant {database : Database K V} (vacant : database.entries = []) (key : K) :
    database.delete key = database := by
  obtain ⟨entries, sorted⟩ := database
  cases vacant
  rfl

/-- A supported write has the same reply and the same effect in both partitions. -/
theorem write_supported (map : TreeMap K (M × R)) {write : Write K V}
    (supported : Supported ⟨map, map.content format⟩ write) :
    (map.write format write).2 = ((map.content format).write write).2 ∧
      (map.write format write).1.content format = ((map.content format).write write).1 := by
  cases write with
  | put key value => exact ⟨rfl, content_put format map key value⟩
  | bulkPut records =>
      obtain ⟨reply, content⟩ := bulkPut_values format map supported
      refine ⟨?_, content⟩
      simp only [TreeMap.write, reply]
      rfl
  | testAndSet key value expectedValue =>
      cases value with
      | some value =>
          obtain ⟨reply, content⟩ := testAndSet_value format map key value expectedValue
          refine ⟨?_, content⟩
          simp only [TreeMap.write, reply]
          rfl
      | none =>
          have vacant := supported rfl
          simp only [content_entries_eq_nil] at vacant
          have possible : ¬ (expectedValue = (map.content format).get key ∧ map.entries ≠ []) :=
            fun matched => matched.2 (vacant matched.1)
          simp only [TreeMap.write, Database.write, testAndSet_deletion, Database.testAndSet]
          rw [if_neg possible]
          by_cases matched : expectedValue = (map.content format).get key
          · have none : (map.content format).entries = [] :=
              (content_entries_eq_nil map).mpr (vacant matched)
            simp only [matched, if_true, decide_true]
            exact ⟨rfl, (delete_vacant none key).symm⟩
          · simp only [matched, if_false, decide_false]
            exact ⟨rfl, trivial⟩

theorem write_unsupported (map : TreeMap K (M × R)) {write : Write K V}
    (unsupported : ¬ Supported ⟨map, map.content format⟩ write) :
    ∃ failure, (map.write format write).2 = .error failure := by
  cases write with
  | put key value => exact absurd trivial unsupported
  | bulkPut records =>
      refine ⟨.noSuchElement "None.get", ?_⟩
      simp only [TreeMap.write, bulkPut_deletion format map unsupported]
      rfl
  | testAndSet key value expectedValue =>
      simp only [Supported, content_entries_eq_nil, not_forall] at unsupported
      obtain ⟨rfl, matched, occupied⟩ := unsupported
      refine ⟨.classCast "[B cannot be cast to edu.berkeley.cs.scads.storage.EQArray", ?_⟩
      simp only [TreeMap.write, testAndSet_deletion]
      rw [if_pos ⟨matched, occupied⟩]
      rfl

theorem database_write_ok (database : Database K V) (write : Write K V) :
    ∃ reply, (database.write write).2 = .ok reply := by
  cases write <;> exact ⟨_, rfl⟩

theorem step_agree_iff (same : before.SameContent format) (taken : before.step format write = some after) :
    Agree format before write after ↔ before.Supported write := by
  obtain ⟨map, database⟩ := before
  obtain rfl : map.content format = database := same
  cases taken
  obtain ⟨reply, answered⟩ := database_write_ok (map.content format) write
  constructor
  · intro agree
    by_contra unsupported
    obtain ⟨failure, failed⟩ := write_unsupported map unsupported
    have replies := agree.reply
    rw [failed, answered] at replies
    cases replies
  · intro supported
    obtain ⟨replies, content⟩ := write_supported map supported
    refine ⟨replies, content, ?_⟩
    intro failure found
    obtain failed | failed := found
    · rw [replies, answered] at failed
      cases failed
    · rw [answered] at failed
      cases failed

end Twins

end Scads.Server
