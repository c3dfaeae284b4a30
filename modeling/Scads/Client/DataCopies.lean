import Scads.Client.Cluster
import Scads.Server.CursorScans

namespace Scads.Client

open Scads.Data Scads.Comm Scads.Server

/-! # Copies of the records of a partition -/

namespace BdbStorageManager

variable {K V : Type} [LinearOrder K]

/-- The settings below `scads.storage.copy`. -/
structure CopySettings where
  iteratorType : Option String
  recsPerMessage : Option Int

/-- A partition that is copied, with the cursors of its server and what a cursor of it may throw. -/
structure CopySource (K V : Type) [LinearOrder K] where
  database : Database K V
  cursors : CursorServer K V
  thrown : CursorServer.IllegalState

def copyRecsPerMessage (settings : CopySettings) : Int := settings.recsPerMessage.getD 8192

def copyIteratorCtor (settings : CopySettings) (src : CopySource K V) (minKey maxKey : Option K) :
    Machine Failure (Record K V) :=
  match settings.iteratorType.map String.toLower with
  | some "cursor" =>
      CursorBasedPartitionIterator.machine src.database src.thrown src.cursors minKey maxKey (copyRecsPerMessage settings)
  | some "actorfree" =>
      ActorlessPartitionIterator.machine (answer src.database) minKey maxKey (copyRecsPerMessage settings)
  | _ => ActorlessPartitionIterator.machine (answer src.database) minKey maxKey (copyRecsPerMessage settings)

def copyRecord (overwrite : Bool) (database : Database K V) (record : Record K V) : Except Failure (Database K V) :=
  match record.value with
  | none => .error (.noSuchElement "None.get")
  | some value =>
      .ok (if overwrite then database.insert record.key value
        else Environment.putNoOverwrite database (record.key, value))

/-- `copyData`: the transaction is committed when the iterator is at its end. -/
def copyData (settings : CopySettings) (src : CopySource K V) (startKey endKey : Option K) (overwrite : Bool)
    (database : Database K V) (rounds : Nat) : Except Failure (Database K V) := do
  let records ← (copyIteratorCtor settings src startKey endKey).drain rounds
  records.foldlM (copyRecord overwrite) database

/-- The keys in `[startKey, endKey)`. -/
def Responsible (startKey endKey : Option K) (key : K) : Bool :=
  startKey.all (· ≤ key) && endKey.all (key < ·)

/-- The value of a key that both sides may have. -/
def merged (overwrite : Bool) (source destination : Option V) : Option V :=
  if overwrite then source.or destination else destination.or source

@[simp] theorem merged_none (overwrite : Bool) (destination : Option V) :
    merged overwrite none destination = destination := by
  cases overwrite <;> simp [merged]

/-- The copy takes the records of the responsibility, and leaves the other keys alone. -/
def Copies (settings : CopySettings) (src : CopySource K V) (startKey endKey : Option K) (overwrite : Bool)
    (database : Database K V) : Prop :=
  ∃ after, Settles (copyData settings src startKey endKey overwrite database) (.ok after) ∧
    ∀ key, after.get key = if Responsible startKey endKey key then
      merged overwrite (src.database.get key) (database.get key) else database.get key

theorem copyRecord_get (overwrite : Bool) (database : Database K V) (key : K) (value : V) :
    ∃ after, copyRecord overwrite database ⟨key, some value⟩ = .ok after ∧
      ∀ other, after.get other =
        if other = key then merged overwrite (some value) (database.get other) else database.get other := by
  refine ⟨_, rfl, fun other => ?_⟩
  cases overwrite with
  | true => simp [merged, Database.get_insert]
  | false =>
      simp only [Bool.false_eq_true, if_false, Environment.putNoOverwrite, merged]
      by_cases same : other = key
      · subst same
        cases stored : database.get other <;> simp [stored, Database.get_insert]
      · by_cases present : (database.get key).isSome = true <;> simp [present, same, Database.get_insert]

theorem foldlM_copyRecord (overwrite : Bool) {entries : List (K × V)}
    (sorted : entries.Pairwise fun earlier later => earlier.1 < later.1) (database : Database K V) :
    ∃ after, (entries.map fun entry => (⟨entry.1, some entry.2⟩ : Record K V)).foldlM (copyRecord overwrite) database =
        .ok after ∧
      ∀ key, after.get key = merged overwrite ((⟨entries, sorted⟩ : Database K V).get key) (database.get key) := by
  induction entries generalizing database with
  | nil => exact ⟨database, rfl, fun key => (merged_none overwrite _).symm⟩
  | cons entry rest ih =>
      obtain ⟨above, later⟩ := List.pairwise_cons.mp sorted
      obtain ⟨next, copied, stored⟩ := copyRecord_get overwrite database entry.1 entry.2
      obtain ⟨after, folded, stores⟩ := ih later next
      refine ⟨after, ?_, fun key => ?_⟩
      · rw [List.map_cons, List.foldlM_cons, copied]
        exact folded
      · rw [stores, stored]
        by_cases same : key = entry.1
        · subst same
          have absent : rest.find? (fun other => other.1 = entry.1) = none := by
            refine List.find?_eq_none.mpr fun other member => ?_
            simpa using (above other member).ne'
          simp [Database.get, absent]
        · have other : entry.1 ≠ key := fun equal => same equal.symm
          simp [Database.get, same, other]

theorem get_filter (database : Database K V) (test : K → Bool) (key : K) :
    (⟨database.entries.filter fun entry => test entry.1, database.sorted.filter _⟩ : Database K V).get key =
      if test key then database.get key else none := by
  apply Option.ext
  intro value
  rw [Database.get_eq_some]
  by_cases passes : test key = true
  · rw [if_pos passes, Database.get_eq_some]
    simp [passes]
  · simp [passes]

section

variable {settings : CopySettings} {src : CopySource K V} {startKey endKey : Option K} {overwrite : Bool}
  {database : Database K V}

/-- The record changes nothing at the destination. -/
def Present (overwrite : Bool) (database : Database K V) (key : K) (value : V) : Prop :=
  if overwrite then database.get key = some value else (database.get key).isSome = true

theorem merged_eq_iff (overwrite : Bool) (key : K) (value : V) :
    merged overwrite (some value) (database.get key) = database.get key ↔ Present overwrite database key value := by
  cases overwrite with
  | true => simp [merged, Present, eq_comm]
  | false => cases stored : database.get key <;> simp [merged, Present, stored]

/-- A copy of the records whose keys pass a test. -/
theorem copies_iff_of_drain {test : K → Bool} (covers : ∀ key, Responsible startKey endKey key = true → test key = true)
    (read : Settles (copyIteratorCtor settings src startKey endKey).drain
      (.ok ((src.database.entries.filter fun entry => test entry.1).map fun entry => ⟨entry.1, some entry.2⟩))) :
    Copies settings src startKey endKey overwrite database ↔
      ∀ key value, src.database.get key = some value → test key = true → Responsible startKey endKey key = false →
        Present overwrite database key value := by
  obtain ⟨after, folded, stores⟩ := foldlM_copyRecord overwrite
    (src.database.sorted.filter fun entry => test entry.1) database
  have copied : Settles (copyData settings src startKey endKey overwrite database) (.ok after) :=
    read.bind ((Settles.const _).congr fun rounds => folded)
  constructor
  · intro found key value stored passes outside
    obtain ⟨other, settles, expected⟩ := found
    cases copied.unique settles
    have changed := stores key
    rw [expected, if_neg (by rw [outside]; exact Bool.false_ne_true), get_filter, if_pos passes, stored] at changed
    exact (merged_eq_iff overwrite key value).mp changed.symm
  · intro present
    refine ⟨after, copied, fun key => ?_⟩
    rw [stores, get_filter]
    by_cases inside : Responsible startKey endKey key = true
    · rw [if_pos inside, if_pos (covers key inside)]
    · rw [if_neg inside]
      by_cases passes : test key = true
      · rw [if_pos passes]
        cases stored : src.database.get key with
        | none => exact merged_none ..
        | some value =>
            exact (merged_eq_iff overwrite key value).mpr
              (present key value stored passes (Bool.eq_false_iff.mpr inside))
      · rw [if_neg passes]
        exact merged_none ..

/-- The cursor of the server is what is configured. -/
def UsesCursor (settings : CopySettings) : Prop := settings.iteratorType.map String.toLower = some "cursor"

theorem copyIteratorCtor_cursor (cursor : UsesCursor settings) (src : CopySource K V) (minKey maxKey : Option K) :
    copyIteratorCtor settings src minKey maxKey =
      CursorBasedPartitionIterator.machine src.database src.thrown src.cursors minKey maxKey
        (copyRecsPerMessage settings) := by
  rw [copyIteratorCtor, cursor]
  rfl

theorem copyIteratorCtor_paged (paged : ¬ UsesCursor settings) (src : CopySource K V) (minKey maxKey : Option K) :
    copyIteratorCtor settings src minKey maxKey =
      ActorlessPartitionIterator.machine (answer src.database) minKey maxKey (copyRecsPerMessage settings) := by
  rw [copyIteratorCtor]
  split
  · rename_i cursor
    exact absurd cursor paged
  · rfl
  · rfl

theorem not_copies {failure : Failure}
    (fails : Settles (copyIteratorCtor settings src startKey endKey).drain (.error failure)) :
    ¬ Copies settings src startKey endKey overwrite database := by
  intro found
  obtain ⟨after, settles, -⟩ := found
  cases (fails.bind_error : Settles (copyData settings src startKey endKey overwrite database) _).unique settles

theorem drain_refused (few : ¬ 0 < copyRecsPerMessage settings) :
    Settles (copyIteratorCtor settings src startKey endKey).drain (.error (.illegalArgument "requirement failed")) := by
  refine Settles.bind_error ((Settles.const _).congr fun rounds => ?_)
  by_cases cursor : UsesCursor settings
  · rw [copyIteratorCtor_cursor cursor]
    exact if_neg few
  · rw [copyIteratorCtor_paged cursor]
    exact if_neg few

/-- A copy is exact if and only if no record that is read outside of the responsibility
changes the destination: the paged iterator reads the one at `endKey`, the cursor all
of them, and the cursor throws where there are none. -/
theorem copies_iff (settings : CopySettings) (src : CopySource K V) (startKey endKey : Option K) (overwrite : Bool)
    (database : Database K V) : Copies settings src startKey endKey overwrite database ↔
      0 < copyRecsPerMessage settings ∧ (UsesCursor settings → src.database.entries ≠ []) ∧
        ∀ key value, src.database.get key = some value → Responsible startKey endKey key = false →
          UsesCursor settings ∨ startKey.all (· ≤ key) = true ∧ endKey = some key →
            Present overwrite database key value := by
  by_cases positive : 0 < copyRecsPerMessage settings
  swap
  · exact iff_of_false (not_copies (drain_refused positive)) fun holds => positive holds.1
  by_cases cursor : UsesCursor settings
  · by_cases empty : src.database.entries = []
    · have fails := FutureBasedIterator.drain_fails positive rfl
        (@CursorBasedPartitionIterator.first_page_fails _ _ _ src.database src.thrown startKey endKey _ positive empty
          src.cursors)
      have refused : Settles (copyIteratorCtor settings src startKey endKey).drain
          (.error (.runtime ("Invalid response to a CursorScanRequest: " ++ (CursorScanMessage.processingException
            src.thrown.message src.thrown.stackTrace : CursorScanMessage K V).toString))) := by
        rw [copyIteratorCtor_cursor cursor]
        exact fails
      exact iff_of_false (not_copies refused) fun holds => holds.2.1 cursor empty
    · have read := scanned_drain src.database src.thrown src.cursors startKey endKey positive empty
      rw [← copyIteratorCtor_cursor cursor] at read
      have all : src.database.entries = src.database.entries.filter fun _ => true := by simp
      rw [all] at read
      rw [copies_iff_of_drain (fun _ _ => rfl) read]
      constructor
      · exact fun present =>
        ⟨positive, fun _ => empty, fun key value stored outside _ => present key value stored rfl outside⟩
      · exact fun holds key value stored _ outside => holds.2.2 key value stored outside (.inl cursor)
  · have read := paged_drain src.database startKey endKey positive
    rw [← copyIteratorCtor_paged cursor] at read
    have covers (key : K) (inside : Responsible startKey endKey key = true) :
      Database.InRange startKey endKey key = true := by
      obtain ⟨above, below⟩ := Bool.and_eq_true_iff.mp inside
      exact Database.inRange_of_lt above below
    rw [copies_iff_of_drain covers read]
    constructor
    · intro present
      refine ⟨positive, fun uses => absurd uses cursor, fun key value stored outside read => ?_⟩
      obtain ⟨above, rfl⟩ := read.resolve_left cursor
      exact present key value stored (Bool.and_eq_true_iff.mpr ⟨above, decide_eq_true le_rfl⟩) outside
    · intro found key value stored within outside
      obtain ⟨-, -, present⟩ := found
      obtain ⟨above, below⟩ := Bool.and_eq_true_iff.mp within
      refine present key value stored outside (.inr ⟨above, ?_⟩)
      rw [Responsible, above, Bool.true_and] at outside
      cases endKey with
      | none => cases outside
      | some last =>
          have upper : key ≤ last := by simpa using below
          have lower : last ≤ key := by simpa using outside
          rw [le_antisymm upper lower]

end

/-- Two records, of which the second is at the end of a responsibility up to 5. -/
def upToFive : CopySource Nat Nat := ⟨⟨[(1, 10), (5, 50)], by decide⟩, ⟨0, ∅⟩, ⟨"", ""⟩⟩

/-- The record at the end is copied to a partition that has nothing. -/
theorem end_copied :
    (∃ after, Settles (copyData ⟨none, none⟩ upToFive none (some 5) true Database.empty) (.ok after) ∧
        after.get 5 = some 50) ∧
      Responsible none (some 5) 5 = false ∧ ¬ Copies ⟨none, none⟩ upToFive none (some 5) true Database.empty := by
  have positive : 0 < copyRecsPerMessage ⟨none, none⟩ := by decide
  have copied : Settles (copyData ⟨none, none⟩ upToFive none (some 5) true Database.empty)
      (([⟨1, some 10⟩, ⟨5, some 50⟩] : List (Record Nat Nat)).foldlM (copyRecord true) Database.empty) :=
    (paged_drain upToFive.database none (some 5) positive).bind (.const _)
  refine ⟨⟨_, copied, by decide⟩, by decide, ?_⟩
  intro found
  obtain ⟨after, settles, expected⟩ := found
  cases copied.unique settles
  exact absurd (expected 5) (by decide)

end BdbStorageManager

end Scads.Client
