import Mathlib.Data.Fintype.Defs
import Mathlib.Logic.Function.Basic
import Scads.Data.Runs

namespace Scads.Data

/-! # A value that many read and watch

Writes of the value are logged, and a replica of each reader applies them one after the
other.  A reader loads the value of its replica into a copy, and so it leaves a watch
there.  The next write that the replica applies makes a notice of the watch, and the reader
loads again.
-/

inductive Load (V : Type) where
  | started
  | read (value : V)

/-- Who loads: a caller of the reader or its handler of notices. -/
inductive Loader where
  | caller
  | handler
deriving DecidableEq

structure Reader (V : Type) where
  applied : Nat
  watches : Nat
  notices : Nat
  loads : Loader → Option (Load V)
  copy : Option V

inductive ReaderEvent where
  | apply
  | start
  | handle
  | read (loader : Loader)
  | keep (loader : Loader)

namespace Reader

variable {V : Type}

/-- Before anything is loaded. -/
def unread : Reader V := ⟨0, 0, 0, fun _ => none, none⟩

def loading (reader : Reader V) (loader : Loader) (load : Option (Load V)) : Reader V :=
  { reader with loads := Function.update reader.loads loader load }

/-- The value of the replica is read and watched at once. -/
def step (writes : List V) (reader : Reader V) : ReaderEvent → Option (Reader V)
  | .apply =>
      if reader.applied + 1 < writes.length then
        some { reader with
          applied := reader.applied + 1, notices := reader.notices + reader.watches, watches := 0 }
      else none
  | .start =>
      match reader.loads .caller with
      | none => some (reader.loading .caller (some .started))
      | some _ => none
  | .handle =>
      match reader.loads .handler with
      | none => if 0 < reader.notices then
            some ({ reader with notices := reader.notices - 1 }.loading .handler (some .started))
          else none
      | some _ => none
  | .read loader =>
      match reader.loads loader with
      | some .started => writes[reader.applied]?.map fun value =>
          { reader with watches := reader.watches + 1 }.loading loader (some (.read value))
      | _ => none
  | .keep loader =>
      match reader.loads loader with
      | some (.read value) => some ({ reader with copy := some value }.loading loader none)
      | _ => none

/-- A reader that starts no load while another one is under way. -/
def LoadsOnce (reader : Reader V) : ReaderEvent → Prop
  | .start => reader.loads .handler = none
  | .handle => reader.loads .caller = none
  | _ => True

instance (reader : Reader V) : (event : ReaderEvent) → Decidable (reader.LoadsOnce event)
  | .start => inferInstanceAs (Decidable (reader.loads .handler = none))
  | .handle => inferInstanceAs (Decidable (reader.loads .caller = none))
  | .apply => .isTrue trivial
  | .read _ => .isTrue trivial
  | .keep _ => .isTrue trivial

/-- The reader has nothing left to do. -/
structure Settled (writes : List V) (reader : Reader V) : Prop where
  current : reader.applied + 1 = writes.length
  handled : reader.notices = 0
  idle : ∀ loader, reader.loads loader = none

instance (writes : List V) (reader : Reader V) : Decidable (reader.Settled writes) :=
  decidable_of_iff (reader.applied + 1 = writes.length ∧ reader.notices = 0 ∧
    reader.loads .caller = none ∧ reader.loads .handler = none)
    ⟨fun all => ⟨all.1, all.2.1, fun loader => by cases loader; exacts [all.2.2.1, all.2.2.2]⟩,
      fun settled => ⟨settled.current, settled.handled, settled.idle .caller, settled.idle .handler⟩⟩

/-- What is not up to date will be noticed. -/
structure Notified (writes : List V) (reader : Reader V) : Prop where
  applied : reader.applied < writes.length
  single : reader.loads .caller = none ∨ reader.loads .handler = none
  reads : ∀ loader value, reader.loads loader = some (.read value) → reader.notices = 0 →
    writes[reader.applied]? = some value ∧ 0 < reader.watches
  copies : ∀ value, reader.copy = some value → reader.notices = 0 → (∀ loader, reader.loads loader = none) →
    value ∈ writes.drop reader.applied ∧ 0 < reader.watches

/-- The reader knows no value from before this write. -/
structure Recent (oldest : Nat) (writes : List V) (reader : Reader V) : Prop where
  applied : oldest ≤ reader.applied
  reads : ∀ loader value, reader.loads loader = some (.read value) → value ∈ writes.drop oldest
  copies : ∀ value, reader.copy = some value → value ∈ writes.drop oldest

variable {writes : List V} {reader next : Reader V} {oldest : Nat} {value : V}

theorem unread_notified (some : writes ≠ []) : Notified writes (unread : Reader V) where
  applied := List.length_pos_iff.mpr some
  single := .inl rfl
  reads _ _ reading := nomatch reading
  copies _ kept := nomatch kept

theorem unread_recent : Recent 0 writes (unread : Reader V) where
  applied := Nat.zero_le _
  reads _ _ reading := nomatch reading
  copies _ kept := nomatch kept

theorem mem_drop_of_found {place : Nat} (found : writes[place]? = some value) : value ∈ writes.drop place := by
  have first : (writes.drop place)[0]? = some value := by
    rw [List.getElem?_drop]
    exact found
  exact List.mem_of_getElem? first

@[simp] theorem loading_applied (loader : Loader) (load : Option (Load V)) :
    (reader.loading loader load).applied = reader.applied := rfl

@[simp] theorem loading_notices (loader : Loader) (load : Option (Load V)) :
    (reader.loading loader load).notices = reader.notices := rfl

@[simp] theorem loading_watches (loader : Loader) (load : Option (Load V)) :
    (reader.loading loader load).watches = reader.watches := rfl

@[simp] theorem loading_copy (loader : Loader) (load : Option (Load V)) :
    (reader.loading loader load).copy = reader.copy := rfl

theorem loading_loads (loader other : Loader) (load : Option (Load V)) :
    (reader.loading loader load).loads other = if other = loader then load else reader.loads other := by
  exact Function.update_apply ..

theorem step_apply (taken : reader.step writes .apply = some next) :
    reader.applied + 1 < writes.length ∧ next = { reader with
      applied := reader.applied + 1, notices := reader.notices + reader.watches, watches := 0 } := by
  rw [step] at taken
  split at taken
  · rename_i more
    cases taken
    exact ⟨more, rfl⟩
  · cases taken

theorem step_start (taken : reader.step writes .start = some next) :
    next = reader.loading .caller (some .started) := by
  rw [step] at taken
  split at taken
  · cases taken
    rfl
  · cases taken

theorem step_handle (taken : reader.step writes .handle = some next) :
    next = { reader with notices := reader.notices - 1 }.loading .handler (some .started) := by
  rw [step] at taken
  split at taken
  · split at taken
    · cases taken
      rfl
    · cases taken
  · cases taken

theorem step_read {loader : Loader} (taken : reader.step writes (.read loader) = some next) :
    reader.loads loader = some .started ∧ ∃ value, writes[reader.applied]? = some value ∧
      next = { reader with watches := reader.watches + 1 }.loading loader (some (.read value)) := by
  rw [step] at taken
  split at taken
  · rename_i started
    obtain ⟨value, found, rfl⟩ := Option.map_eq_some_iff.mp taken
    exact ⟨started, value, found, rfl⟩
  · cases taken

theorem step_keep {loader : Loader} (taken : reader.step writes (.keep loader) = some next) :
    ∃ value, reader.loads loader = some (.read value) ∧
      next = { reader with copy := some value }.loading loader none := by
  rw [step] at taken
  split at taken
  · rename_i value found
    cases taken
    exact ⟨value, found, rfl⟩
  · cases taken

/-- The other loader is at rest while this one loads. -/
theorem Notified.alone (notified : Notified writes reader) {loader other : Loader} {load : Load V}
    (loads : reader.loads loader = some load) (different : other ≠ loader) : reader.loads other = none := by
  rcases notified.single with idle | idle
  · cases loader with
    | caller => simp [idle] at loads
    | handler =>
        cases other with
        | caller => exact idle
        | handler => exact absurd rfl different
  · cases loader with
    | caller =>
        cases other with
        | caller => exact absurd rfl different
        | handler => exact idle
    | handler => simp [idle] at loads

theorem single_of_alone {loads : Loader → Option (Load V)} {loader : Loader}
    (idle : ∀ other, other ≠ loader → loads other = none) : loads .caller = none ∨ loads .handler = none := by
  cases loader with
  | caller => exact .inr (idle .handler (by decide))
  | handler => exact .inl (idle .caller (by decide))

/-- A load that starts reads later than all that is known. -/
theorem Notified.starts (notified : Notified writes reader) {loader : Loader} {left : Nat}
    (idle : ∀ other, other ≠ loader → reader.loads other = none) :
    Notified writes ({ reader with notices := left }.loading loader (some .started)) where
  applied := notified.applied
  single := by
    refine @single_of_alone _ _ loader fun other different => ?_
    rw [loading_loads, if_neg different]
    exact idle other different
  reads other value reading := by
    rw [loading_loads] at reading
    split at reading
    · cases reading
    · rename_i different
      rw [show reader.loads other = none from idle other different] at reading
      cases reading
  copies value kept _ allIdle := by
    have started := allIdle loader
    rw [loading_loads, if_pos rfl] at started
    cases started

theorem Notified.step {event : ReaderEvent} (notified : Notified writes reader) (once : reader.LoadsOnce event)
    (taken : reader.step writes event = some next) : Notified writes next := by
  cases event with
  | apply =>
      obtain ⟨more, rfl⟩ := step_apply taken
      -- a watch that is gone has become a notice
      refine ⟨more, notified.single, fun loader value reading handled => ?_, fun value kept handled idle => ?_⟩
      · obtain ⟨handled, gone⟩ := Nat.add_eq_zero_iff.mp handled
        exact absurd (notified.reads loader value reading handled).2 (by simp [gone])
      · obtain ⟨handled, gone⟩ := Nat.add_eq_zero_iff.mp handled
        exact absurd (notified.copies value kept handled idle).2 (by simp [gone])
  | start =>
      obtain rfl := step_start taken
      refine notified.starts fun other different => ?_
      cases other with
      | caller => exact absurd rfl different
      | handler => exact once
  | handle =>
      obtain rfl := step_handle taken
      refine notified.starts fun other different => ?_
      cases other with
      | caller => exact once
      | handler => exact absurd rfl different
  | read loader =>
      obtain ⟨started, value, found, rfl⟩ := step_read taken
      refine ⟨notified.applied, ?_, fun other read reading _ => ?_, fun kept _ _ idle => ?_⟩
      · refine @single_of_alone _ _ loader fun other different => ?_
        rw [loading_loads, if_neg different]
        exact notified.alone started different
      · rw [loading_loads] at reading
        split at reading
        · cases reading
          exact ⟨found, Nat.succ_pos _⟩
        · rename_i different
          rw [show reader.loads other = none from notified.alone started different] at reading
          cases reading
      · have reading := idle loader
        rw [loading_loads, if_pos rfl] at reading
        cases reading
  | keep loader =>
      obtain ⟨value, read, rfl⟩ := step_keep taken
      have idle : ∀ other, ({ reader with copy := some value }.loading loader none).loads other = none := by
        intro other
        rw [loading_loads]
        split
        · rfl
        · rename_i different
          exact notified.alone read different
      refine ⟨notified.applied, .inl (idle .caller), fun other found reading => ?_, fun found kept handled _ => ?_⟩
      · rw [idle other] at reading
        cases reading
      · cases kept
        obtain ⟨current, watched⟩ := notified.reads loader value read handled
        exact ⟨mem_drop_of_found current, watched⟩

/-- A replica has only values from the time of its last write. -/
theorem Recent.step {event : ReaderEvent} (recent : Recent oldest writes reader)
    (taken : reader.step writes event = some next) : Recent oldest writes next := by
  have loaded : ∀ {other : Reader V} {loader : Loader} {load : Option (Load V)}, Recent oldest writes other →
      (∀ value, load = some (.read value) → value ∈ writes.drop oldest) →
        Recent oldest writes (other.loading loader load) := by
    intro other loader load recent new
    refine ⟨recent.applied, fun found value reading => ?_, recent.copies⟩
    rw [loading_loads] at reading
    split at reading
    · exact new value reading
    · exact recent.reads found value reading
  cases event with
  | apply =>
      obtain ⟨_, rfl⟩ := step_apply taken
      exact ⟨Nat.le_succ_of_le recent.applied, recent.reads, recent.copies⟩
  | start =>
      obtain rfl := step_start taken
      exact loaded recent fun _ reading => nomatch reading
  | handle =>
      obtain rfl := step_handle taken
      exact loaded ⟨recent.applied, recent.reads, recent.copies⟩ fun _ reading => nomatch reading
  | read loader =>
      obtain ⟨_, value, found, rfl⟩ := step_read taken
      refine loaded ⟨recent.applied, recent.reads, recent.copies⟩ fun other reading => ?_
      cases reading
      exact List.drop_subset_drop_left _ recent.applied (mem_drop_of_found found)
  | keep loader =>
      obtain ⟨value, read, rfl⟩ := step_keep taken
      have member := recent.reads loader value read
      refine loaded ⟨recent.applied, recent.reads, fun other kept => ?_⟩ fun _ reading => nomatch reading
      cases kept
      exact member

/-- Another write, which the replica has not applied yet. -/
theorem Notified.written (notified : Notified writes reader) (new : V) : Notified (writes ++ [new]) reader where
  applied := by
    rw [List.length_append]
    exact Nat.lt_add_right _ notified.applied
  single := notified.single
  reads loader value reading handled := by
    obtain ⟨current, watched⟩ := notified.reads loader value reading handled
    rw [List.getElem?_append_left notified.applied]
    exact ⟨current, watched⟩
  copies value kept handled idle := by
    obtain ⟨member, watched⟩ := notified.copies value kept handled idle
    rw [List.drop_append_of_le_length (Nat.le_of_lt notified.applied)]
    exact ⟨List.mem_append_left _ member, watched⟩

theorem Recent.written (recent : Recent oldest writes reader) (some : oldest < writes.length) (new : V) :
    Recent oldest (writes ++ [new]) reader := by
  have more : ∀ value ∈ writes.drop oldest, value ∈ (writes ++ [new]).drop oldest := by
    intro value member
    rw [List.drop_append_of_le_length (Nat.le_of_lt some)]
    exact List.mem_append_left _ member
  exact ⟨recent.applied, fun loader value reading => more value (recent.reads loader value reading),
    fun value kept => more value (recent.copies value kept)⟩

/-- A reader that writes has the new value already. -/
theorem Notified.writes_own (notified : Notified writes reader) {old : V} (known : reader.copy = some old) (new : V) :
    Notified (writes ++ [new]) { reader with copy := some new } where
  applied := (notified.written new).applied
  single := notified.single
  reads := (notified.written new).reads
  copies value kept handled idle := by
    cases kept
    refine ⟨?_, (notified.copies old known handled idle).2⟩
    rw [List.drop_append_of_le_length (Nat.le_of_lt notified.applied)]
    exact List.mem_append_right _ (by simp)

theorem Recent.writes_own (recent : Recent oldest writes reader) (some : oldest < writes.length) (new : V) :
    Recent oldest (writes ++ [new]) { reader with copy := .some new } where
  applied := recent.applied
  reads := (recent.written some new).reads
  copies value kept := by
    cases kept
    rw [List.drop_append_of_le_length (Nat.le_of_lt some)]
    exact List.mem_append_right _ (by simp)

/-- A settled reader knows nothing but the last write. -/
theorem Notified.settled (notified : Notified writes reader) (settled : Settled writes reader) :
    Recent (writes.length - 1) writes reader := by
  have last : reader.applied = writes.length - 1 := by
    rw [← settled.current]
    rfl
  refine ⟨Nat.le_of_eq last.symm, fun loader value reading => ?_, fun value kept => ?_⟩
  · rw [settled.idle loader] at reading
    cases reading
  · rw [← last]
    exact (notified.copies value kept settled.handled settled.idle).1

end Reader

/-- The log of the writes, and all readers. -/
structure Watched (C V : Type) where
  writes : List V
  readers : C → Reader V

namespace Watched

variable {C V : Type}

def Notified (watched : Watched C V) : Prop := ∀ client, (watched.readers client).Notified watched.writes

def Recent (oldest : Nat) (watched : Watched C V) : Prop :=
  oldest < watched.writes.length ∧ ∀ client, (watched.readers client).Recent oldest watched.writes

def Settled (watched : Watched C V) : Prop := ∀ client, (watched.readers client).Settled watched.writes

instance [Fintype C] (watched : Watched C V) : Decidable watched.Settled :=
  inferInstanceAs (Decidable (∀ client, (watched.readers client).Settled watched.writes))

variable {watched next : Watched C V} {oldest : Nat}

theorem Notified.settled (notified : watched.Notified) (settled : watched.Settled) (some : watched.writes ≠ []) :
    watched.Recent (watched.writes.length - 1) := by
  have positive := List.length_pos_iff.mpr some
  exact ⟨by omega, fun client => (notified client).settled (settled client)⟩

variable [DecidableEq C]

def step (watched : Watched C V) (client : C) (event : ReaderEvent) : Option (Watched C V) :=
  ((watched.readers client).step watched.writes event).map fun reader =>
    { watched with readers := Function.update watched.readers client reader }

/-- A write of a client, which keeps the new value.  The client edits its copy and writes it in one step. -/
def write (watched : Watched C V) (client : C) (value : V) : Watched C V :=
  ⟨watched.writes ++ [value],
    Function.update watched.readers client { watched.readers client with copy := some value }⟩

theorem step_taken {client : C} {event : ReaderEvent} (taken : watched.step client event = some next) :
    ∃ reader, (watched.readers client).step watched.writes event = some reader ∧
      next = { watched with readers := Function.update watched.readers client reader } := by
  obtain ⟨reader, moved, rfl⟩ := Option.map_eq_some_iff.mp taken
  exact ⟨reader, moved, rfl⟩

theorem Notified.step {client : C} {event : ReaderEvent} (notified : watched.Notified)
    (once : (watched.readers client).LoadsOnce event) (taken : watched.step client event = some next) :
    next.Notified := by
  obtain ⟨reader, moved, rfl⟩ := step_taken taken
  intro other
  change (Function.update watched.readers client reader other).Notified watched.writes
  rw [Function.update_apply]
  split
  · exact (notified client).step once moved
  · exact notified other

theorem Recent.step {client : C} {event : ReaderEvent} (recent : watched.Recent oldest)
    (taken : watched.step client event = some next) : next.Recent oldest := by
  obtain ⟨reader, moved, rfl⟩ := step_taken taken
  refine ⟨recent.1, fun other => ?_⟩
  change (Function.update watched.readers client reader other).Recent oldest watched.writes
  rw [Function.update_apply]
  split
  · exact (recent.2 client).step moved
  · exact recent.2 other

theorem Notified.write {client : C} {old : V} (notified : watched.Notified)
    (known : (watched.readers client).copy = some old) (value : V) : (watched.write client value).Notified := by
  intro other
  change (Function.update watched.readers client _ other).Notified (watched.writes ++ [value])
  rw [Function.update_apply]
  split
  · exact (notified client).writes_own known value
  · exact (notified other).written value

theorem Recent.write (recent : watched.Recent oldest) (client : C) (value : V) :
    (watched.write client value).Recent oldest := by
  refine ⟨by simpa [Watched.write] using Nat.lt_succ_of_lt recent.1, fun other => ?_⟩
  change (Function.update watched.readers client _ other).Recent oldest (watched.writes ++ [value])
  rw [Function.update_apply]
  split
  · exact (recent.2 client).writes_own recent.1 value
  · exact (recent.2 other).written recent.1 value

end Watched

end Scads.Data
