import Scads.Client.IndexConsistency

namespace Scads.Protocol

open Scads.Data Scads.Comm Scads.Client

/-! # Clients that put to one namespace with indexes

A put reads the old record, writes to the index namespaces and then writes the
record.  Every one of these is a step of its own, and the steps of the clients
interleave in any way.
-/

/-- A put that has read the old record, with the writes that it has still to make. -/
structure Underway (schema : PairSchema) (D : Type) where
  key : PairKey schema D
  writes : List (StoreWrite schema D)

structure Clients (ι : Type) (schema : PairSchema) (D : Type) where
  store : IndexedStore schema D
  calls : ι → List (PairKey schema D × Option (PairValue schema D))
  underway : ι → Option (Underway schema D)

section

variable {ι : Type} [DecidableEq ι] {schema : PairSchema} {D : Type} [DecidableEq D]
  {cache : IndexCache schema} {state next final : Clients ι schema D} {client : ι}
  {key : PairKey schema D}

namespace Clients

def read (state : Clients ι schema D) (client : ι) (key : PairKey schema D)
    (rest : List (PairKey schema D × Option (PairValue schema D)))
    (writes : List (StoreWrite schema D)) : Clients ι schema D :=
  { state with
    calls := Function.update state.calls client rest
    underway := Function.update state.underway client (some ⟨key, writes⟩) }

def write (state : Clients ι schema D) (client : ι) (key : PairKey schema D)
    (write : StoreWrite schema D) (rest : List (StoreWrite schema D)) : Clients ι schema D :=
  { state with
    store := state.store.write write
    underway := Function.update state.underway client (some ⟨key, rest⟩) }

def done (state : Clients ι schema D) (client : ι) : Clients ι schema D :=
  { state with underway := Function.update state.underway client none }

/-- The next step of a client: it reads for its next put, makes the next write of
the put under way, or returns from it. -/
def step (cache : IndexCache schema) (state : Clients ι schema D) (client : ι) :
    Option (Clients ι schema D) :=
  match state.underway client with
  | some ⟨key, write :: rest⟩ => some (state.write client key write rest)
  | some ⟨_, []⟩ => some (state.done client)
  | none =>
      match state.calls client with
      | [] => none
      | (key, value) :: rest =>
          match putWrites cache key (state.store.base key) value with
          | .error _ => none
          | .ok writes => some (state.read client key rest writes)

/-- All the puts have returned. -/
def Finished (state : Clients ι schema D) : Prop :=
  ∀ client, state.calls client = [] ∧ state.underway client = none

/-- If the step begins a put of the key, then no put of the key is under way. -/
def Apart (key : PairKey schema D) (state : Clients ι schema D) (client : ι) : Prop :=
  state.underway client = none → ((state.calls client).head?.map Prod.fst) = some key →
    ∀ other put, state.underway other = some put → put.key ≠ key

theorem step_cases (stepped : step cache state client = some next) :
    (∃ key write rest, state.underway client = some ⟨key, write :: rest⟩ ∧
        next = state.write client key write rest) ∨
      (∃ key, state.underway client = some ⟨key, []⟩ ∧ next = state.done client) ∨
      ∃ key value rest, state.underway client = none ∧ state.calls client = (key, value) :: rest ∧
        next = state.read client key rest
          (IndexedStore.planned cache key (state.store.base key) value) := by
  rw [step] at stepped
  split at stepped
  · rename_i key write rest found
    cases stepped
    exact .inl ⟨key, write, rest, found, rfl⟩
  · rename_i key found
    cases stepped
    exact .inr (.inl ⟨key, found, rfl⟩)
  · rename_i idle
    split at stepped
    · cases stepped
    · rename_i key value rest queued
      rw [putWrites_eq] at stepped
      cases stepped
      exact .inr (.inr ⟨key, value, rest, idle, queued, rfl⟩)

/-- The writes of every put are for its own key, and the entries are those of keys. -/
structure Orderly (cache : IndexCache schema) (state : Clients ι schema D) : Prop where
  owned : state.store.OwnedIn cache
  concern : ∀ {client put}, state.underway client = some put →
    ∀ write ∈ put.writes, IndexedStore.Concerns cache put.key write

theorem step_orderly (orderly : state.Orderly cache) (stepped : step cache state client = some next) :
    next.Orderly cache := by
  obtain ⟨key, write, rest, found, rfl⟩ | ⟨key, found, rfl⟩ | ⟨key, value, rest, _, _, rfl⟩ :=
    step_cases stepped
  · refine ⟨IndexedStore.write_owned orderly.owned (orderly.concern found write (by simp)), ?_⟩
    intro other put under
    simp only [Clients.write, Function.update_apply] at under
    split at under
    · cases under
      exact fun later member => orderly.concern found later (by simp [member])
    · exact orderly.concern under
  · refine ⟨orderly.owned, ?_⟩
    intro other put under
    simp only [done, Function.update_apply] at under
    split at under
    · cases under
    · exact orderly.concern under
  · refine ⟨orderly.owned, ?_⟩
    intro other put under
    simp only [read, Function.update_apply] at under
    split at under
    · cases under
      exact IndexedStore.planned_concern
    · exact orderly.concern under

/-- At most one put of the key is under way, and the indexes have its entries once
the rest of its writes are made. -/
structure Settling (cache : IndexCache schema) (key : PairKey schema D) (state : Clients ι schema D) :
    Prop where
  alone : ∀ {client other put second}, state.underway client = some put →
    state.underway other = some second → put.key = key → second.key = key → client = other
  settled : (∀ client put, state.underway client = some put → put.key ≠ key) →
    state.store.ConsistentAt cache key
  pending : ∀ {client put}, state.underway client = some put → put.key = key →
    (state.store.finish put.writes).ConsistentAt cache key

theorem write_settling {put : PairKey schema D} {write : StoreWrite schema D}
    {rest : List (StoreWrite schema D)} (orderly : state.Orderly cache) (settling : state.Settling cache key)
    (found : state.underway client = some ⟨put, write :: rest⟩) :
    (state.write client put write rest).Settling cache key := by
  have concerns := orderly.concern found write (by simp)
  have known : ∀ {other second}, (state.write client put write rest).underway other = some second →
      ∃ before, state.underway other = some before ∧ before.key = second.key := by
    intro other second under
    simp only [Clients.write, Function.update_apply] at under
    split at under
    · rename_i same
      cases under
      exact ⟨⟨put, write :: rest⟩, same ▸ found, rfl⟩
    · exact ⟨_, under, rfl⟩
  constructor
  · intro first second one two left right same also
    obtain ⟨_, leftBefore, leftKey⟩ := known left
    obtain ⟨_, rightBefore, rightKey⟩ := known right
    exact settling.alone leftBefore rightBefore (leftKey.trans same) (rightKey.trans also)
  · intro none
    have different : put ≠ key := none client ⟨put, rest⟩ (Function.update_self ..)
    refine (IndexedStore.write_agree concerns (Ne.symm different)).consistentAt (settling.settled ?_)
    intro other before under
    by_cases same : other = client
    · rw [same, found] at under
      cases under
      exact different
    · exact none other before (by simp only [Clients.write, Function.update_of_ne same, under])
  · intro other second under same
    by_cases this : other = client
    · subst this
      simp only [Clients.write, Function.update_self, Option.some.injEq] at under
      subst under
      exact settling.pending found same
    · simp only [Clients.write, Function.update_of_ne this] at under
      have different : put ≠ key := fun also => this (settling.alone under found same also)
      exact ((IndexedStore.write_agree concerns (Ne.symm different)).finish _).consistentAt
        (settling.pending under same)

theorem done_settling {put : PairKey schema D} (settling : state.Settling cache key)
    (found : state.underway client = some ⟨put, []⟩) : (state.done client).Settling cache key := by
  have known : ∀ {other second}, (state.done client).underway other = some second →
      state.underway other = some second := by
    intro other second under
    simp only [done, Function.update_apply] at under
    split at under
    · cases under
    · exact under
  constructor
  · exact fun left right => settling.alone (known left) (known right)
  · intro none
    by_cases same : put = key
    · exact settling.pending found same
    · refine settling.settled fun other before under => ?_
      by_cases this : other = client
      · rw [this, found] at under
        cases under
        exact same
      · exact none other before (by simp only [done, Function.update_of_ne this, under])
  · exact fun under same => settling.pending (known under) same

theorem read_settling {put : PairKey schema D} {value : Option (PairValue schema D)}
    {rest : List (PairKey schema D × Option (PairValue schema D))} (settling : state.Settling cache key)
    (idle : state.underway client = none)
    (apart : put = key → ∀ other second, state.underway other = some second → second.key ≠ key) :
    (state.read client put rest (IndexedStore.planned cache put (state.store.base put) value)).Settling
      cache key := by
  constructor
  · intro first second one two left right same also
    simp only [read, Function.update_apply] at left right
    split at left
    · rename_i this
      split at right
      · rename_i that
        exact this.trans that.symm
      · cases left
        exact absurd also (apart same second two right)
    · split at right
      · cases right
        exact absurd same (apart also first one left)
      · exact settling.alone left right same also
  · intro none
    refine settling.settled fun other before under => ?_
    refine none other before ?_
    have this : other ≠ client := by
      intro same
      subst same
      rw [idle] at under
      cases under
    simp only [read, Function.update_of_ne this, under]
  · intro other second under same
    simp only [read, Function.update_apply] at under
    split at under
    · cases under
      obtain rfl : put = key := same
      exact IndexedStore.planned_consistentAt (settling.settled (apart rfl))
    · exact settling.pending under same

theorem step_settling (orderly : state.Orderly cache) (settling : state.Settling cache key)
    (apart : state.Apart key client) (stepped : step cache state client = some next) :
    next.Settling cache key := by
  obtain ⟨put, write, rest, found, rfl⟩ | ⟨put, found, rfl⟩ | ⟨put, value, rest, idle, queued, rfl⟩ :=
    step_cases stepped
  · exact write_settling orderly settling found
  · exact done_settling settling found
  · refine read_settling settling idle fun same => apart idle ?_
    rw [queued, ← same]
    rfl

/-- However the puts of the clients interleave, in the end every entry of an index
is one of some key, and a key has the entries of its record and no others if no
put of the key began while another one was under way. -/
theorem interleaved_puts_keep_indexes (cache : IndexCache schema) (state final : Clients ι schema D)
    (consistent : state.store.Consistent cache) (idle : ∀ client, state.underway client = none)
    (order : List ι) (ran : run (step cache) state order = some final) (finished : final.Finished) :
    final.store.OwnedIn cache ∧
      ∀ key, Along (step cache) (fun before client _ => before.Apart key client) state order →
        final.store.ConsistentAt cache key := by
  obtain ⟨owned, each⟩ := IndexedStore.consistent_iff.mp consistent
  have orderly : state.Orderly cache := by
    refine ⟨owned, fun under => ?_⟩
    rw [idle] at under
    cases under
  constructor
  · have kept : final.Orderly cache := @run_invariant _ _ _ (fun _ => True) (Orderly cache) _ _ _
      (fun _ held stepped => step_orderly held stepped) ran (fun _ _ => trivial) orderly
    exact kept.owned
  · intro key apart
    have settling : state.Settling cache key := by
      constructor
      · intro first second one two left
        rw [idle] at left
        cases left
      · exact fun _ => each key
      · intro first one left
        rw [idle] at left
        cases left
    have kept : final.Orderly cache ∧ final.Settling cache key :=
      @along_invariant _ _ _ _ (fun state => state.Orderly cache ∧ state.Settling cache key) _ _ _
        (fun held stepped apart =>
          ⟨step_orderly held.1 stepped, step_settling held.1 held.2 apart stepped⟩)
        ⟨orderly, settling⟩ apart ran
    refine kept.2.settled fun client put under => ?_
    rw [(finished client).2] at under
    cases under

end Clients

end

/-- The index over the age alone. -/
def ageIndex : IndexCache peopleSchema where
  indexes := peopleIndexes.indexes.drop 1
  distinct := by decide

def twoClients (first second : List (PairKey peopleSchema Nat × Option (PairValue peopleSchema Nat))) :
    Clients Bool peopleSchema Nat where
  store := IndexedStore.empty
  calls client := if client then second else first
  underway _ := none

namespace Clients

/-- Two puts of different persons interleave at every step. -/
theorem interleaved_people_keep_indexes :
    ∃ final, run (step ageIndex) (twoClients [(person 1, some (named "ann" 30))]
        [(person 2, some (named "bob" 30))]) [false, true, false, true, false, true, false, true] =
          some final ∧
      final.Finished ∧ final.store.OwnedIn ageIndex ∧ final.store.ConsistentAt ageIndex (person 1) := by
  obtain ⟨final, ran⟩ : ∃ final, run (step ageIndex) (twoClients [(person 1, some (named "ann" 30))]
      [(person 2, some (named "bob" 30))]) [false, true, false, true, false, true, false, true] =
        some final := ⟨_, rfl⟩
  have finished : final.Finished := by
    cases ran
    intro client
    cases client <;> exact ⟨rfl, rfl⟩
  obtain ⟨owned, each⟩ := interleaved_puts_keep_indexes ageIndex _ final
    (IndexedStore.empty_consistent ageIndex) (fun _ => rfl) _ ran finished
  refine ⟨final, ran, finished, owned, each (person 1) ⟨?_, ?_, ?_, ?_, ?_, ?_, ?_, ?_, trivial⟩⟩
  · exact fun _ _ other put under => nomatch under
  · exact fun _ begun => absurd begun (by decide)
  all_goals exact fun idle => nomatch idle

/-- Both clients read before either of them writes, and each leaves its own entry. -/
theorem overlapping_puts_leave_old_age :
    (twoClients [(person 1, some (named "ann" 30))] [(person 1, some (named "ann" 31))]).store.Consistent
        ageIndex ∧
      ∃ final, run (step ageIndex) (twoClients [(person 1, some (named "ann" 30))]
          [(person 1, some (named "ann" 31))]) [false, true, false, true, false, true, false, true] =
            some final ∧
        final.Finished ∧ ¬ final.store.Consistent ageIndex := by
  refine ⟨IndexedStore.empty_consistent ageIndex, _, rfl, ?_, ?_⟩
  · intro client
    cases client <;> exact ⟨rfl, rfl⟩
  · intro consistent
    obtain ⟨key, value, stored, yielded⟩ :=
      (consistent "age" _ (List.mem_singleton.mpr rfl) [.other 30, .other 1]).mp rfl
    have owner : IndexDefinition.Yields ⟨[.attributeIndex "age", .attributeIndex "id"],
        [.attributeIndex "age"], rfl⟩ (person 1) (named "ann" 30) [.other 30, .other 1] := by
      unfold IndexDefinition.Yields
      decide
    obtain rfl := yields_separate _ owner yielded
    obtain rfl : named "ann" 31 = value := Option.some.inj stored
    revert yielded
    unfold IndexDefinition.Yields
    decide

end Clients

end Scads.Protocol
