import Scads.Server.Records
import Scads.Server.Restart

namespace Scads.Server

open Scads.Data Scads.Comm

/-! # Records inside of open partitions

A server that hands its records over one partition after the other keeps none that is
outside of all its partitions, and a restart changes neither.
-/

namespace StorageHandler

variable {K V : Type} [LinearOrder K] {handler : StorageHandler K V} {partitionId ns : String}

/-- Each record of the namespace is in the range of a partition of the server. -/
def Contained (handler : StorageHandler K V) (ns : String) : Prop :=
  ∀ entry ∈ handler.records ns, ∃ that ∈ handler.getOrCreateContextForNamespace ns, that.2.span.contains entry.1 = true

/-- A server makes no partition under the id of another one. -/
theorem createPartition_fresh {root : Option NamespaceRoot} {request : CreatePartitionRequest K}
    {reply : StorageResponse} (created : (handler.createPartition root partitionId request).2 = .ok reply) :
    handler.partitions partitionId = none := by
  have registers : ∀ {other : StorageHandler K V} {partition : PartitionHandler K},
      (other.register partitionId partition).2 = .ok reply → other.partitions partitionId = none := by
    intro other partition registered
    simp only [register] at registered
    split at registered
    · cases registered
    · rename_i closed
      simpa using closed
  cases root with
  | none => cases created
  | some root =>
      rw [createPartition] at created
      split at created
      · split at created
        · have fresh := registers created
          exact fresh
        · cases created
      · split at created
        · have fresh := registers created
          exact fresh
        · cases created

theorem Registered.created (registered : handler.Registered) {root : Option NamespaceRoot}
    {request : CreatePartitionRequest K} (persistent : request.partitionType = "bdb") {reply : StorageResponse}
    (created : (handler.createPartition root partitionId request).2 = .ok reply) :
    (handler.createPartition root partitionId request).1.Registered := by
  refine createPartition_registered registered (createPartition_fresh created) ?_
  intro found _ inMemory
  rw [persistent] at inMemory
  exact absurd inMemory (by decide)

variable {iteration : Iteration (String × PartitionHandler K)}

theorem Registered.deleted (registered : handler.Registered)
    (deleted : (handler.deletePartition partitionId iteration).2 = .ok .deletePartitionResponse) :
    (handler.deletePartition partitionId iteration).1.Registered := by
  obtain ⟨removed, ctx, database, left, opened, context, _, _, collected, result⟩ := deletePartition_done deleted
  have same : handler.getOrCreateContextForNamespace removed.ns = ctx := by
    rw [getOrCreateContextForNamespace, context]
    rfl
  have kept := @Registered.withoutPartition _ _ _ _ partitionId registered removed left opened (fun others => ?_)
  · rw [StorageHandler.withoutPartition, same] at kept
    rw [result]
    exact kept
  · rw [same] at others
    obtain ⟨database, rfl, _⟩ := databaseWithout_ok others collected
    rfl

/-- What is only in the range of the deleted partition goes with it. -/
theorem Contained.deleted (contained : handler.Contained ns)
    (deleted : (handler.deletePartition partitionId iteration).2 = .ok .deletePartitionResponse) :
    (handler.deletePartition partitionId iteration).1.Contained ns := by
  obtain ⟨removed, ctx, database, left, _, context, _, found, collected, result⟩ := deletePartition_done deleted
  intro entry stored
  rw [result] at stored ⊢
  simp only [records, getOrCreateContextForNamespace, Function.update_apply] at stored ⊢
  split at stored
  · rename_i same
    subst same
    rw [if_pos rfl]
    by_cases last : ctx.erase (partitionId, removed) = []
    · simp only [databaseWithout, last, List.isEmpty_nil, if_true] at collected
      cases collected
      cases stored
    · obtain ⟨kept, rfl, entries⟩ := databaseWithout_ok last collected
      change entry ∈ kept.entries at stored
      rw [entries, List.mem_filter] at stored
      obtain ⟨member, either⟩ := stored
      have before : entry ∈ handler.records removed.ns := by
        rw [records, found]
        exact member
      obtain ⟨that, listed, inside⟩ := contained entry before
      rw [getOrCreateContextForNamespace, context] at listed
      by_cases covered : Span.covers (PartitionHandler.bdbSpans (ctx.erase (partitionId, removed))) entry.1 = true
      · obtain ⟨span, among, within⟩ := List.any_eq_true.mp covered
        obtain ⟨other, remaining, rfl⟩ := List.mem_map.mp among
        exact ⟨other, (List.mem_filter.mp remaining).1, within⟩
      · refine ⟨that, (List.mem_erase_of_ne fun same => ?_).mpr listed, inside⟩
        subst same
        rw [inside, Bool.eq_false_iff.mpr covered] at either
        cases either
  · rename_i different
    rw [if_neg different]
    exact contained entry stored

variable {zookeeper : String → Option NamespaceRoot}

/-- What a start keeps of a server, apart from the partitions that it opens. -/
structure Reopened (handler final : StorageHandler K V) : Prop where
  partitionDb : final.partitionDb = handler.partitionDb
  records : final.records = handler.records
  databases : ∀ ns, (handler.databases ns).isSome → (final.databases ns).isSome

theorem foldlM_reopened {entries : List (String × CreatePartitionRequest K)} {final : StorageHandler K V}
    (distinct : (entries.map Prod.fst).Nodup)
    (new : ∀ ns, ∀ that ∈ handler.getOrCreateContextForNamespace ns, that.1 ∉ entries.map Prod.fst)
    (once : ∀ ns, (handler.getOrCreateContextForNamespace ns).Nodup)
    (started : entries.foldlM (reopen zookeeper) handler = .ok final) :
    handler.Reopened final ∧ ∀ ns, (final.getOrCreateContextForNamespace ns).Nodup := by
  induction entries generalizing handler with
  | nil =>
      cases started
      exact ⟨⟨rfl, rfl, fun _ => id⟩, once⟩
  | cons entry rest ih =>
      rw [List.foldlM_cons] at started
      cases known : zookeeper entry.2.ns with
      | none =>
          simp only [reopen, known, error_bind] at started
          cases started
      | some root =>
          simp only [reopen, known, ok_bind] at started
          rw [List.map_cons, List.nodup_cons] at distinct
          simp only [List.map_cons, List.mem_cons, not_or] at new
          have later : ∀ ns, ∀ that ∈ (handler.withReopened entry).getOrCreateContextForNamespace ns,
              that.1 ∉ rest.map Prod.fst := by
            intro ns that listed
            rw [withReopened_context] at listed
            split at listed
            · rcases List.mem_cons.mp listed with rfl | listed
              · exact distinct.1
              · exact (new _ that listed).2
            · exact (new _ that listed).2
          have still : ∀ ns, ((handler.withReopened entry).getOrCreateContextForNamespace ns).Nodup := by
            intro ns
            rw [withReopened_context]
            split
            · exact List.nodup_cons.mpr ⟨fun listed => (new _ _ listed).1 rfl, once _⟩
            · exact once ns
          obtain ⟨reopened, nodup⟩ := ih distinct.2 later still started
          refine ⟨⟨reopened.partitionDb, ?_, fun ns stored => reopened.databases ns ?_⟩, nodup⟩
          · rw [reopened.records, ← makeDatabase_records handler entry.2.ns]
            rfl
          · change ((handler.makeDatabase entry.2.ns).databases ns).isSome
            rw [makeDatabase_stored, stored, Bool.or_true]

/-- A server without partitions in memory comes back as it was, with the same records. -/
theorem Registered.restarted (registered : handler.Registered) {final : StorageHandler K V}
    (kept : ∀ partitionId partition, handler.partitions partitionId = some partition → partition.manager = .bdb)
    (started : startup zookeeper handler.shutdown = .ok final) :
    final.Registered ∧ final.partitions = handler.partitions ∧ final.records = handler.records ∧
      ∀ ns entry, entry ∈ final.getOrCreateContextForNamespace ns ↔
        entry ∈ handler.getOrCreateContextForNamespace ns := by
  have known : ∀ entry ∈ handler.partitionDb.entries, (zookeeper entry.2.ns).isSome := by
    intro entry member
    cases found : zookeeper entry.2.ns with
    | some root => rfl
    | none =>
        obtain ⟨failure, failed⟩ := foldlM_reopen_unknown member found handler.shutdown
        rw [startup, show handler.shutdown.partitionDb = handler.partitionDb from rfl, failed] at started
        cases started
  have restored : handler.Restored zookeeper := registered.restored fun partitionId partition opened => by
    obtain ⟨request, member, rfl⟩ := registered.entry_of_opened opened
    exact ⟨kept partitionId _ opened, known _ member⟩
  obtain ⟨restarted, again, partitions, contexts⟩ := restored
  rw [started] at again
  cases again
  obtain ⟨reopened, nodup⟩ := foldlM_reopened (partitionDb_distinct handler.partitionDb)
    (by simp [shutdown, getOrCreateContextForNamespace]) (by simp [shutdown, getOrCreateContextForNamespace]) started
  refine ⟨⟨fun partitionId => ?_, ?_, ?_, nodup, ?_⟩, partitions, reopened.records, contexts⟩
  · rw [partitions, reopened.partitionDb]
    exact registered.recorded partitionId
  · intro ns entry listed
    rw [partitions]
    exact registered.listed ((contexts ns entry).mp listed)
  · intro partitionId partition opened
    rw [partitions] at opened
    exact (contexts _ _).mpr (registered.contained opened)
  · intro partitionId partition opened managed
    rw [partitions] at opened
    exact reopened.databases _ (registered.stored opened managed)

end StorageHandler

end Scads.Server
