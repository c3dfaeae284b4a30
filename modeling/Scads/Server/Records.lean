import Scads.Server.Registries

namespace Scads.Server

open Scads.Data Scads.Comm Scads.Util

/-! # What a request does to the records of a server -/

namespace StorageHandler

variable {K V : Type} [LinearOrder K] {handler : StorageHandler K V} {partitionId : String}

/-- The records that a server stores for a namespace. -/
def records (handler : StorageHandler K V) (ns : String) : List (K × V) :=
  ((handler.databases ns).map Database.entries).getD []

theorem makeDatabase_records (handler : StorageHandler K V) (ns : String) :
    (handler.makeDatabase ns).records = handler.records := by
  funext other
  simp only [makeDatabase, records, Function.update_apply]
  split
  · rename_i same
    subst same
    cases handler.databases other <;> rfl
  · rfl

/-- A partition was opened on a server and listed in the context of its namespace. -/
structure Opened (handler : StorageHandler K V) (partitionId : String) (partition : PartitionHandler K)
    (next : StorageHandler K V) : Prop where
  partitions : next.partitions = Function.update handler.partitions partitionId (some partition)
  contexts : ∀ ns, next.getOrCreateContextForNamespace ns =
    if ns = partition.ns then (partitionId, partition) :: handler.getOrCreateContextForNamespace ns
    else handler.getOrCreateContextForNamespace ns
  records : next.records = handler.records

theorem register_opened {partition : PartitionHandler K} {reply : StorageResponse}
    (registered : (handler.register partitionId partition).2 = .ok reply) :
    Opened handler partitionId partition (handler.register partitionId partition).1 := by
  simp only [register] at registered ⊢
  split at registered
  · cases registered
  · rename_i closed
    split at registered
    · cases registered
    · rename_i absent
      rw [if_neg closed, if_neg absent]
      refine ⟨rfl, fun ns => ?_, rfl⟩
      simp only [getOrCreateContextForNamespace, Function.update_apply]
      split
      · rename_i same
        rw [same]
        rfl
      · rfl

theorem Opened.of_congr {other next : StorageHandler K V} {partition : PartitionHandler K}
    (opened : Opened other partitionId partition next) (partitions : other.partitions = handler.partitions)
    (contexts : other.getOrCreateContextForNamespace = handler.getOrCreateContextForNamespace)
    (records : other.records = handler.records) : Opened handler partitionId partition next where
  partitions := partitions ▸ opened.partitions
  contexts := by
    intro ns
    rw [opened.contexts, contexts]
  records := opened.records.trans records

/-- A server that answers with a new partition has opened it. -/
theorem createPartition_creates {root : Option NamespaceRoot} {request : CreatePartitionRequest K}
    {reply : StorageResponse} (created : (handler.createPartition root partitionId request).2 = .ok reply) :
    Opened handler partitionId request.handler (handler.createPartition root partitionId request).1 := by
  have contexts := withContext_contexts handler request.ns
  cases root with
  | none => cases created
  | some root =>
      rw [createPartition] at created ⊢
      split at created
      · rename_i inMemory
        split at created
        · rename_i loadable
          have handled : request.handler = ⟨.inMemory, request.ns, request.startKey, request.endKey⟩ := by
            simp [CreatePartitionRequest.handler, inMemory]
          rw [if_pos inMemory, if_pos loadable, handled]
          exact (register_opened created).of_congr rfl contexts rfl
        · cases created
      · rename_i persistent
        split at created
        · rename_i bdb
          have handled : request.handler = ⟨.bdb, request.ns, request.startKey, request.endKey⟩ := by
            simp [CreatePartitionRequest.handler, persistent]
          rw [if_neg persistent, if_pos bdb, handled]
          exact (register_opened created).of_congr rfl contexts (makeDatabase_records _ _)
        · cases created

section

variable {iteration : Iteration (String × PartitionHandler K)}

/-- What a server that answers that a partition is deleted has done. -/
theorem deletePartition_done
    (deleted : (handler.deletePartition partitionId iteration).2 = .ok .deletePartitionResponse) :
    ∃ removed ctx database left, handler.partitions partitionId = some removed ∧
      handler.namespaces removed.ns = some ctx ∧ (partitionId, removed) ∈ ctx ∧
      handler.databases removed.ns = some database ∧
      databaseWithout removed (ctx.erase (partitionId, removed)) iteration database = .ok left ∧
      (handler.deletePartition partitionId iteration).1 =
        ⟨Function.update handler.partitions partitionId none,
          Function.update handler.namespaces removed.ns (some (ctx.erase (partitionId, removed))),
          handler.partitionDb.delete partitionId, Function.update handler.databases removed.ns left⟩ := by
  cases opened : handler.partitions partitionId with
  | none => simp [deletePartition, opened] at deleted
  | some removed =>
      cases managed : removed.manager with
      | inMemory => simp [deletePartition, opened, managed] at deleted
      | bdb =>
          cases context : handler.namespaces removed.ns with
          | none => simp [deletePartition, opened, managed, context] at deleted
          | some ctx =>
              by_cases listed : (partitionId, removed) ∈ ctx
              · cases stored : handler.databases removed.ns with
                | none => simp [deletePartition, opened, managed, context, listed, stored] at deleted
                | some database =>
                    cases collected : databaseWithout removed (ctx.erase (partitionId, removed)) iteration
                        database with
                    | error failure =>
                        rw [deletePartition_failed opened managed context listed stored collected] at deleted
                        cases deleted
                    | ok left =>
                        rw [deletePartition_registered opened managed context listed stored collected]
                        exact ⟨removed, ctx, database, left, rfl, context, listed, stored, collected, rfl⟩
              · simp [deletePartition, opened, managed, context, listed] at deleted

/-- Where other partitions are left, a deletion keeps what is in their ranges or not in its own. -/
theorem databaseWithout_ok {removed : PartitionHandler K} {rest : NamespaceContext K}
    {database : Database K V} {left : Option (Database K V)} (others : rest ≠ [])
    (collected : databaseWithout removed rest iteration database = .ok left) :
    ∃ kept, left = some kept ∧ kept.entries = database.entries.filter fun entry =>
      !(removed.span.contains entry.1 && !Span.covers (PartitionHandler.bdbSpans rest) entry.1) := by
  by_cases proper : removed.span.Proper ∧ PartitionHandler.AllProper rest
  · obtain ⟨kept, result, entries⟩ := databaseWithout_rest others proper.1 proper.2 database iteration
    rw [collected] at result
    cases result
    exact ⟨kept, rfl, entries⟩
  · obtain ⟨failure, failed⟩ := databaseWithout_improper others proper database iteration
    rw [failed] at collected
    cases collected

theorem covers_bdbSpans {rest : NamespaceContext K} {that : String × PartitionHandler K} {key : K}
    (member : that ∈ rest) (managed : that.2.manager = .bdb) (inside : that.2.span.contains key) :
    Span.covers (PartitionHandler.bdbSpans rest) key = true := by
  refine List.any_eq_true.mpr ⟨that.2.span, ?_, inside⟩
  exact List.mem_map.mpr ⟨that, List.mem_filter.mpr ⟨member, by simp [managed]⟩, rfl⟩

/-- If every key is in the range of a remaining partition, nothing is garbage. -/
theorem databaseWithout_covered {removed : PartitionHandler K} {rest : NamespaceContext K}
    {database : Database K V} {left : Option (Database K V)}
    (covered : ∀ key, ∃ that ∈ rest, that.2.manager = .bdb ∧ that.2.span.contains key)
    (collected : databaseWithout removed rest iteration database = .ok left) :
    (left.map Database.entries).getD [] = database.entries := by
  by_cases last : rest = []
  · cases entries : database.entries with
    | nil =>
        simp only [databaseWithout, last, List.isEmpty_nil, if_true] at collected
        cases collected
        rfl
    | cons entry others =>
        obtain ⟨that, member, _⟩ := covered entry.1
        simp [last] at member
  · obtain ⟨kept, rfl, entries⟩ := databaseWithout_ok last collected
    change kept.entries = database.entries
    rw [entries, List.filter_eq_self]
    intro entry _
    obtain ⟨that, member, managed, inside⟩ := covered entry.1
    simp [covers_bdbSpans member managed inside]

variable {ns : String}

/-- The other partitions stay in their contexts. -/
theorem deletePartition_contained {entry : String × PartitionHandler K}
    (deleted : (handler.deletePartition partitionId iteration).2 = .ok .deletePartitionResponse)
    (contained : entry ∈ handler.getOrCreateContextForNamespace ns) (different : entry.1 ≠ partitionId) :
    entry ∈ (handler.deletePartition partitionId iteration).1.getOrCreateContextForNamespace ns := by
  obtain ⟨removed, ctx, database, left, _, context, _, _, _, result⟩ := deletePartition_done deleted
  rw [result]
  simp only [getOrCreateContextForNamespace, Function.update_apply] at contained ⊢
  split
  · rename_i same
    rw [same, context] at contained
    refine (List.mem_erase_of_ne ?_).mpr contained
    exact fun equal => different (congrArg Prod.fst equal)
  · exact contained

/-- The deletion of a partition whose keys the others cover keeps all records. -/
theorem deletePartition_records
    (deleted : (handler.deletePartition partitionId iteration).2 = .ok .deletePartitionResponse)
    (covered : ∀ key, ∃ entry ∈ handler.getOrCreateContextForNamespace ns,
      entry.1 ≠ partitionId ∧ entry.2.manager = .bdb ∧ entry.2.span.contains key) :
    (handler.deletePartition partitionId iteration).1.records ns = handler.records ns := by
  obtain ⟨removed, ctx, database, left, _, context, _, stored, collected, result⟩ :=
    deletePartition_done deleted
  rw [result]
  simp only [records, Function.update_apply]
  split
  · rename_i same
    rw [same, stored]
    refine databaseWithout_covered (fun key => ?_) collected
    obtain ⟨entry, contained, different, managed, inside⟩ := covered key
    rw [getOrCreateContextForNamespace, same, context] at contained
    refine ⟨entry, (List.mem_erase_of_ne ?_).mpr contained, managed, inside⟩
    exact fun equal => different (congrArg Prod.fst equal)
  · rfl

/-- A context only loses the deleted partition. -/
theorem mem_context_of_deleted {entry : String × PartitionHandler K}
    (deleted : (handler.deletePartition partitionId iteration).2 = .ok .deletePartitionResponse)
    (contained : entry ∈ (handler.deletePartition partitionId iteration).1.getOrCreateContextForNamespace ns) :
    entry ∈ handler.getOrCreateContextForNamespace ns := by
  obtain ⟨removed, ctx, database, left, _, context, _, _, _, result⟩ := deletePartition_done deleted
  rw [result] at contained
  simp only [getOrCreateContextForNamespace, Function.update_apply] at contained ⊢
  split at contained
  · rename_i same
    rw [same, context]
    exact List.mem_of_mem_erase contained
  · exact contained

/-- A deletion adds no record. -/
theorem mem_records_of_deleted {entry : K × V}
    (deleted : (handler.deletePartition partitionId iteration).2 = .ok .deletePartitionResponse)
    (stored : entry ∈ (handler.deletePartition partitionId iteration).1.records ns) : entry ∈ handler.records ns := by
  obtain ⟨removed, ctx, database, left, _, _, _, found, collected, result⟩ := deletePartition_done deleted
  rw [result] at stored
  simp only [records, Function.update_apply] at stored ⊢
  split at stored
  · rename_i same
    rw [same, found]
    by_cases last : ctx.erase (partitionId, removed) = []
    · simp only [databaseWithout, last, List.isEmpty_nil, if_true] at collected
      cases collected
      cases stored
    · obtain ⟨kept, rfl, entries⟩ := databaseWithout_ok last collected
      have member : entry ∈ kept.entries := stored
      rw [entries] at member
      exact (List.mem_filter.mp member).1
  · exact stored

/-- A record outlives the deletion of a partition if another partition is left that it is
in the range of, or if it is not in the range of the deleted one. -/
theorem deletePartition_keeps {that : String × PartitionHandler K} {entry : K × V}
    (deleted : (handler.deletePartition partitionId iteration).2 = .ok .deletePartitionResponse)
    (contained : that ∈ handler.getOrCreateContextForNamespace ns) (different : that.1 ≠ partitionId)
    (managed : that.2.manager = .bdb)
    (kept : that.2.span.contains entry.1 ∨
      ∀ removed, handler.partitions partitionId = some removed → ¬ removed.span.contains entry.1)
    (stored : entry ∈ handler.records ns) : entry ∈ (handler.deletePartition partitionId iteration).1.records ns := by
  obtain ⟨removed, ctx, database, left, opened, context, _, found, collected, result⟩ := deletePartition_done deleted
  rw [result]
  simp only [records, Function.update_apply] at stored ⊢
  split
  · rename_i same
    rw [getOrCreateContextForNamespace, same, context] at contained
    have remains : that ∈ ctx.erase (partitionId, removed) :=
      (List.mem_erase_of_ne fun equal => different (congrArg Prod.fst equal)).mpr contained
    obtain ⟨kept', rfl, entries⟩ := databaseWithout_ok (List.ne_nil_of_mem remains) collected
    rw [same, found] at stored
    change entry ∈ kept'.entries
    rw [entries]
    refine List.mem_filter.mpr ⟨stored, ?_⟩
    rcases kept with inside | outside
    · simp [covers_bdbSpans remains managed inside]
    · simp [Bool.eq_false_iff.mpr (outside removed opened)]
  · exact stored

/-- The deletion of an open partition fails no assertion if all partitions of its context
have their ends in order. -/
theorem deletePartition_asserts {removed : PartitionHandler K} (opened : handler.partitions partitionId = some removed)
    (contained : (partitionId, removed) ∈ handler.getOrCreateContextForNamespace removed.ns)
    (shared : ∀ that ∈ handler.getOrCreateContextForNamespace removed.ns,
      that.2.manager = .bdb ∧ that.2.span.Proper) (text : String) :
    (handler.deletePartition partitionId iteration).2 ≠ .error (.assertion text) := by
  cases context : handler.namespaces removed.ns with
  | none =>
      rw [getOrCreateContextForNamespace, context] at contained
      cases contained
  | some ctx =>
      rw [getOrCreateContextForNamespace, context, Option.getD_some] at contained shared
      have managed : removed.manager = .bdb := (shared _ contained).1
      cases stored : handler.databases removed.ns with
      | none => simp [deletePartition, opened, managed, context, contained, stored]
      | some database =>
          by_cases last : ctx.erase (partitionId, removed) = []
          · have collected : databaseWithout removed (ctx.erase (partitionId, removed)) iteration database =
                .ok none := by simp [databaseWithout, last]
            simp [deletePartition_registered opened managed context contained stored collected]
          · obtain ⟨left, collected, _⟩ := databaseWithout_rest last (shared _ contained).2
              (fun that member _ => (shared that (List.mem_of_mem_erase member)).2) database iteration
            simp [deletePartition_registered opened managed context contained stored collected]

end

end StorageHandler

end Scads.Server
