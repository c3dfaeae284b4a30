import Scads.Server.Registries

namespace Scads.Server

open Scads.Data Scads.Comm

/-! # Restarting a server

A start reopens every partition that `partitionDb` records over the database of
its namespace, whatever its type was.
-/

namespace StorageHandler

variable {K V : Type} [LinearOrder K] {handler : StorageHandler K V}
  {zookeeper : String → Option NamespaceRoot}

/-- A stop followed by a start brings back exactly the partitions of the server. -/
def Restored (zookeeper : String → Option NamespaceRoot) (handler : StorageHandler K V) : Prop :=
  ∃ restarted, startup zookeeper handler.shutdown = .ok restarted ∧
    restarted.partitions = handler.partitions ∧
    ∀ ns entry, entry ∈ restarted.getOrCreateContextForNamespace ns ↔
      entry ∈ handler.getOrCreateContextForNamespace ns

theorem withReopened_context (entry : String × CreatePartitionRequest K) (ns : String) :
    (handler.withReopened entry).getOrCreateContextForNamespace ns =
      if ns = entry.2.ns then (entry.1, reopened entry.2) :: handler.getOrCreateContextForNamespace entry.2.ns
      else handler.getOrCreateContextForNamespace ns := by
  simp only [withReopened, makeDatabase, getOrCreateContextForNamespace, Function.update_apply]
  split <;> rfl

/-- What a start has opened after some of the recorded requests. -/
theorem foldlM_reopen (handler : StorageHandler K V) {entries : List (String × CreatePartitionRequest K)}
    (distinct : (entries.map Prod.fst).Nodup) (known : ∀ entry ∈ entries, (zookeeper entry.2.ns).isSome) :
    ∃ final, entries.foldlM (reopen zookeeper) handler = .ok final ∧
      (∀ entry ∈ entries, final.partitions entry.1 = some (reopened entry.2)) ∧
      (∀ partitionId, partitionId ∉ entries.map Prod.fst →
        final.partitions partitionId = handler.partitions partitionId) ∧
      ∀ ns found, found ∈ final.getOrCreateContextForNamespace ns ↔
        (∃ entry ∈ entries, entry.2.ns = ns ∧ found = (entry.1, reopened entry.2)) ∨
          found ∈ handler.getOrCreateContextForNamespace ns := by
  induction entries generalizing handler with
  | nil => exact ⟨handler, rfl, by simp, by simp, by simp⟩
  | cons entry rest ih =>
      rw [List.map_cons, List.nodup_cons] at distinct
      obtain ⟨root, found⟩ := Option.isSome_iff_exists.mp (known entry (by simp))
      obtain ⟨final, folded, listed, others, members⟩ :=
        ih (handler.withReopened entry) distinct.2 fun other member => known other (by simp [member])
      refine ⟨final, ?_, ?_, ?_, ?_⟩
      · rw [List.foldlM_cons]
        simp only [reopen, found, ok_bind]
        exact folded
      · intro other member
        rcases List.mem_cons.mp member with rfl | member
        · rw [others _ distinct.1]
          exact Function.update_self ..
        · exact listed other member
      · intro partitionId absent
        rw [List.map_cons, List.mem_cons, not_or] at absent
        rw [others _ absent.2]
        exact Function.update_of_ne absent.1 _ _
      · intro ns found
        rw [members, withReopened_context, List.exists_mem_cons_iff]
        split
        · rename_i same
          subst same
          rw [List.mem_cons, or_left_comm, ← or_assoc]
          simp only [true_and]
        · rename_i different
          simp [Ne.symm different]

theorem foldlM_reopen_unknown {entries : List (String × CreatePartitionRequest K)}
    {entry : String × CreatePartitionRequest K} (member : entry ∈ entries)
    (unknown : zookeeper entry.2.ns = none) (handler : StorageHandler K V) :
    ∃ failure, entries.foldlM (reopen zookeeper) handler = .error failure := by
  induction entries generalizing handler with
  | nil => cases member
  | cons first rest ih =>
      rw [List.foldlM_cons]
      cases found : zookeeper first.2.ns with
      | none => exact ⟨noSuchNamespace first.2.ns, by simp only [reopen, found, error_bind]⟩
      | some root =>
          have later : entry ∈ rest := by
            rcases List.mem_cons.mp member with rfl | later
            · simp [found] at unknown
            · exact later
          simp only [reopen, found, ok_bind]
          exact ih later _

omit [LinearOrder K] in
theorem partitionDb_distinct (partitionDb : Database String (CreatePartitionRequest K)) :
    (partitionDb.entries.map Prod.fst).Nodup :=
  List.pairwise_map.mpr (partitionDb.sorted.imp fun less => less.ne)

theorem Registered.recorded_entry (registered : handler.Registered)
    {entry : String × CreatePartitionRequest K} (member : entry ∈ handler.partitionDb.entries) :
    handler.partitions entry.1 = some entry.2.handler := by
  rw [registered.recorded, Database.get_eq_some.mpr member]
  rfl

theorem Registered.entry_of_opened (registered : handler.Registered) {partitionId : String}
    {partition : PartitionHandler K} (opened : handler.partitions partitionId = some partition) :
    ∃ request, (partitionId, request) ∈ handler.partitionDb.entries ∧ request.handler = partition := by
  rw [registered.recorded] at opened
  obtain ⟨request, found, same⟩ := Option.map_eq_some_iff.mp opened
  exact ⟨request, Database.get_eq_some.mp found, same⟩

omit [LinearOrder K] in
theorem reopened_eq_handler {request : CreatePartitionRequest K} (managed : request.handler.manager = .bdb) :
    reopened request = request.handler := by
  show reopened request = ⟨request.handler.manager, request.ns, request.startKey, request.endKey⟩
  rw [managed]
  rfl

/-- What a start opens where the recorded partitions are all kept in databases. -/
theorem Registered.restored (registered : handler.Registered)
    (kept : ∀ partitionId partition, handler.partitions partitionId = some partition →
      partition.manager = .bdb ∧ (zookeeper partition.ns).isSome) : handler.Restored zookeeper := by
  have recorded : ∀ entry ∈ handler.partitionDb.entries,
      reopened entry.2 = entry.2.handler ∧ (zookeeper entry.2.ns).isSome := by
    intro entry member
    obtain ⟨managed, known⟩ := kept _ _ (registered.recorded_entry member)
    exact ⟨reopened_eq_handler managed, known⟩
  obtain ⟨final, folded, listed, others, members⟩ := foldlM_reopen handler.shutdown
    (partitionDb_distinct handler.partitionDb) fun entry member => (recorded entry member).2
  refine ⟨final, folded, ?_, ?_⟩
  · funext partitionId
    by_cases member : partitionId ∈ handler.partitionDb.entries.map Prod.fst
    · obtain ⟨entry, among, rfl⟩ := List.mem_map.mp member
      rw [listed entry among, (recorded entry among).1, registered.recorded_entry among]
    · rw [others partitionId member]
      cases opened : handler.partitions partitionId with
      | none => rfl
      | some partition =>
          obtain ⟨request, among, _⟩ := registered.entry_of_opened opened
          exact absurd (List.mem_map_of_mem among) member
  · intro ns found
    rw [members]
    constructor
    · intro found
      obtain ⟨entry, among, home, rfl⟩ | closed := found
      · have member := registered.contained (registered.recorded_entry among)
        rw [(recorded entry among).1, ← home]
        exact member
      · cases closed
    · intro member
      obtain ⟨opened, home⟩ := registered.listed member
      obtain ⟨request, among, same⟩ := registered.entry_of_opened opened
      refine .inl ⟨_, among, ?_, ?_⟩
      · rw [← home, ← same]
        rfl
      · exact Prod.ext rfl ((recorded _ among).1.trans same).symm

/-- A server whose registries are in step is restored exactly if its partitions
are all kept in databases, of namespaces that ZooKeeper knows. -/
theorem Registered.restored_iff (registered : handler.Registered) :
    handler.Restored zookeeper ↔ ∀ partitionId partition,
      handler.partitions partitionId = some partition →
        partition.manager = .bdb ∧ (zookeeper partition.ns).isSome := by
  refine ⟨?_, registered.restored⟩
  intro found partitionId partition opened
  obtain ⟨restarted, started, partitions, _⟩ := found
  have known : ∀ entry ∈ handler.partitionDb.entries, (zookeeper entry.2.ns).isSome := by
    intro entry member
    cases found : zookeeper entry.2.ns with
    | some root => rfl
    | none =>
        obtain ⟨failure, failed⟩ := foldlM_reopen_unknown member found handler.shutdown
        rw [startup, show handler.shutdown.partitionDb = handler.partitionDb from rfl, failed] at started
        cases started
  obtain ⟨final, folded, listed, _⟩ := foldlM_reopen handler.shutdown
    (partitionDb_distinct handler.partitionDb) known
  cases folded.symm.trans started
  obtain ⟨request, among, same⟩ := registered.entry_of_opened opened
  have reopening := listed _ among
  rw [partitions, opened] at reopening
  cases reopening
  exact ⟨rfl, known _ among⟩

end StorageHandler

namespace StorageNode

variable {K V : Type} [LinearOrder K] {zookeeper : String → Option NamespaceRoot}

/-- After every run whose requests are all handled to their end, a restart brings
the server back exactly if it has no partition in memory. -/
theorem restart_restores_iff {requests : List (StorageRequest K)} {node : StorageNode K V}
    (ran : run step (empty : StorageNode K V) requests = some node)
    (safe : Along step (fun before request _ => before.handler.Safe request)
      (empty : StorageNode K V) requests) :
    node.handler.Restored zookeeper ↔ ∀ partitionId partition,
      node.handler.partitions partitionId = some partition →
        partition.manager = .bdb ∧ (zookeeper partition.ns).isSome := by
  have consistent : node.Consistent :=
    along_invariant (fun consistent taken safe => step_consistent consistent taken safe)
      consistent_empty safe ran
  exact consistent.registered.restored_iff

/-- Two partitions over one database. -/
def twoPartitions : List (StorageRequest Nat) :=
  [.createPartition (some ⟨"IntRec", true⟩) "test0000000000" ⟨"test", "bdb", none, some 5⟩,
    .createPartition (some ⟨"IntRec", true⟩) "test0000000001" ⟨"test", "bdb", some 5, none⟩]

theorem restart_restores_twoPartitions : ∃ node, run step (empty : StorageNode Nat Nat) twoPartitions = some node ∧
    node.handler.Restored fun _ => some ⟨"IntRec", true⟩ := by
  have ran : run step (empty : StorageNode Nat Nat) twoPartitions = some _ := rfl
  refine ⟨_, ran, (restart_restores_iff ran ⟨?_, ?_, trivial⟩).mpr ?_⟩
  · exact fun _ _ inMemory => absurd inMemory (by decide)
  · exact fun _ _ inMemory => absurd inMemory (by decide)
  · intro partitionId partition opened
    refine ⟨?_, rfl⟩
    by_cases second : partitionId = "test0000000001"
    · subst second
      cases opened
      rfl
    · by_cases first : partitionId = "test0000000000"
      · subst first
        cases opened
        rfl
      · have closed := opened.symm.trans ((Function.update_of_ne second _ _).trans
          (Function.update_of_ne first _ _))
        cases closed

/-- A partition in memory is created. -/
def inMemoryCreated : List (StorageRequest Nat) :=
  [.createPartition (some ⟨"IntRec", true⟩) "test0000000000" ⟨"test", "inmemory", none, none⟩]

theorem restart_changes_inMemoryCreated :
    ∃ node, run step (empty : StorageNode Nat Nat) inMemoryCreated = some node ∧
      ¬ node.handler.Restored fun _ => some ⟨"IntRec", true⟩ := by
  refine ⟨_, rfl, ?_⟩
  intro found
  obtain ⟨restarted, started, partitions, _⟩ := found
  cases started
  exact absurd (congrFun partitions "test0000000000") (by decide)

end StorageNode

end Scads.Server
