import Scads.Data.Runs
import Scads.Server.StorageHandler

namespace Scads.Server

open Scads.Data Scads.Comm Scads.Util

/-! # The registries of a server

The open partitions, the contexts of the namespaces and `partitionDb` list the
same partitions as long as no request stops between their updates.
-/

namespace CreatePartitionRequest

variable {K : Type}

/-- The handler that a request asks for. -/
def handler (request : CreatePartitionRequest K) : PartitionHandler K :=
  ⟨if request.partitionType = "inmemory" then .inMemory else .bdb, request.ns, request.startKey,
    request.endKey⟩

end CreatePartitionRequest

/-- A request as it reaches a server, with the node ZooKeeper creates for it and
the order in which a hash set is iterated. -/
inductive StorageRequest (K : Type) where
  | createPartition (root : Option NamespaceRoot) (partitionId : String)
      (request : CreatePartitionRequest K)
  | deletePartition (partitionId : String) (iteration : Iteration (String × PartitionHandler K))
  | deleteNamespace (ns : String)

namespace StorageHandler

variable {K V : Type} [LinearOrder K] {handler : StorageHandler K V} {partitionId ns : String}

def process (handler : StorageHandler K V) :
    StorageRequest K → StorageHandler K V × Except Failure StorageResponse
  | .createPartition root partitionId request => handler.createPartition root partitionId request
  | .deletePartition partitionId iteration => handler.deletePartition partitionId iteration
  | .deleteNamespace ns => handler.deleteNamespace ns

def InContext (handler : StorageHandler K V) (partitionId : String) : Prop :=
  ∃ ns ctx, handler.namespaces ns = some ctx ∧ partitionId ∈ ctx.map Prod.fst

/-- The three registries list the same partitions, each with the namespace and
the key range of its handler. -/
structure RegistriesAgree (handler : StorageHandler K V) : Prop where
  contexts : ∀ partitionId, (handler.partitions partitionId).isSome ↔ handler.InContext partitionId
  recorded : ∀ partitionId,
    (handler.partitions partitionId).isSome ↔ (handler.partitionDb.get partitionId).isSome
  ranges : ∀ partitionId partition request, handler.partitions partitionId = some partition →
    handler.partitionDb.get partitionId = some request →
      request.ns = partition.ns ∧ request.startKey = partition.startKey ∧
        request.endKey = partition.endKey

/-- What holds between the registries of a server that has kept them in step. -/
structure Registered (handler : StorageHandler K V) : Prop where
  recorded : ∀ partitionId,
    handler.partitions partitionId = (handler.partitionDb.get partitionId).map (·.handler)
  listed : ∀ {ns entry}, entry ∈ handler.getOrCreateContextForNamespace ns →
    handler.partitions entry.1 = some entry.2 ∧ entry.2.ns = ns
  contained : ∀ {partitionId partition}, handler.partitions partitionId = some partition →
    (partitionId, partition) ∈ handler.getOrCreateContextForNamespace partition.ns
  distinct : ∀ ns, (handler.getOrCreateContextForNamespace ns).Nodup
  stored : ∀ {partitionId partition}, handler.partitions partitionId = some partition →
    partition.manager = .bdb → (handler.databases partition.ns).isSome

theorem inContext_iff : handler.InContext partitionId ↔
    ∃ ns, partitionId ∈ (handler.getOrCreateContextForNamespace ns).map Prod.fst := by
  refine exists_congr fun ns => ?_
  unfold getOrCreateContextForNamespace
  cases handler.namespaces ns with
  | none => simp
  | some ctx => simp

theorem registered_empty : (empty : StorageHandler K V).Registered where
  recorded := by simp [empty]
  listed := by simp [empty, getOrCreateContextForNamespace]
  contained := by simp [empty]
  distinct := by simp [empty, getOrCreateContextForNamespace]
  stored := by simp [empty]

theorem Registered.agree (registered : handler.Registered) : handler.RegistriesAgree where
  contexts partitionId := by
    rw [inContext_iff]
    constructor
    · intro opened
      obtain ⟨partition, found⟩ := Option.isSome_iff_exists.mp opened
      exact ⟨partition.ns, List.mem_map_of_mem (registered.contained found)⟩
    · intro found
      obtain ⟨ns, member⟩ := found
      obtain ⟨entry, among, rfl⟩ := List.mem_map.mp member
      rw [(registered.listed among).1]
      rfl
  recorded partitionId := by
    rw [registered.recorded, Option.isSome_map]
  ranges partitionId partition request opened found := by
    rw [registered.recorded, found] at opened
    cases opened
    exact ⟨rfl, rfl, rfl⟩

/-- Two servers with the same partitions, contexts and records are registered alike. -/
theorem Registered.congr {other : StorageHandler K V} (registered : handler.Registered)
    (partitions : other.partitions = handler.partitions)
    (contexts : other.getOrCreateContextForNamespace = handler.getOrCreateContextForNamespace)
    (partitionDb : other.partitionDb = handler.partitionDb)
    (databases : ∀ ns, (handler.databases ns).isSome → (other.databases ns).isSome) :
    other.Registered where
  recorded := by rw [partitions, partitionDb]; exact registered.recorded
  listed := by rw [partitions, contexts]; exact registered.listed
  contained := by rw [partitions, contexts]; exact registered.contained
  distinct := by rw [contexts]; exact registered.distinct
  stored := by
    rw [partitions]
    exact fun opened managed => databases _ (registered.stored opened managed)

theorem withContext_contexts (handler : StorageHandler K V) (ns : String) :
    getOrCreateContextForNamespace { handler with
      namespaces := Function.update handler.namespaces ns
        (some (handler.getOrCreateContextForNamespace ns)) } =
      handler.getOrCreateContextForNamespace := by
  funext other
  simp only [getOrCreateContextForNamespace, Function.update_apply]
  split
  · rename_i same
    rw [same]
    rfl
  · rfl

theorem Registered.withContext (registered : handler.Registered) (ns : String) :
    Registered { handler with
      namespaces := Function.update handler.namespaces ns
        (some (handler.getOrCreateContextForNamespace ns)) } :=
  registered.congr rfl (withContext_contexts handler ns) rfl fun _ stored => stored

theorem makeDatabase_stored (handler : StorageHandler K V) (ns other : String) :
    ((handler.makeDatabase ns).databases other).isSome =
      (decide (other = ns) || (handler.databases other).isSome) := by
  simp only [makeDatabase, Function.update_apply]
  split
  · rename_i same
    simp [same]
  · rename_i different
    simp [different]

theorem Registered.makeDatabase (registered : handler.Registered) (ns : String) :
    (handler.makeDatabase ns).Registered :=
  registered.congr rfl rfl rfl fun other stored => by rw [makeDatabase_stored, stored, Bool.or_true]

/-- The server after a partition was recorded, opened and added to its context. -/
def withPartition (handler : StorageHandler K V) (partitionId : String)
    (request : CreatePartitionRequest K) : StorageHandler K V :=
  { handler with
    partitions := Function.update handler.partitions partitionId (some request.handler)
    namespaces := Function.update handler.namespaces request.ns
      (some ((partitionId, request.handler) :: handler.getOrCreateContextForNamespace request.ns))
    partitionDb := handler.partitionDb.put partitionId (some request) }

theorem withPartition_context (request : CreatePartitionRequest K) (ns : String) :
    (handler.withPartition partitionId request).getOrCreateContextForNamespace ns =
      if ns = request.ns then
        (partitionId, request.handler) :: handler.getOrCreateContextForNamespace request.ns
      else handler.getOrCreateContextForNamespace ns := by
  simp only [withPartition, getOrCreateContextForNamespace, Function.update_apply]
  split <;> rfl

theorem Registered.withPartition (registered : handler.Registered) {request : CreatePartitionRequest K}
    (fresh : handler.partitions partitionId = none)
    (opened : request.handler.manager = .bdb → (handler.databases request.ns).isSome) :
    (handler.withPartition partitionId request).Registered where
  recorded other := by
    simp only [StorageHandler.withPartition, Function.update_apply, Database.get_put]
    split
    · rfl
    · exact registered.recorded other
  listed := by
    intro ns entry member
    rw [withPartition_context] at member
    have earlier : ∀ {ns entry}, entry ∈ handler.getOrCreateContextForNamespace ns →
        Function.update handler.partitions partitionId (some request.handler) entry.1 = some entry.2 ∧
          entry.2.ns = ns := by
      intro ns entry member
      obtain ⟨found, home⟩ := registered.listed member
      have different : entry.1 ≠ partitionId := by
        intro same
        subst same
        simp [fresh] at found
      exact ⟨by rw [Function.update_of_ne different, found], home⟩
    split at member
    · rename_i same
      subst same
      rcases List.mem_cons.mp member with rfl | member
      · exact ⟨Function.update_self .., rfl⟩
      · exact earlier member
    · exact earlier member
  contained := by
    intro other partition found
    rw [withPartition_context]
    simp only [StorageHandler.withPartition, Function.update_apply] at found
    split at found
    · rename_i same
      cases found
      rw [if_pos (show request.handler.ns = request.ns from rfl), same]
      exact List.mem_cons_self
    · have member := registered.contained found
      split
      · rename_i same
        exact List.mem_cons_of_mem _ (same ▸ member)
      · exact member
  distinct := by
    intro ns
    rw [withPartition_context]
    split
    · refine List.nodup_cons.mpr ⟨fun member => ?_, registered.distinct _⟩
      have found := (registered.listed member).1
      simp [fresh] at found
    · exact registered.distinct ns
  stored := by
    intro other partition found managed
    simp only [StorageHandler.withPartition, Function.update_apply] at found
    split at found
    · cases found
      exact opened managed
    · exact registered.stored found managed

theorem register_fresh (registered : handler.Registered) (request : CreatePartitionRequest K)
    (fresh : handler.partitions partitionId = none) :
    (handler.logPartition partitionId request).register partitionId request.handler =
      (handler.withPartition partitionId request, .ok (.createPartitionResponse partitionId)) := by
  have absent : (partitionId, request.handler) ∉ handler.getOrCreateContextForNamespace request.ns := by
    intro member
    have found := (registered.listed member).1
    simp [fresh] at found
  have closed : ((handler.logPartition partitionId request).partitions partitionId).isSome = false := by
    rw [logPartition, fresh]
    rfl
  have unlisted : (partitionId, request.handler) ∉
      (handler.logPartition partitionId request).getOrCreateContextForNamespace request.handler.ns := absent
  rw [register]
  simp only [closed, Bool.false_eq_true, if_false, unlisted]
  rfl

omit [LinearOrder K] in
theorem closePartitions_apply (partitions : String → Option (PartitionHandler K))
    (ctx : NamespaceContext K) (partitionId : String) :
    closePartitions partitions ctx partitionId =
      if partitionId ∈ ctx.map Prod.fst then none else partitions partitionId := by
  induction ctx generalizing partitions with
  | nil => simp [closePartitions]
  | cons entry rest ih =>
      have step := ih (Function.update partitions entry.1 none)
      simp only [closePartitions, List.foldl_cons, Function.update_apply] at step ⊢
      rw [step, List.map_cons]
      by_cases same : partitionId = entry.1
      · simp [same]
      · simp only [List.mem_cons, same, false_or, if_false]

omit [LinearOrder K] in
theorem get_clearPartitions (partitionDb : Database String (CreatePartitionRequest K))
    (ctx : NamespaceContext K) (partitionId : String) :
    (clearPartitions partitionDb ctx).get partitionId =
      if partitionId ∈ ctx.map Prod.fst then none else partitionDb.get partitionId := by
  induction ctx generalizing partitionDb with
  | nil => simp [clearPartitions]
  | cons entry rest ih =>
      have step := ih (partitionDb.delete entry.1)
      simp only [clearPartitions, List.foldl_cons, Database.get_delete] at step ⊢
      rw [step, List.map_cons]
      by_cases same : partitionId = entry.1
      · simp [same]
      · simp only [List.mem_cons, same, false_or, if_false]

/-- The server after a partition was taken out of all registries. -/
def withoutPartition (handler : StorageHandler K V) (partitionId : String) (removed : PartitionHandler K)
    (left : Option (Database K V)) : StorageHandler K V where
  partitions := Function.update handler.partitions partitionId none
  namespaces := Function.update handler.namespaces removed.ns
    (some ((handler.getOrCreateContextForNamespace removed.ns).erase (partitionId, removed)))
  partitionDb := handler.partitionDb.delete partitionId
  databases := Function.update handler.databases removed.ns left

theorem withoutPartition_context (removed : PartitionHandler K) (left : Option (Database K V))
    (ns : String) :
    (handler.withoutPartition partitionId removed left).getOrCreateContextForNamespace ns =
      if ns = removed.ns then
        (handler.getOrCreateContextForNamespace removed.ns).erase (partitionId, removed)
      else handler.getOrCreateContextForNamespace ns := by
  simp only [withoutPartition, getOrCreateContextForNamespace, Function.update_apply]
  split <;> rfl

theorem Registered.withoutPartition (registered : handler.Registered) {removed : PartitionHandler K}
    {left : Option (Database K V)} (opened : handler.partitions partitionId = some removed)
    (shared : (handler.getOrCreateContextForNamespace removed.ns).erase (partitionId, removed) ≠ [] →
      left.isSome) :
    (handler.withoutPartition partitionId removed left).Registered := by
  have others : ∀ {ns entry},
      entry ∈ (handler.withoutPartition partitionId removed left).getOrCreateContextForNamespace ns ↔
        entry ∈ handler.getOrCreateContextForNamespace ns ∧ entry.1 ≠ partitionId := by
    intro ns entry
    rw [withoutPartition_context]
    split
    · rename_i same
      subst same
      rw [(registered.distinct _).mem_erase_iff, and_comm]
      refine and_congr_right fun member => not_congr ⟨fun same => by rw [same], fun same => ?_⟩
      have found := (registered.listed member).1
      rw [same, opened] at found
      exact Prod.ext same (Option.some.inj found).symm
    · rename_i different
      refine ⟨fun member => ⟨member, ?_⟩, fun member => member.1⟩
      intro same
      subst same
      obtain ⟨found, home⟩ := registered.listed member
      rw [opened] at found
      cases found
      exact different home.symm
  constructor
  case recorded =>
    intro other
    simp only [StorageHandler.withoutPartition, Function.update_apply, Database.get_delete]
    split
    · rfl
    · exact registered.recorded other
  case listed =>
    intro ns entry member
    obtain ⟨member, different⟩ := others.mp member
    refine ⟨?_, (registered.listed member).2⟩
    exact (Function.update_of_ne different _ _).trans (registered.listed member).1
  case contained =>
    intro other partition found
    simp only [StorageHandler.withoutPartition, Function.update_apply] at found
    split at found
    · cases found
    · rename_i different
      exact others.mpr ⟨registered.contained found, different⟩
  case distinct =>
    intro ns
    rw [withoutPartition_context]
    split
    · exact (registered.distinct _).erase _
    · exact registered.distinct ns
  case stored =>
    intro other partition found managed
    simp only [StorageHandler.withoutPartition, Function.update_apply] at found ⊢
    split at found
    · cases found
    · rename_i different
      split
      · rename_i home
        refine shared (List.ne_nil_of_mem (a := (other, partition)) ?_)
        have member := others.mpr ⟨registered.contained found, different⟩
        rwa [withoutPartition_context, if_pos home] at member
      · exact registered.stored found managed

/-- The server after a namespace was taken out of all registries. -/
def withoutNamespace (handler : StorageHandler K V) (ns : String) : StorageHandler K V where
  partitions := closePartitions handler.partitions (handler.getOrCreateContextForNamespace ns)
  namespaces := Function.update handler.namespaces ns none
  partitionDb := clearPartitions handler.partitionDb (handler.getOrCreateContextForNamespace ns)
  databases := Function.update handler.databases ns none

theorem Registered.withoutNamespace (registered : handler.Registered) (ns : String) :
    (handler.withoutNamespace ns).Registered := by
  have context : ∀ other, (handler.withoutNamespace ns).getOrCreateContextForNamespace other =
      if other = ns then [] else handler.getOrCreateContextForNamespace other := by
    intro other
    simp only [StorageHandler.withoutNamespace, getOrCreateContextForNamespace, Function.update_apply]
    split <;> rfl
  have kept : ∀ {other partition}, (handler.withoutNamespace ns).partitions other = some partition ↔
      handler.partitions other = some partition ∧ partition.ns ≠ ns := by
    intro other partition
    simp only [StorageHandler.withoutNamespace, closePartitions_apply]
    split
    · rename_i member
      obtain ⟨entry, among, rfl⟩ := List.mem_map.mp member
      obtain ⟨found, home⟩ := registered.listed among
      rw [found]
      refine ⟨nofun, fun kept => ?_⟩
      cases kept.1
      exact absurd home kept.2
    · rename_i absent
      refine ⟨fun found => ⟨found, ?_⟩, fun found => found.1⟩
      intro same
      subst same
      exact absent (List.mem_map_of_mem (registered.contained found))
  constructor
  case recorded =>
    intro other
    simp only [StorageHandler.withoutNamespace, closePartitions_apply, get_clearPartitions]
    split
    · rfl
    · exact registered.recorded other
  case listed =>
    intro other entry member
    rw [context] at member
    split at member
    · cases member
    · rename_i different
      obtain ⟨found, home⟩ := registered.listed member
      exact ⟨kept.mpr ⟨found, by rwa [home]⟩, home⟩
  case contained =>
    intro other partition found
    obtain ⟨found, different⟩ := kept.mp found
    rw [context, if_neg different]
    exact registered.contained found
  case distinct =>
    intro other
    rw [context]
    split
    · exact .nil
    · exact registered.distinct other
  case stored =>
    intro other partition found managed
    obtain ⟨found, different⟩ := kept.mp found
    simp only [StorageHandler.withoutNamespace, Function.update_of_ne different]
    exact registered.stored found managed

/-- What a request finds where the server handles it to its end. -/
def Safe (handler : StorageHandler K V) : StorageRequest K → Prop
  | .createPartition root _ request =>
      ∀ given ∈ root, request.partitionType = "inmemory" → given.loadable
  | .deletePartition partitionId _ =>
      ∀ removed ∈ handler.partitions partitionId, removed.manager = .bdb ∧
        ((handler.getOrCreateContextForNamespace removed.ns).erase (partitionId, removed) = [] ∨
          PartitionHandler.AllProper (handler.getOrCreateContextForNamespace removed.ns))
  | .deleteNamespace ns =>
      handler.getOrCreateContextForNamespace ns = [] ∨ (handler.databases ns).isSome

/-- ZooKeeper does not give a name away twice. -/
def Fresh (handler : StorageHandler K V) : StorageRequest K → Prop
  | .createPartition _ partitionId _ => handler.partitions partitionId = none
  | _ => True

theorem createPartition_registered (registered : handler.Registered) {root : Option NamespaceRoot}
    {request : CreatePartitionRequest K} (fresh : handler.partitions partitionId = none)
    (safe : handler.Safe (.createPartition root partitionId request)) :
    (handler.createPartition root partitionId request).1.Registered := by
  cases root with
  | none => exact registered
  | some root =>
      have context := registered.withContext request.ns
      rw [createPartition]
      split
      · rename_i inMemory
        have handled : request.handler = ⟨.inMemory, request.ns, request.startKey, request.endKey⟩ := by
          simp [CreatePartitionRequest.handler, inMemory]
        rw [if_pos (safe root rfl inMemory), ← handled, register_fresh context request fresh]
        exact context.withPartition fresh fun managed => by simp [handled] at managed
      · rename_i persistent
        split
        · have handled : request.handler = ⟨.bdb, request.ns, request.startKey, request.endKey⟩ := by
            simp [CreatePartitionRequest.handler, persistent]
          have made := context.makeDatabase request.ns
          rw [← handled, register_fresh made request fresh]
          refine made.withPartition fresh fun _ => ?_
          rw [makeDatabase_stored]
          simp
        · exact context

theorem createPartition_disagree {root : Option NamespaceRoot}
    {request : CreatePartitionRequest K} (fresh : handler.partitions partitionId = none)
    (fails : ¬ handler.Safe (.createPartition root partitionId request)) :
    ¬ (handler.createPartition root partitionId request).1.RegistriesAgree := by
  simp only [Safe, not_forall] at fails
  obtain ⟨given, known, inMemory, missing⟩ := fails
  cases known
  have result : (handler.createPartition (some given) partitionId request).1 =
      ({ handler with
        namespaces := Function.update handler.namespaces request.ns
          (some (handler.getOrCreateContextForNamespace request.ns)) } : StorageHandler K V).logPartition
          partitionId request := by
    simp [createPartition, inMemory, missing]
  intro agree
  have recorded := (agree.recorded partitionId).mpr
  rw [result] at recorded
  simp [logPartition, Database.get_put, fresh] at recorded

theorem context_of_mem {entry : String × PartitionHandler K}
    (member : entry ∈ handler.getOrCreateContextForNamespace ns) :
    handler.namespaces ns = some (handler.getOrCreateContextForNamespace ns) := by
  unfold getOrCreateContextForNamespace at member ⊢
  cases context : handler.namespaces ns with
  | none => simp [context] at member
  | some ctx => rfl

section

variable {removed : PartitionHandler K} {iteration : Iteration (String × PartitionHandler K)}

/-- A deletion that reaches the end of its transaction. -/
theorem deletePartition_withoutPartition (registered : handler.Registered)
    (opened : handler.partitions partitionId = some removed)
    (safe : handler.Safe (.deletePartition partitionId iteration)) :
    ∃ left, handler.deletePartition partitionId iteration =
        (handler.withoutPartition partitionId removed left, .ok .deletePartitionResponse) ∧
      ((handler.getOrCreateContextForNamespace removed.ns).erase (partitionId, removed) ≠ [] →
        left.isSome) := by
  obtain ⟨managed, rest⟩ := safe removed opened
  have listed := registered.contained opened
  obtain ⟨database, stored⟩ := Option.isSome_iff_exists.mp (registered.stored opened managed)
  by_cases last : (handler.getOrCreateContextForNamespace removed.ns).erase (partitionId, removed) = []
  · refine ⟨none, ?_, fun others => absurd last others⟩
    exact deletePartition_registered opened managed (context_of_mem listed) listed stored
      (by simp [databaseWithout, last])
  · have proper := rest.resolve_left last
    obtain ⟨left, collected, _⟩ := databaseWithout_rest last (proper _ listed managed)
      (fun that member => proper that (List.mem_of_mem_erase member)) database iteration
    refine ⟨some left, ?_, fun _ => rfl⟩
    exact deletePartition_registered opened managed (context_of_mem listed) listed stored collected

theorem deletePartition_safe (registered : handler.Registered)
    (safe : handler.Safe (.deletePartition partitionId iteration)) :
    (handler.deletePartition partitionId iteration).1.Registered := by
  cases opened : handler.partitions partitionId with
  | none => simpa [deletePartition, opened] using registered
  | some removed =>
      obtain ⟨left, deleted, shared⟩ := deletePartition_withoutPartition registered opened safe
      rw [deleted]
      exact registered.withoutPartition opened shared

/-- A deletion that stops leaves the partition in one of the registries. -/
theorem deletePartition_disagree (registered : handler.Registered)
    (fails : ¬ handler.Safe (.deletePartition partitionId iteration)) :
    ¬ (handler.deletePartition partitionId iteration).1.RegistriesAgree := by
  simp only [Safe, not_forall] at fails
  obtain ⟨removed, opened, fails⟩ := fails
  rw [Option.mem_def] at opened
  have listed := registered.contained opened
  have context := context_of_mem listed
  have known : (handler.partitionDb.get partitionId).isSome := by
    have recorded := registered.recorded partitionId
    rw [opened] at recorded
    simpa using congrArg Option.isSome recorded.symm
  intro agree
  have recorded := (agree.recorded partitionId).mpr
  cases managed : removed.manager with
  | inMemory =>
      simp only [deletePartition, opened, managed, Function.update_self] at recorded
      simpa using recorded known
  | bdb =>
      simp only [managed, true_and, not_or] at fails
      obtain ⟨database, stored⟩ := Option.isSome_iff_exists.mp (registered.stored opened managed)
      have improper : ¬ (removed.span.Proper ∧ PartitionHandler.AllProper
          ((handler.getOrCreateContextForNamespace removed.ns).erase (partitionId, removed))) := by
        refine fun proper => fails.2 fun that member kind => ?_
        by_cases own : that = (partitionId, removed)
        · rw [own]
          exact proper.1
        · exact proper.2 that ((List.mem_erase_of_ne own).mpr member) kind
      obtain ⟨failure, failed⟩ := databaseWithout_improper fails.1 improper database iteration
      rw [deletePartition_failed opened managed context listed stored failed] at recorded
      simpa using recorded known

theorem deleteNamespace_safe (registered : handler.Registered)
    (safe : handler.Safe (.deleteNamespace ns)) : (handler.deleteNamespace ns).1.Registered := by
  cases context : handler.namespaces ns with
  | none => simpa [deleteNamespace, context] using registered
  | some ctx =>
      have current : handler.getOrCreateContextForNamespace ns = ctx := by
        simp [getOrCreateContextForNamespace, context]
      cases stored : handler.databases ns with
      | some database =>
          have result : (handler.deleteNamespace ns).1 = handler.withoutNamespace ns := by
            simp [deleteNamespace, context, stored, withoutNamespace, current]
          rw [result]
          exact registered.withoutNamespace ns
      | none =>
          have vacant : ctx = [] := by simpa [Safe, current, stored] using safe
          subst vacant
          refine registered.congr ?_ ?_ ?_ ?_
          · simp [deleteNamespace, context, stored, closePartitions]
          · funext other
            simp only [deleteNamespace, context, stored, getOrCreateContextForNamespace,
              Function.update_apply]
            split
            · rename_i same
              simp [same, context]
            · rfl
          · simp [deleteNamespace, context, stored]
          · intro other found
            simpa [deleteNamespace, context, stored] using found

theorem deleteNamespace_disagree (registered : handler.Registered)
    (fails : ¬ handler.Safe (.deleteNamespace ns)) :
    ¬ (handler.deleteNamespace ns).1.RegistriesAgree := by
  simp only [Safe, not_or] at fails
  obtain ⟨occupied, missing⟩ := fails
  obtain ⟨entry, member⟩ := List.exists_mem_of_ne_nil _ occupied
  have context := context_of_mem member
  have stored : handler.databases ns = none := by simpa using missing
  intro agree
  have recorded := (agree.recorded entry.1).mpr
  have known : (handler.partitionDb.get entry.1).isSome := by
    have recorded := registered.recorded entry.1
    rw [(registered.listed member).1] at recorded
    simpa using congrArg Option.isSome recorded.symm
  simp only [deleteNamespace, context, stored, closePartitions_apply] at recorded
  rw [if_pos (List.mem_map_of_mem member)] at recorded
  simpa using recorded known

end

theorem process_safe (registered : handler.Registered) {request : StorageRequest K}
    (fresh : handler.Fresh request) (safe : handler.Safe request) :
    (handler.process request).1.Registered := by
  cases request with
  | createPartition root partitionId request => exact createPartition_registered registered fresh safe
  | deletePartition partitionId iteration => exact deletePartition_safe registered safe
  | deleteNamespace ns => exact deleteNamespace_safe registered safe

theorem process_disagree (registered : handler.Registered) {request : StorageRequest K}
    (fresh : handler.Fresh request) (fails : ¬ handler.Safe request) :
    ¬ (handler.process request).1.RegistriesAgree := by
  cases request with
  | createPartition root partitionId request => exact createPartition_disagree fresh fails
  | deletePartition partitionId iteration => exact deletePartition_disagree registered fails
  | deleteNamespace ns => exact deleteNamespace_disagree registered fails

theorem createPartition_opened {root : Option NamespaceRoot} {request : CreatePartitionRequest K}
    {other : String} (different : other ≠ partitionId) :
    (handler.createPartition root partitionId request).1.partitions other = handler.partitions other := by
  have registering : ∀ (handler : StorageHandler K V) (partition : PartitionHandler K),
      (handler.register partitionId partition).1.partitions other = handler.partitions other := by
    intro handler partition
    simp only [register]
    split
    · exact Function.update_of_ne different _ _
    · split
      · exact Function.update_of_ne different _ _
      · exact Function.update_of_ne different _ _
  cases root with
  | none => rfl
  | some root =>
      rw [createPartition]
      split
      · split
        · exact registering _ _
        · rfl
      · split
        · exact registering _ _
        · rfl

theorem deletePartition_partitions (iteration : Iteration (String × PartitionHandler K)) :
    (handler.deletePartition partitionId iteration).1.partitions =
      Function.update handler.partitions partitionId none := by
  unfold deletePartition
  split
  · rename_i closed
    exact (Function.update_eq_self_iff.mpr closed.symm).symm
  · split
    · rfl
    · dsimp only
      split
      · rfl
      · split
        · split
          · rfl
          · split <;> rfl
        · rfl

theorem deleteNamespace_opened {other : String}
    (opened : ((handler.deleteNamespace ns).1.partitions other).isSome) :
    (handler.partitions other).isSome := by
  have closed : ∀ ctx : NamespaceContext K, (closePartitions handler.partitions ctx other).isSome →
      (handler.partitions other).isSome := by
    intro ctx found
    rw [closePartitions_apply] at found
    split at found
    · cases found
    · exact found
  unfold deleteNamespace at opened
  split at opened
  · exact opened
  · dsimp only at opened
    split at opened
    · exact closed _ opened
    · exact closed _ opened

end StorageHandler

/-- A server together with the names ZooKeeper has given to its partitions. -/
structure StorageNode (K V : Type) [LinearOrder K] where
  handler : StorageHandler K V
  issued : List String

namespace StorageNode

variable {K V : Type} [LinearOrder K] {before after : StorageNode K V} {request : StorageRequest K}

def empty : StorageNode K V := ⟨.empty, []⟩

/-- The name of a new partition is one that was not given before. -/
def step (node : StorageNode K V) (request : StorageRequest K) : Option (StorageNode K V) :=
  match request with
  | .createPartition _ partitionId _ =>
      if partitionId ∈ node.issued then none
      else some ⟨(node.handler.process request).1, partitionId :: node.issued⟩
  | _ => some ⟨(node.handler.process request).1, node.issued⟩

/-- The registries are in step, and every open partition has a name of ZooKeeper's. -/
structure Consistent (node : StorageNode K V) : Prop where
  registered : node.handler.Registered
  named : ∀ partitionId, (node.handler.partitions partitionId).isSome → partitionId ∈ node.issued

theorem consistent_empty : (empty : StorageNode K V).Consistent :=
  ⟨StorageHandler.registered_empty, by simp [empty, StorageHandler.empty]⟩

theorem step_handler (taken : before.step request = some after) :
    after.handler = (before.handler.process request).1 := by
  cases request with
  | createPartition root partitionId request =>
      simp only [step] at taken
      split at taken
      · cases taken
      · cases taken
        rfl
  | deletePartition partitionId iteration => cases taken; rfl
  | deleteNamespace ns => cases taken; rfl

theorem step_fresh (consistent : before.Consistent) (taken : before.step request = some after) :
    before.handler.Fresh request := by
  cases request with
  | createPartition root partitionId request =>
      simp only [step] at taken
      split at taken
      · cases taken
      · rename_i unused
        have closed := mt (consistent.named partitionId) unused
        simpa [StorageHandler.Fresh] using closed
  | deletePartition partitionId iteration => trivial
  | deleteNamespace ns => trivial

theorem step_named (consistent : before.Consistent) (taken : before.step request = some after)
    (partitionId : String) (opened : (after.handler.partitions partitionId).isSome) :
    partitionId ∈ after.issued := by
  rw [step_handler taken] at opened
  cases request with
  | createPartition root other request =>
      simp only [step] at taken
      split at taken
      · cases taken
      · cases taken
        by_cases same : partitionId = other
        · exact same ▸ List.mem_cons_self
        · rw [StorageHandler.process, StorageHandler.createPartition_opened same] at opened
          exact List.mem_cons_of_mem _ (consistent.named partitionId opened)
  | deletePartition other iteration =>
      cases taken
      rw [StorageHandler.process, StorageHandler.deletePartition_partitions, Function.update_apply] at opened
      split at opened
      · cases opened
      · exact consistent.named partitionId opened
  | deleteNamespace ns =>
      cases taken
      exact consistent.named partitionId (StorageHandler.deleteNamespace_opened opened)

theorem step_consistent (consistent : before.Consistent) (taken : before.step request = some after)
    (safe : before.handler.Safe request) : after.Consistent where
  registered := by
    rw [step_handler taken]
    exact StorageHandler.process_safe consistent.registered (step_fresh consistent taken) safe
  named := step_named consistent taken

theorem step_agree_iff (consistent : before.Consistent) (taken : before.step request = some after) :
    after.handler.RegistriesAgree ↔ before.handler.Safe request := by
  constructor
  · intro agree
    by_contra fails
    rw [step_handler taken] at agree
    exact StorageHandler.process_disagree consistent.registered (step_fresh consistent taken) fails agree
  · intro safe
    exact (step_consistent consistent taken safe).registered.agree

/-- The registries agree after every request exactly as long as every request
finds what lets the server handle it to its end. -/
theorem registries_agree_iff (requests : List (StorageRequest K)) :
    Along step (fun _ _ after => after.handler.RegistriesAgree) (empty : StorageNode K V) requests ↔
      Along step (fun before request _ => before.handler.Safe request) (empty : StorageNode K V) requests :=
  along_iff (fun consistent taken => step_agree_iff consistent taken)
    (fun consistent taken safe => step_consistent consistent taken safe) consistent_empty

/-- A partition in memory is created and deleted. -/
def inMemoryDeleted : List (StorageRequest Nat) :=
  [.createPartition (some ⟨"IntRec", true⟩) "test0000000000" ⟨"test", "inmemory", none, none⟩,
    .deletePartition "test0000000000" (.inserted _)]

theorem registries_disagree_inMemoryDeleted :
    ¬ Along step (fun _ _ after => after.handler.RegistriesAgree) (empty : StorageNode Nat Nat)
      inMemoryDeleted := by
  intro agree
  have recorded := agree.2.1.recorded "test0000000000"
  exact absurd (recorded.mpr (by decide)) (by decide)

end StorageNode

end Scads.Server
