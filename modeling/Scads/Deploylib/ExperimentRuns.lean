import Mathlib.Data.List.Induction
import Mathlib.Data.List.Nodup
import Scads.Deploylib.ServiceScheduler

namespace Scads.Deploylib

open Scads.Data

/-! # Runs of the experiment scheduler

The launched tasks are those of the experiments that are wholly scheduled and of the one
at the head of the queue, in the order in which their processes were submitted.
-/

namespace ExperimentScheduler

variable {JvmTask : Type} (taskDescription : JvmTask → String)

def DriverCall.tasks : DriverCall JvmTask → List (TaskDescription JvmTask)
  | .launchTasks _ tasks => tasks
  | .killTask _ => []

def launchedTasks (sent : List (DriverCall JvmTask)) : List (TaskDescription JvmTask) :=
  sent.flatMap DriverCall.tasks

/-- The ids of tasks, the last one first. -/
def idsOf (tasks : List (TaskDescription JvmTask)) : List TaskID := (tasks.map TaskDescription.taskId).reverse

def idAt (position : Nat) : TaskID := ⟨int32 position⟩

theorem idAt_injective {one two : Nat} (oneSmall : one < 2 ^ 32) (twoSmall : two < 2 ^ 32)
    (same : idAt one = idAt two) : one = two := by
  rw [idAt, idAt, TaskID.mk.injEq, int32, int32, Int.bmod_def, Int.bmod_def] at same
  split at same <;> split at same <;> omega

theorem idAt_wraps : idAt (2 ^ 32) = idAt 0 := by
  have values : int32 ((2 ^ 32 : Nat) : Int) = int32 ((0 : Nat) : Int) := by
    rw [int32, int32, Int.bmod_def, Int.bmod_def]
    omega
  rw [idAt, idAt, values]

/-- The experiments that are waited for, when the first has begun with these processes. -/
def resume (begun : List JvmTask) : List (List JvmTask) → List (List JvmTask)
  | [] => []
  | head :: rest => (begun ++ head) :: rest

/-- How the tasks that were launched come from the experiments that were submitted. -/
structure Keeps (submitted waiting : List (List JvmTask)) (scheduler : ExperimentScheduler JvmTask)
    (complete : List (List (TaskDescription JvmTask))) (current : List (TaskDescription JvmTask)) : Prop where
  launched : launchedTasks scheduler.sent = complete.flatten ++ current
  taskId : scheduler.taskId = int32 (launchedTasks scheduler.sent).length
  ids : (launchedTasks scheduler.sent).map TaskDescription.taskId =
    (List.range (launchedTasks scheduler.sent).length).map idAt
  taskIds : scheduler.taskIds = idsOf current
  awaiting : scheduler.awaitingSiblings = (current.map TaskDescription.data).reverse
  submitted : submitted =
    complete.map (List.map TaskDescription.data) ++ resume (current.map TaskDescription.data) waiting
  idle : waiting = [] → current = []

/-- The call launches one task on the resources of the offer. -/
def Uses (offer : Offer) (call : DriverCall JvmTask) : Prop :=
  ∃ task, call = .launchTasks offer.id [task] ∧ task.slaveId = offer.slaveId ∧ task.resources = offer.resources

/-- The call uses the offer or rejects it. -/
def Answers (offer : Offer) (call : DriverCall JvmTask) : Prop :=
  call = .launchTasks offer.id [] ∨ Uses offer call

section

variable {submitted rest : List (List JvmTask)} {scheduler : ExperimentScheduler JvmTask}
  {complete : List (List (TaskDescription JvmTask))} {current : List (TaskDescription JvmTask)}
  {proc : JvmTask} {more head : List JvmTask}

theorem int32_succ (value : Int) : int32 (int32 value + 1) = int32 (value + 1) := by
  rw [int32, int32, int32, Int.bmod_add_bmod]

theorem Keeps.launch (keeps : Keeps submitted ((proc :: more) :: rest) scheduler complete current) (offer : Offer) :
    Keeps submitted (more :: rest) (launch taskDescription scheduler proc offer) complete
      (current ++ [taskFor taskDescription scheduler proc offer]) := by
  have tasks : launchedTasks (ExperimentScheduler.launch taskDescription scheduler proc offer).sent =
      launchedTasks scheduler.sent ++ [taskFor taskDescription scheduler proc offer] := by
    simp [ExperimentScheduler.launch, launchedTasks, DriverCall.tasks]
  constructor
  case launched => rw [tasks, keeps.launched, List.append_assoc]
  case taskId =>
    rw [tasks, List.length_append, List.length_singleton]
    change int32 (scheduler.taskId + 1) = _
    rw [keeps.taskId, int32_succ]
    norm_cast
  case ids =>
    rw [tasks, List.map_append, keeps.ids, List.length_append, List.length_singleton, List.range_succ,
      List.map_append]
    have first : (taskFor taskDescription scheduler proc offer).taskId =
        idAt (launchedTasks scheduler.sent).length := congrArg TaskID.mk keeps.taskId
    simp [first]
  case taskIds =>
    change ⟨scheduler.taskId⟩ :: scheduler.taskIds = _
    rw [keeps.taskIds, idsOf, idsOf, List.map_append, List.reverse_append]
    rfl
  case awaiting =>
    change proc :: scheduler.awaitingSiblings = _
    rw [keeps.awaiting, List.map_append, List.reverse_append]
    rfl
  case submitted =>
    rw [keeps.submitted]
    simp [resume, taskFor]
  case idle => nofun

theorem Keeps.launchAll {pairs : List (JvmTask × Offer)}
    (keeps : Keeps submitted ((pairs.map Prod.fst ++ more) :: rest) scheduler complete current) :
    ∃ added,
      Keeps submitted (more :: rest) (launchAll taskDescription scheduler pairs) complete (current ++ added) := by
  induction pairs generalizing scheduler current with
  | nil => exact ⟨[], by simpa [ExperimentScheduler.launchAll] using keeps⟩
  | cons pair others ih =>
      obtain ⟨proc, offer⟩ := pair
      obtain ⟨added, kept⟩ := ih (keeps.launch taskDescription offer)
      refine ⟨taskFor taskDescription scheduler proc offer :: added, ?_⟩
      rw [List.append_assoc] at kept
      exact kept

theorem launchAll_sent (scheduler : ExperimentScheduler JvmTask) (pairs : List (JvmTask × Offer)) :
    ∃ calls, (launchAll taskDescription scheduler pairs).sent = scheduler.sent ++ calls ∧
      List.Forall₂ Uses (pairs.map Prod.snd) calls := by
  induction pairs generalizing scheduler with
  | nil => exact ⟨[], (List.append_nil _).symm, .nil⟩
  | cons pair others ih =>
      obtain ⟨proc, offer⟩ := pair
      obtain ⟨calls, sent, answers⟩ := ih (launch taskDescription scheduler proc offer)
      refine ⟨.launchTasks offer.id [taskFor taskDescription scheduler proc offer] :: calls, ?_,
        .cons ⟨_, rfl, rfl, rfl⟩ answers⟩
      rw [launchAll, sent]
      simp [launch]

theorem launchAll_entries (scheduler : ExperimentScheduler JvmTask) (pairs : List (JvmTask × Offer)) :
    (launchAll taskDescription scheduler pairs).scheduledExperiments = scheduler.scheduledExperiments := by
  induction pairs generalizing scheduler with
  | nil => rfl
  | cons pair others ih => exact ih _

/-- Which experiments a round has completed, and what it has left. -/
theorem Keeps.scheduleHead (keeps : Keeps submitted (head :: rest) scheduler complete current) (offers : List Offer) :
    ∃ added left, Keeps submitted (scheduleHead taskDescription scheduler head rest offers).1.outstandingExperiments
        (scheduleHead taskDescription scheduler head rest offers).1 (complete ++ added) left ∧
      (scheduleHead taskDescription scheduler head rest offers).1.scheduledExperiments =
        (added.map idsOf).reverse ++ scheduler.scheduledExperiments := by
  have taken : ((head.take offers.length).zip offers).map Prod.fst = head.take offers.length := by
    rw [List.map_fst_zip]
    rw [List.length_take]
    omega
  have split : head = ((head.take offers.length).zip offers).map Prod.fst ++ head.drop offers.length := by
    rw [taken, List.take_append_drop]
  have dropped : head.drop (head.take offers.length).length = head.drop offers.length := by
    rw [List.length_take]
    by_cases short : head.length ≤ offers.length
    · rw [Nat.min_eq_right short, List.drop_length, List.drop_eq_nil_of_le short]
    · rw [Nat.min_eq_left (by omega)]
  have before := keeps
  rw [split] at before
  obtain ⟨more, after⟩ := before.launchAll taskDescription
  have entries := launchAll_entries taskDescription scheduler ((head.take offers.length).zip offers)
  simp only [ExperimentScheduler.scheduleHead, dropped]
  by_cases finished : (head.drop offers.length).isEmpty = true
  · rw [if_pos finished]
    rw [List.isEmpty_iff] at finished
    rw [finished] at after
    refine ⟨[current ++ more], [], ?_, ?_⟩
    · constructor
      case launched => simpa using after.launched
      case taskId => exact after.taskId
      case ids => exact after.ids
      case taskIds => rfl
      case awaiting => rfl
      case submitted =>
        rw [after.submitted]
        cases rest <;> simp [resume]
      case idle => exact fun _ => rfl
    · simp only [after.taskIds, entries, List.map_cons, List.map_nil, List.reverse_singleton, List.singleton_append]
  · rw [if_neg finished]
    refine ⟨[], current ++ more, ?_, by simpa using entries⟩
    rw [List.append_nil]
    have idle : head.drop offers.length :: rest = [] → current ++ more = [] := fun none =>
      absurd none (List.cons_ne_nil _ _)
    exact ⟨after.launched, after.taskId, after.ids, after.taskIds, after.awaiting, after.submitted, idle⟩

theorem scheduleHead_sent (scheduler : ExperimentScheduler JvmTask) (head : List JvmTask)
    (rest : List (List JvmTask)) (offers : List Offer) :
    ∃ used calls, offers = used ++ (scheduleHead taskDescription scheduler head rest offers).2 ∧
      (scheduleHead taskDescription scheduler head rest offers).1.sent = scheduler.sent ++ calls ∧
      List.Forall₂ Uses used calls := by
  obtain ⟨calls, sent, uses⟩ :=
    launchAll_sent taskDescription scheduler ((head.take offers.length).zip offers)
  have used : ((head.take offers.length).zip offers).map Prod.snd = offers.take (head.take offers.length).length := by
    rw [List.zip_eq_zip_take_min, List.map_snd_zip]
    · congr 1
      rw [List.length_take]
      omega
    · simp
  refine ⟨_, calls, ?_, ?_, uses⟩
  · rw [used, scheduleHead]
    split <;> exact (List.take_append_drop _ _).symm
  · rw [scheduleHead]
    split <;> exact sent

theorem Keeps.scheduleLoop (keeps : Keeps submitted scheduler.outstandingExperiments scheduler complete current)
    (offers : List Offer) :
    ∃ added left, Keeps submitted (scheduleLoop taskDescription scheduler offers).1.outstandingExperiments
        (scheduleLoop taskDescription scheduler offers).1 (complete ++ added) left ∧
      (scheduleLoop taskDescription scheduler offers).1.scheduledExperiments =
        (added.map idsOf).reverse ++ scheduler.scheduledExperiments := by
  revert complete current
  fun_induction ExperimentScheduler.scheduleLoop taskDescription scheduler offers with
  | case1 scheduler head rest offer offers queue next =>
      rename_i ih
      intro complete current keeps
      rw [queue] at keeps
      obtain ⟨first, left, kept, entries⟩ := keeps.scheduleHead taskDescription (offer :: offers)
      obtain ⟨later, last, final, more⟩ := ih kept
      refine ⟨first ++ later, last, by rwa [← List.append_assoc], ?_⟩
      have entered : next.1.scheduledExperiments = (first.map idsOf).reverse ++ scheduler.scheduledExperiments :=
        entries
      rw [more, entered]
      simp
  | case2 scheduler offers stop =>
      intro complete current keeps
      exact ⟨[], current, by simpa using keeps, rfl⟩

theorem scheduleLoop_sent (scheduler : ExperimentScheduler JvmTask) (offers : List Offer) :
    ∃ used calls, offers = used ++ (scheduleLoop taskDescription scheduler offers).2 ∧
      (scheduleLoop taskDescription scheduler offers).1.sent = scheduler.sent ++ calls ∧
      List.Forall₂ Uses used calls := by
  fun_induction ExperimentScheduler.scheduleLoop taskDescription scheduler offers with
  | case1 scheduler head rest offer offers queue next ih =>
      obtain ⟨used, calls, cut, sent, uses⟩ :=
        scheduleHead_sent taskDescription scheduler head rest (offer :: offers)
      obtain ⟨more, others, cutMore, sentMore, usesMore⟩ := ih
      refine ⟨used ++ more, calls ++ others, ?_, ?_, List.rel_append uses usesMore⟩
      · rw [List.append_assoc, ← cutMore]
        exact cut
      · rw [sentMore, ← List.append_assoc, ← sent]
        rfl
  | case2 scheduler offers stop => exact ⟨[], [], rfl, (List.append_nil _).symm, .nil⟩

/-- The loop ends when the offers are used up or nothing waits. -/
theorem scheduleLoop_ends (scheduler : ExperimentScheduler JvmTask) (offers : List Offer) :
    (scheduleLoop taskDescription scheduler offers).2 = [] ∨
      (scheduleLoop taskDescription scheduler offers).1.outstandingExperiments = [] := by
  fun_induction ExperimentScheduler.scheduleLoop taskDescription scheduler offers with
  | case1 scheduler head rest offer offers queue next ih => exact ih
  | case2 scheduler offers stop =>
      cases offers with
      | nil => exact .inl rfl
      | cons offer offers =>
          refine .inr (List.eq_nil_iff_forall_not_mem.mpr fun experiment member => ?_)
          obtain ⟨head, rest, waiting⟩ := List.exists_cons_of_ne_nil (List.ne_nil_of_mem member)
          exact stop head rest offer offers waiting rfl

theorem launchedTasks_append (sent calls : List (DriverCall JvmTask)) :
    launchedTasks (sent ++ calls) = launchedTasks sent ++ launchedTasks calls := List.flatMap_append

theorem launchedTasks_rejected (offers : List Offer) :
    launchedTasks (offers.map fun offer => (.launchTasks offer.id [] : DriverCall JvmTask)) = [] := by
  simp [launchedTasks, DriverCall.tasks]

theorem launchedTasks_killed (ids : List TaskID) :
    launchedTasks (ids.map fun id => (.killTask id : DriverCall JvmTask)) = [] := by
  simp [launchedTasks, DriverCall.tasks]

theorem length_used {offers : List Offer} {calls : List (DriverCall JvmTask)} (uses : List.Forall₂ Uses offers calls) :
    (launchedTasks calls).length = offers.length := by
  induction uses with
  | nil => rfl
  | cons one rest ih =>
      obtain ⟨task, rfl, -⟩ := one
      rw [launchedTasks, List.flatMap_cons, List.length_append, List.length_cons, ← ih, launchedTasks]
      exact Nat.add_comm 1 _

theorem answers_rejected (offers : List Offer) :
    List.Forall₂ Answers offers (offers.map fun offer => (.launchTasks offer.id [] : DriverCall JvmTask)) := by
  induction offers with
  | nil => exact .nil
  | cons offer rest ih => exact .cons (.inl rfl) ih

/-- Calls that launch nothing change nothing of it. -/
theorem Keeps.unlaunched {waiting : List (List JvmTask)} {next : ExperimentScheduler JvmTask}
    (keeps : Keeps submitted waiting scheduler complete current)
    (sent : launchedTasks next.sent = launchedTasks scheduler.sent) (taskId : next.taskId = scheduler.taskId)
    (taskIds : next.taskIds = scheduler.taskIds) (awaiting : next.awaitingSiblings = scheduler.awaitingSiblings) :
    Keeps submitted waiting next complete current :=
  { launched := sent.trans keeps.launched
    taskId := by rw [taskId, sent, keeps.taskId]
    ids := by rw [sent, keeps.ids]
    taskIds := taskIds.trans keeps.taskIds
    awaiting := awaiting.trans keeps.awaiting
    submitted := keeps.submitted
    idle := keeps.idle }

/-- The processes are launched in the order in which they were submitted. -/
theorem Keeps.order {waiting : List (List JvmTask)} (keeps : Keeps submitted waiting scheduler complete current) :
    submitted.flatten = (launchedTasks scheduler.sent).map TaskDescription.data ++ waiting.flatten := by
  rw [keeps.submitted, keeps.launched, List.flatten_append, List.map_append, List.map_flatten]
  cases waiting with
  | nil => simp [resume, keeps.idle rfl]
  | cons head rest => simp [resume]

theorem Keeps.schedule (keeps : Keeps submitted scheduler.outstandingExperiments scheduler complete current)
    (processes : List JvmTask) :
    Keeps (submitted ++ [processes]) (scheduler.scheduleExperiment processes).outstandingExperiments
      (scheduler.scheduleExperiment processes) complete current := by
  have same := keeps.submitted
  constructor
  case launched => exact keeps.launched
  case taskId => exact keeps.taskId
  case ids => exact keeps.ids
  case taskIds => exact keeps.taskIds
  case awaiting => exact keeps.awaiting
  case submitted =>
    rw [same, scheduleExperiment]
    cases waiting : scheduler.outstandingExperiments with
    | nil => simp [resume, keeps.idle waiting]
    | cons head rest => simp [resume]
  case idle =>
    intro none
    simp [scheduleExperiment] at none

def Call.submits : Call JvmTask → List (List JvmTask)
  | .scheduleExperiment processes => [processes]
  | .resourceOffers _ => []

def Call.offers : Call JvmTask → List Offer
  | .scheduleExperiment _ => []
  | .resourceOffers offers => offers

theorem stepCall_keeps (keeps : Keeps submitted scheduler.outstandingExperiments scheduler complete current)
    (call : Call JvmTask) :
    ∃ added left, Keeps (submitted ++ call.submits) (stepCall taskDescription scheduler call).outstandingExperiments
        (stepCall taskDescription scheduler call) (complete ++ added) left ∧
      (stepCall taskDescription scheduler call).scheduledExperiments =
        (added.map idsOf).reverse ++ scheduler.scheduledExperiments := by
  cases call with
  | scheduleExperiment processes =>
      refine ⟨[], current, ?_, rfl⟩
      rw [List.append_nil]
      exact keeps.schedule processes
  | resourceOffers offers =>
      obtain ⟨added, left, kept, entries⟩ := keeps.scheduleLoop taskDescription offers
      refine ⟨added, left, ?_, entries⟩
      rw [Call.submits, List.append_nil]
      refine kept.unlaunched ?_ rfl rfl rfl
      change launchedTasks (_ ++ _) = _
      rw [launchedTasks_append, launchedTasks_rejected, List.append_nil]

/-- Every offer of a call is answered once, in their order. -/
theorem stepCall_sent (scheduler : ExperimentScheduler JvmTask) (call : Call JvmTask) :
    ∃ calls, (stepCall taskDescription scheduler call).sent = scheduler.sent ++ calls ∧
      List.Forall₂ Answers call.offers calls := by
  cases call with
  | scheduleExperiment processes => exact ⟨[], (List.append_nil _).symm, .nil⟩
  | resourceOffers offers =>
      obtain ⟨used, calls, cut, sent, uses⟩ := scheduleLoop_sent taskDescription scheduler offers
      refine ⟨calls ++ (scheduleLoop taskDescription scheduler offers).2.map fun offer =>
        .launchTasks offer.id [], ?_, ?_⟩
      · change (scheduleLoop taskDescription scheduler offers).1.sent ++ _ = _
        rw [sent, List.append_assoc]
      · have answered := List.rel_append (uses.imp fun _ _ => .inr)
          (@answers_rejected JvmTask (scheduleLoop taskDescription scheduler offers).2)
        change List.Forall₂ Answers (used ++ _) _ at answered
        rw [← cut] at answered
        exact answered

/-- How many tasks the calls launch, and how many processes wait after them. -/
def demand (counts : Nat × Nat) : Call JvmTask → Nat × Nat
  | .scheduleExperiment processes => (counts.1, counts.2 + processes.length)
  | .resourceOffers offers => (counts.1 + min counts.2 offers.length, counts.2 - offers.length)

/-- The tasks launched so far, and the processes that wait. -/
def counts (scheduler : ExperimentScheduler JvmTask) : Nat × Nat :=
  ((launchedTasks scheduler.sent).length, scheduler.outstandingExperiments.flatten.length)

theorem counts_stepCall (keeps : Keeps submitted scheduler.outstandingExperiments scheduler complete current)
    (call : Call JvmTask) : counts (stepCall taskDescription scheduler call) = demand (counts scheduler) call := by
  cases call with
  | scheduleExperiment processes =>
      simp [stepCall, scheduleExperiment, counts, demand]
  | resourceOffers offers =>
      obtain ⟨added, left, kept, -⟩ := keeps.scheduleLoop taskDescription offers
      obtain ⟨used, calls, cut, sent, uses⟩ := scheduleLoop_sent taskDescription scheduler offers
      have before := congrArg List.length keeps.order
      have after := congrArg List.length kept.order
      have ends := scheduleLoop_ends taskDescription scheduler offers
      have sizes := congrArg List.length cut
      have more : (launchedTasks (scheduleLoop taskDescription scheduler offers).1.sent).length =
          (launchedTasks scheduler.sent).length + used.length := by
        rw [sent, launchedTasks_append, List.length_append, length_used uses]
      have final : launchedTasks (stepCall taskDescription scheduler (.resourceOffers offers)).sent =
          launchedTasks (scheduleLoop taskDescription scheduler offers).1.sent := by
        change launchedTasks (_ ++ _) = _
        rw [launchedTasks_append, launchedTasks_rejected, List.append_nil]
      have waiting : (stepCall taskDescription scheduler
          (.resourceOffers offers)).outstandingExperiments =
            (scheduleLoop taskDescription scheduler offers).1.outstandingExperiments := rfl
      simp only [List.length_append, List.length_map] at before after sizes
      simp only [counts, demand, final, waiting, Prod.mk.injEq]
      cases ends with
      | inl none =>
          rw [none, List.length_nil] at sizes
          omega
      | inr none =>
          rw [none, List.flatten_nil, List.length_nil] at after ⊢
          omega

end

def submitted (calls : List (Call JvmTask)) : List (List JvmTask) := calls.flatMap Call.submits

def offered (calls : List (Call JvmTask)) : List Offer := calls.flatMap Call.offers

/-- Parts of these sizes, as far as there is something. -/
def parts {α : Type} : List Nat → List α → List (List α)
  | [], _ => []
  | size :: sizes, values => values.take size :: parts sizes (values.drop size)

/-- The tasks that were launched for each experiment. -/
def tasksOf (experiments : List (List JvmTask)) (tasks : List (TaskDescription JvmTask)) :
    List (List (TaskDescription JvmTask)) := parts (experiments.map List.length) tasks

theorem parts_flatten {α : Type} (groups : List (List α)) (sizes : List Nat) (values : List α) :
    parts (groups.map List.length ++ sizes) (groups.flatten ++ values) = groups ++ parts sizes values := by
  induction groups with
  | nil => rfl
  | cons group rest ih =>
      rw [List.map_cons, List.cons_append, parts, List.flatten_cons, List.append_assoc, List.take_left,
        List.drop_left, ih]
      rfl

theorem parts_nil {α : Type} (sizes : List Nat) : parts sizes ([] : List α) = sizes.map fun _ => [] := by
  induction sizes with
  | nil => rfl
  | cons size sizes ih => simp [parts, ih]

theorem Keeps.tasksOf {experiments waiting : List (List JvmTask)} {scheduler : ExperimentScheduler JvmTask}
    {complete : List (List (TaskDescription JvmTask))} {current : List (TaskDescription JvmTask)}
    (keeps : Keeps experiments waiting scheduler complete current) :
    ∃ none, (∀ group ∈ none, group = []) ∧ (waiting = [] → none = []) ∧
      tasksOf experiments (launchedTasks scheduler.sent) =
        complete ++ (if waiting = [] then [] else current :: none) := by
  have lengths : (complete.map (List.map TaskDescription.data)).map List.length = complete.map List.length := by
    rw [List.map_map]
    refine List.map_congr_left fun group _ => ?_
    simp
  rw [ExperimentScheduler.tasksOf, keeps.submitted, keeps.launched, List.map_append, lengths, parts_flatten]
  cases waiting with
  | nil => exact ⟨[], by simp, fun _ => rfl, by simp [resume, parts]⟩
  | cons head rest =>
      refine ⟨(rest.map List.length).map fun _ => [], by simp, nofun, ?_⟩
      have whole : current.take (current.length + head.length) = current := List.take_of_length_le (by omega)
      have nothing : current.drop (current.length + head.length) = [] := List.drop_eq_nil_of_le (by omega)
      simp only [resume, List.map_cons, List.length_append, List.length_map, parts, whole, nothing, parts_nil, if_false,
        reduceCtorEq]

theorem runCalls_snoc (calls : List (Call JvmTask)) (call : Call JvmTask) :
    runCalls taskDescription (calls ++ [call]) = stepCall taskDescription (runCalls taskDescription calls) call := by
  rw [runCalls, List.foldl_append]
  rfl

theorem submitted_snoc (calls : List (Call JvmTask)) (call : Call JvmTask) :
    submitted (calls ++ [call]) = submitted calls ++ call.submits := by
  simp [submitted]

theorem int32_zero : int32 0 = 0 := by decide

theorem keeps_start : Keeps [] [] ({} : ExperimentScheduler JvmTask) [] [] :=
  { launched := rfl
    taskId := by simp [launchedTasks, int32_zero]
    ids := rfl
    taskIds := rfl
    awaiting := rfl
    submitted := rfl
    idle := fun _ => rfl }

theorem runCalls_keeps (calls : List (Call JvmTask)) :
    ∃ complete current, Keeps (submitted calls) (runCalls taskDescription calls).outstandingExperiments
        (runCalls taskDescription calls) complete current ∧
      (runCalls taskDescription calls).scheduledExperiments = (complete.map idsOf).reverse := by
  induction calls using List.reverseRecOn with
  | nil => exact ⟨[], [], keeps_start, rfl⟩
  | append_singleton calls call ih =>
      obtain ⟨complete, current, keeps, entries⟩ := ih
      obtain ⟨added, left, kept, more⟩ := stepCall_keeps taskDescription keeps call
      refine ⟨complete ++ added, left, ?_, ?_⟩
      · rw [runCalls_snoc, submitted_snoc]
        exact kept
      · rw [runCalls_snoc, more, entries]
        simp

theorem runCalls_sent (calls : List (Call JvmTask)) :
    List.Forall₂ Answers (offered calls) (runCalls taskDescription calls).sent := by
  induction calls using List.reverseRecOn with
  | nil => exact .nil
  | append_singleton calls call ih =>
      obtain ⟨sent, same, answers⟩ :=
        stepCall_sent taskDescription (runCalls taskDescription calls) call
      rw [runCalls_snoc, same]
      have offers : offered (calls ++ [call]) = offered calls ++ call.offers := by simp [offered]
      rw [offers]
      exact List.rel_append ih answers

/-- How many tasks a sequence of calls launches. -/
def launches (calls : List (Call JvmTask)) : Nat := (calls.foldl demand (0, 0)).1

theorem runCalls_counts (calls : List (Call JvmTask)) :
    counts (runCalls taskDescription calls) = calls.foldl demand (0, 0) := by
  induction calls using List.reverseRecOn with
  | nil => rfl
  | append_singleton calls call ih =>
      obtain ⟨complete, current, keeps, -⟩ := runCalls_keeps taskDescription calls
      rw [runCalls_snoc, counts_stepCall taskDescription keeps, ih, List.foldl_append]
      rfl

theorem Keeps.fresh_iff {experiments waiting : List (List JvmTask)} {scheduler : ExperimentScheduler JvmTask}
    {complete : List (List (TaskDescription JvmTask))} {current : List (TaskDescription JvmTask)}
    (keeps : Keeps experiments waiting scheduler complete current) :
    ((launchedTasks scheduler.sent).map TaskDescription.taskId).Nodup ↔
      (launchedTasks scheduler.sent).length ≤ 2 ^ 32 := by
  rw [keeps.ids]
  constructor
  · intro distinct
    by_contra many
    have same := List.inj_on_of_nodup_map distinct (List.mem_range.mpr (by omega : 2 ^ 32 < _))
      (List.mem_range.mpr (by omega : 0 < _)) idAt_wraps
    cases same
  · intro few
    refine List.Nodup.map_on ?_ List.nodup_range
    intro one oneMember two twoMember same
    rw [List.mem_range] at oneMember twoMember
    exact idAt_injective (by omega) (by omega) same

/-- What a run of calls has come to.  The loop of `resourceOffers` is a function, so it
ends on every batch. -/
structure Scheduled (taskDescription : JvmTask → String) (calls : List (Call JvmTask)) : Prop where
  order : (launchedTasks (runCalls taskDescription calls).sent).map TaskDescription.data <+: (submitted calls).flatten
  fresh : ((launchedTasks (runCalls taskDescription calls).sent).map TaskDescription.taskId).Nodup
  offers : List.Forall₂ Answers (offered calls) (runCalls taskDescription calls).sent
  entries : ∃ complete, complete <+: tasksOf (submitted calls) (launchedTasks (runCalls taskDescription calls).sent) ∧
    complete.map (List.map TaskDescription.data) <+: submitted calls ∧
    (runCalls taskDescription calls).scheduledExperiments = (complete.map idsOf).reverse

/-- A run schedules its experiments as it should until the task ids start over. -/
theorem experiments_scheduled_iff (taskDescription : JvmTask → String) (calls : List (Call JvmTask)) :
    Scheduled taskDescription calls ↔ launches calls ≤ 2 ^ 32 := by
  obtain ⟨complete, current, keeps, entries⟩ := runCalls_keeps taskDescription calls
  have count : (launchedTasks (runCalls taskDescription calls).sent).length = launches calls :=
    congrArg Prod.fst (runCalls_counts taskDescription calls)
  constructor
  · intro scheduled
    rw [← count]
    exact keeps.fresh_iff.mp scheduled.fresh
  · intro few
    rw [← count] at few
    obtain ⟨none, -, -, parts⟩ := keeps.tasksOf
    exact {
      order := ⟨_, keeps.order.symm⟩
      fresh := keeps.fresh_iff.mpr few
      offers := runCalls_sent taskDescription calls
      entries := ⟨complete, ⟨_, parts.symm⟩, ⟨_, keeps.submitted.symm⟩, entries⟩ }

/-- Four experiments of this many processes and one of one, with offers for all. -/
def longRun (count : Nat) : List (Call Unit) :=
  let processes := fun size => Call.scheduleExperiment (List.replicate size ())
  let offers := fun size => Call.resourceOffers (List.replicate size ⟨"offer", "slave", "host", []⟩)
  [processes count, processes count, processes count, processes count, processes 1,
    offers count, offers count, offers count, offers count, offers 1]

theorem launches_longRun (count : Nat) : launches (longRun count) = 4 * count + 1 := by
  simp only [launches, longRun, List.foldl_cons, List.foldl_nil, demand, List.length_replicate]
  omega

theorem longRun_not_scheduled {count : Nat} (many : 2 ^ 30 ≤ count) :
    ¬ Scheduled (fun _ => "task") (longRun count) := by
  intro scheduled
  obtain ⟨complete, current, keeps, -⟩ := runCalls_keeps (fun _ => "task") (longRun count)
  have few := keeps.fresh_iff.mp scheduled.fresh
  have counted := congrArg Prod.fst (runCalls_counts (fun _ => "task") (longRun count))
  have launched : (launchedTasks (runCalls (fun _ => "task") (longRun count)).sent).length = 4 * count + 1 :=
    counted.trans (launches_longRun count)
  omega

theorem task_ids_start_over : ¬ Scheduled (fun _ => "task") (longRun (2 ^ 30)) :=
  longRun_not_scheduled (Nat.le_refl _)

end ExperimentScheduler

end Scads.Deploylib
