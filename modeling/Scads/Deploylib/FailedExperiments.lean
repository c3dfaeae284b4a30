import Mathlib.Data.List.Pairwise
import Scads.Deploylib.ExperimentRuns

namespace Scads.Deploylib

/-! # Failed experiments

A failure that is reported for a task kills the tasks of its experiment, once the
experiment is scheduled as a whole.
-/

namespace ExperimentScheduler

variable {JvmTask : Type} (taskDescription : JvmTask → String)

def Event.calls : Event JvmTask → List (Call JvmTask)
  | .call made => [made]
  | .statusUpdate _ => []

def callsOf (events : List (Event JvmTask)) : List (Call JvmTask) := events.flatMap Event.calls

/-- The update that a task has failed. -/
def failed (id : TaskID) : Event JvmTask := .statusUpdate (some ⟨id, .failed⟩)

def launchedIds (scheduler : ExperimentScheduler JvmTask) : List TaskID :=
  (launchedTasks scheduler.sent).map TaskDescription.taskId

/-- The tasks launched so far, by the experiments that were submitted. -/
def experimentsOf (taskDescription : JvmTask → String) (events : List (Event JvmTask)) :
    List (List (TaskDescription JvmTask)) :=
  tasksOf (submitted (callsOf events)) (launchedTasks (run taskDescription events).sent)

/-- Every experiment with a task that was reported as failed has had all its tasks killed. -/
def TornDown (taskDescription : JvmTask → String) (events : List (Event JvmTask)) : Prop :=
  ∀ before id, before ++ [failed id] <+: events → id ∈ (run taskDescription before).launchedIds →
    ∀ tasks ∈ experimentsOf taskDescription events, id ∈ idsOf tasks →
      ∀ task ∈ tasks, .killTask task.taskId ∈ (run taskDescription events).sent

/-- What the scheduler knows of the experiments that are wholly scheduled. -/
structure Supervises (submitted : List (List JvmTask)) (scheduler : ExperimentScheduler JvmTask)
    (complete : List (List (TaskDescription JvmTask))) (current : List (TaskDescription JvmTask)) : Prop where
  keeps : Keeps submitted scheduler.outstandingExperiments scheduler complete current
  entries : ∀ entry ∈ scheduler.scheduledExperiments, ∃ tasks ∈ complete, entry = idsOf tasks
  settled : ∀ tasks ∈ complete,
    idsOf tasks ∈ scheduler.scheduledExperiments ∨ ∀ id ∈ idsOf tasks, .killTask id ∈ scheduler.sent
  kills : ∀ id, .killTask id ∈ scheduler.sent → ∃ tasks ∈ complete, id ∈ idsOf tasks

section

variable {submitted : List (List JvmTask)} {scheduler : ExperimentScheduler JvmTask}
  {complete : List (List (TaskDescription JvmTask))} {current : List (TaskDescription JvmTask)}

theorem mem_idsOf {tasks : List (TaskDescription JvmTask)} {id : TaskID} :
    id ∈ idsOf tasks ↔ ∃ task ∈ tasks, task.taskId = id := by
  rw [idsOf, List.mem_reverse, List.mem_map]

theorem answers_no_kill {offers : List Offer} {calls : List (DriverCall JvmTask)}
    (answers : List.Forall₂ Answers offers calls) (id : TaskID) : .killTask id ∉ calls := by
  induction answers with
  | nil => exact List.not_mem_nil
  | cons one rest ih =>
      intro member
      cases List.mem_cons.mp member with
      | inl same =>
          obtain rejected | ⟨task, used, -⟩ := one
          · rw [rejected] at same
            cases same
          · rw [used] at same
            cases same
      | inr later => exact ih later

theorem Supervises.call (supervises : Supervises submitted scheduler complete current) (call : Call JvmTask) :
    ∃ added left, Supervises (submitted ++ call.submits) (stepCall taskDescription scheduler call)
      (complete ++ added) left := by
  obtain ⟨added, left, keeps, entered⟩ := stepCall_keeps taskDescription supervises.keeps call
  obtain ⟨calls, sent, answers⟩ := stepCall_sent taskDescription scheduler call
  refine ⟨added, left, keeps, ?_, ?_, ?_⟩
  · intro entry member
    rw [entered, List.mem_append, List.mem_reverse, List.mem_map] at member
    obtain ⟨tasks, new, rfl⟩ | old := member
    · exact ⟨tasks, List.mem_append_right _ new, rfl⟩
    · obtain ⟨tasks, within, same⟩ := supervises.entries entry old
      exact ⟨tasks, List.mem_append_left _ within, same⟩
  · intro tasks member
    rw [entered, sent]
    cases List.mem_append.mp member with
    | inl old =>
        obtain entry | killed := supervises.settled tasks old
        · exact .inl (List.mem_append_right _ entry)
        · exact .inr fun id within => List.mem_append_left _ (killed id within)
    | inr new => exact .inl (List.mem_append_left _ (List.mem_reverse.mpr (List.mem_map_of_mem new)))
  · intro id member
    rw [sent, List.mem_append] at member
    cases member with
    | inl old =>
        obtain ⟨tasks, within, known⟩ := supervises.kills id old
        exact ⟨tasks, List.mem_append_left _ within, known⟩
    | inr new => exact absurd new (answers_no_kill answers id)

theorem statusUpdate_failed (scheduler : ExperimentScheduler JvmTask) (id : TaskID) :
    (scheduler.scheduledExperiments.find? (fun taskIds => id ∈ taskIds) = none ∧
        scheduler.statusUpdate (some ⟨id, .failed⟩) = scheduler) ∨
      ∃ siblings, scheduler.scheduledExperiments.find? (fun taskIds => id ∈ taskIds) = some siblings ∧
        scheduler.statusUpdate (some ⟨id, .failed⟩) =
          { scheduler with
            sent := scheduler.sent ++ siblings.map .killTask
            scheduledExperiments := scheduler.scheduledExperiments.filter fun taskIds => taskIds ≠ siblings } := by
  cases found : scheduler.scheduledExperiments.find? (fun taskIds => id ∈ taskIds) with
  | none => exact .inl ⟨rfl, by simp only [statusUpdate, found]⟩
  | some siblings => exact .inr ⟨siblings, rfl, by simp only [statusUpdate, found]⟩

theorem statusUpdate_other (scheduler : ExperimentScheduler JvmTask) (status : Option TaskStatus) :
    scheduler.statusUpdate status = scheduler ∨ ∃ id, status = some ⟨id, .failed⟩ := by
  match status with
  | none => exact .inl rfl
  | some ⟨id, .failed⟩ => exact .inr ⟨id, rfl⟩
  | some ⟨_, .starting⟩ => exact .inl rfl
  | some ⟨_, .running⟩ => exact .inl rfl
  | some ⟨_, .finished⟩ => exact .inl rfl
  | some ⟨_, .killed⟩ => exact .inl rfl
  | some ⟨_, .lost⟩ => exact .inl rfl

theorem Supervises.statusUpdate (supervises : Supervises submitted scheduler complete current)
    (status : Option TaskStatus) : Supervises submitted (scheduler.statusUpdate status) complete current := by
  obtain same | ⟨id, rfl⟩ := statusUpdate_other scheduler status
  · rw [same]
    exact supervises
  obtain ⟨-, same⟩ | ⟨siblings, found, next⟩ := statusUpdate_failed scheduler id
  · rw [same]
    exact supervises
  rw [next]
  obtain ⟨family, within, rfl⟩ := supervises.entries siblings (List.mem_of_find?_eq_some found)
  refine ⟨?_, ?_, ?_, ?_⟩
  · refine supervises.keeps.unlaunched ?_ rfl rfl rfl
    rw [launchedTasks_append, launchedTasks_killed, List.append_nil]
  · intro entry member
    exact supervises.entries entry (List.mem_of_mem_filter member)
  · intro tasks member
    by_cases same : idsOf tasks = idsOf family
    · refine .inr fun id known => List.mem_append_right _ (List.mem_map_of_mem ?_)
      rwa [← same]
    · obtain entry | killed := supervises.settled tasks member
      · exact .inl (List.mem_filter.mpr ⟨entry, by simpa using same⟩)
      · exact .inr fun id known => List.mem_append_left _ (killed id known)
  · intro id member
    obtain old | new := List.mem_append.mp member
    · exact supervises.kills id old
    · obtain ⟨other, known, same⟩ := List.mem_map.mp new
      cases same
      exact ⟨family, within, known⟩

theorem statusUpdate_sent (scheduler : ExperimentScheduler JvmTask) (status : Option TaskStatus) :
    ∃ calls, (scheduler.statusUpdate status).sent = scheduler.sent ++ calls := by
  obtain same | ⟨id, rfl⟩ := statusUpdate_other scheduler status
  · exact ⟨[], by rw [same, List.append_nil]⟩
  obtain ⟨-, same⟩ | ⟨siblings, -, next⟩ := statusUpdate_failed scheduler id
  · exact ⟨[], by rw [same, List.append_nil]⟩
  · exact ⟨_, by rw [next]⟩

theorem counts_statusUpdate (scheduler : ExperimentScheduler JvmTask) (status : Option TaskStatus) :
    counts (scheduler.statusUpdate status) = counts scheduler := by
  obtain same | ⟨id, rfl⟩ := statusUpdate_other scheduler status
  · rw [same]
  obtain ⟨-, same⟩ | ⟨siblings, -, next⟩ := statusUpdate_failed scheduler id
  · rw [same]
  · rw [next, counts, counts, launchedTasks_append, launchedTasks_killed, List.append_nil]

theorem Supervises.step (supervises : Supervises submitted scheduler complete current) (event : Event JvmTask) :
    ∃ added left, Supervises (submitted ++ ExperimentScheduler.submitted event.calls)
      (step taskDescription scheduler event) (complete ++ added) left := by
  cases event with
  | call made =>
      have submits : ExperimentScheduler.submitted (Event.call made).calls = made.submits := by
        simp [ExperimentScheduler.submitted, Event.calls]
      rw [submits]
      exact supervises.call taskDescription made
  | statusUpdate status =>
      refine ⟨[], current, ?_⟩
      have submits : ExperimentScheduler.submitted (Event.statusUpdate status : Event JvmTask).calls = [] := rfl
      rw [submits, List.append_nil, List.append_nil]
      exact supervises.statusUpdate status

theorem step_sent (scheduler : ExperimentScheduler JvmTask) (event : Event JvmTask) :
    ∃ calls, (step taskDescription scheduler event).sent = scheduler.sent ++ calls := by
  cases event with
  | call made =>
      obtain ⟨calls, sent, -⟩ := stepCall_sent taskDescription scheduler made
      exact ⟨calls, sent⟩
  | statusUpdate status => exact statusUpdate_sent scheduler status

end

theorem run_snoc (events : List (Event JvmTask)) (event : Event JvmTask) :
    run taskDescription (events ++ [event]) = step taskDescription (run taskDescription events) event := by
  rw [run, List.foldl_append]
  rfl

theorem callsOf_snoc (events : List (Event JvmTask)) (event : Event JvmTask) :
    callsOf (events ++ [event]) = callsOf events ++ event.calls := by
  simp [callsOf]

theorem submitted_append (calls more : List (Call JvmTask)) :
    submitted (calls ++ more) = submitted calls ++ submitted more := List.flatMap_append

/-- A run goes on from what it supervises. -/
theorem Supervises.later {before : List (Event JvmTask)} {complete : List (List (TaskDescription JvmTask))}
    {current : List (TaskDescription JvmTask)}
    (supervises : Supervises (submitted (callsOf before)) (run taskDescription before) complete current)
    (events : List (Event JvmTask)) :
    ∃ added left, Supervises (submitted (callsOf (before ++ events))) (run taskDescription (before ++ events))
      (complete ++ added) left := by
  induction events using List.reverseRecOn with
  | nil => exact ⟨[], current, by simpa using supervises⟩
  | append_singleton events event ih =>
      obtain ⟨added, left, kept⟩ := ih
      obtain ⟨more, last, next⟩ := kept.step taskDescription event
      refine ⟨added ++ more, last, ?_⟩
      rw [← List.append_assoc, run_snoc, callsOf_snoc, submitted_append, ← List.append_assoc]
      exact next

theorem run_sent (before events : List (Event JvmTask)) :
    (run taskDescription before).sent <+: (run taskDescription (before ++ events)).sent := by
  induction events using List.reverseRecOn with
  | nil => simp only [List.append_nil, List.prefix_rfl]
  | append_singleton events event ih =>
      obtain ⟨calls, sent⟩ := step_sent taskDescription (run taskDescription (before ++ events)) event
      rw [← List.append_assoc, run_snoc, sent]
      exact ih.trans (List.prefix_append _ _)

theorem run_supervises (events : List (Event JvmTask)) :
    ∃ complete current, Supervises (submitted (callsOf events)) (run taskDescription events) complete current := by
  have start : Supervises (submitted (callsOf [])) (run taskDescription []) [] [] :=
    ⟨keeps_start, nofun, nofun, nofun⟩
  obtain ⟨complete, current, supervises⟩ := start.later taskDescription events
  exact ⟨complete, current, supervises⟩

theorem run_counts (events : List (Event JvmTask)) :
    counts (run taskDescription events) = (callsOf events).foldl demand (0, 0) := by
  induction events using List.reverseRecOn with
  | nil => rfl
  | append_singleton events event ih =>
      rw [run_snoc, callsOf_snoc, List.foldl_append, ← ih]
      cases event with
      | call made =>
          obtain ⟨complete, current, supervises⟩ := run_supervises taskDescription events
          exact counts_stepCall taskDescription supervises.keeps made
      | statusUpdate status => exact counts_statusUpdate _ status

theorem launchedIds_length (events : List (Event JvmTask)) :
    (run taskDescription events).launchedIds.length = launches (callsOf events) := by
  have counted := congrArg Prod.fst (run_counts taskDescription events)
  rw [launchedIds, List.length_map]
  exact counted

theorem launchedIds_nodup {events : List (Event JvmTask)} (few : launches (callsOf events) ≤ 2 ^ 32) :
    (run taskDescription events).launchedIds.Nodup := by
  obtain ⟨complete, current, supervises⟩ := run_supervises taskDescription events
  rw [← launchedIds_length taskDescription, launchedIds, List.length_map] at few
  exact supervises.keeps.fresh_iff.mpr few

/-- A run launches at least as many tasks as its beginning. -/
theorem launches_extend {before events : List (Event JvmTask)} (first : before <+: events) :
    launches (callsOf before) ≤ launches (callsOf events) := by
  obtain ⟨rest, rfl⟩ := first
  obtain ⟨calls, sent⟩ := run_sent (fun _ => "") before rest
  rw [← launchedIds_length (fun _ => ""), ← launchedIds_length (fun _ => ""),
    launchedIds, launchedIds, ← sent, launchedTasks_append, List.map_append, List.length_append]
  omega

/-- Two groups that share a task are one. -/
theorem group_unique {groups : List (List (TaskDescription JvmTask))}
    (distinct : (groups.flatten.map TaskDescription.taskId).Nodup) {one two : List (TaskDescription JvmTask)}
    {id : TaskID} (oneMember : one ∈ groups) (twoMember : two ∈ groups) (oneKnows : id ∈ idsOf one)
    (twoKnows : id ∈ idsOf two) : one = two := by
  rw [List.map_flatten, List.nodup_flatten, List.pairwise_map] at distinct
  by_contra different
  have swaps : Std.Symm fun one two : List (TaskDescription JvmTask) =>
      (one.map TaskDescription.taskId).Disjoint (two.map TaskDescription.taskId) :=
    ⟨fun _ _ apart _ first second => apart second first⟩
  have apart := distinct.2.forall oneMember twoMember different
  rw [idsOf, List.mem_reverse] at oneKnows twoKnows
  exact apart oneKnows twoKnows

theorem Supervises.launchedIds_iff {submitted : List (List JvmTask)} {scheduler : ExperimentScheduler JvmTask}
    {complete : List (List (TaskDescription JvmTask))} {current : List (TaskDescription JvmTask)}
    (supervises : Supervises submitted scheduler complete current) (id : TaskID) :
    id ∈ scheduler.launchedIds ↔ (∃ tasks ∈ complete, id ∈ idsOf tasks) ∨ id ∈ scheduler.taskIds := by
  rw [launchedIds, supervises.keeps.launched, supervises.keeps.taskIds, List.map_append, List.mem_append, idsOf,
    List.mem_reverse, List.map_flatten, List.mem_flatten]
  simp only [List.mem_map, idsOf, List.mem_reverse]
  constructor
  · intro found
    obtain ⟨ids, ⟨tasks, member, rfl⟩, known⟩ | within := found
    · exact .inl ⟨tasks, member, List.mem_map.mp known⟩
    · exact .inr within
  · intro found
    obtain ⟨tasks, member, known⟩ | within := found
    · exact .inl ⟨_, ⟨tasks, member, rfl⟩, List.mem_map.mpr known⟩
    · exact .inr within

/-- No task is both of an experiment that is wholly scheduled and of the one that has begun. -/
theorem Supervises.apart {submitted : List (List JvmTask)} {scheduler : ExperimentScheduler JvmTask}
    {complete : List (List (TaskDescription JvmTask))} {current : List (TaskDescription JvmTask)}
    (supervises : Supervises submitted scheduler complete current) (distinct : scheduler.launchedIds.Nodup)
    {id : TaskID} (begun : id ∈ scheduler.taskIds) : ¬ ∃ tasks ∈ complete, id ∈ idsOf tasks := by
  intro found
  obtain ⟨tasks, member, known⟩ := found
  rw [launchedIds, supervises.keeps.launched, List.map_append, List.nodup_append] at distinct
  rw [supervises.keeps.taskIds, mem_idsOf] at begun
  obtain ⟨task, within, rfl⟩ := begun
  obtain ⟨other, inside, same⟩ := mem_idsOf.mp known
  refine distinct.2.2 other.taskId (List.mem_map_of_mem (List.mem_flatten_of_mem member inside)) task.taskId
    (List.mem_map_of_mem within) same

theorem Supervises.experiments {events : List (Event JvmTask)} {complete : List (List (TaskDescription JvmTask))}
    {current : List (TaskDescription JvmTask)}
    (supervises : Supervises (submitted (callsOf events)) (run taskDescription events) complete current) :
    (experimentsOf taskDescription events).flatten = launchedTasks (run taskDescription events).sent ∧
      (∀ tasks ∈ complete, tasks ∈ experimentsOf taskDescription events) ∧
      (current ≠ [] → current ∈ experimentsOf taskDescription events) := by
  obtain ⟨empty, blank, -, same⟩ := supervises.keeps.tasksOf
  rw [experimentsOf, same, supervises.keeps.launched]
  by_cases idle : (run taskDescription events).outstandingExperiments = []
  · rw [if_pos idle, supervises.keeps.idle idle]
    simp
  · rw [if_neg idle]
    have nothing : empty.flatten = [] := List.flatten_eq_nil_iff.mpr blank
    simp +contextual [nothing]

/-- A failure of a task of a wholly scheduled experiment kills its tasks. -/
theorem Supervises.failed_kills {before : List (Event JvmTask)} {complete : List (List (TaskDescription JvmTask))}
    {current : List (TaskDescription JvmTask)}
    (supervises : Supervises (submitted (callsOf before)) (run taskDescription before) complete current)
    (distinct : (run taskDescription before).launchedIds.Nodup) {tasks : List (TaskDescription JvmTask)} {id : TaskID}
    (member : tasks ∈ complete) (known : id ∈ idsOf tasks) :
    ∀ other ∈ idsOf tasks, .killTask other ∈ (run taskDescription (before ++ [failed id])).sent := by
  intro other sibling
  rw [run_snoc, failed, ExperimentScheduler.step]
  obtain ⟨missing, same⟩ | ⟨siblings, found, next⟩ := statusUpdate_failed (run taskDescription before) id
  · rw [same]
    obtain entry | killed := supervises.settled tasks member
    · have absent := List.find?_eq_none.mp missing (idsOf tasks) entry
      exact absurd (by simpa using known) absent
    · exact killed other sibling
  · rw [next]
    obtain ⟨family, within, rfl⟩ := supervises.entries siblings (List.mem_of_find?_eq_some found)
    have shared : id ∈ idsOf family := by simpa using List.find?_some found
    obtain ⟨flat, all, -⟩ := supervises.experiments taskDescription
    rw [launchedIds, ← flat] at distinct
    rw [group_unique distinct (all family within) (all tasks member) shared known]
    exact List.mem_append_right _ (List.mem_map_of_mem sibling)

theorem tornDown_of_whole {events : List (Event JvmTask)} (few : launches (callsOf events) ≤ 2 ^ 32)
    (whole : ∀ before id, before ++ [failed id] <+: events → id ∉ (run taskDescription before).taskIds) :
    TornDown taskDescription events := by
  intro before id first launched tasks member known task within
  obtain ⟨rest, rfl⟩ := first
  have early : launches (callsOf before) ≤ 2 ^ 32 :=
    Nat.le_trans (launches_extend ((List.prefix_append before [failed id]).trans (List.prefix_append _ rest))) few
  obtain ⟨complete, current, supervises⟩ := run_supervises taskDescription before
  have begun := whole before id (List.prefix_append _ _)
  obtain ⟨family, inside, shared⟩ := ((supervises.launchedIds_iff id).mp launched).resolve_right begun
  have killed := supervises.failed_kills taskDescription (launchedIds_nodup taskDescription early) inside shared
  obtain ⟨added, left, later⟩ := supervises.later taskDescription ([failed id] ++ rest)
  rw [← List.append_assoc] at later
  obtain ⟨flat, all, -⟩ := later.experiments taskDescription
  have distinct := launchedIds_nodup taskDescription few
  rw [launchedIds, ← flat] at distinct
  have same := group_unique distinct (all family (List.mem_append_left _ inside)) member shared known
  rw [← same] at within
  exact (run_sent taskDescription _ rest).subset (killed task.taskId (mem_idsOf.mpr ⟨task, within, rfl⟩))

theorem whole_of_tornDown {before : List (Event JvmTask)} {id : TaskID}
    (few : launches (callsOf before) ≤ 2 ^ 32) (torn : TornDown taskDescription (before ++ [failed id])) :
    id ∉ (run taskDescription before).taskIds := by
  intro begun
  obtain ⟨complete, current, supervises⟩ := run_supervises taskDescription before
  have apart := supervises.apart (launchedIds_nodup taskDescription few) begun
  have unseen : (run taskDescription before).statusUpdate (some ⟨id, .failed⟩) = run taskDescription before := by
    obtain ⟨-, same⟩ | ⟨siblings, found, -⟩ := statusUpdate_failed (run taskDescription before) id
    · exact same
    · obtain ⟨family, within, rfl⟩ := supervises.entries siblings (List.mem_of_find?_eq_some found)
      exact absurd ⟨family, within, by simpa using List.find?_some found⟩ apart
  have final : run taskDescription (before ++ [failed id]) = run taskDescription before := by
    rw [run_snoc]
    exact unseen
  have known := begun
  rw [supervises.keeps.taskIds] at known
  obtain ⟨task, within, same⟩ := mem_idsOf.mp known
  obtain ⟨-, -, begunMember⟩ := supervises.experiments taskDescription
  have member : current ∈ experimentsOf taskDescription (before ++ [failed id]) := by
    have calls : callsOf (before ++ [failed id]) = callsOf before := by simp [callsOf, failed, Event.calls]
    rw [experimentsOf, final, calls]
    exact begunMember (List.ne_nil_of_mem within)
  have killed := torn before id List.prefix_rfl ((supervises.launchedIds_iff id).mpr (.inr begun)) current member
    known task within
  rw [final, same] at killed
  exact apart (supervises.kills id killed)

/-- Failures tear their experiments down as long as none is reported for an experiment
that has only begun. -/
theorem failed_torn_down_iff (taskDescription : JvmTask → String) (events : List (Event JvmTask))
    (few : launches (callsOf events) ≤ 2 ^ 32) :
    (∀ earlier, earlier <+: events → TornDown taskDescription earlier) ↔
      ∀ before id, before ++ [failed id] <+: events → id ∉ (run taskDescription before).taskIds := by
  constructor
  · intro torn before id first
    exact whole_of_tornDown taskDescription (Nat.le_trans (launches_extend ((List.prefix_append _ _).trans first)) few)
      (torn (before ++ [failed id]) first)
  · intro whole earlier first
    exact tornDown_of_whole taskDescription (Nat.le_trans (launches_extend first) few) fun before id within =>
      whole before id (within.trans first)

def oneOffer : Event Unit := .call (.resourceOffers [⟨"offer", "slave", "host", []⟩])

/-- A task of an experiment of two processes fails before the other one is launched. -/
def earlyFailure : List (Event Unit) :=
  [.call (.scheduleExperiment [(), ()]), oneOffer, failed ⟨0⟩, oneOffer]

theorem earlyFailure_begun : (⟨0⟩ : TaskID) ∈ (run (fun _ => "task") (earlyFailure.take 2)).taskIds := by
  decide +kernel

theorem siblings_left_running :
    ¬ ∀ earlier, earlier <+: earlyFailure → TornDown (fun _ => "task") earlier := by
  intro torn
  have failure : earlyFailure.take 2 ++ [failed ⟨0⟩] <+: earlyFailure := ⟨[oneOffer], rfl⟩
  have few : launches (callsOf (earlyFailure.take 2)) ≤ 2 ^ 32 := by decide
  exact whole_of_tornDown _ few (torn _ failure) earlyFailure_begun

/-- The task fails once both are launched. -/
def lateFailure : List (Event Unit) :=
  [.call (.scheduleExperiment [(), ()]), oneOffer, oneOffer, failed ⟨0⟩]

theorem siblings_killed : launches (callsOf lateFailure) ≤ 2 ^ 32 ∧ TornDown (fun _ => "task") lateFailure := by
  have few : launches (callsOf lateFailure) ≤ 2 ^ 32 := by decide
  refine ⟨few, (failed_torn_down_iff (fun _ => "task") lateFailure few).mpr ?_ lateFailure List.prefix_rfl⟩
  intro before id first
  have whole : (run (fun _ => "task") (lateFailure.take 3)).taskIds = [] := by decide +kernel
  match before with
  | [] => simp [lateFailure, failed] at first
  | [one] => simp [lateFailure, failed, oneOffer] at first
  | [one, two] => simp [lateFailure, failed, oneOffer] at first
  | [one, two, three] =>
      have begin : [one, two, three] = lateFailure.take 3 := by
        simp only [lateFailure, List.cons_append, List.nil_append, List.cons_prefix_cons] at first
        simp [lateFailure, first]
      rw [begin, whole]
      exact List.not_mem_nil
  | one :: two :: three :: four :: more => simp [lateFailure] at first

end ExperimentScheduler

end Scads.Deploylib
