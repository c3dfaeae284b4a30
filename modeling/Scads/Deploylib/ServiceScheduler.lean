import Mathlib.Data.List.Basic
import Mathlib.Data.List.Forall2
import Scads.Data.Words

namespace Scads.Deploylib

open Scads.Data

/-! # The experiment scheduler

Experiments wait in a queue until the offers of the cluster have room for all their
processes.  The scheduler's calls of the driver are kept in their order.
-/

/-- A task id is the text of a number. -/
structure TaskID where
  value : Int
deriving DecidableEq, Repr

structure Offer where
  id : String
  slaveId : String
  hostname : String
  resources : List String
deriving DecidableEq, Repr

/-- The data of a task are the bytes of its process. -/
structure TaskDescription (JvmTask : Type) where
  taskId : TaskID
  slaveId : String
  resources : List String
  name : String
  data : JvmTask
deriving DecidableEq, Repr

inductive DriverCall (JvmTask : Type) where
  | launchTasks (offerId : String) (tasks : List (TaskDescription JvmTask))
  | killTask (taskId : TaskID)
deriving DecidableEq, Repr

inductive TaskState where
  | starting
  | running
  | finished
  | failed
  | killed
  | lost
deriving DecidableEq, Repr

structure TaskStatus where
  taskId : TaskID
  state : TaskState
deriving DecidableEq, Repr

/-- The scheduler, and what it has sent to the driver. -/
structure ExperimentScheduler (JvmTask : Type) where
  taskId : Int := 0
  outstandingExperiments : List (List JvmTask) := []
  awaitingSiblings : List JvmTask := []
  taskIds : List TaskID := []
  scheduledExperiments : List (List TaskID) := []
  sent : List (DriverCall JvmTask) := []
deriving DecidableEq, Repr

namespace ExperimentScheduler

variable {JvmTask : Type} (taskDescription : JvmTask → String)

def scheduleExperiment (scheduler : ExperimentScheduler JvmTask) (processes : List JvmTask) :
    ExperimentScheduler JvmTask :=
  { scheduler with outstandingExperiments := scheduler.outstandingExperiments ++ [processes] }

/-- The task that a process becomes on an offer. -/
def taskFor (scheduler : ExperimentScheduler JvmTask) (proc : JvmTask) (offer : Offer) : TaskDescription JvmTask :=
  { taskId := ⟨scheduler.taskId⟩
    slaveId := offer.slaveId
    resources := offer.resources
    name := taskDescription proc
    data := proc }

def launch (scheduler : ExperimentScheduler JvmTask) (proc : JvmTask) (offer : Offer) : ExperimentScheduler JvmTask :=
  { scheduler with
    taskIds := ⟨scheduler.taskId⟩ :: scheduler.taskIds
    taskId := int32 (scheduler.taskId + 1)
    sent := scheduler.sent ++ [.launchTasks offer.id [taskFor taskDescription scheduler proc offer]]
    awaitingSiblings := proc :: scheduler.awaitingSiblings }

/-- Each process takes the first offer that is left. -/
def launchAll (scheduler : ExperimentScheduler JvmTask) : List (JvmTask × Offer) → ExperimentScheduler JvmTask
  | [] => scheduler
  | (proc, offer) :: rest => launchAll (launch taskDescription scheduler proc offer) rest

/-- One round of the loop, for the experiment at the head of the queue. -/
def scheduleHead (scheduler : ExperimentScheduler JvmTask) (currentExperiment : List JvmTask)
    (rest : List (List JvmTask)) (offers : List Offer) : ExperimentScheduler JvmTask × List Offer :=
  let scheduleNow := currentExperiment.take offers.length
  let launched := launchAll taskDescription scheduler (scheduleNow.zip offers)
  let processes := currentExperiment.drop scheduleNow.length
  let offers := offers.drop scheduleNow.length
  if processes.isEmpty then
    ({ launched with
      outstandingExperiments := rest
      scheduledExperiments := launched.taskIds :: launched.scheduledExperiments
      taskIds := []
      awaitingSiblings := [] }, offers)
  else ({ launched with outstandingExperiments := processes :: rest }, offers)

/-- A round ends with the experiment or uses up the offers. -/
theorem scheduleHead_smaller (scheduler : ExperimentScheduler JvmTask) (currentExperiment : List JvmTask)
    (rest : List (List JvmTask)) (offer : Offer) (offers : List Offer) :
    let next := scheduleHead taskDescription scheduler currentExperiment rest (offer :: offers)
    next.2.length + next.1.outstandingExperiments.length < (offer :: offers).length + (rest.length + 1) := by
  intro next
  simp only [next, scheduleHead]
  split
  · next complete =>
      simp only [List.length_drop]
      omega
  · next partly =>
      have left : 0 < (currentExperiment.drop (currentExperiment.take (offer :: offers).length).length).length := by
        rw [List.isEmpty_iff] at partly
        exact List.length_pos_iff.mpr partly
      simp only [List.length_drop, List.length_take, List.length_cons] at left ⊢
      omega

/-- The loop of `resourceOffers`. -/
def scheduleLoop (scheduler : ExperimentScheduler JvmTask) (offers : List Offer) :
    ExperimentScheduler JvmTask × List Offer :=
  match _queue : scheduler.outstandingExperiments, offers with
  | currentExperiment :: rest, offer :: offers =>
      let next := scheduleHead taskDescription scheduler currentExperiment rest (offer :: offers)
      scheduleLoop next.1 next.2
  | _, _ => (scheduler, offers)
termination_by offers.length + scheduler.outstandingExperiments.length
decreasing_by
  rw [_queue]
  exact scheduleHead_smaller taskDescription scheduler currentExperiment rest offer offers

/-- Offers that are left are answered without a task. -/
def resourceOffers (scheduler : ExperimentScheduler JvmTask) (offers : List Offer) : ExperimentScheduler JvmTask :=
  let (final, left) := scheduleLoop taskDescription scheduler offers
  { final with sent := final.sent ++ left.map fun offer => .launchTasks offer.id [] }

def statusUpdate (scheduler : ExperimentScheduler JvmTask) : Option TaskStatus → ExperimentScheduler JvmTask
  | some { taskId, state := .failed } =>
      match scheduler.scheduledExperiments.find? fun taskIds => taskId ∈ taskIds with
      | none => scheduler
      | some siblings =>
          { scheduler with
            sent := scheduler.sent ++ siblings.map .killTask
            scheduledExperiments := scheduler.scheduledExperiments.filter fun taskIds => taskIds ≠ siblings }
  | _ => scheduler

inductive Call (JvmTask : Type) where
  | scheduleExperiment (processes : List JvmTask)
  | resourceOffers (offers : List Offer)

inductive Event (JvmTask : Type) where
  | call (made : Call JvmTask)
  | statusUpdate (status : Option TaskStatus)

def stepCall (scheduler : ExperimentScheduler JvmTask) : Call JvmTask → ExperimentScheduler JvmTask
  | .scheduleExperiment processes => scheduler.scheduleExperiment processes
  | .resourceOffers offers => resourceOffers taskDescription scheduler offers

def step (scheduler : ExperimentScheduler JvmTask) : Event JvmTask → ExperimentScheduler JvmTask
  | .call made => stepCall taskDescription scheduler made
  | .statusUpdate status => scheduler.statusUpdate status

def run (events : List (Event JvmTask)) : ExperimentScheduler JvmTask := events.foldl (step taskDescription) {}

def runCalls (calls : List (Call JvmTask)) : ExperimentScheduler JvmTask := calls.foldl (stepCall taskDescription) {}

end ExperimentScheduler

end Scads.Deploylib
