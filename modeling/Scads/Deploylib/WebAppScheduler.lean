import Mathlib.Data.List.AList
import Scads.Deploylib.ServiceScheduler

namespace Scads.Deploylib

open Scads.Data

/-! # The scheduler of a web application

A monitor sets the number of servers from their utilisation; offers are taken while there
are too few servers, and a primer thread waits for each new server to come up.
-/

abbrev TaskMap (Value : Type) := AList fun _ : TaskID => Value

structure WebAppScheduler (JvmTask Double : Type) where
  webAppTask : JvmTask
  minServers : Int
  numToKill : Int := 0
  targetNumServers : Int
  smoothedUtilization : Double
  servers : TaskMap String := ∅
  pendingServers : TaskMap String := ∅
  unresponsiveServers : TaskMap Int := ∅
  taskIdCounter : Int := 0
  zkWebServerList : String := ""
  /-- The primer threads that still run. -/
  primers : List (TaskID × String) := []
  /-- The calls of the driver. -/
  sent : List (DriverCall JvmTask) := []
deriving DecidableEq

namespace WebAppScheduler

def unresponsiveRequestLimit : Int := 3

variable {JvmTask Double : Type}

/-- Kills a server and forgets it. -/
def killServer (scheduler : WebAppScheduler JvmTask Double) (taskId : TaskID) : WebAppScheduler JvmTask Double :=
  { scheduler with
    sent := scheduler.sent ++ [.killTask taskId]
    servers := scheduler.servers.erase taskId }

def updateZooWebServerList (scheduler : WebAppScheduler JvmTask Double) : WebAppScheduler JvmTask Double :=
  { scheduler with zkWebServerList := "\n".intercalate (scheduler.servers.entries.map Sigma.snd) }

/-- The number that is passed is not used: the victims are counted by the field. -/
def killTasks (scheduler : WebAppScheduler JvmTask Double) (_numServers : Int) : WebAppScheduler JvmTask Double :=
  let toKill := scheduler.servers.keys.take scheduler.numToKill.toNat
  updateZooWebServerList (toKill.foldl killServer scheduler)

section Monitor

variable [Add Double] [Sub Double] [Mul Double] [Div Double] [LT Double] [DecidableLT Double]
  [OfScientific Double] [IntCast Double] (ceilToInt : Double → Int)

/-- A server is asked for its utilisation; there is none when the request fails. -/
def probe (reading : TaskID → Option Double) (round : WebAppScheduler JvmTask Double × List Double)
    (taskId : TaskID) : WebAppScheduler JvmTask Double × List Double :=
  let (scheduler, stats) := round
  match reading taskId with
  | some cpuUtilization =>
      ({ scheduler with unresponsiveServers := scheduler.unresponsiveServers.erase taskId },
        stats ++ [cpuUtilization])
  | none =>
      let failures := int32 ((scheduler.unresponsiveServers.lookup taskId).getD 0 + 1)
      let counted := { scheduler with unresponsiveServers := scheduler.unresponsiveServers.insert taskId failures }
      (if failures > unresponsiveRequestLimit then killServer counted taskId else counted, stats ++ [0.0])

def collect (scheduler : WebAppScheduler JvmTask Double) (reading : TaskID → Option Double) :
    WebAppScheduler JvmTask Double × List Double :=
  scheduler.servers.keys.foldl (probe reading) (scheduler, [])

/-- Utilisation that rises weighs more than what falls. -/
def smooth (smoothedUtilization totalUtilization : Double) : Double :=
  if totalUtilization > smoothedUtilization then
    smoothedUtilization + (totalUtilization - smoothedUtilization) * 0.9
  else smoothedUtilization + (totalUtilization - smoothedUtilization) * 0.05

def targetFor (minServers : Int) (smoothedUtilization : Double) : Int :=
  max minServers (ceilToInt (smoothedUtilization / 0.40))

def monitorRound (scheduler : WebAppScheduler JvmTask Double) (reading : TaskID → Option Double) :
    WebAppScheduler JvmTask Double :=
  let (collected, stats) := collect scheduler reading
  let smoothed := smooth collected.smoothedUtilization (stats.foldl (· + ·) 0.0)
  let target := targetFor ceilToInt collected.minServers smoothed
  let monitored := { collected with smoothedUtilization := smoothed, targetNumServers := target }
  let numToKill := (monitored.servers.keys.length : Int) - ceilToInt (target : Double)
  if numToKill > 0 then killTasks monitored numToKill else monitored

end Monitor

variable (taskName : JvmTask → String)

/-- Whether an offer is taken. -/
def Wanting (scheduler : WebAppScheduler JvmTask Double) : Prop :=
  (scheduler.servers.keys.length : Int) + scheduler.pendingServers.keys.length < scheduler.targetNumServers

instance (scheduler : WebAppScheduler JvmTask Double) : Decidable scheduler.Wanting :=
  inferInstanceAs (Decidable (_ < _))

def resourceOffer (scheduler : WebAppScheduler JvmTask Double) (offer : Offer) : WebAppScheduler JvmTask Double :=
  if scheduler.Wanting then
    let newTaskId : TaskID := ⟨scheduler.taskIdCounter⟩
    let task : TaskDescription JvmTask :=
      { taskId := newTaskId
        slaveId := offer.slaveId
        resources := offer.resources
        name := taskName scheduler.webAppTask
        data := scheduler.webAppTask }
    { scheduler with
      taskIdCounter := int32 (scheduler.taskIdCounter + 1)
      pendingServers := scheduler.pendingServers.insert newTaskId offer.hostname
      primers := (newTaskId, offer.hostname) :: scheduler.primers
      sent := scheduler.sent ++ [.launchTasks offer.id [task]] }
  else scheduler

def resourceOffers (scheduler : WebAppScheduler JvmTask Double) (offers : List Offer) :
    WebAppScheduler JvmTask Double :=
  offers.foldl (resourceOffer taskName) scheduler

/-- A primer thread has had enough answers. -/
def primerUp (scheduler : WebAppScheduler JvmTask Double) (primer : TaskID × String) :
    WebAppScheduler JvmTask Double :=
  updateZooWebServerList
    { scheduler with
      servers := scheduler.servers.insert primer.1 primer.2
      pendingServers := scheduler.pendingServers.erase primer.1
      primers := scheduler.primers.erase primer }

/-- A primer thread has waited too long. -/
def primerTimeout (scheduler : WebAppScheduler JvmTask Double) (primer : TaskID × String) :
    WebAppScheduler JvmTask Double :=
  { scheduler with
    sent := scheduler.sent ++ [.killTask primer.1]
    pendingServers := scheduler.pendingServers.erase primer.1
    primers := scheduler.primers.erase primer }

inductive Event (Double : Type) where
  | monitor (reading : TaskID → Option Double)
  | offers (batch : List Offer)
  | up (primer : TaskID × String)
  | timeout (primer : TaskID × String)

variable [Add Double] [Sub Double] [Mul Double] [Div Double] [LT Double] [DecidableLT Double]
  [OfScientific Double] [IntCast Double] (ceilToInt : Double → Int)

/-- A primer thread that does not run does nothing. -/
def step (scheduler : WebAppScheduler JvmTask Double) : Event Double → WebAppScheduler JvmTask Double
  | .monitor reading => monitorRound ceilToInt scheduler reading
  | .offers batch => resourceOffers taskName scheduler batch
  | .up primer => if primer ∈ scheduler.primers then primerUp scheduler primer else scheduler
  | .timeout primer => if primer ∈ scheduler.primers then primerTimeout scheduler primer else scheduler

/-- The scheduler as it is constructed. -/
def start (webAppTask : JvmTask) (minServers : Int) : WebAppScheduler JvmTask Double :=
  { webAppTask, minServers, targetNumServers := minServers, smoothedUtilization := 0.0 }

def run (webAppTask : JvmTask) (minServers : Int) (events : List (Event Double)) : WebAppScheduler JvmTask Double :=
  events.foldl (step taskName ceilToInt) (start webAppTask minServers)

end WebAppScheduler

end Scads.Deploylib
