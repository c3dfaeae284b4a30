import Mathlib.Data.List.Induction
import Scads.Deploylib.ExperimentRuns
import Scads.Deploylib.WebAppScheduler

namespace Scads.Deploylib.WebAppScheduler

open Scads.Data
open ExperimentScheduler (launchedTasks launchedTasks_append idAt idAt_injective int32_succ)

/-! # How the servers of a web application are scaled -/

section

variable {JvmTask Double : Type}

@[simp]
theorem keys_killServer (scheduler : WebAppScheduler JvmTask Double) (taskId : TaskID) :
    (killServer scheduler taskId).servers.keys = scheduler.servers.keys.filter (· ≠ taskId) := by
  rw [killServer, AList.keys_erase, scheduler.servers.keys_nodup.erase_eq_filter]
  exact List.filter_congr fun other _ => Bool.eq_iff_iff.mpr (by simp)

theorem killTasks_none {scheduler : WebAppScheduler JvmTask Double} (none : scheduler.numToKill = 0)
    (numServers : Int) : killTasks scheduler numServers = updateZooWebServerList scheduler := by
  rw [killTasks, none]
  rfl

/-- A server that does not answer is kept until it has failed too often. -/
def kept (scheduler : WebAppScheduler JvmTask Double) (reading : TaskID → Option Double) (taskId : TaskID) : Bool :=
  (reading taskId).isSome ||
    int32 ((scheduler.unresponsiveServers.lookup taskId).getD 0 + 1) ≤ unresponsiveRequestLimit

def keptServers (scheduler : WebAppScheduler JvmTask Double) (reading : TaskID → Option Double) : List TaskID :=
  scheduler.servers.keys.filter (kept scheduler reading)

/-- What a probe changes, apart from the count of failures. -/
structure Probed (before after : WebAppScheduler JvmTask Double) : Prop where
  minServers : after.minServers = before.minServers
  numToKill : after.numToKill = before.numToKill
  smoothed : after.smoothedUtilization = before.smoothedUtilization
  pending : after.pendingServers = before.pendingServers
  counter : after.taskIdCounter = before.taskIdCounter
  primers : after.primers = before.primers
  launched : launchedTasks after.sent = launchedTasks before.sent

theorem Probed.trans {first second third : WebAppScheduler JvmTask Double} (one : Probed first second)
    (two : Probed second third) : Probed first third :=
  { minServers := two.minServers.trans one.minServers
    numToKill := two.numToKill.trans one.numToKill
    smoothed := two.smoothed.trans one.smoothed
    pending := two.pending.trans one.pending
    counter := two.counter.trans one.counter
    primers := two.primers.trans one.primers
    launched := two.launched.trans one.launched }

end

section Collecting

variable {JvmTask Double : Type} [OfScientific Double] (reading : TaskID → Option Double)

theorem probe_probed (scheduler : WebAppScheduler JvmTask Double) (stats : List Double) (taskId : TaskID) :
    Probed scheduler (probe reading (scheduler, stats) taskId).1 := by
  cases answer : reading taskId with
  | some cpuUtilization => simp only [probe, answer]; exact ⟨rfl, rfl, rfl, rfl, rfl, rfl, rfl⟩
  | none =>
      simp only [probe, answer]
      split
      · refine ⟨rfl, rfl, rfl, rfl, rfl, rfl, ?_⟩
        simp [killServer, launchedTasks, ExperimentScheduler.DriverCall.tasks]
      · exact ⟨rfl, rfl, rfl, rfl, rfl, rfl, rfl⟩

theorem probe_servers (scheduler : WebAppScheduler JvmTask Double) (stats : List Double) (taskId : TaskID) :
    (probe reading (scheduler, stats) taskId).1.servers.keys =
      scheduler.servers.keys.filter fun other => other ≠ taskId || kept scheduler reading taskId := by
  cases answer : reading taskId with
  | some cpuUtilization => simp [probe, answer, kept]
  | none =>
      by_cases many : int32 ((scheduler.unresponsiveServers.lookup taskId).getD 0 + 1) > unresponsiveRequestLimit
      · have few : ¬ int32 ((scheduler.unresponsiveServers.lookup taskId).getD 0 + 1) ≤ unresponsiveRequestLimit := by
          omega
        simp [probe, answer, kept, many, few]
      · have few : int32 ((scheduler.unresponsiveServers.lookup taskId).getD 0 + 1) ≤ unresponsiveRequestLimit := by
          omega
        simp [probe, answer, kept, many, few]

theorem probe_kept (scheduler : WebAppScheduler JvmTask Double) (stats : List Double) {taskId other : TaskID}
    (different : other ≠ taskId) :
    kept (probe reading (scheduler, stats) taskId).1 reading other = kept scheduler reading other := by
  have same : (probe reading (scheduler, stats) taskId).1.unresponsiveServers.lookup other =
      scheduler.unresponsiveServers.lookup other := by
    cases answer : reading taskId with
    | some cpuUtilization => simp only [probe, answer, AList.lookup_erase_ne different]
    | none =>
        simp only [probe, answer]
        split <;> exact AList.lookup_insert_ne different
  rw [kept, kept, same]

theorem probe_stats (scheduler : WebAppScheduler JvmTask Double) (stats : List Double) (taskId : TaskID) :
    (probe reading (scheduler, stats) taskId).2 = stats ++ [(reading taskId).getD 0.0] := by
  cases answer : reading taskId with
  | some cpuUtilization => simp [probe, answer]
  | none => simp [probe, answer]

theorem foldl_probe (scheduler : WebAppScheduler JvmTask Double) (stats : List Double) {ids : List TaskID}
    (distinct : ids.Nodup) :
    Probed scheduler (ids.foldl (probe reading) (scheduler, stats)).1 ∧
      (ids.foldl (probe reading) (scheduler, stats)).1.servers.keys =
        scheduler.servers.keys.filter (fun other => other ∉ ids || kept scheduler reading other) ∧
      (ids.foldl (probe reading) (scheduler, stats)).2 = stats ++ ids.map fun id => (reading id).getD 0.0 := by
  induction ids generalizing scheduler stats with
  | nil => exact ⟨⟨rfl, rfl, rfl, rfl, rfl, rfl, rfl⟩, by simp, by simp⟩
  | cons id ids ih =>
      obtain ⟨fresh, others⟩ := List.nodup_cons.mp distinct
      have next : probe reading (scheduler, stats) id =
          ((probe reading (scheduler, stats) id).1, stats ++ [(reading id).getD 0.0]) :=
        Prod.ext rfl (probe_stats reading scheduler stats id)
      rw [List.foldl_cons, next]
      obtain ⟨probed, servers, read⟩ :=
        ih (probe reading (scheduler, stats) id).1 (stats ++ [(reading id).getD 0.0]) others
      refine ⟨(probe_probed reading scheduler stats id).trans probed, ?_, by simpa using read⟩
      rw [servers, probe_servers, List.filter_filter]
      refine List.filter_congr fun other _ => ?_
      by_cases same : other = id
      · subst same
        simp [fresh]
      · rw [probe_kept reading scheduler stats same]
        simp [same]

theorem collect_collected (scheduler : WebAppScheduler JvmTask Double) :
    Probed scheduler (collect scheduler reading).1 ∧
      (collect scheduler reading).1.servers.keys = keptServers scheduler reading ∧
      (collect scheduler reading).2 = scheduler.servers.keys.map fun id => (reading id).getD 0.0 := by
  obtain ⟨probed, servers, read⟩ := foldl_probe reading scheduler [] scheduler.servers.keys_nodup
  rw [List.nil_append] at read
  refine ⟨probed, ?_, read⟩
  rw [collect, servers, keptServers]
  refine List.filter_congr fun other member => ?_
  simp [member]

end Collecting

section Rounds

variable {JvmTask Double : Type} [Add Double] [Sub Double] [Mul Double] [Div Double] [LT Double] [DecidableLT Double]
  [OfScientific Double] [IntCast Double] (ceilToInt : Double → Int) (reading : TaskID → Option Double)

/-- The target that the round sets. -/
def nextTarget (scheduler : WebAppScheduler JvmTask Double) : Int :=
  let stats := scheduler.servers.keys.map fun id => (reading id).getD 0.0
  targetFor ceilToInt scheduler.minServers (smooth scheduler.smoothedUtilization (stats.foldl (· + ·) 0.0))

/-- As the count of victims is zero, a round kills none but the unresponsive servers. -/
theorem monitorRound_outcome {scheduler : WebAppScheduler JvmTask Double} (none : scheduler.numToKill = 0) :
    (monitorRound ceilToInt scheduler reading).servers.keys = keptServers scheduler reading ∧
      (monitorRound ceilToInt scheduler reading).targetNumServers = nextTarget ceilToInt reading scheduler ∧
      (monitorRound ceilToInt scheduler reading).pendingServers = scheduler.pendingServers ∧
      (monitorRound ceilToInt scheduler reading).numToKill = 0 ∧
      (monitorRound ceilToInt scheduler reading).taskIdCounter = scheduler.taskIdCounter ∧
      (monitorRound ceilToInt scheduler reading).primers = scheduler.primers ∧
      launchedTasks (monitorRound ceilToInt scheduler reading).sent = launchedTasks scheduler.sent := by
  obtain ⟨probed, servers, read⟩ := collect_collected reading scheduler
  have target : targetFor ceilToInt (collect scheduler reading).1.minServers
      (smooth (collect scheduler reading).1.smoothedUtilization ((collect scheduler reading).2.foldl (· + ·) 0.0)) =
        nextTarget ceilToInt reading scheduler := by
    rw [probed.minServers, probed.smoothed, read]
    rfl
  simp only [monitorRound, target]
  split
  · rw [killTasks_none]
    case none => exact probed.numToKill.trans none
    exact ⟨servers, rfl, probed.pending, probed.numToKill.trans none, probed.counter, probed.primers,
      probed.launched⟩
  · exact ⟨servers, rfl, probed.pending, probed.numToKill.trans none, probed.counter, probed.primers,
      probed.launched⟩

end Rounds

section Offers

variable {JvmTask Double : Type} (taskName : JvmTask → String)

theorem resourceOffer_servers (scheduler : WebAppScheduler JvmTask Double) (offer : Offer) :
    (resourceOffer taskName scheduler offer).servers = scheduler.servers := by
  rw [resourceOffer]
  split <;> rfl

theorem resourceOffers_servers (scheduler : WebAppScheduler JvmTask Double) (offers : List Offer) :
    (resourceOffers taskName scheduler offers).servers = scheduler.servers := by
  induction offers generalizing scheduler with
  | nil => rfl
  | cons offer rest ih => exact (ih _).trans (resourceOffer_servers taskName scheduler offer)

theorem resourceOffer_pending (scheduler : WebAppScheduler JvmTask Double) (offer : Offer) (id : TaskID) :
    id ∈ (resourceOffer taskName scheduler offer).pendingServers ↔
      id ∈ scheduler.pendingServers ∨ (scheduler.Wanting ∧ id = ⟨scheduler.taskIdCounter⟩) := by
  rw [resourceOffer]
  split
  · next wanting =>
      simp only [AList.mem_insert, wanting, true_and]
      exact or_comm
  · next content => simp [content]

/-- A pending server is older than the offers or comes from one of them. -/
theorem resourceOffers_pending (scheduler : WebAppScheduler JvmTask Double) (offers : List Offer) (id : TaskID) :
    id ∈ (resourceOffers taskName scheduler offers).pendingServers ↔ id ∈ scheduler.pendingServers ∨
      ∃ first offer rest, offers = first ++ offer :: rest ∧ (resourceOffers taskName scheduler first).Wanting ∧
        id = ⟨(resourceOffers taskName scheduler first).taskIdCounter⟩ := by
  induction offers using List.reverseRecOn with
  | nil => simp [resourceOffers]
  | append_singleton offers last ih =>
      have snoc : resourceOffers taskName scheduler (offers ++ [last]) =
          resourceOffer taskName (resourceOffers taskName scheduler offers) last := by
        rw [resourceOffers, List.foldl_append]
        rfl
      rw [snoc, resourceOffer_pending, ih]
      constructor
      · intro found
        obtain (old | ⟨first, offer, rest, rfl, launched⟩) | launched := found
        · exact .inl old
        · exact .inr ⟨first, offer, rest ++ [last], by simp, launched⟩
        · exact .inr ⟨offers, last, [], rfl, launched⟩
      · intro found
        obtain old | ⟨first, offer, rest, cut, launched⟩ := found
        · exact .inl (.inl old)
        · cases rest using List.reverseRecOn with
          | nil =>
              obtain ⟨rfl, -⟩ := List.append_inj' cut rfl
              exact .inr launched
          | append_singleton rest final =>
              rw [← List.cons_append, ← List.append_assoc] at cut
              obtain ⟨rfl, -⟩ := List.append_inj' cut rfl
              exact .inl (.inr ⟨first, offer, rest, rfl, launched⟩)

theorem resourceOffer_wanting {scheduler : WebAppScheduler JvmTask Double} {offer : Offer}
    (launched : (resourceOffer taskName scheduler offer).sent ≠ scheduler.sent) : scheduler.Wanting := by
  by_contra content
  rw [resourceOffer, if_neg content] at launched
  exact launched rfl

theorem resourceOffer_launches (scheduler : WebAppScheduler JvmTask Double) (offer : Offer) :
    (launchedTasks (resourceOffer taskName scheduler offer).sent).length =
      (launchedTasks scheduler.sent).length + if scheduler.Wanting then 1 else 0 := by
  rw [resourceOffer]
  split
  · simp [launchedTasks, ExperimentScheduler.DriverCall.tasks]
  · rfl

theorem resourceOffers_launches (scheduler : WebAppScheduler JvmTask Double) (offers : List Offer) :
    (launchedTasks scheduler.sent).length ≤ (launchedTasks (resourceOffers taskName scheduler offers).sent).length := by
  induction offers generalizing scheduler with
  | nil => exact Nat.le_refl _
  | cons offer rest ih =>
      refine Nat.le_trans ?_ (ih _)
      rw [resourceOffer_launches]
      omega

/-- The servers carry ids of tasks that were launched. -/
structure Numbered (scheduler : WebAppScheduler JvmTask Double) : Prop where
  counter : scheduler.taskIdCounter = int32 (launchedTasks scheduler.sent).length
  servers : ∀ id, id ∈ scheduler.servers → ∃ position < (launchedTasks scheduler.sent).length, id = idAt position
  primers : ∀ primer ∈ scheduler.primers,
    ∃ position < (launchedTasks scheduler.sent).length, primer.1 = idAt position

theorem Numbered.resourceOffer {scheduler : WebAppScheduler JvmTask Double} (numbered : scheduler.Numbered)
    (offer : Offer) : (resourceOffer taskName scheduler offer).Numbered := by
  rw [WebAppScheduler.resourceOffer]
  split
  · have size (task : TaskDescription JvmTask) :
        (launchedTasks (scheduler.sent ++ [.launchTasks offer.id [task]])).length =
          (launchedTasks scheduler.sent).length + 1 := by
      simp [launchedTasks, ExperimentScheduler.DriverCall.tasks]
    constructor
    case counter =>
      simp only [size, numbered.counter, int32_succ]
      norm_cast
    case servers =>
      intro id member
      obtain ⟨position, early, same⟩ := numbered.servers id member
      exact ⟨position, by simp only [size]; omega, same⟩
    case primers =>
      intro primer member
      cases List.mem_cons.mp member with
      | inl new =>
          refine ⟨_, by simp only [size]; exact Nat.lt_succ_self _, ?_⟩
          rw [new, numbered.counter]
          rfl
      | inr old =>
          obtain ⟨position, early, same⟩ := numbered.primers primer old
          exact ⟨position, by simp only [size]; omega, same⟩
  · exact numbered

end Offers

section Runs

variable {JvmTask Double : Type} [Add Double] [Sub Double] [Mul Double] [Div Double] [LT Double] [DecidableLT Double]
  [OfScientific Double] [IntCast Double] (taskName : JvmTask → String) (ceilToInt : Double → Int)
  (webAppTask : JvmTask) (minServers : Int)

def Apart (scheduler : WebAppScheduler JvmTask Double) : Prop :=
  ∀ id, id ∈ scheduler.servers → id ∉ scheduler.pendingServers

/-- A round has no server to kill but the unresponsive ones, and no offer is taken for the
id of a server that is up. -/
def Fits (scheduler : WebAppScheduler JvmTask Double) : Event Double → Prop
  | .monitor reading => ((keptServers scheduler reading).length : Int) ≤ nextTarget ceilToInt reading scheduler
  | .offers batch => ∀ first offer rest, batch = first ++ offer :: rest →
      (resourceOffers taskName scheduler first).Wanting →
        (⟨(resourceOffers taskName scheduler first).taskIdCounter⟩ : TaskID) ∉ scheduler.servers
  | .up _ => True
  | .timeout _ => True

theorem step_numToKill {scheduler : WebAppScheduler JvmTask Double} (none : scheduler.numToKill = 0)
    (event : Event Double) : (step taskName ceilToInt scheduler event).numToKill = 0 := by
  cases event with
  | monitor reading => exact (monitorRound_outcome ceilToInt reading none).2.2.2.1
  | offers batch =>
      rw [step]
      induction batch generalizing scheduler with
      | nil => exact none
      | cons offer rest ih =>
          refine ih ?_
          rw [resourceOffer]
          split <;> exact none
  | up primer =>
      rw [step]
      split <;> exact none
  | timeout primer =>
      rw [step]
      split <;> exact none

theorem step_apart {scheduler : WebAppScheduler JvmTask Double} (none : scheduler.numToKill = 0)
    (apart : scheduler.Apart) {event : Event Double} (fits : Fits taskName ceilToInt scheduler event) :
    (step taskName ceilToInt scheduler event).Apart := by
  intro id serving waiting
  cases event with
  | monitor reading =>
      obtain ⟨servers, -, pending, -⟩ := monitorRound_outcome ceilToInt reading none
      rw [step, AList.mem_keys, servers] at serving
      rw [step, pending] at waiting
      exact apart id (AList.mem_keys.mpr (List.mem_of_mem_filter serving)) waiting
  | offers batch =>
      rw [step, resourceOffers_servers] at serving
      rw [step, resourceOffers_pending] at waiting
      obtain old | ⟨first, offer, rest, cut, wanting, rfl⟩ := waiting
      · exact apart id serving old
      · exact fits first offer rest cut wanting serving
  | up primer =>
      rw [step] at serving waiting
      split at serving
      · next running =>
          rw [if_pos running] at waiting
          simp only [primerUp, updateZooWebServerList, AList.mem_insert, AList.mem_erase] at serving waiting
          exact apart id (serving.resolve_left waiting.1) waiting.2
      · next gone =>
          rw [if_neg gone] at waiting
          exact apart id serving waiting
  | timeout primer =>
      rw [step] at serving waiting
      split at serving
      · next running =>
          rw [if_pos running] at waiting
          simp only [primerTimeout, AList.mem_erase] at serving waiting
          exact apart id serving waiting.2
      · next gone =>
          rw [if_neg gone] at waiting
          exact apart id serving waiting

theorem run_snoc (events : List (Event Double)) (event : Event Double) :
    run taskName ceilToInt webAppTask minServers (events ++ [event]) =
      step taskName ceilToInt (run taskName ceilToInt webAppTask minServers events) event := by
  rw [run, List.foldl_append]
  rfl

theorem run_numToKill (events : List (Event Double)) :
    (run taskName ceilToInt webAppTask minServers events).numToKill = 0 := by
  induction events using List.reverseRecOn with
  | nil => rfl
  | append_singleton events event ih =>
      rw [run_snoc]
      exact step_numToKill taskName ceilToInt ih event

theorem run_apart (events : List (Event Double))
    (fits : ∀ before event, before ++ [event] <+: events →
      Fits taskName ceilToInt (run taskName ceilToInt webAppTask minServers before) event) :
    (run taskName ceilToInt webAppTask minServers events).Apart := by
  induction events using List.reverseRecOn with
  | nil => exact fun id serving => absurd serving (AList.notMem_empty id)
  | append_singleton events event ih =>
      rw [run_snoc]
      have earlier := ih fun before made first => fits before made (first.trans (List.prefix_append _ _))
      exact step_apart taskName ceilToInt (run_numToKill taskName ceilToInt webAppTask minServers events) earlier
        (fits events event List.prefix_rfl)

/-- What a run of the scheduler should keep to. -/
structure Scales (events : List (Event Double)) : Prop where
  launching : ∀ before event, before ++ [event] <+: events →
    launchedTasks (run taskName ceilToInt webAppTask minServers (before ++ [event])).sent ≠
      launchedTasks (run taskName ceilToInt webAppTask minServers before).sent → ∃ batch, event = .offers batch
  wanting : ∀ before first offer rest, before ++ [.offers (first ++ offer :: rest)] <+: events →
    let scheduler := resourceOffers taskName (run taskName ceilToInt webAppTask minServers before) first
    (resourceOffer taskName scheduler offer).sent ≠ scheduler.sent →
      (scheduler.servers.keys.length : Int) + scheduler.pendingServers.keys.length < scheduler.targetNumServers
  apart : ∀ earlier, earlier <+: events → ∀ id,
    id ∈ (run taskName ceilToInt webAppTask minServers earlier).servers →
      id ∉ (run taskName ceilToInt webAppTask minServers earlier).pendingServers
  bounded : ∀ before reading, before ++ [.monitor reading] <+: events →
    let scheduler := run taskName ceilToInt webAppTask minServers (before ++ [.monitor reading])
    (scheduler.servers.keys.length : Int) ≤ scheduler.targetNumServers

theorem step_launching {scheduler : WebAppScheduler JvmTask Double} (none : scheduler.numToKill = 0)
    (event : Event Double) (more : launchedTasks (step taskName ceilToInt scheduler event).sent ≠
      launchedTasks scheduler.sent) : ∃ batch, event = .offers batch := by
  cases event with
  | monitor reading => exact absurd (monitorRound_outcome ceilToInt reading none).2.2.2.2.2.2 more
  | offers batch => exact ⟨batch, rfl⟩
  | up primer =>
      rw [step] at more
      split at more <;> exact absurd rfl more
  | timeout primer =>
      rw [step] at more
      split at more
      · refine absurd ?_ more
        simp [primerTimeout, launchedTasks, ExperimentScheduler.DriverCall.tasks]
      · exact absurd rfl more

theorem scales_of_fits {events : List (Event Double)}
    (fits : ∀ before event, before ++ [event] <+: events →
      Fits taskName ceilToInt (run taskName ceilToInt webAppTask minServers before) event) :
    Scales taskName ceilToInt webAppTask minServers events :=
  { launching := by
      intro before event made more
      rw [run_snoc] at more
      exact step_launching taskName ceilToInt (run_numToKill taskName ceilToInt webAppTask minServers before)
        event more
    wanting := fun _ _ _ _ _ launched => resourceOffer_wanting taskName launched
    apart := fun earlier first => run_apart taskName ceilToInt webAppTask minServers earlier
      fun before event made => fits before event (made.trans first)
    bounded := by
      intro before reading made
      obtain ⟨servers, target, -⟩ := monitorRound_outcome ceilToInt reading
        (run_numToKill taskName ceilToInt webAppTask minServers before)
      have bound := fits before (.monitor reading) made
      rw [run_snoc, step]
      dsimp only
      rw [servers, target]
      exact bound }

theorem Numbered.step {scheduler : WebAppScheduler JvmTask Double} (numbered : scheduler.Numbered)
    (none : scheduler.numToKill = 0) (event : Event Double) :
    (step taskName ceilToInt scheduler event).Numbered := by
  cases event with
  | monitor reading =>
      obtain ⟨servers, -, -, -, counter, primers, launched⟩ := monitorRound_outcome ceilToInt reading none
      rw [WebAppScheduler.step]
      constructor
      case counter => rw [counter, launched, numbered.counter]
      case servers =>
        intro id member
        rw [AList.mem_keys, servers] at member
        rw [launched]
        exact numbered.servers id (AList.mem_keys.mpr (List.mem_of_mem_filter member))
      case primers =>
        rw [primers, launched]
        exact numbered.primers
  | offers batch =>
      rw [WebAppScheduler.step]
      induction batch generalizing scheduler with
      | nil => exact numbered
      | cons offer rest ih =>
          have kept := step_numToKill taskName ceilToInt none (.offers [offer])
          exact ih (numbered.resourceOffer taskName offer) kept
  | up primer =>
      rw [WebAppScheduler.step]
      split
      · next running =>
          constructor
          case counter => exact numbered.counter
          case servers =>
            intro id member
            rw [primerUp, updateZooWebServerList, AList.mem_insert] at member
            obtain rfl | old := member
            · exact numbered.primers primer running
            · exact numbered.servers id old
          case primers => exact fun other member => numbered.primers other (List.mem_of_mem_erase member)
      · exact numbered
  | timeout primer =>
      rw [WebAppScheduler.step]
      split
      · have same : launchedTasks (primerTimeout scheduler primer).sent = launchedTasks scheduler.sent := by
          simp [primerTimeout, launchedTasks, ExperimentScheduler.DriverCall.tasks]
        constructor
        case counter => rw [same]; exact numbered.counter
        case servers => rw [same]; exact numbered.servers
        case primers =>
          rw [same]
          exact fun other member => numbered.primers other (List.mem_of_mem_erase member)
      · exact numbered

theorem run_numbered (events : List (Event Double)) :
    (run taskName ceilToInt webAppTask minServers events).Numbered := by
  induction events using List.reverseRecOn with
  | nil =>
      refine ⟨?_, fun id member => absurd member (AList.notMem_empty id), nofun⟩
      simp [run, start, launchedTasks, ExperimentScheduler.int32_zero]
  | append_singleton events event ih =>
      rw [run_snoc]
      exact ih.step taskName ceilToInt (run_numToKill taskName ceilToInt webAppTask minServers events) event

theorem run_launches (before rest : List (Event Double)) :
    (launchedTasks (run taskName ceilToInt webAppTask minServers before).sent).length ≤
      (launchedTasks (run taskName ceilToInt webAppTask minServers (before ++ rest)).sent).length := by
  induction rest using List.reverseRecOn with
  | nil => rw [List.append_nil]
  | append_singleton rest event ih =>
      refine Nat.le_trans ih ?_
      rw [← List.append_assoc, run_snoc]
      by_cases same : launchedTasks (step taskName ceilToInt
          (run taskName ceilToInt webAppTask minServers (before ++ rest)) event).sent =
            launchedTasks (run taskName ceilToInt webAppTask minServers (before ++ rest)).sent
      · rw [same]
      · obtain ⟨batch, rfl⟩ := step_launching taskName ceilToInt
          (run_numToKill taskName ceilToInt webAppTask minServers (before ++ rest)) event same
        exact resourceOffers_launches taskName _ batch

theorem Numbered.offers {scheduler : WebAppScheduler JvmTask Double} (numbered : scheduler.Numbered)
    (none : scheduler.numToKill = 0) {batch : List Offer}
    (few : (launchedTasks (resourceOffers taskName scheduler batch).sent).length ≤ 2 ^ 32) :
    Fits taskName ceilToInt scheduler (.offers batch) := by
  intro first offer rest cut wanting serving
  have after := numbered.step taskName ceilToInt none (.offers first)
  rw [WebAppScheduler.step] at after
  obtain ⟨position, early, same⟩ := numbered.servers _ serving
  have grown := resourceOffers_launches taskName scheduler first
  have launched : (launchedTasks (resourceOffers taskName scheduler first).sent).length + 1 ≤ 2 ^ 32 := by
    refine Nat.le_trans ?_ few
    have last : resourceOffers taskName scheduler batch =
        resourceOffers taskName
          (WebAppScheduler.resourceOffer taskName (resourceOffers taskName scheduler first) offer) rest := by
      rw [cut, resourceOffers, List.foldl_append]
      rfl
    have one := resourceOffer_launches taskName (resourceOffers taskName scheduler first) offer
    rw [if_pos wanting] at one
    rw [last, ← one]
    exact resourceOffers_launches taskName _ rest
  rw [after.counter] at same
  have number := idAt_injective (by omega) (by omega) same
  omega

/-- As long as the ids do not start over, only the rounds of the monitor matter. -/
theorem scales_of_rounds {events : List (Event Double)}
    (few : (launchedTasks (run taskName ceilToInt webAppTask minServers events).sent).length ≤ 2 ^ 32)
    (rounds : ∀ before reading, before ++ [.monitor reading] <+: events →
      ((keptServers (run taskName ceilToInt webAppTask minServers before) reading).length : Int) ≤
        nextTarget ceilToInt reading (run taskName ceilToInt webAppTask minServers before)) :
    Scales taskName ceilToInt webAppTask minServers events := by
  refine scales_of_fits taskName ceilToInt webAppTask minServers fun before event made => ?_
  cases event with
  | monitor reading => exact rounds before reading made
  | offers batch =>
      obtain ⟨rest, rfl⟩ := made
      have start := run_launches taskName ceilToInt webAppTask minServers (before ++ [.offers batch]) rest
      rw [run_snoc] at start
      exact (run_numbered taskName ceilToInt webAppTask minServers before).offers taskName ceilToInt
        (run_numToKill taskName ceilToInt webAppTask minServers before) (Nat.le_trans start few)
  | up primer => trivial
  | timeout primer => trivial

end Runs

def ready (number : Int) : Event Rat := .up (⟨number⟩, "host")

end Scads.Deploylib.WebAppScheduler
