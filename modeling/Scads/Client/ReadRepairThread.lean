import Scads.Client.GetHandler
import Scads.Client.RangeHandle
import Scads.Data.Runs

namespace Scads.Client

open Scads.Comm Scads.Data

/-! # The read repair thread

One thread takes the handlers of all reads from a queue and finishes them.
-/

inductive RequestHandler (S K : Type) where
  | get (handler : GetHandler S K)
  | range (handle : RangeHandle S K)

section

variable {S K : Type} [DecidableEq S] [LinearOrder K]

def RequestHandler.finish : RequestHandler S K → Except Failure (List (S × PutRequest K Value))
  | .get handler => handler.finish
  | .range handle => handle.finish

def RequestHandler.Throws (handler : RequestHandler S K) : Prop := handler.finish.isOk = false

instance (handler : RequestHandler S K) : Decidable handler.Throws := inferInstanceAs (Decidable (_ = _))

end

/-- The queue and its thread.  The handlers that the queue took, those that the thread
called `finish` on and the repairs that were sent are on record. -/
structure ReadRepair (S K : Type) where
  awaitingReadRepair : List (RequestHandler S K) := []
  running : Bool := true
  put : List (RequestHandler S K) := []
  finished : List (RequestHandler S K) := []
  sent : List (S × PutRequest K Value) := []

def awaitingCapacity : Nat := 1024

inductive RepairEvent (S K : Type) where
  | offer (handler : RequestHandler S K)
  | turn

namespace ReadRepair

variable {S K : Type} [DecidableEq S] [LinearOrder K]

/-- `offer` drops a handler that the queue has no room for. -/
def offer (state : ReadRepair S K) (handler : RequestHandler S K) : ReadRepair S K :=
  if state.awaitingReadRepair.length < awaitingCapacity then
    { state with
      awaitingReadRepair := state.awaitingReadRepair ++ [handler]
      put := state.put ++ [handler] }
  else state

/-- `take` and `finish`.  Nothing catches what `finish` throws, so the thread ends with it. -/
def turn (state : ReadRepair S K) (handler : RequestHandler S K) (rest : List (RequestHandler S K)) :
    ReadRepair S K :=
  let state := { state with awaitingReadRepair := rest, finished := state.finished ++ [handler] }
  match handler.finish with
  | .ok sent => { state with sent := state.sent ++ sent }
  | .error _ => { state with running := false }

def step (state : ReadRepair S K) : RepairEvent S K → Option (ReadRepair S K)
  | .offer handler => some (state.offer handler)
  | .turn =>
      match state.running, state.awaitingReadRepair with
      | true, handler :: rest => some (state.turn handler rest)
      | _, _ => none

/-- The thread waits for a handler or has ended. -/
def Quiet (state : ReadRepair S K) : Prop := state.step .turn = none

/-- Of the handlers that the queue took only such are left as would throw. -/
def OthersFinished (state : ReadRepair S K) : Prop :=
  ∃ left, state.put = state.finished ++ left ∧ ∀ handler ∈ left, handler.Throws

/-- The handlers are finished in their order, and the thread ends with the first that throws. -/
structure InTurn (state : ReadRepair S K) : Prop where
  order : state.put = state.finished ++ state.awaitingReadRepair
  alive : state.running = true → ∀ handler ∈ state.finished, ¬ handler.Throws
  ended : state.running = false → ∃ before last, state.finished = before ++ [last] ∧ last.Throws ∧
    ∀ handler ∈ before, ¬ handler.Throws

variable {state next final : ReadRepair S K} {events : List (RepairEvent S K)}

theorem offer_inTurn (inTurn : state.InTurn) (handler : RequestHandler S K) : (state.offer handler).InTurn := by
  rw [offer]
  split
  · refine ⟨?_, inTurn.alive, inTurn.ended⟩
    simp only [inTurn.order, List.append_assoc]
  · exact inTurn

theorem turn_inTurn (inTurn : state.InTurn) (running : state.running = true) {handler : RequestHandler S K}
    {rest : List (RequestHandler S K)} (waiting : state.awaitingReadRepair = handler :: rest) :
    (state.turn handler rest).InTurn := by
  have order : state.put = (state.finished ++ [handler]) ++ rest := by
    rw [inTurn.order, waiting, List.append_assoc]
    rfl
  have before := inTurn.alive running
  cases done : handler.finish with
  | ok sent =>
      have returns : ¬ handler.Throws := by
        rw [RequestHandler.Throws, done]
        exact Bool.noConfusion
      rw [turn, done]
      refine ⟨order, fun _ other member => ?_, fun ended => absurd (running.symm.trans ended) Bool.noConfusion⟩
      cases List.mem_append.mp member with
      | inl earlier => exact before other earlier
      | inr last => rwa [List.mem_singleton.mp last]
  | error failure =>
      have throws : handler.Throws := by
        rw [RequestHandler.Throws, done]
        rfl
      rw [turn, done]
      exact ⟨order, fun alive => Bool.noConfusion alive, fun _ => ⟨state.finished, handler, rfl, throws, before⟩⟩

theorem step_inTurn {event : RepairEvent S K} (inTurn : state.InTurn) (taken : state.step event = some next) :
    next.InTurn := by
  cases event with
  | offer handler =>
      cases taken
      exact offer_inTurn inTurn handler
  | turn =>
      rw [step] at taken
      split at taken
      · next handler rest running waiting =>
          cases taken
          exact turn_inTurn inTurn running waiting
      · cases taken

theorem run_inTurn (ran : run step ({} : ReadRepair S K) events = some final) : final.InTurn :=
  run_invariant (fun _ inTurn taken => step_inTurn inTurn taken) ran (fun _ _ => trivial)
    ⟨rfl, fun _ => List.forall_mem_nil _, fun ended => Bool.noConfusion ended⟩

/-- A thread that waits has finished everything. -/
theorem Quiet.waits (quiet : state.Quiet) (running : state.running = true) : state.awaitingReadRepair = [] := by
  cases waiting : state.awaitingReadRepair with
  | nil => rfl
  | cons handler rest =>
      rw [Quiet, step, running, waiting] at quiet
      cases quiet

/-- However offers and turns follow each other: once the thread has no turn left, `finish` was
called on all handlers that would not throw exactly if none of them stands behind one that throws. -/
theorem others_finished_iff (ran : run step ({} : ReadRepair S K) events = some final) (quiet : final.Quiet) :
    final.OthersFinished ↔ final.put.Pairwise fun earlier later => earlier.Throws → later.Throws := by
  have inTurn := run_inTurn ran
  cases running : final.running with
  | true =>
      have all : final.put = final.finished := by
        rw [inTurn.order, quiet.waits running, List.append_nil]
      refine iff_of_true ⟨[], by rw [all, List.append_nil], List.forall_mem_nil _⟩ ?_
      rw [all]
      exact List.pairwise_of_forall_mem_list fun earlier member _ _ throws =>
        absurd throws (inTurn.alive running earlier member)
  | false =>
      obtain ⟨before, last, cut, throws, returned⟩ := inTurn.ended running
      have order : final.put = before ++ (last :: final.awaitingReadRepair) := by
        rw [inTurn.order, cut, List.append_assoc]
        rfl
      constructor
      · intro finished
        obtain ⟨left, whole, throwing⟩ := finished
        have same : left = final.awaitingReadRepair := List.append_cancel_left (whole.symm.trans inTurn.order)
        subst same
        rw [order, List.pairwise_append, List.pairwise_cons]
        refine ⟨List.pairwise_of_forall_mem_list fun earlier member _ _ thrown => absurd thrown (returned earlier member),
          ⟨fun later member _ => throwing later member,
            List.pairwise_of_forall_mem_list fun _ _ later member _ => throwing later member⟩,
          fun earlier member _ _ thrown => absurd thrown (returned earlier member)⟩
      · intro sorted
        rw [order, List.pairwise_append, List.pairwise_cons] at sorted
        exact ⟨final.awaitingReadRepair, inTurn.order, fun handler member => sorted.2.1.1 handler member throws⟩

/-- An unexpected reply to one read leaves the next one unrepaired. -/
theorem reader_left_behind :
    let failing : RequestHandler Nat Nat := .get ⟨1, 1, [(1, .processingException "failed" "")], [], [], none, 0, false⟩
    let returning : RequestHandler Nat Nat := .get ⟨1, 1, [(1, .getResponse none)], [], [], none, 0, false⟩
    ∃ final, run step {} [.offer failing, .offer returning, .turn] = some final ∧ final.Quiet ∧
      final.put = [failing, returning] ∧ ¬ returning.Throws ∧ ¬ final.OthersFinished := by
  intro failing returning
  have finishing : ¬ returning.Throws := by decide
  refine ⟨_, rfl, rfl, rfl, finishing, ?_⟩
  intro finished
  obtain ⟨left, whole, throwing⟩ := finished
  have left_eq : [returning] = left := (List.cons.inj whole).2
  exact finishing (throwing returning (left_eq ▸ List.mem_singleton.mpr rfl))

theorem failing_reader_last :
    let failing : RequestHandler Nat Nat := .get ⟨1, 1, [(1, .processingException "failed" "")], [], [], none, 0, false⟩
    let returning : RequestHandler Nat Nat := .get ⟨1, 1, [(1, .getResponse none)], [], [], none, 0, false⟩
    ∃ final, run step {} [.offer returning, .turn, .offer failing, .turn] = some final ∧ final.OthersFinished := by
  intro failing returning
  refine ⟨_, rfl, (@others_finished_iff _ _ _ _ _ [.offer returning, .turn, .offer failing, .turn] rfl rfl).mpr ?_⟩
  refine .cons ?_ (List.pairwise_singleton _ _)
  intro later member throws
  exact absurd throws (by decide)

end ReadRepair

end Scads.Client
