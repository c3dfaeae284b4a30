import Mathlib.Logic.Function.Basic
import Mathlib.Data.List.Infix
import Scads.Data.Runs
import Scads.Server.Database
import Scads.Client.GetHandler

namespace Scads.Protocol

open Scads.Data Scads.Comm Scads.Server Scads.Client

/-! # Replicas, clients and the messages between them

The replicas of one partition, the `putBytes` and `getBytes` calls of any number
of clients, and the read repair that follows a get.  Every request travels to
each replica on its own; an event is the next thing that happens to one of them.
-/

/-- A `PutRequest` on its way to one replica, with the `putBytes` call that sent
it.  Repairs belong to no call. -/
structure Delivery (K : Type) where
  request : PutRequest K Value
  put : Option Nat
deriving DecidableEq

/-- The reply of a replica to a get.  `handled` is how many put requests the
replica had handled when it answered. -/
structure Answer (N : Nat) where
  source : Fin N
  value : Option Value
  handled : Nat
deriving DecidableEq

structure Get (N : Nat) (K : Type) where
  key : K
  answers : List (Answer N)

structure State (N : Nat) (K : Type) [LinearOrder K] where
  store : Fin N → Database K Value
  inFlight : Fin N → List (Delivery K)
  handled : Fin N → List (Delivery K)
  puts : List (PutRequest K Value)
  replied : List (Nat × Fin N)
  gets : List (Get N K)

inductive Event (N : Nat) (K : Type) where
  | putBytes (key : K) (currentTimeMillis clientID : Int64) (value : Option Bytes)
  -- the replica handles a request in flight to it, by its place in send order
  | handlePut (replica : Fin N) (place : Nat)
  | lose (replica : Fin N) (place : Nat)
  | putReply (put : Nat) (replica : Fin N)
  | getBytes (key : K)
  | handleGet (get : Nat) (replica : Fin N)
  -- the read repair thread finishes a get with these replies, in arrival order
  | finish (get : Nat) (replies : List (Answer N))

def Answer.reply {N : Nat} (answer : Answer N) : Fin N × Option Value := (answer.source, answer.value)

/-- The repairs of a get whose replies arrived in this order. -/
def repairs {N : Nat} {K : Type} (quorum : Nat) (key : K) (replies : List (Answer N)) :
    Except Failure (List (Fin N × PutRequest K Value)) := do
  (← (GetHandler.opened key N (replies.map Answer.reply)).vote quorum).finish

/-- What `getBytes` returns for a get whose replies arrived in this order. -/
def getBytes {N : Nat} {K : Type} (quorum : Nat) (key : K) (replies : List (Answer N)) :
    Except Failure (Option Bytes) :=
  finishGetHandler (GetHandler.opened key N (replies.map Answer.reply)) quorum

namespace State

variable {N : Nat} {K : Type} [LinearOrder K]

def initial : State N K where
  store _ := .empty
  inFlight _ := []
  handled _ := []
  puts := []
  replied := []
  gets := []

def send (state : State N K) (request : PutRequest K Value) : State N K :=
  { state with
    puts := state.puts ++ [request]
    inFlight := fun replica => state.inFlight replica ++ [⟨request, some state.puts.length⟩] }

def handle (state : State N K) (replica : Fin N) (place : Nat) (delivery : Delivery K) : State N K :=
  { state with
    store := Function.update state.store replica
      ((state.store replica).put delivery.request.key delivery.request.value)
    inFlight := Function.update state.inFlight replica ((state.inFlight replica).eraseIdx place)
    handled := Function.update state.handled replica (state.handled replica ++ [delivery]) }

def lose (state : State N K) (replica : Fin N) (place : Nat) : State N K :=
  { state with
    inFlight := Function.update state.inFlight replica ((state.inFlight replica).eraseIdx place) }

def answer (state : State N K) (get : Nat) (opened : Get N K) (replica : Fin N) : State N K :=
  let reply := ⟨replica, (state.store replica).get opened.key, (state.handled replica).length⟩
  { state with gets := state.gets.set get { opened with answers := opened.answers ++ [reply] } }

def repair (state : State N K) (sent : List (Fin N × PutRequest K Value)) : State N K :=
  { state with
    inFlight := fun replica => state.inFlight replica ++
      ((sent.filter fun repair => repair.1 = replica).map fun repair => ⟨repair.2, none⟩) }

/-- What a replica has handled and then what is still on its way to it. -/
def traffic (state : State N K) (replica : Fin N) : List (Delivery K) :=
  state.handled replica ++ state.inFlight replica

@[simp] theorem traffic_initial (replica : Fin N) : (initial : State N K).traffic replica = [] := rfl

theorem traffic_send (state : State N K) (request : PutRequest K Value) (replica : Fin N) :
    (state.send request).traffic replica =
      state.traffic replica ++ [⟨request, some state.puts.length⟩] := by
  simp [traffic, send]

theorem traffic_handle_first {state : State N K} {replica : Fin N} {delivery : Delivery K}
    (sent : (state.inFlight replica)[0]? = some delivery) (other : Fin N) :
    (state.handle replica 0 delivery).traffic other = state.traffic other := by
  by_cases same : other = replica
  · subst same
    cases queue : state.inFlight other with
    | nil => simp [queue] at sent
    | cons first rest =>
        have head : first = delivery := by simpa [queue] using sent
        simp [traffic, handle, queue, head]
  · simp [traffic, handle, same]

theorem traffic_handle_mem {state : State N K} {replica : Fin N} {place : Nat}
    {delivery found : Delivery K} (sent : (state.inFlight replica)[place]? = some delivery)
    {other : Fin N} (member : found ∈ (state.handle replica place delivery).traffic other) :
    found ∈ state.traffic other := by
  by_cases same : other = replica
  · subst same
    simp only [traffic, handle, Function.update_self, List.mem_append, List.mem_singleton] at member ⊢
    rcases member with (earlier | rfl) | remaining
    · exact .inl earlier
    · exact .inr (List.mem_of_getElem? sent)
    · exact .inr (List.mem_of_mem_eraseIdx remaining)
  · simpa [traffic, handle, same] using member

theorem traffic_lose (state : State N K) (replica : Fin N) (place : Nat) (other : Fin N) :
    ((state.lose replica place).traffic other).Sublist (state.traffic other) := by
  by_cases same : other = replica
  · subst same
    simpa [traffic, lose] using List.eraseIdx_sublist (state.inFlight other) place
  · simp [traffic, lose, same]

theorem traffic_repair (state : State N K) (sent : List (Fin N × PutRequest K Value))
    (replica : Fin N) :
    (state.repair sent).traffic replica = state.traffic replica ++
      ((sent.filter fun repair => repair.1 = replica).map fun repair => ⟨repair.2, none⟩) := by
  simp [traffic, repair]

end State

variable {N : Nat} {K : Type} [LinearOrder K]

/-- One step, `none` where the event cannot happen.  `quorum` is the number of
replies a get waits for. -/
def step (quorum : Nat) (state : State N K) : Event N K → Option (State N K)
  | .putBytes key currentTimeMillis clientID value =>
      some (state.send ⟨key, value.map (createMetadata currentTimeMillis clientID)⟩)
  | .handlePut replica place =>
      ((state.inFlight replica)[place]?).map (state.handle replica place)
  | .lose replica place =>
      if place < (state.inFlight replica).length then some (state.lose replica place) else none
  | .putReply put replica =>
      if (∃ delivery ∈ state.handled replica, delivery.put = some put) ∧ (put, replica) ∉ state.replied then
        some { state with replied := state.replied ++ [(put, replica)] }
      else none
  | .getBytes key => some { state with gets := state.gets ++ [⟨key, []⟩] }
  | .handleGet get replica =>
      match state.gets[get]? with
      | none => none
      | some opened =>
          if replica ∈ opened.answers.map Answer.source then none
          else some (state.answer get opened replica)
  | .finish get replies =>
      match state.gets[get]? with
      | none => none
      | some opened =>
          if (∀ reply ∈ replies, reply ∈ opened.answers) ∧ (replies.map Answer.source).Nodup ∧
              quorum ≤ replies.length then
            match repairs quorum opened.key replies with
            | .error _ => none
            | .ok sent => some (state.repair sent)
          else none

/-- Everything a step can do, with the guards under which it does it. -/
inductive Step (quorum : Nat) (state : State N K) : Event N K → State N K → Prop where
  | putBytes (key : K) (currentTimeMillis clientID : Int64) (value : Option Bytes) :
      Step quorum state (.putBytes key currentTimeMillis clientID value)
        (state.send ⟨key, value.map (createMetadata currentTimeMillis clientID)⟩)
  | handlePut {replica : Fin N} {place : Nat} {delivery : Delivery K}
      (sent : (state.inFlight replica)[place]? = some delivery) :
      Step quorum state (.handlePut replica place) (state.handle replica place delivery)
  | lose (replica : Fin N) (place : Nat) :
      Step quorum state (.lose replica place) (state.lose replica place)
  | putReply {put : Nat} {replica : Fin N} {delivery : Delivery K}
      (handled : delivery ∈ state.handled replica) (own : delivery.put = some put)
      (fresh : (put, replica) ∉ state.replied) :
      Step quorum state (.putReply put replica)
        { state with replied := state.replied ++ [(put, replica)] }
  | getBytes (key : K) :
      Step quorum state (.getBytes key) { state with gets := state.gets ++ [⟨key, []⟩] }
  | handleGet {get : Nat} {opened : Get N K} (replica : Fin N)
      (found : state.gets[get]? = some opened) :
      Step quorum state (.handleGet get replica) (state.answer get opened replica)
  | finish {get : Nat} {opened : Get N K} {replies : List (Answer N)}
      {sent : List (Fin N × PutRequest K Value)} (found : state.gets[get]? = some opened)
      (given : ∀ reply ∈ replies, reply ∈ opened.answers)
      (distinct : (replies.map Answer.source).Nodup) (enough : quorum ≤ replies.length)
      (repaired : repairs quorum opened.key replies = .ok sent) :
      Step quorum state (.finish get replies) (state.repair sent)

theorem step_cases {quorum : Nat} {state next : State N K} {event : Event N K}
    (taken : step quorum state event = some next) : Step quorum state event next := by
  cases event with
  | putBytes key currentTimeMillis clientID value => cases taken; exact .putBytes ..
  | handlePut replica place =>
      obtain ⟨delivery, sent, rfl⟩ := Option.map_eq_some_iff.mp taken
      exact .handlePut sent
  | lose replica place =>
      simp only [step] at taken
      split at taken
      · cases taken; exact .lose replica place
      · contradiction
  | putReply put replica =>
      simp only [step] at taken
      split at taken
      · rename_i guard
        obtain ⟨⟨delivery, handled, own⟩, fresh⟩ := guard
        cases taken
        exact .putReply handled own fresh
      · contradiction
  | getBytes key => cases taken; exact .getBytes key
  | handleGet get replica =>
      simp only [step] at taken
      cases found : state.gets[get]? with
      | none => simp [found] at taken
      | some opened =>
          simp only [found] at taken
          split at taken
          · contradiction
          · cases taken; exact .handleGet replica found
  | finish get replies =>
      simp only [step] at taken
      cases found : state.gets[get]? with
      | none => simp [found] at taken
      | some opened =>
          simp only [found] at taken
          split at taken
          · rename_i guard
            obtain ⟨given, distinct, enough⟩ := guard
            cases repaired : repairs quorum opened.key replies with
            | error failure => simp [repaired] at taken
            | ok sent =>
                simp only [repaired, Option.some.injEq] at taken
                subst next
                exact .finish found given distinct enough repaired
          · contradiction

end Scads.Protocol
