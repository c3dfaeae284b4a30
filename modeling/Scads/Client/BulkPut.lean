import Mathlib.Data.List.AList
import Scads.Client.Metadata
import Scads.Client.Routable

namespace Scads.Client

open Scads.Comm Scads.Util

/-! # Bulk puts

Every server has a buffer that is being filled, and buffers that were sent and wait
for their acknowledgement.  Futures are numbered in the order of the requests.
-/

def bulkPutBufSize : Nat := 1024

def bulkPutMaxOutstanding : Nat := 64

def bulkPutTimeout : Int := 60 * 1000

structure OutstandingPut (K : Type) where
  timestamp : Int
  server : PartitionService
  sendBuffer : List (PutRequest K Value)
  future : Nat
  tries : Nat

/-- The variables of one client thread, and the requests that were answered with
`BulkPutResponse` so far. -/
structure BulkState (K : Type) where
  serverBuffers : AList fun _ : PartitionService => List (PutRequest K Value)
  outstandingPuts : List (OutstandingPut K)
  futures : Nat
  acknowledged : List (PartitionService × List (PutRequest K Value))

/-- What the client does not control: the clock when a future is created and when it
is awaited, what its `get` returns within a timeout, and the order in which a map of
buffers is traversed. -/
structure Surroundings (K : Type) where
  sentAt : Nat → Int
  awaitedAt : Nat → Int
  get : Nat → Int → Option (StorageMessage K Value)
  order : List PartitionService → List PartitionService
  traversed : ∀ servers, (order servers).Perm servers

/-- One call of `putBulkBytes`, at the time that goes into its metadata. -/
structure BulkPut (K : Type) where
  key : K
  value : Option Bytes
  currentTimeMillis : Int64

abbrev BulkM (K : Type) := EStateM Failure (BulkState K)

section

variable {K : Type}

def BulkPut.putRequest (clientID : Int64) (put : BulkPut K) : PutRequest K Value :=
  ⟨put.key, put.value.map (createMetadata put.currentTimeMillis clientID)⟩

namespace BulkState

def initial : BulkState K := ⟨∅, [], 0, []⟩

/-- The buffer that is being filled for a server. -/
def buffer (state : BulkState K) (server : PartitionService) : List (PutRequest K Value) :=
  (state.serverBuffers.lookup server).getD []

def kept (server : PartitionService) (buffer : List (PutRequest K Value)) (state : BulkState K) : BulkState K :=
  { state with serverBuffers := state.serverBuffers.insert server buffer }

def dequeued (rest : List (OutstandingPut K)) (state : BulkState K) : BulkState K :=
  { state with outstandingPuts := rest }

def confirmed (put : OutstandingPut K) (state : BulkState K) : BulkState K :=
  { state with acknowledged := state.acknowledged ++ [(put.server, put.sendBuffer)] }

@[simp] theorem dequeued_outstandingPuts (rest : List (OutstandingPut K)) (state : BulkState K) :
    (state.dequeued rest).outstandingPuts = rest := rfl

@[simp] theorem dequeued_acknowledged (rest : List (OutstandingPut K)) (state : BulkState K) :
    (state.dequeued rest).acknowledged = state.acknowledged := rfl

@[simp] theorem buffer_dequeued (rest : List (OutstandingPut K)) (state : BulkState K)
    (server : PartitionService) : (state.dequeued rest).buffer server = state.buffer server := rfl

@[simp] theorem confirmed_outstandingPuts (put : OutstandingPut K) (state : BulkState K) :
    (state.confirmed put).outstandingPuts = state.outstandingPuts := rfl

@[simp] theorem confirmed_acknowledged (put : OutstandingPut K) (state : BulkState K) :
    (state.confirmed put).acknowledged = state.acknowledged ++ [(put.server, put.sendBuffer)] := rfl

@[simp] theorem buffer_confirmed (put : OutstandingPut K) (state : BulkState K)
    (server : PartitionService) : (state.confirmed put).buffer server = state.buffer server := rfl

def sent (surroundings : Surroundings K) (server : PartitionService) (buffer : List (PutRequest K Value))
    (tries : Nat) (state : BulkState K) : BulkState K :=
  { state with
    outstandingPuts := state.outstandingPuts ++
      [⟨surroundings.sentAt state.futures, server, buffer, state.futures, tries⟩]
    futures := state.futures + 1
    serverBuffers := state.serverBuffers.erase server }

end BulkState

def sendBuffer (surroundings : Surroundings K) (server : PartitionService)
    (buffer : List (PutRequest K Value)) (tries : Nat) : BulkM K Unit :=
  if tries > 5 then throw (.runtime ("Retries exceeded for server " ++ server.toString))
  else if buffer.length = 0 then throw (.assertion "assertion failed")
  else modify (BulkState.sent surroundings server buffer tries)

/-- The reply to the oldest request, or nothing within the rest of its time. -/
def OutstandingPut.reply (surroundings : Surroundings K) (oldestRequest : OutstandingPut K) :
    Option (StorageMessage K Value) :=
  let remainingTime :=
    bulkPutTimeout - (surroundings.awaitedAt oldestRequest.future - oldestRequest.timestamp)
  let timeout :=
    if remainingTime < 0 then 1
    else if remainingTime > bulkPutTimeout then bulkPutTimeout
    else remainingTime
  surroundings.get oldestRequest.future timeout

def processNextOutstandingRequest (surroundings : Surroundings K) : BulkM K Unit := do
  let state ← get
  match state.outstandingPuts with
  | [] => throw (.noSuchElement "queue empty")
  | oldestRequest :: rest =>
      set (state.dequeued rest)
      match oldestRequest.reply surroundings with
      | some .bulkPutResponse => modify (BulkState.confirmed oldestRequest)
      | some _ =>
          sendBuffer surroundings oldestRequest.server oldestRequest.sendBuffer (oldestRequest.tries + 1)
      | none =>
          sendBuffer surroundings oldestRequest.server oldestRequest.sendBuffer (oldestRequest.tries + 1)

/-- One turn of the loop of `putBulkBytes` over the servers of the key. -/
def addToBuffer (surroundings : Surroundings K) (putRequest : PutRequest K Value) (server : PartitionService) :
    BulkM K Unit := do
  let buf := (← get).buffer server ++ [putRequest]
  modify (BulkState.kept server buf)
  if buf.length ≥ bulkPutBufSize then
    sendBuffer surroundings server buf 0

def addToBuffers (surroundings : Surroundings K) (putRequest : PutRequest K Value)
    (servers : List PartitionService) : BulkM K Unit :=
  servers.forM (addToBuffer surroundings putRequest)

def putBulkBytes [LinearOrder K] (surroundings : Surroundings K) (routingTable : RoutingTable K)
    (clientID : Int64) (put : BulkPut K) : BulkM K Unit := do
  match routingTable.valuesForKey (some put.key) with
  | .error failure => throw failure
  | .ok servers =>
      addToBuffers surroundings (put.putRequest clientID) servers
      if (← get).outstandingPuts.length ≥ bulkPutMaxOutstanding then
        processNextOutstandingRequest surroundings

/-- What the requests to a server carry. -/
def addressed {α : Type} (server : PartitionService) (requests : List (PartitionService × List α)) : List α :=
  (requests.filter fun request => request.1 = server).flatMap Prod.snd

@[simp] theorem addressed_nil {α : Type} (server : PartitionService) :
    addressed server ([] : List (PartitionService × List α)) = [] := rfl

@[simp] theorem addressed_cons {α : Type} (server : PartitionService) (request : PartitionService × List α)
    (requests : List (PartitionService × List α)) :
    addressed server (request :: requests) =
      (if server = request.1 then request.2 else []) ++ addressed server requests := by
  by_cases same : server = request.1
  · simp [addressed, same]
  · simp [addressed, same, Ne.symm same]

@[simp] theorem addressed_append {α : Type} (server : PartitionService)
    (requests others : List (PartitionService × List α)) :
    addressed server (requests ++ others) = addressed server requests ++ addressed server others := by
  simp [addressed]

theorem mem_addressed {α : Type} {server : PartitionService} {requests : List (PartitionService × List α)}
    {found : α} :
    found ∈ addressed server requests ↔ ∃ records, (server, records) ∈ requests ∧ found ∈ records := by
  simp only [addressed, List.mem_flatMap, List.mem_filter, decide_eq_true_eq, Prod.exists]
  constructor
  · intro found
    obtain ⟨_, records, ⟨member, rfl⟩, inside⟩ := found
    exact ⟨records, member, inside⟩
  · intro found
    obtain ⟨records, member, inside⟩ := found
    exact ⟨server, records, ⟨member, rfl⟩, inside⟩

def OutstandingPut.request (put : OutstandingPut K) : PartitionService × List (PutRequest K Value) :=
  (put.server, put.sendBuffer)

namespace BulkState

variable [DecidableEq K]

/-- How often a put is acknowledged by, on its way to or kept for a server. -/
def copies (state : BulkState K) (server : PartitionService) (put : PutRequest K Value) : Nat :=
  (addressed server state.acknowledged).count put +
    (addressed server (state.outstandingPuts.map OutstandingPut.request)).count put +
    (state.buffer server).count put

omit [DecidableEq K] in
@[simp] theorem buffer_sent (surroundings : Surroundings K) (server other : PartitionService)
    (buffer : List (PutRequest K Value)) (tries : Nat) (state : BulkState K) :
    (state.sent surroundings server buffer tries).buffer other =
      if other = server then [] else state.buffer other := by
  by_cases same : other = server
  · subst same
    simp [BulkState.buffer, sent]
  · simp [BulkState.buffer, sent, same, AList.lookup_erase_ne same]

omit [DecidableEq K] in
@[simp] theorem buffer_kept (server other : PartitionService) (buffer : List (PutRequest K Value))
    (state : BulkState K) :
    (state.kept server buffer).buffer other = if other = server then buffer else state.buffer other := by
  by_cases same : other = server
  · subst same
    simp [BulkState.buffer, kept]
  · simp [BulkState.buffer, kept, same, AList.lookup_insert_ne same]

theorem copies_kept (server other : PartitionService) (buffer : List (PutRequest K Value))
    (state : BulkState K) (put : PutRequest K Value) :
    (state.kept server buffer).copies other put +
        (if other = server then (state.buffer server).count put else 0) =
      state.copies other put + (if other = server then buffer.count put else 0) := by
  simp only [copies, buffer_kept]
  by_cases same : other = server
  · simp [same, kept]
    omega
  · simp [same, kept]

/-- Sending a buffer drops the one that is being filled for the server. -/
theorem copies_sent (surroundings : Surroundings K) (server other : PartitionService)
    (buffer : List (PutRequest K Value)) (tries : Nat) (state : BulkState K) (put : PutRequest K Value) :
    (state.sent surroundings server buffer tries).copies other put +
        (if other = server then (state.buffer server).count put else 0) =
      state.copies other put + (if other = server then buffer.count put else 0) := by
  simp only [copies, buffer_sent]
  by_cases same : other = server
  · simp [same, sent, OutstandingPut.request]
    omega
  · simp [same, sent, OutstandingPut.request]

end BulkState

section

variable (surroundings : Surroundings K)

theorem sendBuffer_run (server : PartitionService) (buffer : List (PutRequest K Value)) (tries : Nat)
    (state : BulkState K) :
    (sendBuffer surroundings server buffer tries).run state =
      if tries > 5 then .error (.runtime ("Retries exceeded for server " ++ server.toString)) state
      else if buffer = [] then .error (.assertion "assertion failed") state
      else .ok () (state.sent surroundings server buffer tries) := by
  unfold sendBuffer
  split
  · rfl
  · simp only [List.length_eq_zero_iff]
    split
    · rfl
    · rfl

/-- What can happen to the oldest request. -/
theorem processNextOutstandingRequest_run {oldest : OutstandingPut K} {rest : List (OutstandingPut K)}
    {state : BulkState K} (queue : state.outstandingPuts = oldest :: rest) :
    (oldest.reply surroundings = some .bulkPutResponse ∧
      (processNextOutstandingRequest surroundings).run state =
        .ok () ((state.dequeued rest).confirmed oldest)) ∨
    (oldest.reply surroundings ≠ some .bulkPutResponse ∧
      (processNextOutstandingRequest surroundings).run state =
        (sendBuffer surroundings oldest.server oldest.sendBuffer (oldest.tries + 1)).run
          (state.dequeued rest)) := by
  have start : (processNextOutstandingRequest surroundings).run state =
      EStateM.run (match oldest.reply surroundings with
        | some .bulkPutResponse => modify (BulkState.confirmed oldest)
        | some _ => sendBuffer surroundings oldest.server oldest.sendBuffer (oldest.tries + 1)
        | none => sendBuffer surroundings oldest.server oldest.sendBuffer (oldest.tries + 1))
        (state.dequeued rest) := by
    simp [processNextOutstandingRequest, queue]
  rw [start]
  split
  · rename_i answered
    exact .inl ⟨answered, rfl⟩
  · rename_i other answered
    refine .inr ⟨fun acknowledged => ?_, rfl⟩
    rw [answered] at acknowledged
    exact other (Option.some.inj acknowledged)
  · rename_i answered
    refine .inr ⟨by simp [answered], rfl⟩

variable [DecidableEq K]

omit [DecidableEq K] in
theorem addToBuffer_run (putRequest : PutRequest K Value) (server : PartitionService) (state : BulkState K) :
    (addToBuffer surroundings putRequest server).run state =
      .ok () (if (state.buffer server).length + 1 ≥ bulkPutBufSize then
        (state.kept server (state.buffer server ++ [putRequest])).sent surroundings server
          (state.buffer server ++ [putRequest]) 0
      else state.kept server (state.buffer server ++ [putRequest])) := by
  have start : (addToBuffer surroundings putRequest server).run state =
      EStateM.run (if (state.buffer server ++ [putRequest]).length ≥ bulkPutBufSize then
        sendBuffer surroundings server (state.buffer server ++ [putRequest]) 0 else pure ())
        (state.kept server (state.buffer server ++ [putRequest])) := rfl
  have nonempty : state.buffer server ++ [putRequest] ≠ [] := by simp
  rw [start, List.length_append, List.length_singleton]
  split
  · rw [sendBuffer_run, if_neg (by decide), if_neg nonempty]
  · rfl

/-- A put is added to the buffer of one server, which may be sent. -/
theorem addToBuffer_copies {putRequest : PutRequest K Value} {server : PartitionService}
    {state next : BulkState K} (ran : (addToBuffer surroundings putRequest server).run state = .ok () next)
    (other : PartitionService) (put : PutRequest K Value) :
    next.copies other put = state.copies other put + if other = server ∧ put = putRequest then 1 else 0 := by
  have grown : (state.kept server (state.buffer server ++ [putRequest])).copies other put =
      state.copies other put + if other = server ∧ put = putRequest then 1 else 0 := by
    have kept := state.copies_kept server other (state.buffer server ++ [putRequest]) put
    by_cases same : other = server
    · simp only [same, if_true, true_and, List.count_append, List.count_singleton, beq_iff_eq] at kept ⊢
      simp only [eq_comm (a := put)]
      omega
    · simpa [same] using kept
  rw [addToBuffer_run] at ran
  cases ran
  split
  · have same := (state.kept server (state.buffer server ++ [putRequest])).copies_sent surroundings server
      other (state.buffer server ++ [putRequest]) 0 put
    rw [BulkState.buffer_kept, if_pos rfl] at same
    exact (Nat.add_right_cancel same).trans grown
  · exact grown

theorem addToBuffers_run (putRequest : PutRequest K Value) (servers : List PartitionService)
    (state : BulkState K) :
    ∃ next, (addToBuffers surroundings putRequest servers).run state = .ok () next ∧
      ∀ other put, next.copies other put =
        state.copies other put + if put = putRequest then servers.count other else 0 := by
  induction servers generalizing state with
  | nil => exact ⟨state, rfl, by simp⟩
  | cons server servers ih =>
      obtain ⟨next, first⟩ : ∃ next, (addToBuffer surroundings putRequest server).run state = .ok () next :=
        ⟨_, addToBuffer_run surroundings putRequest server state⟩
      obtain ⟨final, rest, counted⟩ := ih next
      refine ⟨final, ?_, fun other put => ?_⟩
      · rw [addToBuffers, List.forM_eq_forM, List.forM_cons, EStateM.run_bind, first]
        exact rest
      · rw [counted, addToBuffer_copies surroundings first, List.count_cons]
        by_cases same : put = putRequest
        · simp only [same, and_true, if_true, beq_iff_eq, eq_comm (a := server)]
          omega
        · simp [same]

/-- The oldest request is acknowledged, or it may be sent again and its server has no
buffer that is being filled. -/
def BulkState.Settles (state : BulkState K) : Prop :=
  ∀ oldest rest, state.outstandingPuts = oldest :: rest →
    oldest.reply surroundings = some .bulkPutResponse ∨
      (oldest.tries < 5 ∧ state.buffer oldest.server = [])

/-- The state that a call leaves behind, whether it returns or throws. -/
def leaves : EStateM.Result Failure (BulkState K) Unit → BulkState K
  | .ok _ state => state
  | .error _ state => state

theorem BulkState.copies_dequeued {oldest : OutstandingPut K} {rest : List (OutstandingPut K)}
    {state : BulkState K} (queue : state.outstandingPuts = oldest :: rest) (server : PartitionService)
    (put : PutRequest K Value) :
    state.copies server put = (state.dequeued rest).copies server put +
      if server = oldest.server then oldest.sendBuffer.count put else 0 := by
  simp only [copies, queue, buffer_dequeued, dequeued_acknowledged, dequeued_outstandingPuts, List.map_cons,
    addressed_cons, OutstandingPut.request, List.count_append]
  by_cases its : server = oldest.server
  · simp only [its, if_true]
    omega
  · simp only [its, if_false, List.count_nil]
    omega

theorem BulkState.copies_confirmed {oldest : OutstandingPut K} {rest : List (OutstandingPut K)}
    {state : BulkState K} (queue : state.outstandingPuts = oldest :: rest) (server : PartitionService)
    (put : PutRequest K Value) :
    ((state.dequeued rest).confirmed oldest).copies server put = state.copies server put := by
  rw [copies_dequeued queue]
  simp only [copies, buffer_confirmed, confirmed_acknowledged, confirmed_outstandingPuts, addressed_append,
    addressed_cons, addressed_nil, List.append_nil, List.count_append]
  by_cases its : server = oldest.server
  · simp only [its, if_true]
    omega
  · simp only [its, if_false, List.count_nil]
    omega

/-- Sending a request again loses nothing where its server has no other buffer. -/
theorem BulkState.copies_resent {oldest : OutstandingPut K} {rest : List (OutstandingPut K)}
    {state : BulkState K} (queue : state.outstandingPuts = oldest :: rest)
    (unfilled : state.buffer oldest.server = []) (server : PartitionService) (put : PutRequest K Value) :
    ((state.dequeued rest).sent surroundings oldest.server oldest.sendBuffer (oldest.tries + 1)).copies server
      put = state.copies server put := by
  have sent := (state.dequeued rest).copies_sent surroundings oldest.server server oldest.sendBuffer
    (oldest.tries + 1) put
  have none : (state.dequeued rest).buffer oldest.server = [] := unfilled
  rw [none, List.count_nil, ite_self, Nat.add_zero, ← copies_dequeued queue] at sent
  exact sent

/-- A request that settles leaves every put where it can still be acknowledged. -/
theorem processNextOutstandingRequest_settles {state : BulkState K} (settles : state.Settles surroundings)
    (server : PartitionService) (put : PutRequest K Value) :
    (leaves ((processNextOutstandingRequest surroundings).run state)).copies server put =
      state.copies server put := by
  cases queue : state.outstandingPuts with
  | nil =>
      have thrown : (processNextOutstandingRequest surroundings).run state =
          .error (.noSuchElement "queue empty") state := by
        simp [processNextOutstandingRequest, queue]
      rw [thrown]
      rfl
  | cons oldest rest =>
      rcases processNextOutstandingRequest_run surroundings queue with ⟨_, ran⟩ | ⟨refused, ran⟩
      · rw [ran]
        exact BulkState.copies_confirmed queue server put
      · obtain ⟨tries, unfilled⟩ := (settles oldest rest queue).resolve_left refused
        rw [ran, sendBuffer_run, if_neg (by omega)]
        split
        · rename_i empty
          have dequeued := BulkState.copies_dequeued queue server put
          rw [empty, List.count_nil, ite_self] at dequeued
          exact dequeued.symm
        · exact BulkState.copies_resent surroundings queue unfilled server put

end

section

variable (surroundings : Surroundings K)

/-- How often the requests in flight can still be awaited. -/
def BulkState.attempts (state : BulkState K) : Nat :=
  (state.outstandingPuts.map fun put => 6 - put.tries + 1).sum

/-- Where the wait for the oldest request returns, it was acknowledged or sent again. -/
theorem processNextOutstandingRequest_ok {state next : BulkState K}
    (ran : (processNextOutstandingRequest surroundings).run state = .ok () next) :
    ∃ oldest rest, state.outstandingPuts = oldest :: rest ∧
      (next = (state.dequeued rest).confirmed oldest ∨
        (oldest.tries + 1 ≤ 5 ∧ next = (state.dequeued rest).sent surroundings oldest.server oldest.sendBuffer
          (oldest.tries + 1))) := by
  cases queue : state.outstandingPuts with
  | nil => simp [processNextOutstandingRequest, queue] at ran
  | cons oldest rest =>
      refine ⟨oldest, rest, rfl, ?_⟩
      rcases processNextOutstandingRequest_run surroundings queue with ⟨_, same⟩ | ⟨_, same⟩
      · rw [ran] at same
        cases same
        exact .inl rfl
      · rw [ran, sendBuffer_run] at same
        split at same
        · cases same
        · rename_i few
          split at same
          · cases same
          · cases same
            exact .inr ⟨not_lt.mp few, rfl⟩

theorem processNextOutstandingRequest_attempts {state next : BulkState K}
    (ran : (processNextOutstandingRequest surroundings).run state = .ok () next) :
    next.attempts < state.attempts := by
  obtain ⟨oldest, rest, queue, rfl | ⟨few, rfl⟩⟩ := processNextOutstandingRequest_ok surroundings ran
  · simp [BulkState.attempts, queue]
  · simp only [BulkState.attempts, queue, BulkState.sent, BulkState.dequeued_outstandingPuts,
      List.map_append, List.map_cons, List.map_nil, List.sum_append, List.sum_cons, List.sum_nil]
    omega

/-- The second loop of `flushBulkBytes`, on the state it starts in. -/
def drain (state : BulkState K) : EStateM.Result Failure (BulkState K) Unit :=
  if state.outstandingPuts.length > 0 then
    match _ran : (processNextOutstandingRequest surroundings).run state with
    | .ok _ next => drain next
    | .error failure next => .error failure next
  else .ok () state
termination_by state.attempts
decreasing_by exact processNextOutstandingRequest_attempts surroundings _ran

def drainOutstanding : BulkM K Unit := drain surroundings

def flushBulkBytes : BulkM K Unit := do
  let state ← get
  (surroundings.order state.serverBuffers.keys).forM fun server =>
    sendBuffer surroundings server (state.buffer server) 0
  drainOutstanding surroundings

variable [DecidableEq K]

/-- The first loop of `flushBulkBytes` sends every buffer. -/
theorem sendBuffers_run {servers : List PartitionService} {buffers : PartitionService → List (PutRequest K Value)}
    {state next : BulkState K} (distinct : servers.Nodup)
    (filled : ∀ server ∈ servers, state.buffer server = buffers server)
    (ran : (servers.forM fun server => sendBuffer surroundings server (buffers server) 0).run state =
      .ok () next) :
    (∀ server, next.buffer server = if server ∈ servers then [] else state.buffer server) ∧
      ∀ server put, next.copies server put = state.copies server put := by
  induction servers generalizing state with
  | nil =>
      cases ran
      simp
  | cons first servers ih =>
      rw [List.forM_eq_forM, List.forM_cons, EStateM.run_bind, sendBuffer_run, if_neg (by decide)] at ran
      by_cases empty : buffers first = []
      · rw [if_pos empty] at ran
        cases ran
      · rw [if_neg empty] at ran
        obtain ⟨fresh, distinct⟩ := List.nodup_cons.mp distinct
        obtain ⟨emptied, same⟩ := ih distinct (fun server member => by
          have other : server ≠ first := fun equal => fresh (equal ▸ member)
          rw [BulkState.buffer_sent, if_neg other, filled server (List.mem_cons_of_mem _ member)]) ran
        refine ⟨fun server => ?_, fun server put => ?_⟩
        · rw [emptied, BulkState.buffer_sent]
          by_cases its : server = first
          · simp [its]
          · simp [its]
        · have sent := state.copies_sent surroundings first server (buffers first) 0 put
          rw [filled first List.mem_cons_self] at sent
          rw [same]
          exact Nat.add_right_cancel sent

/-- Waiting for a reply loses nothing while no buffer is being filled. -/
theorem processNextOutstandingRequest_unfilled {state next : BulkState K}
    (unfilled : ∀ server, state.buffer server = [])
    (ran : (processNextOutstandingRequest surroundings).run state = .ok () next) :
    (∀ server, next.buffer server = []) ∧ ∀ server put, next.copies server put = state.copies server put := by
  obtain ⟨oldest, rest, queue, rfl | ⟨_, rfl⟩⟩ := processNextOutstandingRequest_ok surroundings ran
  · exact ⟨unfilled, BulkState.copies_confirmed queue⟩
  · refine ⟨fun server => ?_, BulkState.copies_resent surroundings queue (unfilled _)⟩
    simp [unfilled]

theorem drain_ok {state final : BulkState K} (unfilled : ∀ server, state.buffer server = [])
    (drained : drain surroundings state = .ok () final) :
    final.outstandingPuts = [] ∧ (∀ server, final.buffer server = []) ∧
      ∀ server put, final.copies server put = state.copies server put := by
  fun_induction drain surroundings state with
  | case1 state waiting _ next ran ih =>
      obtain ⟨emptied, same⟩ := processNextOutstandingRequest_unfilled surroundings unfilled ran
      obtain ⟨done, finished, kept⟩ := ih emptied drained
      exact ⟨done, finished, fun server put => (kept server put).trans (same server put)⟩
  | case2 state waiting failure next ran => cases drained
  | case3 state done =>
      cases drained
      exact ⟨List.length_eq_zero_iff.mp (by omega), unfilled, fun _ _ => rfl⟩

/-- After a flush that returns, everything that the client still had is acknowledged. -/
theorem flushBulkBytes_ok {state final : BulkState K}
    (returned : (flushBulkBytes surroundings).run state = .ok () final) (server : PartitionService)
    (put : PutRequest K Value) :
    (addressed server final.acknowledged).count put = state.copies server put := by
  simp only [flushBulkBytes, EStateM.run_bind, EStateM.run_get] at returned
  split at returned
  · rename_i _ next ran
    have order := surroundings.traversed state.serverBuffers.keys
    obtain ⟨emptied, same⟩ := sendBuffers_run surroundings (order.nodup_iff.mpr state.serverBuffers.keys_nodup)
      (fun _ _ => rfl) ran
    have unfilled : ∀ server, next.buffer server = [] := by
      intro server
      rw [emptied]
      split
      · rfl
      · rename_i absent
        rw [order.mem_iff, ← AList.mem_keys, ← AList.lookup_eq_none] at absent
        rw [BulkState.buffer, absent]
        rfl
    obtain ⟨done, finished, kept⟩ := drain_ok surroundings unfilled returned
    rw [← same, ← kept, BulkState.copies, done, finished]
    simp
  · cases returned

end

end

end Scads.Client
