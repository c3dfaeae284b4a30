import Scads.Client.BulkPut

namespace Scads.Client

open Scads.Data Scads.Comm Scads.Util

/-! # Whole runs of bulk puts -/

section

variable {K : Type} [LinearOrder K] (surroundings : Surroundings K) (routingTable : RoutingTable K)
  (clientID : Int64)

/-- The servers responsible for a key. -/
def responsible (key : K) : List PartitionService :=
  match routingTable.valuesForKey (some key) with
  | .ok servers => servers
  | .error _ => []

/-- Calls of `putBulkBytes` one after the other, also past one that throws. -/
def putAll (puts : List (BulkPut K)) (state : BulkState K) : BulkState K :=
  puts.foldl (fun state put => leaves ((putBulkBytes surroundings routingTable clientID put).run state)) state

/-- Where the call waits for the oldest request, that request settles. -/
def BulkState.Undisturbed (state : BulkState K) (put : BulkPut K) : Prop :=
  ∀ filled, (addToBuffers surroundings (put.putRequest clientID) (responsible routingTable put.key)).run state =
    .ok () filled → bulkPutMaxOutstanding ≤ filled.outstandingPuts.length → filled.Settles surroundings

def Undisturbed : List (BulkPut K) → BulkState K → Prop
  | [], _ => True
  | put :: puts, state =>
      state.Undisturbed surroundings routingTable clientID put ∧
        Undisturbed puts (leaves ((putBulkBytes surroundings routingTable clientID put).run state))

/-- What the calls put for a server. -/
def issued (server : PartitionService) (puts : List (BulkPut K)) : List (PutRequest K Value) :=
  puts.flatMap fun put =>
    List.replicate ((responsible routingTable put.key).count server) (put.putRequest clientID)

theorem putBulkBytes_run {put : BulkPut K} {servers : List PartitionService} {state filled : BulkState K}
    (found : routingTable.valuesForKey (some put.key) = .ok servers)
    (ran : (addToBuffers surroundings (put.putRequest clientID) servers).run state = .ok () filled) :
    (putBulkBytes surroundings routingTable clientID put).run state =
      if filled.outstandingPuts.length ≥ bulkPutMaxOutstanding then
        (processNextOutstandingRequest surroundings).run filled
      else .ok () filled := by
  simp only [putBulkBytes, found, EStateM.run_bind, ran, EStateM.run_get]
  split
  · rfl
  · rfl

/-- A call loses nothing where it is not disturbed. -/
theorem putBulkBytes_copies {state : BulkState K} {put : BulkPut K}
    (undisturbed : state.Undisturbed surroundings routingTable clientID put) (server : PartitionService)
    (request : PutRequest K Value) :
    (leaves ((putBulkBytes surroundings routingTable clientID put).run state)).copies server request =
      state.copies server request + if request = put.putRequest clientID then
        (responsible routingTable put.key).count server else 0 := by
  cases found : routingTable.valuesForKey (some put.key) with
  | error failure =>
      have thrown : (putBulkBytes surroundings routingTable clientID put).run state =
          .error failure state := by
        simp [putBulkBytes, found]
      simp [thrown, leaves, responsible, found]
  | ok servers =>
      have known : responsible routingTable put.key = servers := by rw [responsible, found]
      obtain ⟨filled, ran, counted⟩ :=
        addToBuffers_run surroundings (put.putRequest clientID) servers state
      rw [putBulkBytes_run surroundings routingTable clientID found ran, known, ← counted]
      split
      · rename_i crowded
        rw [BulkState.Undisturbed, known] at undisturbed
        exact processNextOutstandingRequest_settles surroundings (undisturbed filled ran crowded) server request
      · rfl

theorem putAll_copies {puts : List (BulkPut K)} {state : BulkState K}
    (undisturbed : Undisturbed surroundings routingTable clientID puts state) (server : PartitionService)
    (request : PutRequest K Value) :
    (putAll surroundings routingTable clientID puts state).copies server request =
      state.copies server request + (issued routingTable clientID server puts).count request := by
  induction puts generalizing state with
  | nil => simp [putAll, issued]
  | cons put puts ih =>
      have rest := ih undisturbed.2
      rw [putBulkBytes_copies surroundings routingTable clientID undisturbed.1] at rest
      simp only [putAll, List.foldl_cons] at rest ⊢
      rw [rest, issued, issued, List.flatMap_cons, List.count_append, List.count_replicate]
      simp only [beq_iff_eq, eq_comm (a := request)]
      omega

end

theorem drain_answered {K : Type} {surroundings : Surroundings K} {state : BulkState K}
    (answered : ∀ put ∈ state.outstandingPuts, put.reply surroundings = some .bulkPutResponse) :
    ∃ final, drain surroundings state = .ok () final := by
  fun_induction drain surroundings state with
  | case1 state waiting _ next ran ih =>
      obtain ⟨oldest, rest, queue⟩ := List.exists_cons_of_length_pos waiting
      rcases processNextOutstandingRequest_run surroundings queue with ⟨_, same⟩ | ⟨refused, _⟩
      · rw [ran] at same
        cases same
        exact ih fun put member => answered put (by rw [queue]; exact List.mem_cons_of_mem _ member)
      · exact absurd (answered oldest (by simp [queue])) refused
  | case2 state waiting failure next ran =>
      obtain ⟨oldest, rest, queue⟩ := List.exists_cons_of_length_pos waiting
      rcases processNextOutstandingRequest_run surroundings queue with ⟨_, same⟩ | ⟨refused, _⟩
      · rw [ran] at same
        cases same
      · exact absurd (answered oldest (by simp [queue])) refused
  | case3 state done => exact ⟨state, rfl⟩

/-- A flush returns where all that it waits for is acknowledged. -/
theorem flushBulkBytes_returns {K : Type} {surroundings : Surroundings K} {state next : BulkState K}
    (sent : ((surroundings.order state.serverBuffers.keys).forM fun server =>
      sendBuffer surroundings server (state.buffer server) 0).run state = .ok () next)
    (answered : ∀ put ∈ next.outstandingPuts, put.reply surroundings = some .bulkPutResponse) :
    ∃ final, (flushBulkBytes surroundings).run state = .ok () final := by
  obtain ⟨final, drained⟩ := drain_answered answered
  refine ⟨final, ?_⟩
  simp only [flushBulkBytes, EStateM.run_bind, EStateM.run_get, sent]
  exact drained

def onlyServer : PartitionService :=
  ⟨"localhost", 9000, .number 1, "1", ⟨"localhost", 9000, .name "storage"⟩⟩

def onlyRange : RoutingTable Nat := ⟨[⟨none, [onlyServer]⟩], (Comparator.threeWay Nat).compare, fun _ _ => true⟩

/-- The first requests time out and all others are acknowledged. -/
def timesOut (count : Nat) : Surroundings Nat where
  sentAt _ := 0
  awaitedAt _ := 0
  get future _ := if future < count then none else some .bulkPutResponse
  order := id
  traversed _ := .refl _

theorem onlyRange_valuesForKey (key : Nat) : onlyRange.valuesForKey (some key) = .ok [onlyServer] := by
  have shaped : onlyRange.Shaped := ⟨rfl, List.pairwise_singleton _ _, (Comparator.threeWay Nat).agrees⟩
  have place : onlyRange.At (some key) [] ⟨none, [onlyServer]⟩ [] := ⟨rfl, bot_le, by simp⟩
  exact RangeTable.valuesForKey_at shaped place

/-- The state after a number of equal puts that filled this many buffers. -/
def filling (request : PutRequest Nat Value) (queued waiting : Nat) : BulkState Nat where
  serverBuffers := if waiting = 0 then ∅ else AList.insert onlyServer (List.replicate waiting request) ∅
  outstandingPuts := (List.range queued).map fun future =>
    ⟨0, onlyServer, List.replicate bulkPutBufSize request, future, 0⟩
  futures := queued
  acknowledged := []

theorem filling_buffer (request : PutRequest Nat Value) (queued waiting : Nat) :
    (filling request queued waiting).buffer onlyServer = List.replicate waiting request := by
  rw [BulkState.buffer, filling]
  split
  · rename_i none
    simp [none]
  · rw [AList.lookup_insert]
    rfl

theorem filling_kept (request : PutRequest Nat Value) (queued waiting : Nat) :
    (filling request queued waiting).kept onlyServer (List.replicate waiting request ++ [request]) =
      filling request queued (waiting + 1) := by
  rw [← List.replicate_succ', BulkState.kept, filling, filling]
  by_cases none : waiting = 0
  · simp [none]
  · simp [none]

theorem filling_sent (count : Nat) (request : PutRequest Nat Value) (queued : Nat) :
    (filling request queued bulkPutBufSize).sent (timesOut count) onlyServer
      (List.replicate bulkPutBufSize request) 0 = filling request (queued + 1) 0 := by
  have emptied : (AList.singleton onlyServer (List.replicate bulkPutBufSize request)).erase onlyServer =
      (∅ : AList fun _ : PartitionService => List (PutRequest Nat Value)) := by
    apply AList.ext
    exact @List.kerase_cons_eq _ _ _ onlyServer ⟨onlyServer, List.replicate bulkPutBufSize request⟩ [] rfl
  have sized : bulkPutBufSize ≠ 0 := by decide
  simp [BulkState.sent, filling, timesOut, List.range_succ, emptied, sized]

theorem addToBuffers_singleton {K : Type} {surroundings : Surroundings K} {request : PutRequest K Value}
    {server : PartitionService} {state next : BulkState K}
    (ran : (addToBuffer surroundings request server).run state = .ok () next) :
    (addToBuffers surroundings request [server]).run state = .ok () next := by
  rw [addToBuffers, List.forM_eq_forM, List.forM_cons, EStateM.run_bind, ran]
  rfl

theorem put_single (count : Nat) (clientID : Int64) (put : BulkPut Nat) {state next : BulkState Nat}
    (ran : (addToBuffer (timesOut count) (put.putRequest clientID) onlyServer).run state = .ok () next) :
    (putBulkBytes (timesOut count) onlyRange clientID put).run state =
      if next.outstandingPuts.length ≥ bulkPutMaxOutstanding then
        (processNextOutstandingRequest (timesOut count)).run next
      else .ok () next := by
  exact putBulkBytes_run _ _ _ (onlyRange_valuesForKey put.key) (addToBuffers_singleton ran)

theorem filling_step (count : Nat) (clientID : Int64) (put : BulkPut Nat) {queued waiting : Nat}
    (room : waiting + 1 < bulkPutBufSize) (few : queued < bulkPutMaxOutstanding) :
    (putBulkBytes (timesOut count) onlyRange clientID put).run
      (filling (put.putRequest clientID) queued waiting) =
        .ok () (filling (put.putRequest clientID) queued (waiting + 1)) := by
  have ran := addToBuffer_run (timesOut count) (put.putRequest clientID) onlyServer
    (filling (put.putRequest clientID) queued waiting)
  rw [filling_buffer, List.length_replicate, if_neg (by omega), filling_kept] at ran
  rw [put_single count clientID put ran, if_neg (by simpa [filling] using few)]

/-- The last put of a buffer has it sent. -/
theorem filling_full (count : Nat) (clientID : Int64) (put : BulkPut Nat) (queued : Nat) :
    (addToBuffer (timesOut count) (put.putRequest clientID) onlyServer).run
      (filling (put.putRequest clientID) queued (bulkPutBufSize - 1)) =
        .ok () (filling (put.putRequest clientID) (queued + 1) 0) := by
  have ran := addToBuffer_run (timesOut count) (put.putRequest clientID) onlyServer
    (filling (put.putRequest clientID) queued (bulkPutBufSize - 1))
  have size : bulkPutBufSize - 1 + 1 = bulkPutBufSize := by decide
  rw [filling_buffer, List.length_replicate, if_pos (le_of_eq size.symm), filling_kept,
    ← List.replicate_succ', size, filling_sent] at ran
  exact ran

theorem putAll_filling (count : Nat) (clientID : Int64) (put : BulkPut Nat) {total : Nat}
    (few : total < bulkPutBufSize * bulkPutMaxOutstanding) :
    putAll (timesOut count) onlyRange clientID (List.replicate total put) .initial =
      filling (put.putRequest clientID) (total / bulkPutBufSize) (total % bulkPutBufSize) := by
  induction total with
  | zero => rfl
  | succ total ih =>
      have before := ih (by omega)
      rw [List.replicate_succ', putAll, List.foldl_append, List.foldl_cons, List.foldl_nil]
      rw [putAll] at before
      rw [before]
      by_cases full : total % bulkPutBufSize + 1 = bulkPutBufSize
      · have last : total % bulkPutBufSize = bulkPutBufSize - 1 := by omega
        have nextQueued : (total + 1) / bulkPutBufSize = total / bulkPutBufSize + 1 := by
          simp only [bulkPutBufSize] at full ⊢
          omega
        have nextWaiting : (total + 1) % bulkPutBufSize = 0 := by
          simp only [bulkPutBufSize] at full ⊢
          omega
        rw [last, put_single count clientID put (filling_full count clientID put _), if_neg, nextQueued,
          nextWaiting]
        · rfl
        · simp only [filling, List.length_map, List.length_range, bulkPutBufSize, bulkPutMaxOutstanding]
            at few full ⊢
          omega
      · have nextQueued : (total + 1) / bulkPutBufSize = total / bulkPutBufSize := by
          simp only [bulkPutBufSize] at full ⊢
          omega
        have nextWaiting : (total + 1) % bulkPutBufSize = total % bulkPutBufSize + 1 := by
          simp only [bulkPutBufSize] at full ⊢
          omega
        rw [filling_step count clientID put _ _, nextQueued, nextWaiting]
        · rfl
        · simp only [bulkPutBufSize] at full ⊢
          omega
        · simp only [bulkPutBufSize, bulkPutMaxOutstanding] at few ⊢
          omega

/-- A request that was sent once and is not answered is sent again. -/
theorem processNextOutstandingRequest_unanswered {count : Nat} {oldest : OutstandingPut Nat}
    {rest : List (OutstandingPut Nat)} {state : BulkState Nat} (queue : state.outstandingPuts = oldest :: rest)
    (unanswered : oldest.future < count) (first : oldest.tries = 0) (nonempty : oldest.sendBuffer ≠ []) :
    (processNextOutstandingRequest (timesOut count)).run state =
      .ok () ((state.dequeued rest).sent (timesOut count) oldest.server oldest.sendBuffer 1) := by
  have none : oldest.reply (timesOut count) = none := if_pos unanswered
  rcases processNextOutstandingRequest_run (timesOut count) queue with ⟨answered, _⟩ | ⟨_, ran⟩
  · rw [none] at answered
    cases answered
  · rw [ran, sendBuffer_run, first, if_neg (by decide), if_neg nonempty]

theorem timesOut_reply {count : Nat} {put : OutstandingPut Nat} (later : count ≤ put.future) :
    put.reply (timesOut count) = some .bulkPutResponse :=
  if_neg (not_lt.mpr later)

def filler : BulkPut Nat := ⟨1, some [1], 1⟩

def straggler : BulkPut Nat := ⟨2, some [2], 2⟩

/-- A request with a full buffer. -/
def fullRequest (tries future : Nat) : OutstandingPut Nat :=
  ⟨0, onlyServer, List.replicate bulkPutBufSize (filler.putRequest 1), future, tries⟩

theorem fullRequest_nonempty (tries future : Nat) : (fullRequest tries future).sendBuffer ≠ [] :=
  fun empty => absurd (congrArg List.length empty) (by rw [fullRequest, List.length_replicate]; decide)

/-- The first of 64 requests has timed out and was sent again. -/
def afterResend : BulkState Nat :=
  ⟨∅, fullRequest 0 1 :: ((List.range' 2 62).map (fullRequest 0) ++ [fullRequest 1 64]), 65, []⟩

/-- The second one has timed out as well. -/
def afterLoss : BulkState Nat :=
  ⟨∅, (List.range' 2 62).map (fullRequest 0) ++ [fullRequest 1 64] ++ [fullRequest 1 65], 66, []⟩

theorem putAll_fillers :
    putAll (timesOut 2) onlyRange 1 (List.replicate 65536 filler) .initial = afterResend := by
  have before := putAll_filling 2 1 filler (show 65535 < bulkPutBufSize * bulkPutMaxOutstanding by decide)
  have queue : (filling (filler.putRequest 1) 64 0).outstandingPuts =
      fullRequest 0 0 :: (List.range' 1 63).map (fullRequest 0) := by
    rw [filling, show List.range 64 = 0 :: List.range' 1 63 from rfl]
    rfl
  have processed := @processNextOutstandingRequest_unanswered 2 _ _ _ queue (by decide) rfl
    (fullRequest_nonempty 0 0)
  rw [putAll] at before
  rw [List.replicate_succ', putAll, List.foldl_append, List.foldl_cons, List.foldl_nil, before,
    show 65535 / bulkPutBufSize = 63 from rfl, show 65535 % bulkPutBufSize = bulkPutBufSize - 1 from rfl,
    put_single 2 1 filler (filling_full 2 1 filler 63), if_pos (by decide), processed]
  rfl

theorem putBulkBytes_straggler :
    (putBulkBytes (timesOut 2) onlyRange 1 straggler).run afterResend = .ok () afterLoss := by
  have ran := addToBuffer_run (timesOut 2) (straggler.putRequest 1) onlyServer afterResend
  have unfilled : afterResend.buffer onlyServer = [] := rfl
  rw [unfilled, if_neg (by decide)] at ran
  have processed := @processNextOutstandingRequest_unanswered 2 (fullRequest 0 1) _
    (afterResend.kept onlyServer [straggler.putRequest 1]) rfl (by decide) rfl (fullRequest_nonempty 0 1)
  rw [put_single 2 1 straggler ran, if_pos (by decide), List.nil_append, processed]
  rfl

theorem afterLoss_queue : ∀ put ∈ afterLoss.outstandingPuts,
    ∃ tries future, 2 ≤ future ∧ put = fullRequest tries future := by
  intro put member
  rcases List.mem_append.mp member with front | last
  · rcases List.mem_append.mp front with first | again
    · obtain ⟨future, known, rfl⟩ := List.mem_map.mp first
      exact ⟨0, future, (List.mem_range'_1.mp known).1, rfl⟩
    · exact ⟨1, 64, by decide, List.mem_singleton.mp again⟩
  · exact ⟨1, 65, by decide, List.mem_singleton.mp last⟩

section

variable {K : Type} [LinearOrder K] (surroundings : Surroundings K) (routingTable : RoutingTable K)
  (clientID : Int64)

/-- In every run in which each request that `putBulkBytes` waits for settles, a flush
that returns has every put acknowledged by all servers responsible for its key. -/
theorem bulk_puts_acknowledged {puts : List (BulkPut K)} {final : BulkState K}
    (undisturbed : Undisturbed surroundings routingTable clientID puts .initial)
    (returned : (flushBulkBytes surroundings).run (putAll surroundings routingTable clientID puts .initial) =
      .ok () final) :
    ∀ put ∈ puts, ∀ server ∈ responsible routingTable put.key,
      ∃ records, (server, records) ∈ final.acknowledged ∧ put.putRequest clientID ∈ records := by
  intro put member server known
  rw [← mem_addressed, ← List.count_pos_iff, flushBulkBytes_ok surroundings returned,
    putAll_copies surroundings routingTable clientID undisturbed]
  refine Nat.add_pos_right _ (List.count_pos_iff.mpr (List.mem_flatMap.mpr ⟨put, member, ?_⟩))
  exact List.mem_replicate.mpr ⟨(List.count_pos_iff.mpr known).ne', rfl⟩

end

theorem bulk_put_acknowledged_of_one :
    Undisturbed (timesOut 0) onlyRange 1 [straggler] .initial ∧
      ∃ final, (flushBulkBytes (timesOut 0)).run
          (putAll (timesOut 0) onlyRange 1 [straggler] .initial) = .ok () final ∧
        ∃ records, (onlyServer, records) ∈ final.acknowledged ∧ straggler.putRequest 1 ∈ records := by
  have known : responsible onlyRange straggler.key = [onlyServer] := by
    rw [responsible, onlyRange_valuesForKey]
  have added := addToBuffer_run (timesOut 0) (straggler.putRequest 1) onlyServer .initial
  rw [show (BulkState.initial : BulkState Nat).buffer onlyServer = [] from rfl, if_neg (by decide)] at added
  have undisturbed : Undisturbed (timesOut 0) onlyRange 1 [straggler] .initial := by
    refine ⟨fun filled ran crowded => ?_, trivial⟩
    rw [known, addToBuffers_singleton added] at ran
    cases ran
    exact absurd crowded (by decide)
  obtain ⟨final, returned⟩ : ∃ final, (flushBulkBytes (timesOut 0)).run
      (putAll (timesOut 0) onlyRange 1 [straggler] .initial) = .ok () final := by
    rw [putAll, List.foldl_cons, List.foldl_nil, put_single 0 1 straggler added, if_neg (by decide)]
    exact @flushBulkBytes_returns _ (timesOut 0) _ _ rfl fun put _ => timesOut_reply (Nat.zero_le _)
  refine ⟨undisturbed, final, returned, ?_⟩
  exact bulk_puts_acknowledged (timesOut 0) onlyRange 1 undisturbed returned straggler (by simp) onlyServer
    (by simp [known])

/-- 65536 puts fill 64 requests to the only server.  The second one times out while
the buffer holds the last put, and the flush returns without it. -/
theorem resend_drops_filling_buffer :
    ∃ final, (flushBulkBytes (timesOut 2)).run (putAll (timesOut 2) onlyRange 1
        (List.replicate 65536 filler ++ [straggler]) .initial) = .ok () final ∧
      onlyServer ∈ responsible onlyRange straggler.key ∧
      ¬ ∃ records, (onlyServer, records) ∈ final.acknowledged ∧ straggler.putRequest 1 ∈ records := by
  have run : putAll (timesOut 2) onlyRange 1 (List.replicate 65536 filler ++ [straggler]) .initial =
      afterLoss := by
    have fillers := putAll_fillers
    rw [putAll] at fillers
    rw [putAll, List.foldl_append, fillers, List.foldl_cons, List.foldl_nil, putBulkBytes_straggler]
    rfl
  have answered : ∀ put ∈ afterLoss.outstandingPuts, put.reply (timesOut 2) = some .bulkPutResponse := by
    intro put member
    obtain ⟨tries, future, later, rfl⟩ := afterLoss_queue put member
    exact timesOut_reply later
  have nowhere : straggler.putRequest 1 ∉
      addressed onlyServer (afterLoss.outstandingPuts.map OutstandingPut.request) := by
    intro member
    obtain ⟨records, queued, inside⟩ := mem_addressed.mp member
    obtain ⟨put, waiting, same⟩ := List.mem_map.mp queued
    obtain ⟨tries, future, _, rfl⟩ := afterLoss_queue put waiting
    cases same
    exact absurd (List.eq_of_mem_replicate inside) (by decide)
  obtain ⟨final, returned⟩ := @flushBulkBytes_returns _ (timesOut 2) afterLoss afterLoss rfl answered
  refine ⟨final, by rw [run]; exact returned, ?_, ?_⟩
  · rw [responsible, onlyRange_valuesForKey]
    exact List.mem_singleton_self _
  · rw [← mem_addressed, ← List.count_eq_zero, flushBulkBytes_ok (timesOut 2) returned,
      BulkState.copies, List.count_eq_zero.mpr nowhere]
    rfl

end Scads.Client
