import Scads.Comm.CircularByteBuffer
import Mathlib.Algebra.Group.Nat.Defs

namespace Scads.Comm.Nio

open Scads.Data

/-! # One channel between two endpoints -/

/-- A `java.nio.ByteBuffer` with its backing array. -/
structure ByteBuffer where
  array : List UInt8
  position : Nat
  limit : Nat
  ordered : position ≤ limit
  bounded : limit ≤ array.length
deriving DecidableEq, Repr

namespace ByteBuffer

def wrap (array : List UInt8) : ByteBuffer := ⟨array, 0, array.length, Nat.zero_le _, Nat.le_refl _⟩

def remaining (buffer : ByteBuffer) : Nat := buffer.limit - buffer.position

/-- The bytes between the position and the limit. -/
def contents (buffer : ByteBuffer) : List UInt8 := (buffer.array.take buffer.limit).drop buffer.position

/-- The buffer after `count` of its bytes have been taken. -/
def advance (buffer : ByteBuffer) (count : Nat) : ByteBuffer :=
  ⟨buffer.array, min (buffer.position + count) buffer.limit, buffer.limit, Nat.min_le_right _ _, buffer.bounded⟩

variable {buffer : ByteBuffer}

@[simp] theorem contents_wrap (array : List UInt8) : (wrap array).contents = array := by
  simp [wrap, contents]

@[simp] theorem length_contents : buffer.contents.length = buffer.remaining := by
  have bounded := buffer.bounded
  simp only [contents, remaining, List.length_drop, List.length_take]
  omega

theorem contents_advance (count : Nat) : (buffer.advance count).contents = buffer.contents.drop count := by
  have ordered := buffer.ordered
  have bounded := buffer.bounded
  simp only [contents, advance, List.drop_drop]
  by_cases inside : buffer.position + count ≤ buffer.limit
  · rw [Nat.min_eq_left inside]
  · have taken : (buffer.array.take buffer.limit).length = buffer.limit := by
      rw [List.length_take, Nat.min_eq_left bounded]
    rw [Nat.min_eq_right (by omega), List.drop_eq_nil_of_le (by omega), List.drop_eq_nil_of_le (by omega)]

end ByteBuffer

def encodeByteBuffer (data : ByteBuffer) : ByteBuffer :=
  .wrap (wordBytes (BitVec.ofNat 32 data.remaining) ++ data.contents)

theorem array_encodeByteBuffer (data : ByteBuffer) :
    (encodeByteBuffer data).array = (encodeByteBuffer data).contents :=
  (ByteBuffer.contents_wrap _).symm

def sizeOfMessage (data : ByteBuffer) (encode : Bool) : Int :=
  if encode then int32 (data.remaining + 4) else data.remaining

/-- The bytes of a channel that wait at its sender: `dataMapQueue` and
`bulkBufferQueue` at the channel. -/
structure Sender where
  queue : List ByteBuffer := []
  bulkBuffer : Option (List UInt8) := none
deriving DecidableEq, Repr

namespace Sender

def send (sender : Sender) (data : ByteBuffer) (encode : Bool) : Sender :=
  { sender with queue := sender.queue ++ [if encode then encodeByteBuffer data else data] }

/-- The part of `sendBulk` that makes room for the message. -/
def makeRoom (bulkBufferSize : Int) (sender : Sender) (size : Int) : Sender × List UInt8 :=
  let buffer := sender.bulkBuffer.getD []
  if size > bulkBufferSize - buffer.length then (sender.send (.wrap buffer) false, []) else (sender, buffer)

/-- The rest of `sendBulk`: the message goes into the buffer, and a full buffer goes
into the queue. -/
def putBulk (bulkBufferSize : Int) (sender : Sender) (buffer : List UInt8) : Sender :=
  if buffer.length = bulkBufferSize then { sender.send (.wrap buffer) false with bulkBuffer := some [] }
  else { sender with bulkBuffer := some buffer }

def sendBulk (bulkBufferSize : Int) (sender : Sender) (data : ByteBuffer) (encode : Bool) :
    Except NioException Sender :=
  if sizeOfMessage data encode > bulkBufferSize then
    .error (.illegalArgument "Need to increase the bulk buffer size")
  else
    let room := makeRoom bulkBufferSize sender (sizeOfMessage data encode)
    let toPut := if encode then encodeByteBuffer data else data
    .ok (putBulk bulkBufferSize room.1 (room.2 ++ toPut.array))

def flushBulk (sender : Sender) : Sender :=
  match sender.bulkBuffer with
  | none => sender
  | some buffer => { sender.send (.wrap buffer) false with bulkBuffer := none }

/-- The bytes that wait, in the order in which they will be written. -/
def waiting (sender : Sender) : List UInt8 :=
  sender.queue.flatMap ByteBuffer.contents ++ sender.bulkBuffer.getD []

variable {sender : Sender} {bulkBufferSize : Int} {data : ByteBuffer}

theorem waiting_send (flushed : sender.bulkBuffer = none) :
    (sender.send data true).waiting = sender.waiting ++ (encodeByteBuffer data).contents := by
  simp [waiting, send, flushed]

theorem waiting_makeRoom (size : Int) :
    (makeRoom bulkBufferSize sender size).1.queue.flatMap ByteBuffer.contents ++
      (makeRoom bulkBufferSize sender size).2 = sender.waiting := by
  rw [makeRoom]
  split
  · simp [send, waiting]
  · simp [waiting]

theorem waiting_putBulk (buffer : List UInt8) :
    (putBulk bulkBufferSize sender buffer).waiting = sender.queue.flatMap ByteBuffer.contents ++ buffer := by
  rw [putBulk]
  split
  · simp [waiting, send]
  · simp [waiting]

theorem sendBulk_ok (fits : sizeOfMessage data true ≤ bulkBufferSize) :
    ∃ next, sendBulk bulkBufferSize sender data true = .ok next ∧
      next.waiting = sender.waiting ++ (encodeByteBuffer data).contents := by
  have room := @waiting_makeRoom sender bulkBufferSize (sizeOfMessage data true)
  refine ⟨_, by rw [sendBulk, if_neg (Int.not_lt.mpr fits)], ?_⟩
  rw [waiting_putBulk, ← List.append_assoc, room, if_pos rfl, array_encodeByteBuffer]

theorem waiting_flushBulk : sender.flushBulk.waiting = sender.waiting := by
  rw [flushBulk]
  split
  · rfl
  · next buffer pending => simp [waiting, send, pending]

theorem flushBulk_flushed : sender.flushBulk.bulkBuffer = none := by
  rw [flushBulk]
  split
  · assumption
  · rfl

end Sender

/-- The size that `mergeQueue` computes, in 32 bits. -/
def mergedSize (queue : List ByteBuffer) : Int :=
  queue.foldl (fun size entry => int32 (size + entry.remaining)) 0

/-- Puts the buffers one by one into a new one with so much room.  Where one does not
fit, those before it have been read. -/
def putAll : Nat → List ByteBuffer → Except (List ByteBuffer) (List UInt8)
  | _, [] => .ok []
  | room, entry :: rest =>
      if entry.remaining ≤ room then
        match putAll (room - entry.remaining) rest with
        | .ok copied => .ok (entry.contents ++ copied)
        | .error left => .error (entry.advance entry.remaining :: left)
      else .error (entry :: rest)

def mergeQueue : EStateM NioException (List ByteBuffer) Unit := fun queue =>
  let size := mergedSize queue
  if size < 0 then .error (.illegalArgument "") queue
  else
    match putAll size.toNat queue with
    | .error left => .error .bufferOverflow left
    | .ok copied => .ok () [.wrap (copied ++ List.replicate (size.toNat - copied.length) 0)]

/-- What a round of writes leaves: the bytes that the channel took, the queue, and
how much the channel will take at the writes to come. -/
structure Written where
  bytes : List UInt8
  queue : List ByteBuffer
  accepts : List Nat

/-- The inner loop of `writeLoop`.  `accepts` is how many bytes the channel takes at
each call of `write`. -/
def writeEntries : List Nat → List ByteBuffer → Written
  | accepts, [] => ⟨[], [], accepts⟩
  | accepts, entry :: rest =>
      let taken := min (accepts.headD 0) entry.remaining
      let left := entry.advance taken
      if left.remaining > 0 then ⟨entry.contents.take taken, left :: rest, accepts.tail⟩
      else
        let after := writeEntries accepts.tail rest
        { after with bytes := entry.contents.take taken ++ after.bytes }

def writeAttempts : Nat → List Nat → List ByteBuffer → Written
  | 0, accepts, queue => ⟨[], queue, accepts⟩
  | attempts + 1, accepts, queue =>
      let first := writeEntries accepts queue
      let after := writeAttempts attempts first.accepts first.queue
      { after with bytes := first.bytes ++ after.bytes }

/-- One pass of `writeLoop` over a connected channel, with the bytes that it writes. -/
def writePass (accepts : List Nat) : EStateM NioException (List ByteBuffer) (List UInt8) := fun queue =>
  match if queue.length > 1 then mergeQueue queue else .ok () queue with
  | .error failure left => .error failure left
  | .ok _ queue =>
      let written := writeAttempts 5 accepts queue
      .ok written.bytes written.queue

theorem int32_add_int32 (first second : Int) : int32 (int32 first + second) = int32 (first + second) := by
  rw [int32, int32, int32, Int.bmod_add_bmod]

theorem foldl_mergedSize (queue : List ByteBuffer) (start : Int) :
    queue.foldl (fun size entry => int32 (size + entry.remaining)) (int32 start) =
      int32 (start + (queue.flatMap ByteBuffer.contents).length) := by
  induction queue generalizing start with
  | nil => simp
  | cons entry rest ih =>
      rw [List.foldl_cons, int32_add_int32, ih]
      simp only [List.flatMap_cons, List.length_append, ByteBuffer.length_contents, Int.natCast_add]
      rw [Int.add_assoc]

/-- The size of the merged buffer is the number of bytes that wait, in 32 bits. -/
theorem mergedSize_eq (queue : List ByteBuffer) :
    mergedSize queue = int32 (queue.flatMap ByteBuffer.contents).length := by
  have folded := foldl_mergedSize queue 0
  rw [int32_of_range (by decide) (by decide), Int.zero_add] at folded
  exact folded

theorem putAll_ok {queue : List ByteBuffer} {room : Nat}
    (fits : (queue.flatMap ByteBuffer.contents).length ≤ room) :
    putAll room queue = .ok (queue.flatMap ByteBuffer.contents) := by
  induction queue generalizing room with
  | nil => rfl
  | cons entry rest ih =>
      simp only [List.flatMap_cons, List.length_append, ByteBuffer.length_contents] at fits
      rw [putAll, if_pos (by omega), ih (by omega)]
      rfl

theorem mergeQueue_ok {queue : List ByteBuffer}
    (fits : (queue.flatMap ByteBuffer.contents).length < 2 ^ 31) :
    mergeQueue queue = .ok () [.wrap (queue.flatMap ByteBuffer.contents)] := by
  have size : mergedSize queue = (queue.flatMap ByteBuffer.contents).length := by
    rw [mergedSize_eq, int32_natCast fits]
  simp only [mergeQueue, size]
  rw [if_neg (by omega), Int.toNat_natCast, putAll_ok (Nat.le_refl _)]
  simp

/-- A queue whose bytes do not fit into a 32-bit integer cannot be merged. -/
theorem mergeQueue_overflow {queue : List ByteBuffer}
    (many : 2 ^ 31 ≤ (queue.flatMap ByteBuffer.contents).length)
    (less : (queue.flatMap ByteBuffer.contents).length < 2 ^ 32) :
    mergeQueue queue = .error (.illegalArgument "") queue := by
  have size : mergedSize queue < 0 := by
    rw [mergedSize_eq, int32, Int.bmod_def]
    split
    · omega
    · omega
  simp only [mergeQueue]
  rw [if_pos size]

theorem writeEntries_contents (accepts : List Nat) (queue : List ByteBuffer) :
    (writeEntries accepts queue).bytes ++ (writeEntries accepts queue).queue.flatMap ByteBuffer.contents =
      queue.flatMap ByteBuffer.contents := by
  induction queue generalizing accepts with
  | nil => rfl
  | cons entry rest ih =>
      rw [writeEntries]
      split
      · simp only [List.flatMap_cons, ByteBuffer.contents_advance]
        rw [← List.append_assoc, List.take_append_drop]
      · next done =>
          have whole : entry.contents.take (min (accepts.headD 0) entry.remaining) = entry.contents := by
            have none : (entry.advance (min (accepts.headD 0) entry.remaining)).contents.length = 0 := by
              rw [ByteBuffer.length_contents]
              omega
            rw [ByteBuffer.contents_advance, List.length_drop] at none
            exact List.take_of_length_le (by omega)
          simp only [whole, List.append_assoc, List.flatMap_cons, ih]

theorem writeAttempts_contents (attempts : Nat) (accepts : List Nat) (queue : List ByteBuffer) :
    (writeAttempts attempts accepts queue).bytes ++
      (writeAttempts attempts accepts queue).queue.flatMap ByteBuffer.contents =
      queue.flatMap ByteBuffer.contents := by
  induction attempts generalizing accepts queue with
  | zero => rfl
  | succ attempts ih =>
      simp only [writeAttempts, List.append_assoc]
      rw [ih, writeEntries_contents]

/-- The channel's queue can be merged. -/
def Mergeable (queue : List ByteBuffer) : Prop :=
  queue.length > 1 → (queue.flatMap ByteBuffer.contents).length < 2 ^ 31

/-- `mergeQueue` where the queue has several entries. -/
theorem writePass_eq {accepts : List Nat} {queue : List ByteBuffer} (mergeable : Mergeable queue) :
    ∃ merged, merged.length ≤ 1 ∧ merged.flatMap ByteBuffer.contents = queue.flatMap ByteBuffer.contents ∧
      writePass accepts queue =
        .ok (writeAttempts 5 accepts merged).bytes (writeAttempts 5 accepts merged).queue := by
  by_cases several : queue.length > 1
  · refine ⟨[.wrap (queue.flatMap ByteBuffer.contents)], by simp, by simp, ?_⟩
    rw [writePass, if_pos several, mergeQueue_ok (mergeable several)]
  · exact ⟨queue, by omega, rfl, by rw [writePass, if_neg several]⟩

theorem writePass_contents {accepts : List Nat} {queue : List ByteBuffer} (mergeable : Mergeable queue) :
    ∃ written left, writePass accepts queue = .ok written left ∧
      written ++ left.flatMap ByteBuffer.contents = queue.flatMap ByteBuffer.contents := by
  obtain ⟨merged, -, same, passed⟩ := @writePass_eq accepts queue mergeable
  refine ⟨_, _, passed, ?_⟩
  rw [writeAttempts_contents, same]

theorem writeAttempts_nil (attempts : Nat) (accepts : List Nat) :
    writeAttempts attempts accepts [] = ⟨[], [], accepts⟩ := by
  induction attempts with
  | zero => rfl
  | succ attempts ih => simp [writeAttempts, writeEntries, ih]

/-- A channel that takes every byte empties the queue. -/
theorem writePass_all {accepts : List Nat} {queue : List ByteBuffer} (mergeable : Mergeable queue)
    (enough : (queue.flatMap ByteBuffer.contents).length ≤ accepts.headD 0) :
    writePass accepts queue = .ok (queue.flatMap ByteBuffer.contents) [] := by
  obtain ⟨merged, few, same, passed⟩ := @writePass_eq accepts queue mergeable
  rw [← same] at enough
  have emptied : (writeAttempts 5 accepts merged).queue = [] := by
    match merged, few with
    | [], _ => rw [writeAttempts_nil]
    | [entry], _ =>
        simp only [List.flatMap_cons, List.flatMap_nil, List.append_nil, ByteBuffer.length_contents] at enough
        have none : (entry.advance (min (accepts.headD 0) entry.remaining)).remaining = 0 := by
          rw [← ByteBuffer.length_contents, ByteBuffer.contents_advance, List.length_drop,
            ByteBuffer.length_contents]
          omega
        have first : (writeEntries accepts [entry]).queue = [] := by
          rw [writeEntries, if_neg (by omega)]
          rfl
        rw [writeAttempts, first, writeAttempts_nil]
  have contents := writeAttempts_contents 5 accepts merged
  rw [emptied, List.flatMap_nil, List.append_nil, same] at contents
  rw [passed, emptied, contents]

structure ChannelState where
  buffer : CircularByteBuffer
  inMessage : Bool := false
  messageSize : Int := 0
deriving DecidableEq, Repr

/-- The end of a channel that reads: the entry of `channelQueue`, and the calls of
`processData` so far. -/
structure Receiver where
  channelState : Option ChannelState := none
  processed : List (List UInt8 × Int) := []
deriving DecidableEq, Repr

/-- What the loop of `read` works on. -/
structure Parser where
  state : ChannelState
  processed : List (List UInt8 × Int)
deriving DecidableEq, Repr

section

variable (processData : List UInt8 → Int → Option NioException)

/-- One round of the loop of `read`, with `shouldContinue`. -/
def readStep : EStateM NioException Parser Bool := fun parser =>
  let state := parser.state
  if !state.inMessage && state.buffer.size ≥ 4 then
    match state.buffer.consumeInt with
    | .error failure => .error failure parser
    | .ok (messageSize, buffer) =>
        if messageSize.toInt < 0 then
          .error (.invalidMessageSize messageSize.toInt) { parser with state := { state with buffer } }
        else
          .ok true { parser with state := { buffer, inMessage := true, messageSize := messageSize.toInt } }
  else if state.inMessage && state.buffer.size ≥ state.messageSize then
    match state.buffer.consumeBytes state.messageSize with
    | .error failure => .error failure parser
    | .ok (message, buffer) =>
        let processed := parser.processed ++ [(message, state.messageSize)]
        match processData message state.messageSize with
        | some failure => .error failure { state := { state with buffer }, processed }
        | none => .ok true { state := { buffer }, processed }
  else .ok false parser

/-- The loop ends, as a round takes a byte or leaves a message. -/
def readLoop : Nat → EStateM NioException Parser Unit
  | 0 => pure ()
  | rounds + 1 => do
      if ← readStep processData then readLoop rounds

def ChannelState.rounds (state : ChannelState) : Nat := 2 * state.buffer.size.toNat + 2

/-- What a call of `SocketChannel.read` gives. -/
inductive SocketRead where
  | bytes (readByteArray : List UInt8)
  | endOfStream
  | ioException
deriving DecidableEq, Repr

def openState (receiver : Receiver) : Except NioException ChannelState :=
  match receiver.channelState with
  | some state => .ok state
  | none => do return { buffer := ← CircularByteBuffer.new (64 * 1024) }

def read (given : SocketRead) : EStateM NioException Receiver Unit := fun receiver =>
  match openState receiver with
  | .error failure => .error failure receiver
  | .ok state =>
      match given with
      | .endOfStream => .ok () { receiver with channelState := none }
      | .ioException => .ok () { receiver with channelState := none }
      | .bytes readByteArray =>
          match state.buffer.append readByteArray with
          | .error failure => .error failure { receiver with channelState := some state }
          | .ok buffer =>
              let state := { state with buffer }
              let rounds := if buffer.isEmpty then 0 else state.rounds
              match readLoop processData rounds ⟨state, receiver.processed⟩ with
              | .error failure parser => .error failure ⟨some parser.state, parser.processed⟩
              | .ok _ parser => .ok () ⟨some parser.state, parser.processed⟩

end

end Scads.Comm.Nio
