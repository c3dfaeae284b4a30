import Mathlib.Algebra.GroupWithZero.Nat
import Scads.Comm.NioEndpoint

namespace Scads.Comm.Nio

open Scads.Data

/-! # Messages over a byte stream

The bytes on their way are the frames of the messages that have not been processed.
Sending adds a frame, writing and reading move bytes, and the parser takes frames off.
-/

def frame (message : List UInt8) : List UInt8 :=
  wordBytes (BitVec.ofNat 32 message.length) ++ message

def frames (messages : List (List UInt8)) : List UInt8 := messages.flatMap frame

theorem frames_append (first second : List (List UInt8)) : frames (first ++ second) = frames first ++ frames second :=
  List.flatMap_append

theorem frames_singleton (message : List UInt8) : frames [message] = frame message := by
  simp [frames]

theorem contents_encodeByteBuffer (data : ByteBuffer) :
    (encodeByteBuffer data).contents = frame data.contents := by
  rw [encodeByteBuffer, ByteBuffer.contents_wrap, frame, ByteBuffer.length_contents]

/-- A call of `processData`: the message with its size. -/
def sized (message : List UInt8) : List UInt8 × Int := (message, message.length)

/-- The bytes in the buffer and those to come are the rest of the message that has
begun, if any, and the frames of the others. -/
inductive Awaits : ChannelState → List UInt8 → List UInt8 → List (List UInt8) → Prop where
  | between {buffer : CircularByteBuffer} {size : Int} {contents coming : List UInt8}
      {pending : List (List UInt8)} (holds : buffer.Holds contents)
      (same : contents ++ coming = frames pending) :
      Awaits { buffer, inMessage := false, messageSize := size } contents coming pending
  | within {buffer : CircularByteBuffer} {contents coming message : List UInt8}
      {rest : List (List UInt8)} (holds : buffer.Holds contents)
      (same : contents ++ coming = message ++ frames rest) :
      Awaits { buffer, inMessage := true, messageSize := message.length } contents coming (message :: rest)

/-- The buffer holds less than what the parser needs to go on. -/
def ChannelState.Quiet (state : ChannelState) : Prop :=
  state.buffer.size < if state.inMessage then state.messageSize else 4

/-- What a round of the loop makes smaller. -/
def ChannelState.weight (state : ChannelState) : Nat :=
  2 * state.buffer.size.toNat + if state.inMessage then 1 else 0

theorem ChannelState.weight_lt_rounds (state : ChannelState) : state.weight < state.rounds := by
  rw [weight, rounds]
  split
  · omega
  · omega

section

variable {processData : List UInt8 → Int → Option NioException} {parser : Parser}
  {contents coming : List UInt8} {pending : List (List UInt8)}

theorem Awaits.holds {state : ChannelState} (awaits : Awaits state contents coming pending) :
    state.buffer.Holds contents := by
  cases awaits with
  | between holds => exact holds
  | within holds => exact holds

/-- Four bytes of frames are the length of the first message. -/
theorem frames_prefix (same : contents ++ coming = frames pending) (long : 4 ≤ contents.length) :
    ∃ message rest left, pending = message :: rest ∧
      contents = wordBytes (BitVec.ofNat 32 message.length) ++ left ∧ left ++ coming = message ++ frames rest := by
  cases pending with
  | nil =>
      have length := congrArg List.length same
      simp only [frames, List.flatMap_nil, List.length_append, List.length_nil] at length
      omega
  | cons message rest =>
      simp only [frames, List.flatMap_cons, frame, List.append_assoc] at same
      refine ⟨message, rest, contents.drop 4, rfl, ?_, ?_⟩
      · have front := congrArg (List.take 4) same
        rw [List.take_append_of_le_length long, List.take_left' (by simp)] at front
        rw [← front, List.take_append_drop]
      · have back := congrArg (List.drop 4) same
        rw [List.drop_append_of_le_length long, List.drop_left' (by simp)] at back
        exact back

/-- What a round of the loop does: it reads the length of the next message, hands the
message over, or finds that there is nothing to do. -/
inductive Round (processData : List UInt8 → Int → Option NioException) (parser : Parser)
    (contents coming : List UInt8) : List (List UInt8) → Prop where
  | header {buffer : CircularByteBuffer} {left message : List UInt8} {rest : List (List UInt8)}
      (between : parser.state.inMessage = false)
      (same : contents = wordBytes (BitVec.ofNat 32 message.length) ++ left)
      (stepped : readStep processData parser = .ok true ⟨⟨buffer, true, message.length⟩, parser.processed⟩)
      (awaits : Awaits ⟨buffer, true, message.length⟩ left coming (message :: rest)) :
      Round processData parser contents coming (message :: rest)
  | accepted {buffer : CircularByteBuffer} {message : List UInt8} {rest : List (List UInt8)}
      (within : parser.state.inMessage = true) (long : message.length ≤ contents.length)
      (returned : processData message message.length = none)
      (stepped : readStep processData parser = .ok true ⟨{ buffer }, parser.processed ++ [sized message]⟩)
      (awaits : Awaits { buffer } (contents.drop message.length) coming rest) :
      Round processData parser contents coming (message :: rest)
  | failed {buffer : CircularByteBuffer} {message : List UInt8} {rest : List (List UInt8)} {failure : NioException}
      (within : parser.state.inMessage = true) (long : message.length ≤ contents.length)
      (threw : processData message message.length = some failure)
      (stepped : readStep processData parser =
        .error failure ⟨⟨buffer, true, message.length⟩, parser.processed ++ [sized message]⟩)
      (holds : buffer.Holds (contents.drop message.length))
      (same : contents.drop message.length ++ coming = frames rest) :
      Round processData parser contents coming (message :: rest)
  | quiet {pending : List (List UInt8)} (stepped : readStep processData parser = .ok false parser)
      (waits : parser.state.Quiet) : Round processData parser contents coming pending

/-- A round between two messages, when the length of the next one has come. -/
theorem readStep_between {buffer : CircularByteBuffer} {size : Int} {processed : List (List UInt8 × Int)} {length : Nat}
    {left : List UInt8} (holds : buffer.Holds (wordBytes (BitVec.ofNat 32 length) ++ left)) (small : length < 2 ^ 31) :
    ∃ next, next.Holds left ∧
      readStep processData ⟨⟨buffer, false, size⟩, processed⟩ = .ok true ⟨⟨next, true, length⟩, processed⟩ := by
  obtain ⟨next, consumed, holding⟩ := CircularByteBuffer.consumeInt_holds holds
  have enough : buffer.size ≥ 4 := by
    rw [holds.size, List.length_append, length_wordBytes]
    omega
  have same : (BitVec.ofNat 32 length).toInt = length := toInt_ofNat_word small
  have nonnegative : ¬ (length : Int) < 0 := by omega
  exact ⟨next, holding, by simp [readStep, enough, consumed, same, nonnegative]⟩

/-- A round within a message of which all bytes have come, whatever they are. -/
theorem readStep_within {buffer : CircularByteBuffer} {processed : List (List UInt8 × Int)} {length : Nat}
    (holds : buffer.Holds contents) (long : length ≤ contents.length) :
    ∃ next, next.Holds (contents.drop length) ∧
      readStep processData ⟨⟨buffer, true, length⟩, processed⟩ =
        (processData (contents.take length) length).elim
          (.ok true ⟨{ buffer := next }, processed ++ [(contents.take length, (length : Int))]⟩)
          fun failure => .error failure ⟨⟨next, true, length⟩, processed ++ [(contents.take length, (length : Int))]⟩ := by
  obtain ⟨next, consumed, holding⟩ := CircularByteBuffer.consumeBytes_holds holds long
  have enough : buffer.size ≥ length := by
    rw [holds.size]
    omega
  refine ⟨next, holding, ?_⟩
  cases called : processData (contents.take length) length with
  | none => simp [readStep, enough, consumed, called]
  | some failure => simp [readStep, enough, consumed, called]

theorem round_awaits (small : ∀ message ∈ pending, message.length < 2 ^ 31)
    (awaits : Awaits parser.state contents coming pending) : Round processData parser contents coming pending := by
  obtain ⟨state, processed⟩ := parser
  cases awaits with
  | @between buffer size _ _ _ holds same =>
      by_cases enough : buffer.size ≥ 4
      · have long : 4 ≤ contents.length := by
          rw [holds.size] at enough
          omega
        obtain ⟨message, rest, left, rfl, rfl, others⟩ := frames_prefix same long
        obtain ⟨next, holding, stepped⟩ := @readStep_between processData _ size processed _ _ holds
          (small message (by simp))
        exact .header rfl rfl stepped (.within holding others)
      · exact .quiet (by simp [readStep, enough]) (by simpa [ChannelState.Quiet] using enough)
  | @within buffer _ _ message rest holds same =>
      by_cases enough : buffer.size ≥ message.length
      · have long : message.length ≤ contents.length := by
          rw [holds.size] at enough
          omega
        have front : contents.take message.length = message := by
          have taken := congrArg (List.take message.length) same
          rwa [List.take_append_of_le_length long, List.take_left' rfl] at taken
        have back : contents.drop message.length ++ coming = frames rest := by
          have dropped := congrArg (List.drop message.length) same
          rwa [List.drop_append_of_le_length long, List.drop_left' rfl] at dropped
        obtain ⟨next, holding, stepped⟩ := @readStep_within processData contents buffer processed _ holds long
        rw [front] at stepped
        cases called : processData message message.length with
        | none => exact .accepted rfl long called (by rw [stepped, called]; rfl) (.between holding back)
        | some failure => exact .failed rfl long called (by rw [stepped, called]; rfl) holding back
      · exact .quiet (by simp [readStep, enough]) (by simpa [ChannelState.Quiet] using enough)

/-- A round of the loop moves the parser on and gives at most one message away, or
finds that there is nothing to do. -/
theorem readStep_awaits (accepting : ∀ data count, processData data count = none)
    (small : ∀ message ∈ pending, message.length < 2 ^ 28)
    (awaits : Awaits parser.state contents coming pending) :
    (∃ next done left others, readStep processData parser = .ok true next ∧ pending = done ++ others ∧
      next.processed = parser.processed ++ done.map sized ∧ Awaits next.state left coming others ∧
      next.state.weight < parser.state.weight) ∨
    (readStep processData parser = .ok false parser ∧ parser.state.Quiet) := by
  have bounded : ∀ message ∈ pending, message.length < 2 ^ 31 := fun message member => by
    have short := small message member
    omega
  have before := awaits.holds.size
  cases @round_awaits processData parser _ _ _ bounded awaits with
  | @header buffer left message rest between same stepped next =>
      refine .inl ⟨_, [], left, message :: rest, stepped, rfl, by simp, next, ?_⟩
      have after : buffer.size = left.length := next.holds.size
      simp only [same, List.length_append, length_wordBytes] at before
      simp only [ChannelState.weight, before, after, between, if_true, Bool.false_eq_true, if_false]
      omega
  | @accepted buffer message rest within long returned stepped next =>
      refine .inl ⟨_, [message], _, rest, stepped, rfl, rfl, next, ?_⟩
      have after : buffer.size = (contents.drop message.length).length := next.holds.size
      simp only [ChannelState.weight, before, after, List.length_drop, within, if_true, Bool.false_eq_true, if_false]
      omega
  | failed within long threw => rw [accepting] at threw; cases threw
  | quiet stepped waits => exact .inr ⟨stepped, waits⟩

/-- The loop ends with a parser that waits for more bytes. -/
theorem readLoop_awaits (accepting : ∀ data count, processData data count = none)
    (small : ∀ message ∈ pending, message.length < 2 ^ 28)
    (awaits : Awaits parser.state contents coming pending) {rounds : Nat}
    (enough : parser.state.weight < rounds) :
    ∃ next done left others, readLoop processData rounds parser = .ok () next ∧ pending = done ++ others ∧
      next.processed = parser.processed ++ done.map sized ∧ Awaits next.state left coming others ∧
      next.state.Quiet := by
  induction rounds generalizing parser contents pending with
  | zero => omega
  | succ rounds ih =>
      cases readStep_awaits accepting small awaits with
      | inl moved =>
          obtain ⟨next, done, left, others, stepped, rfl, processed, awaiting, lighter⟩ := moved
          obtain ⟨final, more, last, rest, looped, rfl, added, waits, quiet⟩ :=
            ih (fun message member => small message (by simp [member])) awaiting (by omega)
          refine ⟨final, done ++ more, last, rest, ?_, by simp, by simp [added, processed], waits, quiet⟩
          simp only [readLoop, bind, EStateM.bind, stepped, if_true, looped]
      | inr stopped =>
          obtain ⟨stepped, quiet⟩ := stopped
          refine ⟨parser, [], contents, pending, ?_, rfl, by simp, awaits, quiet⟩
          simp only [readLoop, bind, EStateM.bind, stepped]
          rfl

/-- The receiver waits for the frames of these messages. -/
def Receiver.Expects (receiver : Receiver) (coming : List UInt8) (pending : List (List UInt8)) : Prop :=
  match receiver.channelState with
  | none => coming = frames pending
  | some state => state.Quiet ∧ ∃ contents, Awaits state contents coming pending

/-- Between two reads the buffer holds less than the longest message. -/
theorem Awaits.few_contents {state : ChannelState} {bound : Nat} (awaits : Awaits state contents coming pending)
    (quiet : state.Quiet) (roomy : 4 ≤ bound) (small : ∀ message ∈ pending, message.length ≤ bound) :
    contents.length < bound := by
  cases awaits with
  | between holds same =>
      simp only [ChannelState.Quiet, holds.size] at quiet
      simp only [Bool.false_eq_true, if_false] at quiet
      omega
  | @within _ _ _ message _ holds same =>
      have bound := small message (by simp)
      simp only [ChannelState.Quiet, holds.size, if_true] at quiet
      omega

/-- Bytes that arrive go to the buffer. -/
theorem Awaits.append {state : ChannelState} {chunk : List UInt8} {buffer : CircularByteBuffer}
    (awaits : Awaits state contents (chunk ++ coming) pending) (holds : buffer.Holds (contents ++ chunk)) :
    Awaits { state with buffer } (contents ++ chunk) coming pending := by
  cases awaits with
  | between _ same => exact .between holds (by rw [← same, List.append_assoc])
  | within _ same => exact .within holds (by rw [← same, List.append_assoc])

/-- A read takes the bytes in, processes the messages they complete and waits for the
others. -/
theorem read_expects {receiver : Receiver} {chunk : List UInt8}
    (accepting : ∀ data count, processData data count = none)
    (small : ∀ message ∈ pending, message.length < 2 ^ 28) (short : chunk.length ≤ 8192)
    (expects : receiver.Expects (chunk ++ coming) pending) :
    ∃ next done others, read processData (.bytes chunk) receiver = .ok () next ∧ pending = done ++ others ∧
      next.processed = receiver.processed ++ done.map sized ∧ next.Expects coming others := by
  have opened : ∃ state contents, openState receiver = .ok state ∧ state.Quiet ∧
      Awaits state contents (chunk ++ coming) pending := by
    rw [Receiver.Expects] at expects
    rw [openState]
    cases found : receiver.channelState with
    | none =>
        rw [found] at expects
        obtain ⟨buffer, created, holds⟩ :=
          @CircularByteBuffer.new_holds (64 * 1024) (by decide) (by decide)
        refine ⟨{ buffer }, [], ?_, ?_, .between holds expects⟩
        · simp only [created, ok_bind, pure_eq_ok]
        · simp [ChannelState.Quiet, holds.size]
    | some state =>
        rw [found] at expects
        obtain ⟨quiet, contents, awaits⟩ := expects
        exact ⟨state, contents, rfl, quiet, awaits⟩
  obtain ⟨state, contents, opened, quiet, awaits⟩ := opened
  have few := awaits.few_contents quiet (show 4 ≤ 2 ^ 28 by omega) fun message member => (small message member).le
  obtain ⟨buffer, appended, holds⟩ := CircularByteBuffer.append_holds awaits.holds
    (show 3 * (contents.length + chunk.length) < 2 ^ 31 by omega)
  have taken := awaits.append holds
  simp only [read, opened, appended]
  by_cases empty : buffer.isEmpty = true
  · rw [if_pos empty]
    refine ⟨_, [], pending, rfl, rfl, by simp, ?_, _, taken⟩
    have nothing : buffer.size = 0 := by simpa [CircularByteBuffer.isEmpty] using empty
    have size := awaits.holds.size
    simp only [ChannelState.Quiet, nothing] at quiet ⊢
    omega
  · rw [if_neg empty]
    obtain ⟨next, done, left, others, looped, split, processed, awaiting, waits⟩ :=
      @readLoop_awaits _ ⟨{ state with buffer }, receiver.processed⟩ _ _ _ accepting small taken _
        (ChannelState.weight_lt_rounds _)
    rw [looped]
    exact ⟨_, done, others, rfl, split, processed, waits, left, awaiting⟩

end

/-- What the sender's and the receiver's threads do, one call or pass at a time. -/
inductive Action where
  | send (data : ByteBuffer) (encode : Bool)
  | sendBulk (data : ByteBuffer) (encode : Bool)
  | flushBulk
  | write (accepts : List Nat)
  | read (count : Nat)
deriving DecidableEq, Repr

/-- A channel with both of its ends.  The wire holds what has been written and not
read. -/
structure Link where
  sender : Sender := {}
  wire : List UInt8 := []
  receiver : Receiver := {}
  thrown : List NioException := []
deriving DecidableEq, Repr

section

variable (processData : List UInt8 → Int → Option NioException) (bulkBufferSize : Int)

/-- The size of `readBuffer`. -/
def readBufferSize : Nat := 8192

def Link.step (link : Link) : Action → Link
  | .send data encode => { link with sender := link.sender.send data encode }
  | .sendBulk data encode =>
      match link.sender.sendBulk bulkBufferSize data encode with
      | .ok sender => { link with sender }
      | .error failure => { link with thrown := link.thrown ++ [failure] }
  | .flushBulk => { link with sender := link.sender.flushBulk }
  | .write accepts =>
      match writePass accepts link.sender.queue with
      | .ok written queue => { link with sender := { link.sender with queue }, wire := link.wire ++ written }
      | .error failure queue =>
          { link with sender := { link.sender with queue }, thrown := link.thrown ++ [failure] }
  | .read count =>
      let taken := min count readBufferSize
      let after := { link with wire := link.wire.drop taken }
      match Nio.read processData (.bytes (link.wire.take taken)) link.receiver with
      | .ok _ receiver => { after with receiver }
      | .error failure receiver => { after with receiver, thrown := link.thrown ++ [failure] }

def Link.run (actions : List Action) : Link := actions.foldl (Link.step processData bulkBufferSize) {}

end

/-- The messages that the actions send, in order. -/
def sent (actions : List Action) : List (List UInt8) :=
  actions.filterMap fun action =>
    match action with
    | .send data _ => some data.contents
    | .sendBulk data _ => some data.contents
    | _ => none

/-- Bulk messages have been sent since the last `flushBulk`. -/
def bulkPending (actions : List Action) : Bool :=
  actions.foldl (fun pending action =>
    match action with
    | .sendBulk _ _ => true
    | .flushBulk => false
    | _ => pending) false

/-- How a channel may be used: short messages, always encoded, bulk messages within
the buffer and flushed before `send` is used again. -/
structure Proper (bulkBufferSize : Int) (actions : List Action) : Prop where
  single : ∀ data encode, .send data encode ∈ actions → encode = true ∧ data.remaining < 2 ^ 28
  bulk : ∀ data encode, .sendBulk data encode ∈ actions →
    encode = true ∧ data.remaining < 2 ^ 28 ∧ sizeOfMessage data encode ≤ bulkBufferSize
  flushed : ∀ before data encode after, actions = before ++ .send data encode :: after → bulkPending before = false

/-- A run so far: the processed messages are the first ones sent, and the frames of
the others are on their way. -/
structure Link.Carries (link : Link) (messages : List (List UInt8)) (bulk : Bool) : Prop where
  quiet : link.thrown = []
  flushed : bulk = false → link.sender.bulkBuffer = none
  delivering : ∃ done pending, messages = done ++ pending ∧ link.receiver.processed = done.map sized ∧
    link.receiver.Expects (link.wire ++ link.sender.waiting) pending

theorem Receiver.Expects.send {receiver : Receiver} {coming message : List UInt8}
    {pending : List (List UInt8)} (expects : receiver.Expects coming pending) :
    receiver.Expects (coming ++ frame message) (pending ++ [message]) := by
  rw [Receiver.Expects] at expects ⊢
  split at expects
  · rw [frames_append, frames_singleton, expects]
  · obtain ⟨quiet, contents, awaits⟩ := expects
    refine ⟨quiet, contents, ?_⟩
    cases awaits with
    | between holds same =>
        refine .between holds ?_
        rw [frames_append, frames_singleton, ← same, List.append_assoc]
    | @within _ _ _ _ rest holds same =>
        refine .within holds ?_
        change _ = _ ++ frames (rest ++ [message])
        rw [frames_append, frames_singleton, ← List.append_assoc, same, List.append_assoc]

section

variable {processData : List UInt8 → Int → Option NioException} {bulkBufferSize : Int} {link : Link}
  {messages : List (List UInt8)} {bulk : Bool}

theorem step_sendBulk {sender : Sender} {data : ByteBuffer} {encode : Bool}
    (put : link.sender.sendBulk bulkBufferSize data encode = .ok sender) :
    link.step processData bulkBufferSize (.sendBulk data encode) = { link with sender } := by
  simp only [Link.step, put]

/-- Sending appends one frame to the bytes that wait. -/
theorem Link.Carries.sends (carries : link.Carries messages bulk) {sender : Sender} {data : ByteBuffer}
    {bulkNext : Bool} (waits : sender.waiting = link.sender.waiting ++ (encodeByteBuffer data).contents)
    (flushed : bulkNext = false → sender.bulkBuffer = none) :
    ({ link with sender } : Link).Carries (messages ++ [data.contents]) bulkNext := by
  obtain ⟨quiet, -, done, pending, rfl, processed, expects⟩ := carries
  refine ⟨quiet, flushed, done, pending ++ [data.contents], by simp, processed, ?_⟩
  simp only
  rw [waits, contents_encodeByteBuffer, ← List.append_assoc]
  exact expects.send

theorem Link.Carries.flush (carries : link.Carries messages bulk) :
    (link.step processData bulkBufferSize .flushBulk).Carries messages false := by
  obtain ⟨quiet, -, done, pending, same, processed, expects⟩ := carries
  refine ⟨quiet, fun _ => Sender.flushBulk_flushed, done, pending, same, processed, ?_⟩
  simp only [step]
  rw [Sender.waiting_flushBulk]
  exact expects

theorem Link.Carries.write (carries : link.Carries messages bulk) (mergeable : Mergeable link.sender.queue)
    (accepts : List Nat) : (link.step processData bulkBufferSize (.write accepts)).Carries messages bulk := by
  obtain ⟨written, left, passed, same⟩ := @writePass_contents accepts _ mergeable
  obtain ⟨quiet, flushed, done, pending, rfl, processed, expects⟩ := carries
  simp only [step, passed]
  refine ⟨quiet, flushed, done, pending, rfl, processed, ?_⟩
  simp only [Sender.waiting] at expects ⊢
  rw [List.append_assoc, ← List.append_assoc written, same]
  exact expects

theorem Link.Carries.read (carries : link.Carries messages bulk)
    (accepting : ∀ data count, processData data count = none)
    (small : ∀ message ∈ messages, message.length < 2 ^ 28) (count : Nat) :
    (link.step processData bulkBufferSize (.read count)).Carries messages bulk := by
  obtain ⟨quiet, flushed, done, pending, rfl, processed, expects⟩ := carries
  rw [← List.take_append_drop (min count readBufferSize) link.wire, List.append_assoc] at expects
  have short : (link.wire.take (min count readBufferSize)).length ≤ 8192 := by
    rw [List.length_take, readBufferSize]
    omega
  obtain ⟨next, more, others, taken, rfl, added, expecting⟩ :=
    read_expects accepting (fun message member => small message (by simp [member])) short expects
  simp only [step, taken]
  exact ⟨quiet, flushed, done ++ more, others, by simp, by simp [added, processed], expecting⟩

/-- The condition along a run: whenever the write loop merges, the bytes that wait can
be counted in 32 bits. -/
def MergesFit (processData : List UInt8 → Int → Option NioException) (bulkBufferSize : Int)
    (actions : List Action) : Prop :=
  ∀ before accepts after, actions = before ++ .write accepts :: after →
    Mergeable (Link.run processData bulkBufferSize before).sender.queue

theorem run_snoc (actions : List Action) (last : Action) :
    Link.run processData bulkBufferSize (actions ++ [last]) =
      (Link.run processData bulkBufferSize actions).step processData bulkBufferSize last := by
  simp [Link.run]

theorem sent_append (first second : List Action) : sent (first ++ second) = sent first ++ sent second := by
  simp [sent]

theorem Proper.before {before after : List Action} (proper : Proper bulkBufferSize (before ++ after)) :
    Proper bulkBufferSize before := by
  refine ⟨?_, ?_, ?_⟩
  · exact fun data encode member => proper.single data encode (by simp [member])
  · exact fun data encode member => proper.bulk data encode (by simp [member])
  · intro first data encode rest same
    subst same
    exact proper.flushed first data encode (rest ++ after) (by simp)

theorem MergesFit.before {before after : List Action}
    (fit : MergesFit processData bulkBufferSize (before ++ after)) :
    MergesFit processData bulkBufferSize before := by
  intro first accepts rest same
  subst same
  exact fit first accepts (rest ++ after) (by simp)

theorem Proper.small {actions : List Action} (proper : Proper bulkBufferSize actions) :
    ∀ message ∈ sent actions, message.length < 2 ^ 28 := by
  intro message member
  obtain ⟨action, among, is⟩ := List.mem_filterMap.mp member
  cases action with
  | send data encode =>
      cases is
      rw [ByteBuffer.length_contents]
      exact (proper.single data encode among).2
  | sendBulk data encode =>
      cases is
      rw [ByteBuffer.length_contents]
      exact (proper.bulk data encode among).2.1
  | flushBulk => cases is
  | write accepts => cases is
  | read count => cases is

/-- In every run the frames of the messages that are not processed yet are on their way. -/
theorem run_carries {actions : List Action} (accepting : ∀ data count, processData data count = none)
    (proper : Proper bulkBufferSize actions) (fit : MergesFit processData bulkBufferSize actions) :
    (Link.run processData bulkBufferSize actions).Carries (sent actions) (bulkPending actions) := by
  induction actions using List.reverseRecOn with
  | nil => exact ⟨rfl, fun _ => rfl, [], [], rfl, rfl, rfl⟩
  | append_singleton actions last ih =>
      have carries := ih proper.before fit.before
      rw [run_snoc, sent_append]
      cases last with
      | send data encode =>
          obtain ⟨rfl, -⟩ := proper.single data encode (by simp)
          have flushed := carries.flushed (proper.flushed actions data true [] rfl)
          exact carries.sends (Sender.waiting_send flushed) fun _ => flushed
      | sendBulk data encode =>
          obtain ⟨rfl, -, within⟩ := proper.bulk data encode (by simp)
          obtain ⟨next, put, waits⟩ := @Sender.sendBulk_ok (Link.run processData bulkBufferSize actions).sender
            bulkBufferSize data within
          rw [step_sendBulk put]
          refine carries.sends waits fun pending => ?_
          simp [bulkPending] at pending
      | flushBulk =>
          have nothing : sent actions ++ sent [.flushBulk] = sent actions := by simp [sent]
          have pending : bulkPending (actions ++ [.flushBulk]) = false := by simp [bulkPending]
          rw [nothing, pending]
          exact carries.flush
      | write accepts =>
          have nothing : sent actions ++ sent [.write accepts] = sent actions := by simp [sent]
          have pending : bulkPending (actions ++ [.write accepts]) = bulkPending actions := by simp [bulkPending]
          rw [nothing, pending]
          exact carries.write (fit actions accepts [] rfl) accepts
      | read count =>
          have nothing : sent actions ++ sent [.read count] = sent actions := by simp [sent]
          have pending : bulkPending (actions ++ [.read count]) = bulkPending actions := by simp [bulkPending]
          rw [nothing, pending]
          exact carries.read accepting proper.before.small count

theorem frames_eq_nil {pending : List (List UInt8)} (short : (frames pending).length < 4) : pending = [] := by
  cases pending with
  | nil => rfl
  | cons message rest =>
      simp only [frames, List.flatMap_cons, frame, List.length_append, length_wordBytes] at short
      omega

/-- A receiver to which nothing comes has no message to wait for. -/
theorem Receiver.Expects.nothing {receiver : Receiver} {pending : List (List UInt8)}
    (expects : receiver.Expects [] pending) : pending = [] := by
  rw [Receiver.Expects] at expects
  split at expects
  · exact frames_eq_nil (by rw [← expects, List.length_nil]; omega)
  · obtain ⟨quiet, contents, awaits⟩ := expects
    cases awaits with
    | between holds same =>
        simp only [ChannelState.Quiet, holds.size, Bool.false_eq_true, if_false] at quiet
        rw [List.append_nil] at same
        exact frames_eq_nil (by rw [← same]; omega)
    | within holds same =>
        simp only [ChannelState.Quiet, holds.size, if_true] at quiet
        have length := congrArg List.length same
        simp only [List.length_append, List.length_nil] at length
        omega

theorem Link.Carries.drained (carries : link.Carries messages bulk) (wire : link.wire = [])
    (waiting : link.sender.waiting = []) : link.receiver.processed = messages.map sized := by
  obtain ⟨-, -, done, pending, rfl, processed, expects⟩ := carries
  rw [wire, waiting, List.append_nil] at expects
  rw [expects.nothing, List.append_nil, processed]

theorem Link.Carries.reads (carries : link.Carries messages bulk)
    (accepting : ∀ data count, processData data count = none)
    (small : ∀ message ∈ messages, message.length < 2 ^ 28) (counts : List Nat) :
    ((counts.map Action.read).foldl (step processData bulkBufferSize) link).Carries messages bulk := by
  induction counts generalizing link with
  | nil => exact carries
  | cons count rest ih => exact ih (carries.read accepting small count)

/-- Reads leave the sender alone and shorten the wire. -/
theorem foldl_reads (link : Link) (counts : List Nat) :
    ((counts.map Action.read).foldl (Link.step processData bulkBufferSize) link).sender = link.sender ∧
      ((counts.map Action.read).foldl (Link.step processData bulkBufferSize) link).wire =
        link.wire.drop (counts.map (min · readBufferSize)).sum := by
  induction counts generalizing link with
  | nil => exact ⟨rfl, rfl⟩
  | cons count rest ih =>
      have one : (link.step processData bulkBufferSize (.read count)).sender = link.sender ∧
          (link.step processData bulkBufferSize (.read count)).wire = link.wire.drop (min count readBufferSize) := by
        rw [Link.step]
        split
        · exact ⟨rfl, rfl⟩
        · exact ⟨rfl, rfl⟩
      simp only [List.map_cons, List.foldl_cons, List.sum_cons]
      rw [(ih _).1, (ih _).2, one.1, one.2, List.drop_drop]
      exact ⟨rfl, rfl⟩

/-- A flush and a pass in which the channel takes every byte empty the sender. -/
theorem step_flush_write {accepts : List Nat} (mergeable : Mergeable link.sender.flushBulk.queue)
    (room : link.sender.waiting.length ≤ accepts.headD 0) :
    (link.step processData bulkBufferSize .flushBulk).step processData bulkBufferSize (.write accepts) =
      { link with sender := {}, wire := link.wire ++ link.sender.waiting } := by
  have flushed := @Sender.flushBulk_flushed link.sender
  have waits : link.sender.flushBulk.queue.flatMap ByteBuffer.contents = link.sender.waiting := by
    rw [← Sender.waiting_flushBulk, Sender.waiting, flushed]
    simp
  have passed := @writePass_all accepts _ mergeable (by rw [waits]; exact room)
  simp only [Link.step, passed, waits, flushed]

theorem run_flush_write_reads (actions : List Action) (accepts counts : List Nat) :
    Link.run processData bulkBufferSize (actions ++ .flushBulk :: .write accepts :: counts.map .read) =
      (counts.map Action.read).foldl (Link.step processData bulkBufferSize)
        (((Link.run processData bulkBufferSize actions).step processData bulkBufferSize .flushBulk).step
          processData bulkBufferSize (.write accepts)) := by
  simp [Link.run]

/-- In every run in which the bytes that wait can be counted in 32 bits at every merge,
no call fails, `processData` has seen the first messages sent, each once and with its
size, and it has seen all of them once nothing is on its way, which is so when the
channel takes every byte and the receiver reads on. -/
theorem sent_messages_processed {actions : List Action} (accepting : ∀ data count, processData data count = none)
    (proper : Proper bulkBufferSize actions) (fit : MergesFit processData bulkBufferSize actions) :
    let final := Link.run processData bulkBufferSize actions
    final.thrown = [] ∧ final.receiver.processed <+: (sent actions).map sized ∧
      (final.wire = [] → final.sender.waiting = [] → final.receiver.processed = (sent actions).map sized) ∧
      ∀ accepts counts : List Nat, Mergeable final.sender.flushBulk.queue →
        final.sender.waiting.length ≤ accepts.headD 0 →
        final.wire.length + final.sender.waiting.length ≤ (counts.map (min · readBufferSize)).sum →
        (Link.run processData bulkBufferSize
          (actions ++ .flushBulk :: .write accepts :: counts.map .read)).receiver.processed =
            (sent actions).map sized := by
  intro final
  have carries := run_carries accepting proper fit
  refine ⟨carries.quiet, ?_, carries.drained, ?_⟩
  · obtain ⟨done, pending, same, processed, -⟩ := carries.delivering
    rw [processed, same, List.map_append]
    exact List.prefix_append _ _
  · intro accepts counts mergeable room enough
    have pending := @Link.Carries.flush processData bulkBufferSize _ _ _ carries
    have written := @Link.Carries.write processData bulkBufferSize _ _ _ pending mergeable accepts
    have flushed := @step_flush_write processData bulkBufferSize final accepts mergeable room
    have read := @Link.Carries.reads processData bulkBufferSize _ _ _ written accepting proper.small counts
    rw [run_flush_write_reads]
    apply read.drained
    · rw [(foldl_reads _ counts).2, flushed]
      exact List.drop_eq_nil_of_le (by rw [List.length_append]; exact enough)
    · rw [(foldl_reads _ counts).1, flushed]
      rfl

end

/-- A bulk message and an empty one, merged, with three of their bytes written. -/
def twoMessages : List Action :=
  [.sendBulk (.wrap [7]) true, .flushBulk, .send (.wrap []) true, .write [3]]

theorem twoMessages_proper : Proper (64 * 1024) twoMessages := by
  refine ⟨?_, ?_, ?_⟩
  · intro data encode member
    simp only [twoMessages, List.mem_cons, Action.send.injEq, reduceCtorEq, List.not_mem_nil, or_false,
      false_or] at member
    obtain ⟨rfl, rfl⟩ := member
    exact ⟨rfl, by decide⟩
  · intro data encode member
    simp only [twoMessages, List.mem_cons, Action.sendBulk.injEq, reduceCtorEq, List.not_mem_nil, or_false] at member
    obtain ⟨rfl, rfl⟩ := member
    exact ⟨rfl, by decide, by decide⟩
  · intro before data encode after same
    simp [twoMessages, List.cons_eq_append_iff] at same
    obtain ⟨rfl, -⟩ := same
    decide

theorem twoMessages_fit : MergesFit (fun _ _ => none) (64 * 1024) twoMessages := by
  intro before accepts after same
  simp [twoMessages, List.cons_eq_append_iff] at same
  obtain ⟨rfl, -⟩ := same
  intro several
  decide

theorem two_messages_processed :
    (Link.run (fun _ _ => none) (64 * 1024)
      (twoMessages ++ .flushBulk :: .write [9] :: [2, 9].map .read)).receiver.processed = [([7], 1), ([], 0)] := by
  refine (sent_messages_processed (fun _ _ => rfl) twoMessages_proper twoMessages_fit).2.2.2 [9] [2, 9] ?_ ?_ ?_
  · intro several
    decide
  · decide
  · decide

/-- Writes and reads only. -/
def Moves (actions : List Action) : Prop :=
  ∀ action ∈ actions, (∃ accepts, action = .write accepts) ∨ ∃ count, action = .read count

/-- Nothing leaves a queue with more bytes than 32 bits can count. -/
theorem overfull_stuck {processData : List UInt8 → Int → Option NioException} {bulkBufferSize : Int} {link : Link}
    {later : List Action} (accepting : ∀ data count, processData data count = none)
    (several : link.sender.queue.length > 1)
    (many : 2 ^ 31 ≤ (link.sender.queue.flatMap ByteBuffer.contents).length)
    (less : (link.sender.queue.flatMap ByteBuffer.contents).length < 2 ^ 32) (wire : link.wire = [])
    (expects : link.receiver.Expects [] []) (moves : Moves later) :
    (later.foldl (Link.step processData bulkBufferSize) link).receiver.processed = link.receiver.processed := by
  induction later generalizing link with
  | nil => rfl
  | cons action rest ih =>
      have remaining : Moves rest := fun other member => moves other (by simp [member])
      rw [List.foldl_cons]
      cases moves action (by simp) with
      | inl isWrite =>
          obtain ⟨accepts, rfl⟩ := isWrite
          have failed : writePass accepts link.sender.queue = .error (.illegalArgument "") link.sender.queue := by
            rw [writePass, if_pos several, mergeQueue_overflow many less]
          have same : link.step processData bulkBufferSize (.write accepts) =
              { link with thrown := link.thrown ++ [.illegalArgument ""] } := by
            simp only [Link.step, failed]
          rw [same]
          exact ih several many less wire expects remaining
      | inr isRead =>
          obtain ⟨count, rfl⟩ := isRead
          obtain ⟨next, done, others, taken, none, processed, expecting⟩ :=
            @read_expects processData [] [] link.receiver [] accepting (by simp) (by decide) expects
          obtain ⟨rfl, rfl⟩ := List.append_eq_nil_iff.mp none.symm
          have same : link.step processData bulkBufferSize (.read count) = { link with receiver := next } := by
            simp only [Link.step, wire, List.take_nil, List.drop_nil, taken]
          rw [same, @ih { link with receiver := next } several many less wire expecting remaining]
          simpa using processed

theorem run_eight (data : ByteBuffer) :
    Link.run (fun _ _ => none) (64 * 1024) (List.replicate 8 (.send data true)) =
      { sender := { queue := List.replicate 8 (encodeByteBuffer data) } } := by
  simp [Link.run, List.replicate_succ, Link.step, Sender.send]

theorem eight_stuck {data : ByteBuffer} (size : data.remaining = 2 ^ 28 - 1) {later : List Action}
    (moves : Moves later) :
    (Link.run (fun _ _ => none) (64 * 1024)
      (List.replicate 8 (.send data true) ++ later)).receiver.processed = [] := by
  have bytes : ((List.replicate 8 (encodeByteBuffer data)).flatMap ByteBuffer.contents).length =
      8 * (2 ^ 28 + 3) := by
    have one : (encodeByteBuffer data).contents.length = 2 ^ 28 + 3 := by
      rw [contents_encodeByteBuffer, frame, List.length_append, length_wordBytes, ByteBuffer.length_contents, size]
      omega
    simp only [List.replicate_succ, List.replicate_zero, List.flatMap_cons, List.flatMap_nil, List.length_append,
      List.length_nil, one]
    omega
  have stuck := @overfull_stuck (fun _ _ => none) (64 * 1024)
    { sender := { queue := List.replicate 8 (encodeByteBuffer data) } } later (fun _ _ => rfl) (by simp)
    (by rw [bytes]; decide) (by rw [bytes]; decide) rfl rfl moves
  rw [Link.run, List.foldl_append]
  rw [← run_eight] at stuck
  exact stuck

theorem bulkPending_sends (count : Nat) (data : ByteBuffer) (encode : Bool) :
    bulkPending (List.replicate count (.send data encode)) = false := by
  induction count with
  | zero => rfl
  | succ count ih => simpa [bulkPending, List.replicate_succ] using ih

theorem sent_sends (count : Nat) (data : ByteBuffer) (encode : Bool) :
    sent (List.replicate count (.send data encode)) = List.replicate count data.contents := by
  simp [sent]

theorem sends_proper {count : Nat} {data : ByteBuffer} (small : data.remaining < 2 ^ 28) (bulkBufferSize : Int) :
    Proper bulkBufferSize (List.replicate count (.send data true)) := by
  refine ⟨?_, ?_, ?_⟩
  · intro other encode member
    obtain ⟨-, same⟩ := List.mem_replicate.mp member
    cases same
    exact ⟨rfl, small⟩
  · intro other encode member
    obtain ⟨-, same⟩ := List.mem_replicate.mp member
    cases same
  · intro before other encode after same
    obtain ⟨-, isBefore, -⟩ := List.append_eq_replicate_iff.mp same.symm
    rw [isBefore]
    exact bulkPending_sends _ _ _

/-- Eight messages, each a byte shorter than 2^28. -/
def eightMessages : List Action :=
  List.replicate 8 (.send (.wrap (List.replicate (2 ^ 28 - 1) 0)) true)

/-- Sent one after the other, they are in the queue together at the next pass of the
write loop, and not one of them is ever processed. -/
theorem eight_messages_never_processed :
    Proper (64 * 1024) eightMessages ∧ ∀ later, Moves later →
      (Link.run (fun _ _ => none) (64 * 1024) (eightMessages ++ later)).receiver.processed ≠
        (sent eightMessages).map sized := by
  have size : (ByteBuffer.wrap (List.replicate (2 ^ 28 - 1) 0)).remaining = 2 ^ 28 - 1 := by
    rw [← ByteBuffer.length_contents, ByteBuffer.contents_wrap, List.length_replicate]
  refine ⟨sends_proper (by rw [size]; decide) _, ?_⟩
  intro later moves same
  rw [eightMessages, eight_stuck size moves] at same
  have length := congrArg List.length same
  rw [List.length_map, sent_sends, List.length_replicate] at length
  cases length

end Scads.Comm.Nio
