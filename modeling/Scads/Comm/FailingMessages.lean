import Scads.Comm.Framing

namespace Scads.Comm.Nio

open Scads.Data

/-! # Messages whose processing fails

Here `processData` may throw at any of its calls: whether it does may depend on all
calls so far.  A call is told by the place of its message in the stream.
-/

section

variable {σ τ ε α : Type}

def onState (change : σ → τ) : EStateM.Result ε σ α → EStateM.Result ε τ α
  | .ok value state => .ok value (change state)
  | .error failure state => .error failure (change state)

/-- The state in which a computation ends. -/
def left : EStateM.Result ε σ α → σ
  | .ok _ state => state
  | .error _ state => state

@[simp] theorem left_onState (change : σ → τ) (result : EStateM.Result ε σ α) :
    left (onState change result) = change (left result) := by
  cases result with
  | ok value state => rfl
  | error failure state => rfl

end

/-- A call of `processData`, with the number of bytes of the stream before its message. -/
structure Call where
  start : Int
  message : List UInt8
  size : Int
deriving DecidableEq, Repr

/-- The loop of `read`, with the number of bytes that have been appended to the buffer
and the calls so far. -/
structure Reader where
  state : ChannelState
  arrived : Nat
  calls : List Call
deriving DecidableEq, Repr

namespace Reader

def call (reader : Reader) (message : List UInt8) (size : Int) : Call :=
  ⟨reader.arrived - reader.state.buffer.size, message, size⟩

/-- The reader after a round that leaves this parser. -/
def after (reader : Reader) (parser : Parser) : Reader :=
  { reader with
    state := parser.state
    calls := reader.calls ++ parser.processed.map fun processed => reader.call processed.1 processed.2 }

variable (throws : List Call → Option NioException)

/-- A round of the loop, where the calls so far are known to `processData`. -/
def step : EStateM NioException Reader Bool := fun reader =>
  onState reader.after
    (readStep (fun message size => throws (reader.calls ++ [reader.call message size])) ⟨reader.state, []⟩)

def loop : Nat → EStateM NioException Reader Unit
  | 0 => pure ()
  | rounds + 1 => do
      if ← step throws then loop rounds

end Reader

/-- The entry of `channelQueue` for a channel that stays open. -/
structure Channel where
  channelState : Option ChannelState := none
  arrived : Nat := 0
  calls : List Call := []
deriving DecidableEq, Repr

namespace Channel

/-- The state and the calls of `processData`, as `read` works on them. -/
def receiver (channel : Channel) : Receiver :=
  ⟨channel.channelState, channel.calls.map fun call => (call.message, call.size)⟩

/-- `read`, when the socket gives these bytes. -/
def read (throws : List Call → Option NioException) (readByteArray : List UInt8) :
    EStateM NioException Channel Unit := fun channel =>
  match openState channel.receiver with
  | .error failure => .error failure channel
  | .ok state =>
      match state.buffer.append readByteArray with
      | .error failure => .error failure { channel with channelState := some state }
      | .ok buffer =>
          let state := { state with buffer }
          let rounds := if buffer.isEmpty then 0 else state.rounds
          onState (fun reader => ⟨some reader.state, reader.arrived, reader.calls⟩)
            (Reader.loop throws rounds ⟨state, channel.arrived + readByteArray.length, channel.calls⟩)

/-- The reads of a channel, from its first one.  `selectLoop` catches what a read throws. -/
def run (throws : List Call → Option NioException) (reads : List (List UInt8)) : Channel :=
  reads.foldl (fun channel readByteArray => left (channel.read throws readByteArray)) {}

end Channel

section

variable (processData : List UInt8 → Int → Option NioException)

/-- A handler that looks at the last call only.  A channel with such a handler has the `read` of the endpoint. -/
def lastCall (calls : List Call) : Option NioException :=
  calls.getLast?.bind fun call => processData call.message call.size

def Reader.parser (reader : Reader) : Parser :=
  ⟨reader.state, reader.calls.map fun call => (call.message, call.size)⟩

theorem readStep_processed (state : ChannelState) (processed : List (List UInt8 × Int)) :
    readStep processData ⟨state, processed⟩ =
      onState (fun parser => ⟨parser.state, processed ++ parser.processed⟩) (readStep processData ⟨state, []⟩) := by
  by_cases header : (!state.inMessage && state.buffer.size ≥ 4) = true
  · simp only [readStep, header, if_true]
    cases state.buffer.consumeInt with
    | error failure => simp [onState]
    | ok consumed =>
        by_cases negative : consumed.1.toInt < 0
        · simp [onState, negative]
        · simp [onState, negative]
  · by_cases within : (state.inMessage && state.buffer.size ≥ state.messageSize) = true
    · simp only [readStep, header, within, if_true]
      cases state.buffer.consumeBytes state.messageSize with
      | error failure => simp [onState]
      | ok consumed =>
          cases called : processData consumed.1 state.messageSize with
          | none => simp [onState, called]
          | some failure => simp [onState, called]
    · simp [readStep, header, within, onState]

theorem step_lastCall (reader : Reader) :
    onState Reader.parser (reader.step (lastCall processData)) = readStep processData reader.parser := by
  have handler : (fun message size => lastCall processData (reader.calls ++ [reader.call message size])) =
      processData := by
    funext message size
    simp [lastCall, Reader.call]
  have prepended := readStep_processed processData reader.state
    (reader.calls.map fun call => (call.message, call.size))
  rw [Reader.step, handler, Reader.parser, prepended]
  cases readStep processData ⟨reader.state, []⟩ with
  | ok more parser => simp [onState, Reader.after, Reader.parser, Reader.call, Function.comp_def]
  | error failure parser => simp [onState, Reader.after, Reader.parser, Reader.call, Function.comp_def]

theorem loop_lastCall (rounds : Nat) (reader : Reader) :
    onState Reader.parser (Reader.loop (lastCall processData) rounds reader) =
      readLoop processData rounds reader.parser := by
  induction rounds generalizing reader with
  | zero => rfl
  | succ rounds ih =>
      have same := step_lastCall processData reader
      simp only [Reader.loop, readLoop, bind, EStateM.bind, ← same]
      cases reader.step (lastCall processData) with
      | error failure next => rfl
      | ok more next =>
          cases more with
          | false => rfl
          | true => exact ih next

/-- The reads of a channel are those of the endpoint. -/
theorem read_lastCall (channel : Channel) (readByteArray : List UInt8) :
    onState Channel.receiver (channel.read (lastCall processData) readByteArray) =
      Nio.read processData (.bytes readByteArray) channel.receiver := by
  rw [Channel.read, Nio.read]
  cases openState channel.receiver with
  | error failure => rfl
  | ok state =>
      cases appended : state.buffer.append readByteArray with
      | error failure => simp only [appended]; rfl
      | ok buffer =>
          simp only [appended]
          have same := loop_lastCall processData (if buffer.isEmpty then 0 else { state with buffer }.rounds)
            ⟨{ state with buffer }, channel.arrived + readByteArray.length, channel.calls⟩
          rw [Reader.parser] at same
          rw [Channel.receiver, ← same]
          cases Reader.loop (lastCall processData) (if buffer.isEmpty then 0 else { state with buffer }.rounds)
            ⟨{ state with buffer }, channel.arrived + readByteArray.length, channel.calls⟩ with
          | ok done reader => rfl
          | error failure reader => rfl

end

/-- The calls that give these messages away, each with the place of its own bytes. -/
def placed : Nat → List (List UInt8) → List Call
  | _, [] => []
  | start, message :: rest =>
      ⟨(start + 4 : Nat), message, message.length⟩ :: placed (start + 4 + message.length) rest

@[simp] theorem length_frame (message : List UInt8) : (frame message).length = 4 + message.length := by
  simp [frame]

@[simp] theorem length_placed (start : Nat) (messages : List (List UInt8)) :
    (placed start messages).length = messages.length := by
  induction messages generalizing start with
  | nil => rfl
  | cons message rest ih => simp [placed, ih]

theorem placed_append (start : Nat) (first second : List (List UInt8)) :
    placed start (first ++ second) = placed start first ++ placed (start + (frames first).length) second := by
  induction first generalizing start with
  | nil => simp [placed, frames]
  | cons message rest ih =>
      simp only [List.cons_append, placed, ih, frames, List.flatMap_cons, List.length_append, length_frame]
      rw [← Nat.add_assoc start, ← Nat.add_assoc start]

theorem placed_snoc (done : List (List UInt8)) (message : List UInt8) :
    placed 0 (done ++ [message]) =
      placed 0 done ++ [⟨((frames done).length + 4 : Nat), message, message.length⟩] := by
  rw [placed_append, Nat.zero_add]
  rfl

theorem length_frames_snoc (done : List (List UInt8)) (message : List UInt8) :
    (frames (done ++ [message])).length = (frames done).length + 4 + message.length := by
  rw [frames_append, frames_singleton, List.length_append, length_frame, Nat.add_assoc]

section

variable {throws : List Call → Option NioException} {messages : List (List UInt8)} {reader next : Reader}
  {contents coming : List UInt8}

/-- No call for one of these messages throws, when they are processed in order. -/
def Returned (throws : List Call → Option NioException) (done : List (List UInt8)) : Prop :=
  ∀ earlier message later, done = earlier ++ message :: later → throws (placed 0 (earlier ++ [message])) = none

theorem Returned.snoc {done : List (List UInt8)} {message : List UInt8} (returned : Returned throws done)
    (last : throws (placed 0 (done ++ [message])) = none) : Returned throws (done ++ [message]) := by
  intro earlier other later same
  rcases List.eq_nil_or_concat later with rfl | ⟨init, final, rfl⟩
  · obtain ⟨rfl, rfl⟩ := List.append_singleton_inj.mp same
    exact last
  · rw [List.concat_eq_append, ← List.cons_append, ← List.append_assoc] at same
    obtain ⟨rfl, -⟩ := List.append_singleton_inj.mp same
    exact returned earlier other init rfl

/-- The first messages have been processed, and the others are on their way. -/
structure OnCourse (throws : List Call → Option NioException) (messages : List (List UInt8)) (reader : Reader)
    (contents coming : List UInt8) : Prop where
  split : ∃ done pending, messages = done ++ pending ∧ Returned throws done ∧ reader.calls = placed 0 done ∧
    reader.arrived = (frames done).length + (if reader.state.inMessage then 4 else 0) + contents.length ∧
    Awaits reader.state contents coming pending

/-- A message has made `processData` throw, and the state of the channel is the one within that message. -/
structure Stalled (throws : List Call → Option NioException) (messages : List (List UInt8)) (reader : Reader)
    (contents coming : List UInt8) : Prop where
  split : ∃ done message rest, messages = done ++ message :: rest ∧ Returned throws done ∧
    throws (placed 0 (done ++ [message])) ≠ none ∧ reader.calls = placed 0 (done ++ [message]) ∧
    reader.state.inMessage = true ∧ reader.state.messageSize = message.length ∧
    reader.arrived = (frames (done ++ [message])).length + contents.length ∧
    reader.state.buffer.Holds contents ∧ contents ++ coming = frames rest

/-- A message has made `processData` throw, and the next call has begun with the length of the next message. -/
structure Astray (throws : List Call → Option NioException) (messages : List (List UInt8)) (calls : List Call) :
    Prop where
  split : ∃ done message rest, ∃ (call : Call) (more : List Call), messages = done ++ message :: rest ∧ rest ≠ [] ∧
    throws (placed 0 (done ++ [message])) ≠ none ∧ calls = placed 0 (done ++ [message]) ++ call :: more ∧
    call.start = (frames (done ++ [message])).length

theorem Reader.after_nothing (reader : Reader) : reader.after ⟨reader.state, []⟩ = reader := by
  simp [Reader.after]

theorem step_between {buffer : CircularByteBuffer} {size : Int} {arrived length : Nat} {calls : List Call}
    {left : List UInt8} (holds : buffer.Holds (wordBytes (BitVec.ofNat 32 length) ++ left)) (small : length < 2 ^ 31) :
    ∃ next, next.Holds left ∧ Reader.step throws ⟨⟨buffer, false, size⟩, arrived, calls⟩ =
      .ok true ⟨⟨next, true, length⟩, arrived, calls⟩ := by
  obtain ⟨next, holding, stepped⟩ := @readStep_between (fun message messageSize => throws (calls ++
    [Reader.call ⟨⟨buffer, false, size⟩, arrived, calls⟩ message messageSize])) _ size [] _ _ holds small
  refine ⟨next, holding, ?_⟩
  rw [Reader.step, stepped]
  simp [onState, Reader.after]

theorem step_within {buffer : CircularByteBuffer} {arrived length : Nat} {calls : List Call}
    (holds : buffer.Holds contents) (long : length ≤ contents.length) :
    ∃ next, next.Holds (contents.drop length) ∧
      Reader.step throws ⟨⟨buffer, true, length⟩, arrived, calls⟩ =
        (throws (calls ++ [⟨arrived - contents.length, contents.take length, length⟩])).elim
          (.ok true ⟨{ buffer := next }, arrived, calls ++ [⟨arrived - contents.length, contents.take length, length⟩]⟩)
          fun failure => .error failure
            ⟨⟨next, true, length⟩, arrived, calls ++ [⟨arrived - contents.length, contents.take length, length⟩]⟩ := by
  obtain ⟨next, holding, stepped⟩ := @readStep_within (fun message messageSize => throws (calls ++
    [Reader.call ⟨⟨buffer, true, length⟩, arrived, calls⟩ message messageSize])) _ _ [] _ holds long
  refine ⟨next, holding, ?_⟩
  have call : Reader.call ⟨⟨buffer, true, length⟩, arrived, calls⟩ (contents.take length) length =
      ⟨arrived - contents.length, contents.take length, length⟩ := by rw [Reader.call, holds.size]
  rw [Reader.step, stepped, call]
  cases throws (calls ++ [⟨arrived - contents.length, contents.take length, length⟩]) with
  | none => simp [onState, Reader.after, call]
  | some failure => simp [onState, Reader.after, call]

theorem OnCourse.step (small : ∀ message ∈ messages, message.length < 2 ^ 31)
    (course : OnCourse throws messages reader contents coming) :
    (∃ next left, reader.step throws = .ok true next ∧ OnCourse throws messages next left coming ∧
      left.length ≤ contents.length ∧ next.state.weight < reader.state.weight) ∨
    (∃ failure next left, reader.step throws = .error failure next ∧
      Stalled throws messages next left coming ∧ left.length ≤ contents.length) ∨
    (reader.step throws = .ok false reader ∧ reader.state.Quiet) := by
  obtain ⟨done, pending, rfl, returned, calls, arrived, awaits⟩ := course.split
  have bounded : ∀ message ∈ pending, message.length < 2 ^ 31 := fun message member => small message (by simp [member])
  have before := awaits.holds.size
  -- The call that a message at the front of the buffer gets.
  have called : ∀ message : List UInt8, reader.state.inMessage = true →
      reader.calls ++ [reader.call message message.length] = placed 0 (done ++ [message]) := by
    intro message within
    rw [within, if_pos rfl] at arrived
    rw [placed_snoc, calls, Reader.call, before, arrived]
    congr 3
    omega
  rw [Reader.step]
  cases @round_awaits (fun message size => throws (reader.calls ++ [reader.call message size])) ⟨reader.state, []⟩ _ _ _
    bounded awaits with
  | @header buffer left message rest between same stepped awaiting =>
      rw [stepped]
      have after : buffer.size = left.length := awaiting.holds.size
      have lengths : contents.length = 4 + left.length := by rw [same]; simp
      have between : reader.state.inMessage = false := between
      refine .inl ⟨_, left, rfl, ⟨done, message :: rest, rfl, returned, ?_, ?_, awaiting⟩, by omega, ?_⟩
      · simp [Reader.after, calls]
      · simp only [Reader.after, arrived, between, lengths, Bool.false_eq_true, if_false, if_true]
        omega
      · simp only [Reader.after, ChannelState.weight, before, after, between, if_true, Bool.false_eq_true, if_false]
        omega
  | @accepted buffer message rest within long accepted stepped awaiting =>
      rw [stepped]
      have within : reader.state.inMessage = true := within
      have after : buffer.size = (contents.drop message.length).length := awaiting.holds.size
      rw [within, if_pos rfl] at arrived
      rw [called message within] at accepted
      refine .inl ⟨_, contents.drop message.length, rfl,
        ⟨done ++ [message], rest, by simp, returned.snoc accepted, ?_, ?_, awaiting⟩, by simp, ?_⟩
      · simpa [Reader.after, sized] using called message within
      · simp only [Reader.after, arrived, length_frames_snoc, List.length_drop, Bool.false_eq_true, if_false]
        omega
      · simp only [Reader.after, ChannelState.weight, before, after, within, List.length_drop, if_true,
          Bool.false_eq_true, if_false]
        omega
  | @failed buffer message rest failure within long threw stepped holding same =>
      rw [stepped]
      have within : reader.state.inMessage = true := within
      rw [within, if_pos rfl] at arrived
      rw [called message within] at threw
      refine .inr (.inl ⟨failure, _, contents.drop message.length, rfl,
        ⟨done, message, rest, rfl, returned, by simp [threw], ?_, rfl, rfl, ?_, holding, same⟩, by simp⟩)
      · simpa [Reader.after, sized] using called message within
      · simp only [Reader.after, arrived, length_frames_snoc, List.length_drop]
        omega
  | quiet stepped waits =>
      rw [stepped]
      exact .inr (.inr ⟨by rw [onState, Reader.after_nothing], waits⟩)

theorem readStep_quiet {processData : List UInt8 → Int → Option NioException} {parser : Parser}
    (quiet : parser.state.Quiet) : readStep processData parser = .ok false parser := by
  rw [ChannelState.Quiet] at quiet
  cases within : parser.state.inMessage with
  | true =>
      rw [within, if_pos rfl] at quiet
      simp [readStep, within, Int.not_le.mpr quiet]
  | false =>
      simp only [within, Bool.false_eq_true, if_false] at quiet
      simp [readStep, within, Int.not_le.mpr quiet]

theorem step_quiet (quiet : reader.state.Quiet) : reader.step throws = .ok false reader := by
  rw [Reader.step, readStep_quiet quiet, onState, Reader.after_nothing]

theorem loop_continues {rounds : Nat} (stepped : reader.step throws = .ok true next) :
    Reader.loop throws (rounds + 1) reader = Reader.loop throws rounds next := by
  simp only [Reader.loop, bind, EStateM.bind, stepped, if_true]

theorem loop_fails {rounds : Nat} {failure : NioException} (stepped : reader.step throws = .error failure next) :
    Reader.loop throws (rounds + 1) reader = .error failure next := by
  simp only [Reader.loop, bind, EStateM.bind, stepped]

theorem loop_stops {rounds : Nat} (stepped : reader.step throws = .ok false next) :
    Reader.loop throws (rounds + 1) reader = .ok () next := by
  simp only [Reader.loop, bind, EStateM.bind, stepped]
  rfl

theorem OnCourse.loop {rounds : Nat} (small : ∀ message ∈ messages, message.length < 2 ^ 31)
    (course : OnCourse throws messages reader contents coming) (enough : reader.state.weight < rounds) :
    (∃ next left, Reader.loop throws rounds reader = .ok () next ∧ OnCourse throws messages next left coming ∧
      left.length ≤ contents.length ∧ next.state.Quiet) ∨
    (∃ failure next left, Reader.loop throws rounds reader = .error failure next ∧
      Stalled throws messages next left coming ∧ left.length ≤ contents.length) := by
  induction rounds generalizing reader contents with
  | zero => omega
  | succ rounds ih =>
      rcases course.step small with ⟨next, left, stepped, still, fewer, lighter⟩ |
        ⟨failure, next, left, stepped, stalled, fewer⟩ | ⟨stepped, quiet⟩
      · rw [loop_continues stepped]
        rcases ih still (by omega) with ⟨final, last, ended, course, less, quiet⟩ |
          ⟨failure, final, last, ended, stalled, less⟩
        · exact .inl ⟨final, last, ended, course, less.trans fewer, quiet⟩
        · exact .inr ⟨failure, final, last, ended, stalled, less.trans fewer⟩
      · exact .inr ⟨failure, next, left, loop_fails stepped, stalled, fewer⟩
      · exact .inl ⟨reader, contents, loop_stops stepped, course, Nat.le_refl _, quiet⟩

/-- Calls are never taken back. -/
theorem step_calls (reader : Reader) : reader.calls <+: (left (reader.step throws)).calls := by
  rw [Reader.step]
  cases readStep (fun message size => throws (reader.calls ++ [reader.call message size])) ⟨reader.state, []⟩ with
  | ok more parser => exact List.prefix_append _ _
  | error failure parser => exact List.prefix_append _ _

theorem loop_calls (rounds : Nat) (reader : Reader) :
    reader.calls <+: (left (Reader.loop throws rounds reader)).calls := by
  induction rounds generalizing reader with
  | zero => exact List.prefix_refl _
  | succ rounds ih =>
      have first := @step_calls throws reader
      cases stepped : reader.step throws with
      | error failure next =>
          rw [stepped] at first
          rw [loop_fails stepped]
          exact first
      | ok more next =>
          rw [stepped] at first
          cases more with
          | false =>
              rw [loop_stops stepped]
              exact first
          | true =>
              rw [loop_continues stepped]
              exact first.trans (ih next)

theorem Astray.grows {calls more : List Call} (astray : Astray throws messages calls) (longer : calls <+: more) :
    Astray throws messages more := by
  obtain ⟨done, message, rest, call, after, all, follows, threw, rfl, start⟩ := astray.split
  obtain ⟨added, rfl⟩ := longer
  exact ⟨done, message, rest, call, after ++ added, all, follows, threw, by simp, start⟩

/-- Once as many bytes have come as the failed message had, they are taken for its own. -/
theorem Stalled.loop {rounds : Nat} (stalled : Stalled throws messages reader contents coming) (some : contents ≠ []) :
    (Reader.loop throws (rounds + 1) reader = .ok () reader ∧ reader.state.Quiet) ∨
      Astray throws messages (left (Reader.loop throws (rounds + 1) reader)).calls := by
  obtain ⟨done, message, rest, all, returned, threw, calls, within, size, arrived, holds, same⟩ := stalled.split
  by_cases long : message.length ≤ contents.length
  · right
    have follows : rest ≠ [] := by
      intro none
      rw [none, frames, List.flatMap_nil, List.append_eq_nil_iff] at same
      exact some same.1
    obtain ⟨buffer, -, stepped⟩ := @step_within throws contents _ reader.arrived _ reader.calls holds long
    have state : reader = ⟨⟨reader.state.buffer, true, message.length⟩, reader.arrived, reader.calls⟩ := by
      rw [← within, ← size]
    have called : (left (reader.step throws)).calls =
        reader.calls ++ [⟨reader.arrived - contents.length, contents.take message.length, message.length⟩] := by
      rw [state, stepped]
      cases throws (reader.calls ++
        [⟨reader.arrived - contents.length, contents.take message.length, message.length⟩]) with
      | none => rfl
      | some failure => rfl
    have astray : Astray throws messages (left (reader.step throws)).calls := by
      refine ⟨done, message, rest, _, [], all, follows, threw, by rw [called, calls], ?_⟩
      simp only [arrived]
      omega
    refine astray.grows ?_
    cases stepped : reader.step throws with
    | error failure next =>
        rw [loop_fails stepped]
        exact List.prefix_refl _
    | ok more next =>
        cases more with
        | false =>
            rw [loop_stops stepped]
            exact List.prefix_refl _
        | true =>
            rw [loop_continues stepped]
            exact loop_calls rounds next
  · have quiet : reader.state.Quiet := by
      rw [ChannelState.Quiet, within, if_pos rfl, holds.size, size]
      omega
    exact .inl ⟨loop_stops (step_quiet quiet), quiet⟩

theorem read_calls (channel : Channel) (readByteArray : List UInt8) :
    channel.calls <+: (left (channel.read throws readByteArray)).calls := by
  rw [Channel.read]
  cases openState channel.receiver with
  | error failure => exact List.prefix_refl _
  | ok state =>
      cases appended : state.buffer.append readByteArray with
      | error failure =>
          simp only [appended]
          exact List.prefix_refl _
      | ok buffer =>
          simp only [appended, left_onState]
          exact loop_calls _ ⟨{ state with buffer }, channel.arrived + readByteArray.length, channel.calls⟩

/-- A channel between two reads. -/
def Channel.Progress (throws : List Call → Option NioException) (messages : List (List UInt8)) (channel : Channel)
    (coming : List UInt8) : Prop :=
  (∃ state contents, openState channel.receiver = .ok state ∧
    OnCourse throws messages ⟨state, channel.arrived, channel.calls⟩ contents coming ∧ state.Quiet) ∨
  (∃ state contents, openState channel.receiver = .ok state ∧
    Stalled throws messages ⟨state, channel.arrived, channel.calls⟩ contents coming ∧
    3 * (contents.length + readBufferSize) < 2 ^ 31) ∨
  Astray throws messages channel.calls

theorem progress_start : ({} : Channel).Progress throws messages (frames messages) := by
  obtain ⟨buffer, created, holds⟩ := @CircularByteBuffer.new_holds (64 * 1024) (by decide) (by decide)
  refine .inl ⟨{ buffer }, [], ?_, ⟨[], messages, rfl, ?_, rfl, rfl, .between holds rfl⟩, ?_⟩
  · simp only [openState, Channel.receiver, created, ok_bind, pure_eq_ok]
  · intro earlier message later same
    simp at same
  · simp [ChannelState.Quiet, holds.size]

variable {channel : Channel} {chunk : List UInt8}

/-- What a read leaves of a channel whose buffer takes the bytes in. -/
theorem read_appended {state : ChannelState} {buffer : CircularByteBuffer}
    (opened : openState channel.receiver = .ok state) (appended : state.buffer.append chunk = .ok buffer) :
    left (channel.read throws chunk) =
      (fun reader => (⟨some reader.state, reader.arrived, reader.calls⟩ : Channel))
        (left (Reader.loop throws (if buffer.isEmpty then 0 else { state with buffer }.rounds)
          ⟨{ state with buffer }, channel.arrived + chunk.length, channel.calls⟩)) := by
  simp only [Channel.read, opened, appended, left_onState]

theorem isEmpty_iff {buffer : CircularByteBuffer} (holds : buffer.Holds contents) :
    buffer.isEmpty = true ↔ contents = [] := by
  rw [CircularByteBuffer.isEmpty, beq_iff_eq, holds.size, ← List.length_eq_zero_iff]
  omega

theorem read_onCourse {state : ChannelState}
    (fits : ∀ message ∈ messages, 3 * (message.length + 2 * readBufferSize) < 2 ^ 31)
    (short : chunk.length ≤ readBufferSize) (opened : openState channel.receiver = .ok state)
    (course : OnCourse throws messages ⟨state, channel.arrived, channel.calls⟩ contents (chunk ++ coming))
    (quiet : state.Quiet) : (left (channel.read throws chunk)).Progress throws messages coming := by
  obtain ⟨done, pending, all, returned, calls, arrived, awaits⟩ := course.split
  have size : readBufferSize = 8192 := rfl
  have few := awaits.few_contents quiet (show 4 ≤ 2 ^ 31 / 3 - 2 ^ 14 by omega) fun message member => by
    have room := fits message (by simp [all, member])
    omega
  obtain ⟨buffer, appended, holds⟩ := CircularByteBuffer.append_holds awaits.holds
    (show 3 * (contents.length + chunk.length) < 2 ^ 31 by omega)
  have taken : OnCourse throws messages ⟨{ state with buffer }, channel.arrived + chunk.length, channel.calls⟩
      (contents ++ chunk) coming := by
    refine ⟨done, pending, all, returned, calls, ?_, awaits.append holds⟩
    simp only at arrived ⊢
    rw [arrived, List.length_append]
    omega
  rw [read_appended opened appended]
  by_cases empty : buffer.isEmpty = true
  · rw [if_pos empty]
    refine .inl ⟨{ state with buffer }, contents ++ chunk, rfl, taken, ?_⟩
    have nothing := (isEmpty_iff holds).mp empty
    have before : state.buffer.size = contents.length := awaits.holds.size
    have same : buffer.size = state.buffer.size := by
      rw [holds.size, nothing, before, (List.append_eq_nil_iff.mp nothing).1]
    simpa only [ChannelState.Quiet, same] using quiet
  · rw [if_neg empty]
    have small : ∀ message ∈ messages, message.length < 2 ^ 31 := fun message member => by
      have room := fits message member
      omega
    have most : 3 * ((contents ++ chunk).length + readBufferSize) < 2 ^ 31 := by
      rw [List.length_append]
      omega
    rcases taken.loop small (ChannelState.weight_lt_rounds _) with ⟨next, last, looped, course, less, waits⟩ |
      ⟨failure, next, last, looped, stalled, less⟩
    · rw [looped]
      exact .inl ⟨next.state, last, rfl, course, waits⟩
    · have room : 3 * (last.length + readBufferSize) < 2 ^ 31 := by omega
      rw [looped]
      exact .inr (.inl ⟨next.state, last, rfl, stalled, room⟩)

theorem read_stalled {state : ChannelState}
    (fits : ∀ message ∈ messages, 3 * (message.length + 2 * readBufferSize) < 2 ^ 31)
    (short : chunk.length ≤ readBufferSize) (opened : openState channel.receiver = .ok state)
    (stalled : Stalled throws messages ⟨state, channel.arrived, channel.calls⟩ contents (chunk ++ coming))
    (few : 3 * (contents.length + readBufferSize) < 2 ^ 31) :
      (left (channel.read throws chunk)).Progress throws messages coming := by
  obtain ⟨done, message, rest, all, returned, threw, calls, within, size, arrived, held, same⟩ := stalled.split
  obtain ⟨buffer, appended, holds⟩ := CircularByteBuffer.append_holds held
    (show 3 * (contents.length + chunk.length) < 2 ^ 31 by omega)
  have taken : Stalled throws messages ⟨{ state with buffer }, channel.arrived + chunk.length, channel.calls⟩
      (contents ++ chunk) coming := by
    refine ⟨done, message, rest, all, returned, threw, calls, within, size, ?_, holds, ?_⟩
    · simp only at arrived ⊢
      rw [arrived, List.length_append]
      omega
    · rw [← same, List.append_assoc]
  rw [read_appended opened appended]
  by_cases empty : buffer.isEmpty = true
  · rw [if_pos empty]
    refine .inr (.inl ⟨_, _, rfl, taken, ?_⟩)
    rw [(isEmpty_iff holds).mp empty]
    decide
  · rw [if_neg empty]
    rcases taken.loop (fun none => empty ((isEmpty_iff holds).mpr none)) with ⟨looped, quiet⟩ | astray
    · rw [ChannelState.rounds, looped]
      refine .inr (.inl ⟨_, _, rfl, taken, ?_⟩)
      have room := fits message (by simp [all])
      have within : state.inMessage = true := within
      have size : state.messageSize = message.length := size
      simp only [ChannelState.Quiet, within, size, holds.size, if_true] at quiet
      omega
    · exact .inr (.inr astray)

theorem Channel.Progress.read (fits : ∀ message ∈ messages, 3 * (message.length + 2 * readBufferSize) < 2 ^ 31)
    (short : chunk.length ≤ readBufferSize) (progress : channel.Progress throws messages (chunk ++ coming)) :
    (left (channel.read throws chunk)).Progress throws messages coming := by
  rcases progress with ⟨state, contents, opened, course, quiet⟩ | ⟨state, contents, opened, stalled, few⟩ | astray
  · exact read_onCourse fits short opened course quiet
  · exact read_stalled fits short opened stalled few
  · exact .inr (.inr (astray.grows (read_calls channel chunk)))

theorem progress_run {reads : List (List UInt8)}
    (fits : ∀ message ∈ messages, 3 * (message.length + 2 * readBufferSize) < 2 ^ 31)
    (short : ∀ readByteArray ∈ reads, readByteArray.length ≤ readBufferSize)
    (progress : channel.Progress throws messages (reads.flatten ++ coming)) :
    (reads.foldl (fun channel readByteArray => left (channel.read throws readByteArray)) channel).Progress throws
      messages coming := by
  induction reads generalizing channel with
  | nil => exact progress
  | cons chunk rest ih =>
      rw [List.flatten_cons, List.append_assoc] at progress
      exact ih (fun other member => short other (by simp [member])) (progress.read fits (short chunk (by simp)))

/-- No message that another one follows makes `processData` throw. -/
def OnlyLastFails (throws : List Call → Option NioException) (messages : List (List UInt8)) : Prop :=
  ∀ done message later, messages = done ++ message :: later → later ≠ [] →
    throws (placed 0 (done ++ [message])) = none

theorem OnCourse.finished (course : OnCourse throws messages reader contents []) (quiet : reader.state.Quiet) :
    Returned throws messages ∧ reader.calls = placed 0 messages := by
  obtain ⟨done, pending, rfl, returned, calls, -, awaits⟩ := course.split
  have nothing := @Receiver.Expects.nothing ⟨some reader.state, []⟩ pending ⟨quiet, contents, awaits⟩
  subst nothing
  rw [List.append_nil]
  exact ⟨returned, calls⟩

theorem Stalled.finished (stalled : Stalled throws messages reader contents []) :
    reader.calls = placed 0 messages ↔ OnlyLastFails throws messages := by
  obtain ⟨done, message, rest, rfl, returned, threw, calls, -⟩ := stalled.split
  rw [calls]
  constructor
  · intro same
    have lengths := congrArg List.length same
    simp only [length_placed, List.length_append, List.length_cons, List.length_nil] at lengths
    have last : rest = [] := List.length_eq_zero_iff.mp (by omega)
    subst last
    intro earlier other later split follows
    obtain ⟨init, final, rfl⟩ := List.eq_nil_or_concat later |>.resolve_left follows
    rw [List.concat_eq_append, ← List.cons_append, ← List.append_assoc] at split
    obtain ⟨rfl, -⟩ := List.append_singleton_inj.mp split
    exact returned earlier other init rfl
  · intro only
    have last : rest = [] := by
      by_contra follows
      exact threw (only done message rest rfl follows)
    rw [last]

theorem Astray.finished {calls : List Call} (astray : Astray throws messages calls) :
    ¬ calls = placed 0 messages ∧ ¬ OnlyLastFails throws messages := by
  obtain ⟨done, message, rest, call, more, rfl, follows, threw, rfl, start⟩ := astray.split
  refine ⟨fun same => ?_, fun only => threw (only done message rest rfl follows)⟩
  obtain ⟨next, others, rfl⟩ := List.exists_cons_of_ne_nil follows
  have split : done ++ message :: next :: others = (done ++ [message]) ++ next :: others := by simp
  have parts := placed_append 0 (done ++ [message]) (next :: others)
  rw [split, parts, List.append_cancel_left_eq, placed, List.cons.injEq, Nat.zero_add] at same
  rw [same.1] at start
  simp only [Int.natCast_add] at start
  omega

/-- The calls are those of the messages, each with its own bytes, exactly if none but the last
fails.  Before a message is complete, the buffer holds less than it and two reads, and the sum
of `head` and `size` is below `2 ^ 31` as long as three times as many bytes are. -/
theorem stream_processed_iff {reads : List (List UInt8)}
    (fits : ∀ message ∈ messages, 3 * (message.length + 2 * readBufferSize) < 2 ^ 31)
    (short : ∀ readByteArray ∈ reads, readByteArray.length ≤ readBufferSize)
    (whole : reads.flatten = frames messages) :
    (Channel.run throws reads).calls = placed 0 messages ↔ OnlyLastFails throws messages := by
  have start := @progress_start throws messages
  rw [← whole, ← List.append_nil reads.flatten] at start
  rcases progress_run fits short start with ⟨state, contents, -, course, quiet⟩ | ⟨state, contents, -, stalled, -⟩ |
    astray
  · obtain ⟨returned, calls⟩ := course.finished quiet
    exact iff_of_true calls fun done message later split _ => returned done message later split
  · exact stalled.finished
  · exact iff_of_false astray.finished.1 astray.finished.2

end

/-- The second of two messages fails, in a stream that is cut within both lengths. -/
theorem last_message_fails :
    (Channel.run (fun calls => if calls.length = 2 then some (.processing "") else none)
      [[0, 0], [0, 1, 7, 0, 0], [0, 2, 8], [], [9]]).calls = [⟨4, [7], 1⟩, ⟨9, [8, 9], 2⟩] := by
  refine (@stream_processed_iff (fun calls => if calls.length = 2 then some (.processing "") else none) [[7], [8, 9]]
    _ (by decide) (by decide) (by decide)).mpr fun done message later split follows => ?_
  have counted := congrArg List.length split
  have several := List.length_pos_of_ne_nil follows
  simp only [List.length_append, List.length_cons, List.length_nil] at counted
  refine if_neg ?_
  rw [length_placed, List.length_append, List.length_singleton]
  omega

def firstThrows (calls : List Call) : Option NioException :=
  if calls.length = 1 then some (.processing "") else none

theorem first_read : ∃ buffer, buffer.Holds [] ∧
    left (({} : Channel).read firstThrows (frame [1, 2, 3, 4, 5])) =
      ⟨some ⟨buffer, true, 5⟩, 9, [⟨4, [1, 2, 3, 4, 5], 5⟩]⟩ := by
  obtain ⟨empty, created, none⟩ := @CircularByteBuffer.new_holds (64 * 1024) (by decide) (by decide)
  obtain ⟨buffer, appended, holds⟩ := CircularByteBuffer.append_holds none
    (show 3 * (([] : List UInt8).length + (frame [1, 2, 3, 4, 5]).length) < 2 ^ 31 by decide)
  have opened : openState ({} : Channel).receiver = .ok { buffer := empty } := by
    simp only [openState, Channel.receiver, created, ok_bind, pure_eq_ok]
  have size : buffer.size = 9 := holds.size
  obtain ⟨second, held, started⟩ := @step_between firstThrows buffer 0 9 5 [] _ holds (by decide)
  obtain ⟨third, drained, failed⟩ := @step_within firstThrows _ second 9 5 [] held (by decide)
  refine ⟨third, drained, ?_⟩
  rw [read_appended opened appended, if_neg (by simp [CircularByteBuffer.isEmpty, size]), ChannelState.rounds]
  have looped : Reader.loop firstThrows (2 * buffer.size.toNat + 2) ⟨⟨buffer, false, 0⟩, 9, []⟩ =
      .error (.processing "") ⟨⟨third, true, 5⟩, 9, [⟨4, [1, 2, 3, 4, 5], 5⟩]⟩ := by
    rw [loop_continues started, loop_fails failed]
    rfl
  exact congrArg (fun result => (⟨some (left result).state, (left result).arrived, (left result).calls⟩ : Channel))
    looped

theorem second_read {first : CircularByteBuffer} (none : first.Holds []) :
    (left (Channel.read firstThrows (frame [7])
      ⟨some ⟨first, true, 5⟩, 9, [⟨4, [1, 2, 3, 4, 5], 5⟩]⟩)).calls =
        [⟨4, [1, 2, 3, 4, 5], 5⟩, ⟨9, [0, 0, 0, 1, 7], 5⟩] := by
  obtain ⟨buffer, appended, holds⟩ := CircularByteBuffer.append_holds none
    (show 3 * (([] : List UInt8).length + (frame [7]).length) < 2 ^ 31 by decide)
  have size : buffer.size = 5 := holds.size
  obtain ⟨second, held, called⟩ := @step_within firstThrows _ buffer 14 5 [⟨4, [1, 2, 3, 4, 5], 5⟩] holds (by decide)
  have quiet : ChannelState.Quiet { buffer := second } := by simp [ChannelState.Quiet, held.size, frame]
  rw [@read_appended firstThrows ⟨some ⟨first, true, 5⟩, 9, [⟨4, [1, 2, 3, 4, 5], 5⟩]⟩ _ ⟨first, true, 5⟩ _ rfl
    appended, if_neg (by simp [CircularByteBuffer.isEmpty, size]), ChannelState.rounds]
  have looped : Reader.loop firstThrows (2 * buffer.size.toNat + 2)
      ⟨⟨buffer, true, 5⟩, 14, [⟨4, [1, 2, 3, 4, 5], 5⟩]⟩ =
        .ok () ⟨{ buffer := second }, 14, [⟨4, [1, 2, 3, 4, 5], 5⟩, ⟨9, [0, 0, 0, 1, 7], 5⟩]⟩ := by
    have continued : Reader.step firstThrows ⟨⟨buffer, true, 5⟩, 14, [⟨4, [1, 2, 3, 4, 5], 5⟩]⟩ =
        .ok true ⟨{ buffer := second }, 14, [⟨4, [1, 2, 3, 4, 5], 5⟩, ⟨9, [0, 0, 0, 1, 7], 5⟩]⟩ := called
    rw [loop_continues continued]
    exact loop_stops (step_quiet quiet)
  exact congrArg (fun result => (left result).calls) looped

/-- The first of two messages fails, and the second one is taken for another part of it. -/
theorem second_message_lost :
    (Channel.run firstThrows [frame [1, 2, 3, 4, 5], frame [7]]).calls =
      [⟨4, [1, 2, 3, 4, 5], 5⟩, ⟨9, [0, 0, 0, 1, 7], 5⟩] ∧
    placed 0 [[1, 2, 3, 4, 5], [7]] = [⟨4, [1, 2, 3, 4, 5], 5⟩, ⟨13, [7], 1⟩] := by
  obtain ⟨buffer, holds, first⟩ := first_read
  refine ⟨?_, by decide⟩
  rw [Channel.run, List.foldl_cons, first, List.foldl_cons, List.foldl_nil, second_read holds]

end Scads.Comm.Nio
