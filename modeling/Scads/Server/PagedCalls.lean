import Scads.Server.PartitionIterators

namespace Scads.Server

open Scads.Data Scads.Comm

/-! # The requests of an iterator

What a `FutureBasedIterator` sends and receives, in the order in which it does.
-/

inductive Traffic where
  | sent
  | received
deriving DecidableEq

/-- The requests that have no reply yet. -/
def outstanding (log : List Traffic) : Int := log.count .sent - log.count .received

/-- At all times one request at most had no reply yet. -/
def Single (log : List Traffic) : Prop := ∀ time, outstanding (log.take time) ≤ 1

theorem outstanding_append (log : List Traffic) (event : Traffic) :
    outstanding (log ++ [event]) = outstanding log + (if event = .sent then 1 else -1) := by
  cases event <;> simp [outstanding, List.count_append] <;> omega

theorem Single.append {log : List Traffic} (single : Single log) {event : Traffic}
    (within : outstanding (log ++ [event]) ≤ 1) : Single (log ++ [event]) := by
  intro time
  by_cases early : time ≤ log.length
  · rw [List.take_append_of_le_length early]
    exact single time
  · rw [List.take_of_length_le (by rw [List.length_append, List.length_singleton]; omega)]
    exact within

/-- The protocol with a log of its traffic. -/
def FutureProtocol.traced {ρ α σ : Type} (methods : FutureProtocol ρ α σ) : FutureProtocol ρ α (σ × List Traffic) where
  issueNextRequest state :=
    let (future, protocol) := methods.issueNextRequest state.1
    (future, protocol, state.2 ++ [.sent])
  canRequestMore state := methods.canRequestMore state.1
  getRecordsFromFuture future state := do
    let (records, protocol) ← methods.getRecordsFromFuture future state.1
    return (records, protocol, state.2 ++ [.received])

namespace FutureBasedIterator

variable {ρ α σ : Type} {methods : FutureProtocol ρ α σ}

/-- The iterator without the log. -/
def untraced (iterator : FutureBasedIterator ρ α (σ × List Traffic)) : FutureBasedIterator ρ α σ :=
  { iterator with protocol := iterator.protocol.1 }

@[simp] theorem untraced_issue (iterator : FutureBasedIterator ρ α (σ × List Traffic)) :
    (iterator.issue methods.traced).untraced = iterator.untraced.issue methods := rfl

@[simp] theorem untraced_receive (iterator : FutureBasedIterator ρ α (σ × List Traffic)) (records : List α)
    (protocol : σ × List Traffic) :
    (iterator.receive records protocol).untraced = iterator.untraced.receive records protocol.1 := rfl

@[simp] theorem traced_canRequestMore (state : σ × List Traffic) :
    methods.traced.canRequestMore state = methods.canRequestMore state.1 := rfl

theorem traced_getRecordsFromFuture (future : ρ) (state : σ × List Traffic) :
    methods.traced.getRecordsFromFuture future state = methods.getRecordsFromFuture future state.1 >>=
      fun page => .ok (page.1, page.2, state.2 ++ [.received]) := rfl

theorem untraced_hasNext (rounds : Nat) (iterator : FutureBasedIterator ρ α (σ × List Traffic)) :
    iterator.untraced.hasNext methods rounds =
      iterator.hasNext methods.traced rounds >>= fun result => .ok (result.1, result.2.untraced) := by
  induction rounds generalizing iterator with
  | zero => rfl
  | succ rounds ih =>
      obtain ⟨isDone, currentBuffer, currentIdx, activeFuture, protocol, log⟩ := iterator
      rw [hasNext, hasNext]
      dsimp only [untraced]
      cases isDone with
      | true => rfl
      | false =>
          simp only [Bool.false_eq_true, if_false]
          by_cases here : currentIdx < currentBuffer.length
          · simp only [here, if_true]
            rfl
          · simp only [here, if_false]
            cases activeFuture with
            | some future =>
                dsimp only
                rw [traced_getRecordsFromFuture]
                cases methods.getRecordsFromFuture future protocol with
                | error failure => rfl
                | ok page => exact ih ⟨false, page.1, 0, none, page.2, log ++ [.received]⟩
            | none =>
                dsimp only
                simp only [traced_canRequestMore]
                by_cases more : methods.canRequestMore protocol = true
                · simp only [more, if_true]
                  exact ih (issue methods.traced ⟨false, currentBuffer, currentIdx, none, protocol, log⟩)
                · simp only [more]
                  rfl

theorem untraced_take (recsPerMessageDiv2 : Int) (iterator : FutureBasedIterator ρ α (σ × List Traffic)) :
    iterator.untraced.take methods recsPerMessageDiv2 =
      iterator.take methods.traced recsPerMessageDiv2 >>= fun result => .ok (result.1, result.2.untraced) := by
  obtain ⟨isDone, currentBuffer, currentIdx, activeFuture, protocol, log⟩ := iterator
  rw [take, take]
  dsimp only [untraced]
  cases currentBuffer[currentIdx]? with
  | none => rfl
  | some record =>
      simp only [traced_canRequestMore]
      by_cases ahead : (decide (recsPerMessageDiv2 ≤ ((currentIdx + 1 : Nat) : Int)) && activeFuture.isNone &&
          methods.canRequestMore protocol) = true
      · simp only [ahead, if_true]
        rfl
      · simp only [ahead]
        rfl

theorem untraced_next (recsPerMessageDiv2 : Int) (rounds : Nat)
    (iterator : FutureBasedIterator ρ α (σ × List Traffic)) :
    iterator.untraced.next methods recsPerMessageDiv2 rounds =
      iterator.next methods.traced recsPerMessageDiv2 rounds >>= fun result => .ok (result.1, result.2.untraced) := by
  simp only [next, untraced_hasNext]
  cases iterator.hasNext methods.traced rounds with
  | error failure => rfl
  | ok answer =>
      obtain ⟨more, after⟩ := answer
      cases more with
      | true => exact untraced_take recsPerMessageDiv2 after
      | false => rfl

/-- The log changes nothing about the calls. -/
theorem untraced_embeds (recsPerMessage : Int) (protocol : σ) :
    Embeds (machine methods.traced recsPerMessage (protocol, [])) (machine methods recsPerMessage protocol)
      untraced where
  hasNext := untraced_hasNext
  next := untraced_next (recsPerMessage / 2)

/-- The active future is the reply to the only request that can be outstanding. -/
structure Balanced (iterator : FutureBasedIterator ρ α (σ × List Traffic)) : Prop where
  single : Single iterator.protocol.2
  open_iff : outstanding iterator.protocol.2 = if iterator.activeFuture.isSome then 1 else 0

theorem Balanced.issue {iterator : FutureBasedIterator ρ α (σ × List Traffic)} (balanced : iterator.Balanced)
    (idle : iterator.activeFuture = none) : (iterator.issue methods.traced).Balanced := by
  have closed : outstanding iterator.protocol.2 = 0 := by
    rw [balanced.open_iff, idle]
    rfl
  have sent : outstanding (iterator.protocol.2 ++ [.sent]) = 1 := by
    rw [outstanding_append, closed]
    rfl
  exact ⟨balanced.single.append sent.le, sent⟩

theorem Balanced.receive {iterator : FutureBasedIterator ρ α (σ × List Traffic)} {future : ρ} {records : List α}
    {protocol : σ × List Traffic} (balanced : iterator.Balanced) (active : iterator.activeFuture = some future)
    (received : methods.traced.getRecordsFromFuture future iterator.protocol = .ok (records, protocol)) :
    (iterator.receive records protocol).Balanced := by
  obtain ⟨page, -, same⟩ := bind_eq_ok.mp received
  cases same
  have opened : outstanding iterator.protocol.2 = 1 := by
    rw [balanced.open_iff, active]
    rfl
  have closed : outstanding (iterator.protocol.2 ++ [.received]) = 0 := by
    rw [outstanding_append, opened]
    rfl
  exact ⟨balanced.single.append (closed.trans_le (by decide)), closed⟩

theorem Balanced.hasNext {iterator after : FutureBasedIterator ρ α (σ × List Traffic)} {rounds : Nat} {more : Bool}
    (balanced : iterator.Balanced) (answered : iterator.hasNext methods.traced rounds = .ok (more, after)) :
    after.Balanced := by
  induction rounds generalizing iterator with
  | zero => cases answered
  | succ rounds ih =>
      rw [FutureBasedIterator.hasNext] at answered
      split at answered
      · cases answered
        exact balanced
      · split at answered
        · cases answered
          exact balanced
        · split at answered
          · rename_i future active
            obtain ⟨⟨records, protocol⟩, received, answered⟩ := bind_eq_ok.mp answered
            exact ih (balanced.receive active received) answered
          · rename_i idle
            split at answered
            · exact ih (balanced.issue idle) answered
            · cases answered
              exact ⟨balanced.single, balanced.open_iff⟩

theorem Balanced.next {iterator after : FutureBasedIterator ρ α (σ × List Traffic)} {rounds : Nat} {div : Int}
    {record : α} (balanced : iterator.Balanced)
    (given : iterator.next methods.traced div rounds = .ok (record, after)) : after.Balanced := by
  obtain ⟨⟨more, found⟩, answered, given⟩ := bind_eq_ok.mp given
  have there := balanced.hasNext answered
  cases more with
  | false => cases given
  | true =>
      change found.take methods.traced div = _ at given
      rw [take] at given
      split at given
      · cases given
      · dsimp only at given
        split at given
        · rename_i ahead
          rw [Bool.and_eq_true, Bool.and_eq_true] at ahead
          cases given
          have moved : ({ found with currentIdx := found.currentIdx + 1 } :
              FutureBasedIterator ρ α (σ × List Traffic)).Balanced := ⟨there.single, there.open_iff⟩
          exact moved.issue (Option.isNone_iff_eq_none.mp ahead.1.2)
        · cases given
          exact ⟨there.single, there.open_iff⟩

/-- A `next` past the end throws. -/
theorem next_ends {iterator : FutureBasedIterator ρ α σ} (pending : Pending methods iterator [] []) (div : Int) :
    Settles (iterator.next methods div ·) (.error (.unsupportedOperation "next on empty iterator")) := by
  obtain ⟨after, here, later, answered, -, same, -⟩ := pending.found
  exact answered.bind ((Settles.const _).congr fun rounds => rfl)

end FutureBasedIterator

namespace ActorlessPartitionIterator

variable {K V : Type} [LinearOrder K]

/-- The iterator with a log of its traffic. -/
def tracedMachine (partitionService : GetRangeRequest K → Option (StorageMessage K V)) (minKey maxKey : Option K)
    (recsPerMessage : Int) : Machine Failure (Record K V) :=
  FutureBasedIterator.machine (methods partitionService minKey maxKey recsPerMessage).traced recsPerMessage
    ({ lastSizeReturned := recsPerMessage }, [])

/-- Whatever calls are made, they give the records of the key range, and `next` throws
past the end.  One request at most is outstanding. -/
theorem paged_calls {recsPerMessage : Int} (positive : 0 < recsPerMessage) (database : Database K V)
    (minKey maxKey : Option K) (calls : List Machine.Call) :
    Settles ((machine (answer database) minKey maxKey recsPerMessage).openReplies calls)
        (if calls.count .next ≤ (database.recordsWithin minKey maxKey).length then
          .ok (Machine.listReplies calls (database.recordsWithin minKey maxKey))
        else .error (.unsupportedOperation "next on empty iterator")) ∧
      (database.recordsWithin minKey maxKey).Pairwise (fun earlier later => earlier.key < later.key) ∧
      ∀ rounds, (tracedMachine (answer database) minKey maxKey recsPerMessage).openReplies calls rounds =
          (machine (answer database) minKey maxKey recsPerMessage).openReplies calls rounds ∧
        ∀ after, (tracedMachine (answer database) minKey maxKey recsPerMessage).afterCalls rounds calls
            (tracedMachine (answer database) minKey maxKey recsPerMessage).initial = .ok after →
          Single after.protocol.2 := by
  have simulates := FutureBasedIterator.simulates (methods (answer database) minKey maxKey recsPerMessage)
    recsPerMessage { lastSizeReturned := recsPerMessage }
  refine ⟨?_, database.recordsWithin_sorted minKey maxKey, fun rounds => ⟨?_, fun after reached => ?_⟩⟩
  · have opened : Settles (fun rounds => (machine (answer database) minKey maxKey recsPerMessage).opened rounds
        (machine (answer database) minKey maxKey recsPerMessage).initial)
        (.ok (machine (answer database) minKey maxKey recsPerMessage).initial) :=
      (Settles.const _).congr fun rounds => if_pos positive
    refine opened.bind (simulates.replies ?_ ⟨[], _, ⟨rfl, ?_, fun done => absurd done Bool.false_ne_true⟩, rfl⟩ calls)
    · intro state found
      obtain ⟨here, later, pending, same⟩ := found
      have none : here ++ later = [] := by
        cases parts : here ++ later with
        | nil => rfl
        | cons record records =>
            rw [parts] at same
            cases same
      obtain ⟨rfl, rfl⟩ := List.append_eq_nil_iff.mp none
      exact FutureBasedIterator.next_ends pending _
    · exact gives_rest positive (List.nil_append _).symm rfl rfl
  · have embeds := @FutureBasedIterator.untraced_embeds _ _ _ (methods (answer database) minKey maxKey recsPerMessage)
      recsPerMessage { lastSizeReturned := recsPerMessage }
    have same := embeds.replies rounds calls
      { protocol := ({ lastSizeReturned := recsPerMessage }, []) }
    rw [Machine.openReplies, Machine.openReplies]
    simp only [tracedMachine, machine, FutureBasedIterator.machine, positive, if_true, ok_bind]
    exact same.symm
  · have next {rounds : Nat} {iterator next : (tracedMachine (answer database) minKey maxKey recsPerMessage).State}
        {record : Record K V} (balanced : FutureBasedIterator.Balanced iterator)
        (given :
          (tracedMachine (answer database) minKey maxKey recsPerMessage).next rounds iterator = .ok (record, next)) :
        FutureBasedIterator.Balanced next := balanced.next given
    refine (Machine.afterCalls_keeps (fun balanced answered => FutureBasedIterator.Balanced.hasNext balanced answered)
      next ?_ reached).single
    refine ⟨fun time => ?_, rfl⟩
    change outstanding (([] : List Traffic).take time) ≤ 1
    rw [List.take_nil]
    decide

/-- Three records, of which the last is beyond `maxKey`, in pages of one. -/
def firstThree : Database Nat Nat where
  entries := [(1, 10), (2, 20), (3, 30)]
  sorted := by decide

theorem paged_calls_one_by_one :
    Settles ((machine (answer firstThree) none (some 2) 1).openReplies [.next, .hasNext, .next, .hasNext])
        (.ok [.value ⟨1, some 10⟩, .has true, .value ⟨2, some 20⟩, .has false]) ∧
      ∃ after, (tracedMachine (answer firstThree) none (some 2) 1).afterCalls 4 [.next, .hasNext, .next, .hasNext]
          (tracedMachine (answer firstThree) none (some 2) 1).initial = .ok after ∧
        after.protocol.2 = [.sent, .received, .sent, .received, .sent, .received] ∧ Single after.protocol.2 := by
  have positive : (0 : Int) < 1 := by decide
  obtain ⟨replies, -, runs⟩ := paged_calls positive firstThree none (some 2) [.next, .hasNext, .next, .hasNext]
  exact ⟨replies, _, rfl, rfl, (runs 4).2 _ rfl⟩

end ActorlessPartitionIterator

end Scads.Server
