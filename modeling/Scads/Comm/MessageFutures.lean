import Scads.Data.Runs
import Mathlib.Data.List.Induction
import Mathlib.Data.List.Perm.Basic
import Mathlib.Data.List.TakeWhile

namespace Scads.Comm

/-! # Futures of messages

A reply reaches its future through the reference that is registered as a service.
Both are synchronized: the reference holds its own lock while the reply is on its
way to the future, and what others do to the future in the meantime comes first.
-/

structure MessageFuture (Service Message Queue Respond : Type) where
  sender : Option (Option Service) := none
  message : Option Message := none
  forwardList : List Queue := []
  respondFunctions : List Respond := []
deriving DecidableEq, Repr

namespace MessageFuture

section

variable {Service Message Queue Respond : Type}

/-- The queues that the future is offered to are returned with it. -/
def forward (future : MessageFuture Service Message Queue Respond) (dest : Queue) :
    MessageFuture Service Message Queue Respond × List Queue :=
  match future.message with
  | some _ => (future, [dest])
  | none => ({ future with forwardList := dest :: future.forwardList }, [])

/-- The functions that are called, with their arguments, are returned with the future. -/
def respond (future : MessageFuture Service Message Queue Respond) (r : Respond) :
    MessageFuture Service Message Queue Respond × List (Respond × Message) :=
  match future.message with
  | some message => (future, [(r, message)])
  | none => ({ future with respondFunctions := r :: future.respondFunctions }, [])

/-- `respondFunctions.foreach(_(msg))`: an exception of one function ends the loop. -/
def foreachCall (throws : Respond → Message → Bool) (msg : Message) : List Respond → List (Respond × Message)
  | [] => []
  | r :: rest => if throws r msg then [(r, msg)] else (r, msg) :: foreachCall throws msg rest

/-- The lists are read and kept. -/
def receiveMessage (throws : Respond → Message → Bool) (future : MessageFuture Service Message Queue Respond)
    (src : Option Service) (msg : Message) :
    MessageFuture Service Message Queue Respond × List Queue × List (Respond × Message) :=
  ({ future with message := some msg, sender := some src }, future.forwardList,
    foreachCall throws msg future.respondFunctions)

end

end MessageFuture

/-- `cleared` is the state of the weak reference: `get()` returns `null` once it holds. -/
structure FutureReference where
  registered : Bool := true
  cleared : Bool := false
deriving DecidableEq, Repr

/-- Whether `handler.unregisterService` is called is returned with the reference. -/
def FutureReference.unregister (reference : FutureReference) : FutureReference × Bool :=
  if reference.registered then ({ reference with registered := false }, true) else (reference, false)

theorem FutureReference.unregister_eq (reference : FutureReference) :
    reference.unregister = ({ reference with registered := false }, reference.registered) := by
  obtain ⟨registered, cleared⟩ := reference
  cases registered <;> rfl

namespace MessageFuture

/-- A future, its reference and what they have done.  `delivering` is the reply that the
reference passes on, while it holds its lock. -/
structure Delivery (Service Message Queue Respond : Type) where
  future : MessageFuture Service Message Queue Respond := {}
  reference : FutureReference := {}
  delivering : Option (Option Service × Message) := none
  offered : List Queue := []
  called : List (Respond × Message) := []
  unregistered : Nat := 0
deriving DecidableEq, Repr

/-- The calls of all threads in the order of their locks.  `deliver` is the call of the
future's `receiveMessage` inside the one of its reference. -/
inductive Call (Service Message Queue Respond : Type) where
  | receiveMessage (src : Option Service) (msg : Message)
  | deliver
  | forward (dest : Queue)
  | respond (r : Respond)
  | unregister
deriving DecidableEq, Repr

section

variable {Service Message Queue Respond : Type}

def step (throws : Respond → Message → Bool) (delivery : Delivery Service Message Queue Respond) :
    Call Service Message Queue Respond → Option (Delivery Service Message Queue Respond)
  | .receiveMessage src msg =>
      match delivery.delivering with
      | some _ => none
      | none =>
          let (reference, removed) := delivery.reference.unregister
          some { delivery with
            reference := { reference with cleared := true }
            unregistered := delivery.unregistered + removed.toNat
            delivering := if delivery.reference.cleared then none else some (src, msg) }
  | .deliver =>
      match delivery.delivering with
      | none => none
      | some (src, msg) =>
          let (future, offered, called) := delivery.future.receiveMessage throws src msg
          some { delivery with
            future
            delivering := none
            offered := delivery.offered ++ offered
            called := delivery.called ++ called }
  | .forward dest =>
      let (future, offered) := delivery.future.forward dest
      some { delivery with future, offered := delivery.offered ++ offered }
  | .respond r =>
      let (future, called) := delivery.future.respond r
      some { delivery with future, called := delivery.called ++ called }
  | .unregister =>
      match delivery.delivering with
      | some _ => none
      | none =>
          let (reference, removed) := delivery.reference.unregister
          some { delivery with reference, unregistered := delivery.unregistered + removed.toNat }

def Call.reply? : Call Service Message Queue Respond → Option (Option Service × Message)
  | .receiveMessage src msg => some (src, msg)
  | _ => none

def Call.dest? : Call Service Message Queue Respond → Option Queue
  | .forward dest => some dest
  | _ => none

def Call.respond? : Call Service Message Queue Respond → Option Respond
  | .respond r => some r
  | _ => none

def Call.delivers : Call Service Message Queue Respond → Bool
  | .deliver => true
  | _ => false

/-- The reply of the first delivery. -/
def firstReply (calls : List (Call Service Message Queue Respond)) : Option (Option Service × Message) :=
  calls.findSome? Call.reply?

def forwards (calls : List (Call Service Message Queue Respond)) : List Queue :=
  calls.filterMap Call.dest?

def responds (calls : List (Call Service Message Queue Respond)) : List Respond :=
  calls.filterMap Call.respond?

/-- Whether a delivery has happened. -/
def delivered (calls : List (Call Service Message Queue Respond)) : Bool :=
  calls.any Call.delivers

/-- The respond functions that are registered before the delivery, and the later ones. -/
def early (calls : List (Call Service Message Queue Respond)) : List Respond :=
  responds (calls.takeWhile (!·.delivers))

def late (calls : List (Call Service Message Queue Respond)) : List Respond :=
  responds (calls.dropWhile (!·.delivers))

variable {throws : Respond → Message → Bool} {calls later : List (Call Service Message Queue Respond)}
  {call : Call Service Message Queue Respond} {delivery after : Delivery Service Message Queue Respond}

@[simp] theorem firstReply_snoc : firstReply (calls ++ [call]) = (firstReply calls).or call.reply? := by
  simp [firstReply, List.findSome?_append]

@[simp] theorem forwards_snoc : forwards (calls ++ [call]) = forwards calls ++ call.dest?.toList := by
  cases call <;> simp [forwards, Call.dest?]

@[simp] theorem responds_snoc : responds (calls ++ [call]) = responds calls ++ call.respond?.toList := by
  cases call <;> simp [responds, Call.respond?]

@[simp] theorem delivered_snoc : delivered (calls ++ [call]) = (delivered calls || call.delivers) := by
  simp [delivered]

theorem early_snoc (was : delivered calls = true) :
    early (calls ++ [call]) = early calls ∧ late (calls ++ [call]) = late calls ++ call.respond?.toList := by
  have stops : ¬ ∀ call ∈ calls, (!call.delivers) = true := by simpa [delivered] using was
  have shorter : (calls.takeWhile (!·.delivers)).length ≠ calls.length := fun same =>
    stops (List.takeWhile_eq_self_iff.mp ((List.takeWhile_prefix _).eq_of_length same))
  have left : ¬ (calls.dropWhile (!·.delivers)).isEmpty = true := by
    rw [List.isEmpty_iff, List.dropWhile_eq_nil_iff]
    exact stops
  rw [early, early, late, late, List.takeWhile_append, if_neg shorter, List.dropWhile_append, if_neg left,
    responds_snoc]
  exact ⟨rfl, rfl⟩

theorem early_deliver (undelivered : delivered calls = false) :
    early (calls ++ [.deliver]) = responds calls ∧ late (calls ++ [.deliver]) = [] := by
  have every : ∀ call ∈ calls, (!call.delivers) = true := by simpa [delivered] using undelivered
  rw [early, late, List.takeWhile_append_of_pos every, List.dropWhile_append_of_pos every]
  exact ⟨by simp [Call.delivers], by simp [Call.delivers, responds, Call.respond?]⟩

theorem early_late : early calls ++ late calls = responds calls := by
  rw [early, late, responds, responds, ← List.filterMap_append, List.takeWhile_append_dropWhile, responds]

/-- The future and what it has done, after the calls, which determine all of its state. -/
structure Follows (throws : Respond → Message → Bool) (calls : List (Call Service Message Queue Respond))
    (delivery : Delivery Service Message Queue Respond) : Prop where
  unregistered : delivery.unregistered = (!delivery.reference.registered).toNat
  cleared : delivery.reference.cleared = (firstReply calls).isSome
  gone : delivery.reference.cleared → delivery.reference.registered = false
  delivering : delivery.delivering = if delivered calls then none else firstReply calls
  waiting : delivered calls = false →
    delivery.future = ⟨none, none, (forwards calls).reverse, (responds calls).reverse⟩ ∧
      delivery.offered = [] ∧ delivery.called = []
  done : delivered calls = true → ∃ src msg, firstReply calls = some (src, msg) ∧
    delivery.future.sender = some src ∧ delivery.future.message = some msg ∧
    delivery.offered.Perm (forwards calls) ∧
    delivery.called = foreachCall throws msg (early calls).reverse ++ (late calls).map (·, msg)

theorem follows_nil : Follows throws [] ({} : Delivery Service Message Queue Respond) where
  unregistered := rfl
  cleared := rfl
  gone cleared := absurd cleared Bool.false_ne_true
  delivering := rfl
  waiting _ := ⟨rfl, rfl, rfl⟩
  done was := absurd was Bool.false_ne_true

/-- Nothing is delivered before the first reply has come. -/
theorem Follows.replied (follows : Follows throws calls delivery) (was : delivered calls = true) :
    (firstReply calls).isSome = true := by
  obtain ⟨src, msg, first, -⟩ := follows.done was
  rw [first]
  rfl

theorem Follows.receiveMessage {src : Option Service} {msg : Message} (follows : Follows throws calls delivery)
    (taken : step throws delivery (.receiveMessage src msg) = some after) :
    Follows throws (calls ++ [.receiveMessage src msg]) after := by
  cases passing : delivery.delivering with
  | some reply => simp [MessageFuture.step, passing] at taken
  | none =>
      simp only [MessageFuture.step, passing, FutureReference.unregister_eq, Option.some.injEq] at taken
      subst taken
      have idle := follows.delivering.symm.trans passing
      have counted := follows.unregistered
      cases cleared : delivery.reference.cleared with
      | true =>
          -- The weak reference is empty: the reply is dropped.
          have first : (firstReply calls).isSome = true := follows.cleared.symm.trans cleared
          have gone := follows.gone cleared
          obtain ⟨reply, replied⟩ := Option.isSome_iff_exists.mp first
          have was : delivered calls = true := by
            by_contra undelivered
            simp [undelivered, replied] at idle
          exact {
            unregistered := by simp [counted, gone]
            cleared := by simp [replied]
            gone := fun _ => rfl
            delivering := by simp [was]
            waiting := by simp [was]
            done := fun _ => by
              rw [(early_snoc was).1, (early_snoc was).2]
              simpa [Call.respond?, Call.dest?, replied] using follows.done was }
      | false =>
          have first : firstReply calls = none := by
            simpa using follows.cleared.symm.trans cleared
          have undelivered : delivered calls = false := by
            by_contra was
            simpa [first] using follows.replied (by simpa using was)
          exact {
            unregistered := by
              rw [counted]
              cases delivery.reference.registered <;> rfl
            cleared := by simp [first, Call.reply?]
            gone := fun _ => rfl
            delivering := by simp [undelivered, first, Call.reply?, Call.delivers]
            waiting := fun _ => by simpa [Call.dest?, Call.respond?] using follows.waiting undelivered
            done := by simp [undelivered, Call.delivers] }

theorem Follows.deliver (follows : Follows throws calls delivery)
    (taken : step throws delivery .deliver = some after) : Follows throws (calls ++ [.deliver]) after := by
  cases passing : delivery.delivering with
  | none => simp [MessageFuture.step, passing] at taken
  | some reply =>
      obtain ⟨src, msg⟩ := reply
      simp only [MessageFuture.step, passing, MessageFuture.receiveMessage, Option.some.injEq] at taken
      subst taken
      have busy := follows.delivering.symm.trans passing
      cases was : delivered calls with
      | true => simp [was] at busy
      | false =>
          have first : firstReply calls = some (src, msg) := by simpa [was] using busy
          obtain ⟨future, offered, called⟩ := follows.waiting was
          have split := early_deliver was
          exact {
            unregistered := follows.unregistered
            cleared := by simp [follows.cleared, Call.reply?]
            gone := follows.gone
            delivering := by simp [Call.delivers]
            waiting := by simp [Call.delivers]
            done := fun _ => ⟨src, msg, by simp [first], rfl, rfl, by
              simp [offered, future, Call.dest?], by simp [called, future, split]⟩ }

/-- A call that is no reply and delivers none: it waits in a future that is not set, and
is served at once by one that is. -/
theorem Follows.other (follows : Follows throws calls delivery) (asks : call.reply? = none)
    (delivers : call.delivers = false) (unregistered : after.unregistered = (!after.reference.registered).toNat)
    (cleared : after.reference.cleared = delivery.reference.cleared)
    (gone : after.reference.cleared → after.reference.registered = false)
    (delivering : after.delivering = delivery.delivering)
    (waits : ∀ forwardList respondFunctions, delivery.future = ⟨none, none, forwardList, respondFunctions⟩ →
      after.future = ⟨none, none, call.dest?.toList ++ forwardList, call.respond?.toList ++ respondFunctions⟩ ∧
        after.offered = delivery.offered ∧ after.called = delivery.called)
    (serves : ∀ msg, delivery.future.message = some msg → after.future = delivery.future ∧
      after.offered = delivery.offered ++ call.dest?.toList ∧
      after.called = delivery.called ++ call.respond?.toList.map (·, msg)) :
    Follows throws (calls ++ [call]) after := by
  have first : firstReply (calls ++ [call]) = firstReply calls := by simp [asks]
  have same : delivered (calls ++ [call]) = delivered calls := by simp [delivers]
  exact {
    unregistered
    cleared := by rw [first, cleared]; exact follows.cleared
    gone
    delivering := by rw [first, same, delivering]; exact follows.delivering
    waiting := fun undelivered => by
      obtain ⟨future, offered, called⟩ := follows.waiting (same.symm.trans undelivered)
      obtain ⟨now, offers, calledNow⟩ := waits _ _ future
      rw [now, offers, calledNow, forwards_snoc, responds_snoc, List.reverse_append, List.reverse_append]
      exact ⟨by cases call.dest? <;> cases call.respond? <;> rfl, offered, called⟩
    done := fun was => by
      rw [same] at was
      obtain ⟨src, msg, replied, sender, message, offered, called⟩ := follows.done was
      obtain ⟨kept, offers, calledNow⟩ := serves msg message
      refine ⟨src, msg, first.trans replied, ?_⟩
      rw [(early_snoc was).1, (early_snoc was).2, kept, offers, calledNow, called, forwards_snoc, List.map_append,
        List.append_assoc]
      exact ⟨sender, message, offered.append_right _, rfl⟩ }

theorem Follows.forward {dest : Queue} (follows : Follows throws calls delivery)
    (taken : step throws delivery (.forward dest) = some after) : Follows throws (calls ++ [.forward dest]) after := by
  simp only [MessageFuture.step, Option.some.injEq] at taken
  subst taken
  refine follows.other rfl rfl follows.unregistered rfl follows.gone rfl (fun _ _ future => ?_) fun _ message => ?_
  · simp [MessageFuture.forward, future, Call.dest?, Call.respond?]
  · simp [MessageFuture.forward, message, Call.dest?, Call.respond?]

theorem Follows.respond {r : Respond} (follows : Follows throws calls delivery)
    (taken : step throws delivery (.respond r) = some after) : Follows throws (calls ++ [.respond r]) after := by
  simp only [MessageFuture.step, Option.some.injEq] at taken
  subst taken
  refine follows.other rfl rfl follows.unregistered rfl follows.gone rfl (fun _ _ future => ?_) fun _ message => ?_
  · simp [MessageFuture.respond, future, Call.dest?, Call.respond?]
  · simp [MessageFuture.respond, message, Call.dest?, Call.respond?]

theorem Follows.unregister (follows : Follows throws calls delivery)
    (taken : step throws delivery .unregister = some after) : Follows throws (calls ++ [.unregister]) after := by
  cases passing : delivery.delivering with
  | some reply => simp [MessageFuture.step, passing] at taken
  | none =>
      simp only [MessageFuture.step, passing, FutureReference.unregister_eq, Option.some.injEq] at taken
      subst taken
      have counted : delivery.unregistered + delivery.reference.registered.toNat = 1 := by
        rw [follows.unregistered]
        cases delivery.reference.registered <;> rfl
      refine follows.other rfl rfl counted rfl (fun _ => rfl) passing.symm (fun _ _ future => ?_) fun _ _ => ?_
      · exact ⟨future, rfl, rfl⟩
      · simp [Call.dest?, Call.respond?]

theorem Follows.step (follows : Follows throws calls delivery) (taken : step throws delivery call = some after) :
    Follows throws (calls ++ [call]) after := by
  cases call with
  | receiveMessage src msg => exact follows.receiveMessage taken
  | deliver => exact follows.deliver taken
  | forward dest => exact follows.forward taken
  | respond r => exact follows.respond taken
  | unregister => exact follows.unregister taken

theorem follows_run (ran : Data.run (step throws) {} calls = some delivery) : Follows throws calls delivery := by
  induction calls using List.reverseRecOn generalizing delivery with
  | nil =>
      cases ran
      exact follows_nil
  | append_singleton calls call ih =>
      obtain ⟨middle, before, taken⟩ := Data.run_snoc.mp ran
      exact (ih before).step taken

section

variable {msg : Message}

theorem foreachCall_begins (rs : List Respond) : foreachCall throws msg rs <+: rs.map (·, msg) := by
  induction rs with
  | nil => exact List.prefix_refl _
  | cons r rest ih =>
      rw [foreachCall, List.map_cons]
      split
      · exact ⟨rest.map (·, msg), rfl⟩
      · exact (List.prefix_cons_inj _).mpr ih

/-- All functions are called if none but the last one throws. -/
theorem foreachCall_eq_iff (rs : List Respond) :
    foreachCall throws msg rs = rs.map (·, msg) ↔ ∀ r ∈ rs.dropLast, throws r msg = false := by
  induction rs with
  | nil => simp [foreachCall]
  | cons r rest ih =>
      cases rest with
      | nil => simp [foreachCall]
      | cons second rest =>
          rw [foreachCall, List.map_cons, List.dropLast_cons_cons, List.forall_mem_cons, ← ih]
          cases thrown : throws r msg <;> simp

theorem called_perm_iff {first second : List Respond} :
    (foreachCall throws msg first.reverse ++ second.map (·, msg)).Perm ((first ++ second).map (·, msg)) ↔
      ∀ r ∈ first.tail, throws r msg = false := by
  have whole : (first.reverse.map (·, msg)).Perm (first.map (·, msg)) := (List.reverse_perm first).map _
  rw [List.map_append, List.perm_append_right_iff]
  calc (foreachCall throws msg first.reverse).Perm (first.map (·, msg))
    _ ↔ foreachCall throws msg first.reverse = first.reverse.map (·, msg) :=
        ⟨fun perm => (foreachCall_begins _).eq_of_length (perm.trans whole.symm).length_eq,
          fun same => same ▸ whole⟩
    _ ↔ ∀ r ∈ first.reverse.dropLast, throws r msg = false := foreachCall_eq_iff _
    _ ↔ ∀ r ∈ first.tail, throws r msg = false := by simp [List.dropLast_reverse]

end

/-- What is asked of a future after the calls. -/
structure SetOnce (throws : Respond → Message → Bool) (calls : List (Call Service Message Queue Respond))
    (delivery : Delivery Service Message Queue Respond) : Prop where
  unset : delivered calls = false → delivery.future.sender = none ∧ delivery.future.message = none ∧
    delivery.offered = [] ∧ delivery.called = []
  set : delivered calls = true → ∃ src msg, firstReply calls = some (src, msg) ∧
    delivery.future.sender = some src ∧ delivery.future.message = some msg ∧
    delivery.offered.Perm (forwards calls) ∧ delivery.called.Perm ((responds calls).map (·, msg))
  kept : ∀ past later before, calls = past ++ later → Data.run (step throws) {} past = some before →
    before.future.message.isSome = true →
    delivery.future.message = before.future.message ∧ delivery.future.sender = before.future.sender
  unregistered : delivery.unregistered ≤ 1
  gone : (firstReply calls).isSome = true → delivery.unregistered = 1

/-- No respond function that waits for the delivery throws, unless it is the first
one registered: it is called last. -/
def Quiet (throws : Respond → Message → Bool) (calls : List (Call Service Message Queue Respond)) : Prop :=
  delivered calls = true → ∀ src msg, firstReply calls = some (src, msg) →
    ∀ r ∈ (early calls).tail, throws r msg = false

theorem Follows.kept {past : List (Call Service Message Queue Respond)}
    {before : Delivery Service Message Queue Respond} (earlier : Follows throws past before)
    (follows : Follows throws (past ++ later) delivery) (isSet : before.future.message.isSome = true) :
    delivery.future.message = before.future.message ∧ delivery.future.sender = before.future.sender := by
  have was : delivered past = true := by
    by_contra undelivered
    simp [(earlier.waiting (by simpa using undelivered)).1] at isSet
  obtain ⟨src, msg, replied, sender, message, -⟩ := earlier.done was
  have still : delivered (past ++ later) = true := by
    rw [delivered, List.any_append, ← delivered, was, Bool.true_or]
  obtain ⟨lastSrc, lastMsg, first, lastSender, lastMessage, -⟩ := follows.done still
  have same : firstReply (past ++ later) = some (src, msg) := by
    rw [firstReply, List.findSome?_append, ← firstReply, replied, Option.some_or]
  cases same.symm.trans first
  exact ⟨lastMessage.trans message.symm, lastSender.trans sender.symm⟩

theorem set_once_iff (ran : Data.run (step throws) {} calls = some delivery) :
    SetOnce throws calls delivery ↔ Quiet throws calls := by
  have follows := follows_run ran
  refine ⟨fun once was src msg first => ?_, fun quiet => ?_⟩
  · obtain ⟨_, _, same, -, -, -, called⟩ := once.set was
    cases first.symm.trans same
    obtain ⟨_, _, same, -, -, -, calledNow⟩ := follows.done was
    cases first.symm.trans same
    rw [calledNow, ← early_late] at called
    exact called_perm_iff.mp called
  · exact {
      unset := fun undelivered => by
        obtain ⟨future, offered, called⟩ := follows.waiting undelivered
        simp [future, offered, called]
      set := fun was => by
        obtain ⟨src, msg, first, sender, message, offered, called⟩ := follows.done was
        refine ⟨src, msg, first, sender, message, offered, ?_⟩
        rw [called, ← early_late]
        exact called_perm_iff.mpr (quiet was src msg first)
      kept := fun past later before parts earlier isSet =>
        (follows_run earlier).kept (parts ▸ follows) isSet
      unregistered := follows.unregistered ▸ Bool.toNat_le _
      gone := fun replied => by
        rw [follows.unregistered, follows.gone (follows.cleared.trans replied)]
        rfl }

end

/-- Two replies and a respond function that comes while the first one is under way.
The function that was registered first throws. -/
theorem one_reply_counted :
    ∃ delivery : Delivery Nat String Nat Nat,
      Data.run (step fun r _ => r == 1) {} [.forward 1, .respond 1, .unregister, .receiveMessage (some 7) "first",
        .respond 2, .deliver, .forward 2, .receiveMessage none "second", .respond 3] = some delivery ∧
      SetOnce (fun r _ => r == 1) [.forward 1, .respond 1, .unregister, .receiveMessage (some 7) "first",
        .respond 2, .deliver, .forward 2, .receiveMessage none "second", .respond 3] delivery := by
  refine ⟨_, rfl, (set_once_iff rfl).mpr fun _ src msg first => ?_⟩
  have waiting : ∀ r ∈ [2], (r == 1) = false := by decide
  exact waiting

/-- The function registered last throws, and the other one is never called. -/
theorem first_function_dropped :
    ∃ delivery : Delivery Nat String Nat Nat,
      Data.run (step fun r _ => r == 2) {} [.respond 1, .respond 2, .receiveMessage none "first", .deliver] =
        some delivery ∧
      delivery.called = [(2, "first")] ∧
      ¬ SetOnce (fun r _ => r == 2) [.respond 1, .respond 2, .receiveMessage none "first", .deliver] delivery := by
  refine ⟨_, rfl, rfl, fun once => ?_⟩
  obtain ⟨src, msg, -, -, -, -, called⟩ := once.set rfl
  have lengths : 1 = 2 := called.length_eq
  contradiction

end MessageFuture

end Scads.Comm
