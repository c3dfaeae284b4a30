import Scads.Protocol.ReadLatest

namespace Scads.Protocol

open Scads.Data Scads.Comm Scads.Server Scads.Client

/-! # Durability of deletes

A delete leaves no version behind, and a missing value loses every vote against a
stored one.  It lasts as long as no reply from before it takes part in a vote or
in a repair.
-/

variable {N : Nat} {K : Type} [LinearOrder K]

/-- The replica had applied the delete when it gave this answer. -/
def AnsweredAfter (state : State N K) (delete : Nat) (answer : Answer N) : Prop :=
  ∃ delivery ∈ (state.handled answer.source).take answer.handled, delivery.put = some delete

/-- An answer from after the delete, or one that reports no value anyway. -/
def Settled (state : State N K) (delete : Nat) (answer : Answer N) : Prop :=
  AnsweredAfter state delete answer ∨ answer.value = none

/-- Every read repair of the key that runs after the delete was issued works on
settled replies only. -/
def RepairsSettled (quorum : Nat) (events : List (Event N K)) (key : K) (delete : Nat) : Prop :=
  ∀ past get replies rest before opened, events = past ++ .finish get replies :: rest →
    run (step quorum) .initial past = some before → delete < before.puts.length →
    before.gets[get]? = some opened → opened.key = key → ∀ reply ∈ replies, Settled before delete reply

/-- The put with this index deletes the key and is its last put. -/
structure LastDelete (key : K) (delete : Nat) (puts : List (PutRequest K Value)) : Prop where
  deletes : ∀ request, puts[delete]? = some request → request = ⟨key, none⟩
  last : ∀ put request, delete < put → puts[put]? = some request → request.key ≠ key

omit [LinearOrder K] in
theorem LastDelete.of_earlier {key : K} {delete : Nat} {puts more : List (PutRequest K Value)}
    (last : LastDelete key delete more) (extended : puts <+: more) : LastDelete key delete puts := by
  obtain ⟨rest, rfl⟩ := extended
  exact ⟨fun request found => last.deletes request (getElem?_append_of_some found),
    fun put request later found => last.last put request later (getElem?_append_of_some found)⟩

/-- After the delete, nothing with a value for the key reaches the replica. -/
def Silenced (key : K) (delete : Nat) (earlier later : Delivery K) : Prop :=
  earlier.put = some delete → later.request.key = key → later.request.value = none

theorem settled_none {state : State N K} {key : K} {delete : Nat} (consistent : Consistent state)
    (last : LastDelete key delete state.puts)
    (silenced : ∀ replica, (state.traffic replica).Pairwise (Silenced key delete))
    {get : Get N K} (opened : get ∈ state.gets) (keyed : get.key = key) {answer : Answer N}
    (given : answer ∈ get.answers) (settled : Settled state delete answer) : answer.value = none := by
  rcases settled with ⟨delivery, handled, own⟩ | absent
  · have travelled : delivery ∈ state.traffic answer.source :=
      List.mem_append_left _ (List.mem_of_mem_take handled)
    have request := last.deletes _ (consistent.issued _ delivery travelled delete own)
    have ordered : ((state.handled answer.source).take answer.handled).Pairwise (Silenced key delete) :=
      (silenced answer.source).sublist ((List.take_sublist _ _).trans (List.sublist_append_left _ _))
    obtain ⟨final, _, finalKey, held, position⟩ :=
      latest_of_mem ordered handled (show delivery.request.key = key by rw [request])
    have snapshot := (consistent.given get opened answer given).2
    rw [keyed, held] at snapshot
    rw [snapshot]
    rcases position with rfl | later
    · rw [request]
    · exact later own finalKey
  · exact absent

omit [LinearOrder K] in
/-- Replies without a value agree, so their get repairs nothing. -/
theorem repairs_of_none {quorum : Nat} {key : K} {replies : List (Answer N)}
    {sent : List (Fin N × PutRequest K Value)} (absent : ∀ reply ∈ replies, reply.value = none)
    (distinct : (replies.map Answer.source).Nodup) (enough : quorum ≤ replies.length)
    (repaired : repairs quorum key replies = .ok sent) : sent = [] := by
  obtain ⟨final, tallied, rfl⟩ := repairs_tallied distinct enough repaired
  have every : ∀ reply ∈ replies.map Answer.reply, rank reply.2 = 0 := by
    intro reply member
    obtain ⟨answer, known, rfl⟩ := List.mem_map.mp member
    simp [Answer.reply, absent answer known, rank]
  have winner : rank final.winnerValue = 0 := by
    rcases tallied.attained with none | ⟨reply, member, same⟩
    · simp [none, rank]
    · rw [← same]
      exact every reply member
  have losers : final.losers = [] := by
    have empty : (replies.map Answer.reply).filter
        (fun reply => rank reply.2 ≠ rank final.winnerValue) = [] := by
      refine List.filter_eq_nil_iff.mpr fun reply member => ?_
      simp [every reply member, winner]
    have losers := tallied.losers
    rw [empty] at losers
    exact losers.eq_nil
  rw [losers, List.map_nil]

theorem step_silenced {quorum : Nat} {state next : State N K} {event : Event N K} {key : K}
    {delete : Nat} (inOrder : event.InOrder) (consistent : Consistent state)
    (last : LastDelete key delete next.puts)
    (settled : ∀ get replies opened, event = .finish get replies → delete < state.puts.length →
      state.gets[get]? = some opened → opened.key = key → ∀ reply ∈ replies, Settled state delete reply)
    (silenced : ∀ replica, (state.traffic replica).Pairwise (Silenced key delete))
    (taken : step quorum state event = some next) :
    ∀ replica, (next.traffic replica).Pairwise (Silenced key delete) := by
  intro replica
  have sentBefore : ∀ delivery ∈ state.traffic replica, delivery.put = some delete →
      delete < state.puts.length := by
    intro delivery member own
    exact (List.getElem?_eq_some_iff.mp (consistent.issued replica delivery member delete own)).1
  cases step_cases taken with
  | putBytes putKey currentTimeMillis clientID value =>
      rw [State.traffic_send]
      refine List.pairwise_append.mpr ⟨silenced replica, List.pairwise_singleton _ _, ?_⟩
      intro earlier member later new own keyed
      rw [List.mem_singleton.mp new] at keyed
      exact absurd keyed (last.last state.puts.length _ (sentBefore earlier member own) (by simp [State.send]))
  | handlePut sent =>
      have first := inOrder
      simp only [Event.InOrder] at first
      subst first
      rw [State.traffic_handle_first sent]
      exact silenced replica
  | lose other place => exact (silenced replica).sublist (State.traffic_lose state other place replica)
  | putReply => exact silenced replica
  | getBytes => exact silenced replica
  | handleGet => exact silenced replica
  | @finish get opened replies sent found given distinct enough repaired =>
      rw [State.traffic_repair]
      refine List.pairwise_append.mpr ⟨silenced replica, ?_, ?_⟩
      · exact List.pairwise_map.mpr (List.pairwise_of_forall fun _ _ own => by cases own)
      · intro earlier member later new own keyed
        obtain ⟨repair, chosen, rfl⟩ := List.mem_map.mp new
        have sentRepair : repair ∈ sent := (List.mem_filter.mp chosen).1
        by_cases same : opened.key = key
        · have absent : ∀ reply ∈ replies, reply.value = none := by
            intro reply known
            exact settled_none consistent last silenced (List.mem_of_getElem? found) same (given reply known)
              (settled get replies opened rfl (sentBefore earlier member own) found same reply known)
          rw [repairs_of_none absent distinct enough repaired] at sentRepair
          cases sentRepair
        · obtain ⟨final, _, rfl⟩ := repairs_tallied distinct enough repaired
          obtain ⟨server, _, rfl⟩ := List.mem_map.mp sentRepair
          exact absurd keyed same

theorem step_keeps_puts {quorum : Nat} {state next : State N K} {event : Event N K}
    (taken : step quorum state event = some next) : state.puts <+: next.puts :=
  (step_since (since_refl state) taken).issued

theorem RepairsSettled.of_snoc {quorum : Nat} {past : List (Event N K)} {event : Event N K} {key : K}
    {delete : Nat} (settled : RepairsSettled quorum (past ++ [event]) key delete) :
    RepairsSettled quorum past key delete := by
  intro first get replies rest before opened split
  exact settled first get replies (rest ++ [event]) before opened (by simp [split])

theorem run_silenced {quorum : Nat} {events : List (Event N K)} {final : State N K} {key : K}
    {delete : Nat} (ran : run (step quorum) .initial events = some final)
    (inOrder : ∀ event ∈ events, event.InOrder) (last : LastDelete key delete final.puts)
    (settled : RepairsSettled quorum events key delete) :
    ∀ replica, (final.traffic replica).Pairwise (Silenced key delete) := by
  induction events using List.reverseRecOn generalizing final with
  | nil =>
      cases ran
      simp
  | append_singleton past event ih =>
      obtain ⟨middle, earlier, taken⟩ := run_snoc.mp ran
      have silenced := ih earlier (fun other member => inOrder other (by simp [member]))
        (last.of_earlier (step_keeps_puts taken)) settled.of_snoc
      refine step_silenced (inOrder event (by simp)) (run_consistent earlier) last ?_ silenced taken
      intro get replies opened same issued found keyed
      exact settled past get replies [] middle opened (by simp [same]) earlier issued found keyed

/-- A delete lasts, in every state of every run with in-order handling, arbitrary
loss and no later put of the key, in which repairs work on settled replies: a
replica that applied it holds no value again, and a get that votes over settled
replies finds nothing. -/
theorem delete_lasts {quorum : Nat} {events : List (Event N K)} {final : State N K} {key : K}
    {delete : Nat} (ran : run (step quorum) .initial events = some final)
    (inOrder : ∀ event ∈ events, event.InOrder)
    (issued : final.puts[delete]? = some ⟨key, none⟩)
    (last : ∀ put request, delete < put → final.puts[put]? = some request → request.key ≠ key)
    (settled : RepairsSettled quorum events key delete) :
    (∀ replica, (∃ delivery ∈ final.handled replica, delivery.put = some delete) →
      (final.store replica).get key = none) ∧
    (∀ (get : Nat) (opened : Get N K) (replies : List (Answer N)), final.gets[get]? = some opened →
      opened.key = key →
      (∀ reply ∈ replies, reply ∈ opened.answers) → replies.length = quorum →
      (∀ reply ∈ replies, Settled final delete reply) → getBytes quorum key replies = .ok none) := by
  have consistent := run_consistent ran
  have lastDelete : LastDelete key delete final.puts :=
    ⟨fun request found => Option.some.inj (found.symm.trans issued), last⟩
  have silenced := run_silenced ran inOrder lastDelete settled
  constructor
  · intro replica ⟨delivery, handled, own⟩
    have request := lastDelete.deletes _
      (consistent.issued replica delivery (List.mem_append_left _ handled) delete own)
    obtain ⟨newest, _, newestKey, held, position⟩ := latest_of_mem
      ((silenced replica).sublist (List.sublist_append_left _ _)) handled
      (show delivery.request.key = key by rw [request])
    rw [consistent.held, held]
    rcases position with rfl | later
    · rw [request]
    · exact later own newestKey
  · intro get opened replies found keyed given enough every
    have absent : ∀ reply ∈ replies, reply.value = none := fun reply member =>
      settled_none consistent lastDelete silenced (List.mem_of_getElem? found) keyed (given reply member)
        (every reply member)
    obtain ⟨newest, returned, _, attained⟩ :=
      GetHandler.finishGetHandler_newest key N (replies.map Answer.reply) []
    rw [List.append_nil, List.length_map, enough] at returned
    have none : newest = none := by
      rcases attained with none | ⟨reply, member, same⟩
      · exact none
      · obtain ⟨answer, known, rfl⟩ := List.mem_map.mp member
        rw [← same]
        exact absent answer known
    rw [none] at returned
    exact returned

/-- Three replicas apply a put and its delete, and two of them answer a get. -/
theorem delete_lasts_of_three :
    ∃ final : State 3 Nat,
      run (step 2) .initial [.putBytes 7 1 5 (some [42]), .putBytes 7 2 5 none, .handlePut 0 0,
        .handlePut 0 0, .handlePut 1 0, .handlePut 1 0, .handlePut 2 0, .handlePut 2 0, .getBytes 7,
        .handleGet 0 0, .handleGet 0 2] = some final ∧
      (final.store 1).get 7 = none ∧
      getBytes 2 7 ([⟨0, none, 2⟩, ⟨2, none, 2⟩] : List (Answer 3)) = .ok none := by
  refine ⟨_, rfl, ?_⟩
  obtain ⟨stored, read⟩ := @delete_lasts 3 Nat _ 2
    [.putBytes 7 1 5 (some [42]), .putBytes 7 2 5 none, .handlePut 0 0, .handlePut 0 0, .handlePut 1 0,
      .handlePut 1 0, .handlePut 2 0, .handlePut 2 0, .getBytes 7, .handleGet 0 0, .handleGet 0 2]
    _ 7 1 rfl (by simp [Event.InOrder]) rfl
    (fun put request later found => by cases found.symm.trans (List.getElem?_eq_none later))
    (fun past get replies rest before opened split => by
      have member : Event.finish get replies ∈ past ++ .finish get replies :: rest := by simp
      rw [← split] at member
      simp at member)
  exact ⟨stored 1 ⟨⟨⟨7, none⟩, some 1⟩, by decide, rfl⟩,
    read 0 _ [⟨0, none, 2⟩, ⟨2, none, 2⟩] rfl rfl (fun _ member => member) rfl
      (fun reply member => .inr (by simp at member; rcases member with rfl | rfl <;> rfl))⟩

/-- A delete that a write quorum of three replicas applied and the third lost: a
read quorum with the third one returns the deleted value, and the repair of that
get puts it back. -/
theorem lost_delete_returns :
    ∃ middle final : State 3 Nat,
      run (step 2) .initial [.putBytes 7 1 5 (some [42]), .handlePut 0 0, .handlePut 1 0, .handlePut 2 0,
        .putBytes 7 2 5 none, .handlePut 0 0, .handlePut 1 0, .lose 2 0, .putReply 1 0, .putReply 1 1] =
          some middle ∧
      middle.puts[1]? = some ⟨7, none⟩ ∧ middle.acknowledgements 1 = [0, 1] ∧
      (middle.store 0).get 7 = none ∧
      run (step 2) middle [.getBytes 7, .handleGet 0 0, .handleGet 0 2,
        .finish 0 [⟨0, none, 2⟩, ⟨2, some (createMetadata 1 5 [42]), 1⟩], .handlePut 0 0] = some final ∧
      final.puts = middle.puts ∧
      getBytes 2 7 ([⟨0, none, 2⟩, ⟨2, some (createMetadata 1 5 [42]), 1⟩] : List (Answer 3)) =
        .ok (some [42]) ∧
      (final.store 0).get 7 = some (createMetadata 1 5 [42]) := by
  refine ⟨_, _, rfl, rfl, rfl, rfl, rfl, rfl, ?_, ?_⟩
  · decide
  · decide

end Scads.Protocol
