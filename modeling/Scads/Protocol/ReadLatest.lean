import Scads.Protocol.History

namespace Scads.Protocol

open Scads.Data Scads.Comm Scads.Server Scads.Client

/-! # Reading the latest acknowledged write -/

variable {N : Nat} {K : Type} [LinearOrder K]

/-- Requests are handled at each replica in the order in which they were sent. -/
def Event.InOrder : Event N K → Prop
  | .handlePut _ place => place = 0
  | _ => True

def Event.NoRepair : Event N K → Prop
  | .finish .. => False
  | _ => True

/-- The puts of a key carry strictly increasing metadata in issue order. -/
def Increasing (key : K) (puts : List (PutRequest K Value)) : Prop :=
  puts.Pairwise fun earlier later =>
    earlier.key = key → later.key = key → rank earlier.value < rank later.value

def IssuedBefore (earlier later : Delivery K) : Prop :=
  ∀ first second, earlier.put = some first → later.put = some second → first < second

/-- Without repairs, what reaches a replica in order is in issue order. -/
structure InIssueOrder (state : State N K) : Prop where
  ordered : ∀ replica, (state.traffic replica).Pairwise IssuedBefore
  known : ∀ replica, ∀ delivery ∈ state.traffic replica,
    ∃ put, delivery.put = some put ∧ put < state.puts.length

theorem initial_inIssueOrder : InIssueOrder (State.initial : State N K) :=
  ⟨fun _ => by simp, fun _ => by simp⟩

theorem step_inIssueOrder {quorum : Nat} {state next : State N K} {event : Event N K}
    (allowed : event.InOrder ∧ event.NoRepair) (order : InIssueOrder state)
    (taken : step quorum state event = some next) : InIssueOrder next := by
  cases step_cases taken with
  | putBytes key currentTimeMillis clientID value =>
      refine ⟨fun replica => ?_, fun replica delivery member => ?_⟩
      · rw [State.traffic_send]
        refine List.pairwise_append.mpr ⟨order.ordered replica, List.pairwise_singleton .., ?_⟩
        intro earlier member later new first second own other
        obtain ⟨put, same, bound⟩ := order.known replica earlier member
        rw [List.mem_singleton.mp new] at other
        cases other
        cases own.symm.trans same
        exact bound
      · rw [State.traffic_send] at member
        simp only [State.send, List.length_append, List.length_singleton]
        rcases List.mem_append.mp member with earlier | new
        · obtain ⟨put, same, bound⟩ := order.known replica delivery earlier
          exact ⟨put, same, by omega⟩
        · exact ⟨state.puts.length, by rw [List.mem_singleton.mp new], by omega⟩
  | @handlePut replica place delivery sent =>
      have first : place = 0 := allowed.1
      subst first
      refine ⟨fun other => ?_, fun other found member => ?_⟩
      · rw [State.traffic_handle_first sent]
        exact order.ordered other
      · rw [State.traffic_handle_first sent] at member
        exact order.known other found member
  | lose replica place =>
      refine ⟨fun other => ?_, fun other delivery member => ?_⟩
      · exact (order.ordered other).sublist (State.traffic_lose state replica place other)
      · exact order.known other delivery ((State.traffic_lose state replica place other).subset member)
  | putReply => exact ⟨order.ordered, order.known⟩
  | getBytes => exact ⟨order.ordered, order.known⟩
  | handleGet => exact ⟨order.ordered, order.known⟩
  | finish => exact allowed.2.elim

/-- What is true from a state on: histories only grow, and a get opened later is
answered no earlier. -/
structure Since (start state : State N K) : Prop where
  grown : ∀ replica, start.handled replica <+: state.handled replica
  issued : start.puts <+: state.puts
  opened : start.gets.length ≤ state.gets.length
  answered : ∀ get, start.gets.length ≤ get → ∀ found, state.gets[get]? = some found →
    ∀ answer ∈ found.answers, (start.handled answer.source).length ≤ answer.handled

theorem since_refl (state : State N K) : Since state state := by
  refine ⟨fun _ => List.prefix_refl _, List.prefix_refl _, le_refl _, fun get beyond found located => ?_⟩
  rw [List.getElem?_eq_none beyond] at located
  cases located

theorem step_since {quorum : Nat} {start state next : State N K} {event : Event N K}
    (since : Since start state) (taken : step quorum state event = some next) : Since start next := by
  cases step_cases taken with
  | putBytes =>
      exact ⟨since.grown, since.issued.trans (List.prefix_append _ _), since.opened, since.answered⟩
  | @handlePut replica place delivery sent =>
      refine ⟨fun other => (since.grown other).trans ?_, since.issued, since.opened, since.answered⟩
      by_cases same : other = replica
      · subst same
        simp [State.handle]
      · simp [State.handle, same]
  | lose => exact ⟨since.grown, since.issued, since.opened, since.answered⟩
  | putReply => exact ⟨since.grown, since.issued, since.opened, since.answered⟩
  | getBytes key =>
      refine ⟨since.grown, since.issued, since.opened.trans (by simp), ?_⟩
      intro get beyond found located
      by_cases old : get < state.gets.length
      · rw [List.getElem?_append_left old] at located
        exact since.answered get beyond found located
      · rw [List.getElem?_append_right (by omega)] at located
        obtain ⟨_, rfl⟩ := List.getElem?_eq_some_iff.mp located
        simp
  | @handleGet get opened replica located =>
      refine ⟨since.grown, since.issued, by simpa [State.answer] using since.opened, ?_⟩
      intro other beyond found changed answer member
      simp only [State.answer, List.getElem?_set] at changed
      by_cases same : get = other
      · subst same
        have bound := (List.getElem?_eq_some_iff.mp located).1
        simp only [if_pos bound, if_true] at changed
        cases changed
        rcases List.mem_append.mp member with earlier | new
        · exact since.answered get beyond opened located answer earlier
        · rw [List.mem_singleton.mp new]
          exact (since.grown replica).length_le
      · rw [if_neg same] at changed
        exact since.answered other beyond found changed answer member
  | finish => exact ⟨since.grown, since.issued, since.opened, since.answered⟩

theorem run_since {quorum : Nat} {start state : State N K} {events : List (Event N K)}
    (ran : run (step quorum) start events = some state) : Since start state :=
  run_invariant (fun _ since taken => step_since since taken) ran (fun _ _ => trivial)
    (since_refl start)

omit [LinearOrder K] in
theorem Increasing.rank_lt {key : K} {puts : List (PutRequest K Value)} (increasing : Increasing key puts)
    {first second : Nat} {early late : Option Value} (firstPut : puts[first]? = some ⟨key, early⟩)
    (secondPut : puts[second]? = some ⟨key, late⟩) (before : first < second) : rank early < rank late := by
  obtain ⟨firstBound, firstSame⟩ := List.getElem?_eq_some_iff.mp firstPut
  obtain ⟨secondBound, secondSame⟩ := List.getElem?_eq_some_iff.mp secondPut
  have ordered := List.pairwise_iff_getElem.mp increasing first second firstBound secondBound before
  rw [firstSame, secondSame] at ordered
  exact ordered rfl rfl

/-- A replica that has handled a put answers with it or with something newer. -/
theorem answer_at_least {state : State N K} {key : K} (consistent : Consistent state)
    (order : InIssueOrder state) (increasing : Increasing key state.puts)
    {get : Get N K} (opened : get ∈ state.gets) (keyed : get.key = key) {answer : Answer N}
    (given : answer ∈ get.answers) {put : Nat} {value : Option Value} {delivery : Delivery K}
    (handled : delivery ∈ (state.handled answer.source).take answer.handled)
    (own : delivery.put = some put) (issued : state.puts[put]? = some ⟨key, value⟩) :
    rank value ≤ rank answer.value := by
  have travelled : ∀ found ∈ (state.handled answer.source).take answer.handled,
      found ∈ state.traffic answer.source :=
    fun found member => List.mem_append_left _ (List.mem_of_mem_take member)
  have request : delivery.request = ⟨key, value⟩ := by
    have found := consistent.issued _ delivery (travelled delivery handled) put own
    exact Option.some.inj (found.symm.trans issued)
  have ordered : ((state.handled answer.source).take answer.handled).Pairwise IssuedBefore :=
    (order.ordered answer.source).sublist
      ((List.take_sublist _ _).trans (List.sublist_append_left _ _))
  obtain ⟨last, member, lastKey, held, position⟩ :=
    latest_of_mem ordered handled (show delivery.request.key = key by rw [request])
  have snapshot := (consistent.given get opened answer given).2
  rw [keyed, held] at snapshot
  rcases position with rfl | later
  · rw [snapshot, request]
  · obtain ⟨second, secondOwn, _⟩ := order.known _ last (travelled last member)
    have secondIssued := consistent.issued _ last (travelled last member) second secondOwn
    have form : last.request = ⟨key, last.request.value⟩ := by
      cases same : last.request
      simp_all
    rw [form] at secondIssued
    rw [snapshot]
    exact (increasing.rank_lt issued secondIssued (later put second own secondOwn)).le

/-- Every value a replica answers with was put. -/
theorem answer_issued {state : State N K} (consistent : Consistent state) (order : InIssueOrder state)
    {get : Get N K} (opened : get ∈ state.gets) {answer : Answer N} (given : answer ∈ get.answers)
    {value : Value} (answered : answer.value = some value) :
    ∃ put : Nat, state.puts[put]? = some ⟨get.key, some value⟩ := by
  have snapshot := (consistent.given get opened answer given).2
  obtain ⟨delivery, member, request⟩ := latest_mem (snapshot.symm.trans answered)
  have travelled : delivery ∈ state.traffic answer.source :=
    List.mem_append_left _ (List.mem_of_mem_take member)
  obtain ⟨put, own, _⟩ := order.known _ delivery travelled
  exact ⟨put, by rw [← request]; exact consistent.issued _ delivery travelled put own⟩

theorem quorums_meet {first second : List (Fin N)} (firstDistinct : first.Nodup)
    (secondDistinct : second.Nodup) (overlap : N < first.length + second.length) :
    ∃ replica, replica ∈ first ∧ replica ∈ second := by
  have counted : (Finset.univ : Finset (Fin N)).card < first.toFinset.card + second.toFinset.card := by
    rw [List.toFinset_card_of_nodup firstDistinct, List.toFinset_card_of_nodup secondDistinct,
      Finset.card_univ, Fintype.card_fin]
    exact overlap
  obtain ⟨replica, member⟩ := Finset.inter_nonempty_of_card_lt_card_add_card
    (Finset.subset_univ _) (Finset.subset_univ _) counted
  rw [Finset.mem_inter, List.mem_toFinset, List.mem_toFinset] at member
  exact ⟨replica, member⟩

/-- The replicas whose replies to a put have arrived. -/
def State.acknowledgements (state : State N K) (put : Nat) : List (Fin N) :=
  (state.replied.filter fun reply => reply.1 = put).map Prod.snd

theorem acknowledgements_nodup {state : State N K} (consistent : Consistent state) (put : Nat) :
    (state.acknowledgements put).Nodup := by
  refine List.Nodup.map_on ?_ (consistent.fresh.filter _)
  intro first member second other same
  have firstPut : first.1 = put := by simpa using (List.mem_filter.mp member).2
  have secondPut : second.1 = put := by simpa using (List.mem_filter.mp other).2
  exact Prod.ext (firstPut.trans secondPut.symm) same

theorem acknowledgements_handled {state : State N K} (consistent : Consistent state) {put : Nat}
    {replica : Fin N} (acknowledged : replica ∈ state.acknowledgements put) :
    ∃ delivery ∈ state.handled replica, delivery.put = some put := by
  obtain ⟨reply, member, rfl⟩ := List.mem_map.mp acknowledged
  obtain ⟨replied, same⟩ := List.mem_filter.mp member
  have own : reply.1 = put := by simpa using same
  exact consistent.replied put reply.2 (own ▸ replied)

/-- Read your latest.  Once a put has the replies of a write quorum, every get
opened afterwards that votes over the replies of a read quorum of distinct
replicas returns the value of that put or of one with larger metadata. -/
theorem getBytes_reads_latest {config : QuorumProtocolConfig} {readQuorum : Nat}
    {before after : List (Event N K)} {middle final : State N K} {key : K} {put get : Nat} {value : Value}
    {opened : Get N K} {replies : List (Answer N)}
    (readers : config.readQuorumFor N = readQuorum)
    (overlap : N < config.readQuorumFor N + config.writeQuorumFor N)
    (written : run (step readQuorum) .initial before = some middle)
    (read : run (step readQuorum) middle after = some final)
    (inOrder : ∀ event ∈ before ++ after, event.InOrder)
    (noRepair : ∀ event ∈ before ++ after, event.NoRepair)
    (increasing : Increasing key final.puts)
    (issued : middle.puts[put]? = some ⟨key, some value⟩)
    (acknowledged : config.writeQuorumFor N ≤ (middle.acknowledgements put).length)
    (later : middle.gets.length ≤ get) (found : final.gets[get]? = some opened)
    (keyed : opened.key = key) (given : ∀ reply ∈ replies, reply ∈ opened.answers)
    (distinct : (replies.map Answer.source).Nodup)
    (enough : replies.length = readQuorum) :
    ∃ newest newer, final.puts[newest]? = some ⟨key, some newer⟩ ∧
      (newest = put ∨ version value < version newer) ∧
      getBytes readQuorum key replies = .ok (some (extractRecordFromValue newer)) := by
  have whole : run (step readQuorum) .initial (before ++ after) = some final :=
    run_append.mpr ⟨middle, written, read⟩
  have consistent := run_consistent whole
  have order : InIssueOrder final := run_invariant
    (fun allowed order taken => step_inIssueOrder allowed order taken) whole
    (fun event member => ⟨inOrder event member, noRepair event member⟩) initial_inIssueOrder
  have since := run_since read
  have member := List.mem_of_getElem? found
  have finalIssued : final.puts[put]? = some ⟨key, some value⟩ := by
    obtain ⟨more, extended⟩ := since.issued
    rw [← extended]
    exact getElem?_append_of_some issued
  -- some reply comes from a replica that had handled the put
  obtain ⟨replica, wrote, answered⟩ := quorums_meet (acknowledgements_nodup (run_consistent written) put)
    distinct (by rw [List.length_map]; omega)
  obtain ⟨reply, chosen, rfl⟩ := List.mem_map.mp answered
  obtain ⟨delivery, handled, own⟩ := acknowledgements_handled (run_consistent written) wrote
  have seen : delivery ∈ (final.handled reply.source).take reply.handled := by
    obtain ⟨more, extended⟩ := since.grown reply.source
    have bound := since.answered get later opened found reply (given reply chosen)
    rw [← extended, List.take_append, List.take_of_length_le bound]
    exact List.mem_append_left _ handled
  have fresh := answer_at_least consistent order increasing member keyed (given reply chosen) seen own
    finalIssued
  -- the vote returns at least that
  obtain ⟨newest, returned, maximal, attained⟩ :=
    GetHandler.finishGetHandler_newest key N (replies.map Answer.reply) []
  rw [List.append_nil, List.length_map, enough] at returned
  have above := fresh.trans (maximal reply.reply (List.mem_map_of_mem chosen))
  cases newest with
  | none => simp [rank] at above
  | some newer =>
      obtain ⟨winner, counted, same⟩ := attained.resolve_left (by simp)
      obtain ⟨source, sourceMember, rfl⟩ := List.mem_map.mp counted
      obtain ⟨index, indexed⟩ := answer_issued consistent order member (given source sourceMember) same
      rw [keyed] at indexed
      refine ⟨index, newer, indexed, ?_, returned⟩
      rcases Nat.lt_trichotomy index put with older | equal | younger
      · have below := increasing.rank_lt indexed finalIssued older
        omega
      · exact .inl equal
      · have strictly := increasing.rank_lt finalIssued indexed younger
        simp only [rank] at strictly
        exact .inr (by omega)

/-- Three replicas, one of which misses the write and still answers the get. -/
theorem getBytes_reads_latest_of_three :
    ∃ middle final : State 3 Nat,
      run (step 2) .initial [.putBytes 7 1 5 (some [42]), .handlePut 0 0, .handlePut 1 0, .lose 2 0,
        .putReply 0 0, .putReply 0 1] = some middle ∧
      run (step 2) middle [.getBytes 7, .handleGet 0 2, .handleGet 0 1] = some final ∧
      ∃ newest newer, final.puts[newest]? = some ⟨7, some newer⟩ ∧
        (newest = 0 ∨ version (createMetadata 1 5 [42]) < version newer) ∧
        getBytes 2 7 ([⟨2, none, 0⟩, ⟨1, some (createMetadata 1 5 [42]), 1⟩] : List (Answer 3)) =
          .ok (some (extractRecordFromValue newer)) := by
  have readers : QuorumProtocolConfig.readQuorumFor ⟨3 / 5, 3 / 5⟩ 3 = 2 := by
    norm_num [QuorumProtocolConfig.readQuorumFor, quorumOf, Nat.ceil_eq_iff]
  have writers : QuorumProtocolConfig.writeQuorumFor ⟨3 / 5, 3 / 5⟩ 3 = 2 := by
    norm_num [QuorumProtocolConfig.writeQuorumFor, quorumOf, Nat.ceil_eq_iff]
  refine ⟨_, _, rfl, rfl, ?_⟩
  refine @getBytes_reads_latest 3 Nat _ ⟨3 / 5, 3 / 5⟩ 2
    [.putBytes 7 1 5 (some [42]), .handlePut 0 0, .handlePut 1 0, .lose 2 0, .putReply 0 0, .putReply 0 1]
    [.getBytes 7, .handleGet 0 2, .handleGet 0 1] _ _ 7 0 0 _ _ _ readers
    (by rw [readers, writers]; decide) rfl rfl
    (by simp [Event.InOrder]) (by simp [Event.NoRepair]) (List.pairwise_singleton _ _) rfl
    (by rw [writers]; exact le_refl 2) (le_refl 0) rfl rfl (fun _ member => member)
    (by decide) rfl

end Scads.Protocol
