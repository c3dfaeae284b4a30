import Scads.Protocol.ReadLatest

namespace Scads.Protocol

open Scads.Data Scads.Comm Scads.Server Scads.Client

/-! # A client that reads its own writes

One client puts and gets one key.  The versions of its puts are its clock readings,
and a get sends its repairs some time after it has returned.
-/

variable {N : Nat} {K : Type} [LinearOrder K]

/-- The replicas and what one client has done: the clock reading and the value of
each put, and for each get how many puts came before it. -/
structure Session (N : Nat) (K : Type) [LinearOrder K] where
  state : State N K
  writes : List (Int64 × Bytes)
  opened : List Nat

namespace Session

def initial : Session N K := ⟨.initial, [], []⟩

/-- Every put has the replies of a write quorum, so that the client has gone on. -/
def Acknowledged (writeQuorum : Nat) (session : Session N K) : Prop :=
  ∀ put < session.state.puts.length, writeQuorum ≤ (session.state.acknowledgements put).length

instance (writeQuorum : Nat) (session : Session N K) : Decidable (session.Acknowledged writeQuorum) :=
  inferInstanceAs (Decidable (∀ put < session.state.puts.length, _))

/-- What the client keeps of an event. -/
def noted (session : Session N K) (state : State N K) : Event N K → Session N K
  | .putBytes _ currentTimeMillis _ value =>
      ⟨state, session.writes ++ (value.map fun written => (currentTimeMillis, written)).toList, session.opened⟩
  | .getBytes _ => ⟨state, session.writes, session.opened ++ [session.state.puts.length]⟩
  | _ => ⟨state, session.writes, session.opened⟩

/-- One step.  A call waits for the acknowledgements of the put before it. -/
def step (readQuorum writeQuorum : Nat) (session : Session N K) (event : Event N K) : Option (Session N K) :=
  let next := (Protocol.step readQuorum session.state event).map fun state => session.noted state event
  match event with
  | .putBytes .. => if session.Acknowledged writeQuorum then next else none
  | .getBytes _ => if session.Acknowledged writeQuorum then next else none
  | _ => next

/-- The calls are those of this client on this key, and no put is a delete. -/
def OwnCall (client : Int64) (key : K) : Event N K → Prop
  | .putBytes other _ clientID value => other = key ∧ clientID = client ∧ value.isSome
  | .getBytes other => other = key
  | _ => True

/-- A put reads a later time than every put before it, with the readings taken as
unsigned, and the repairs of a get are sent before the next put. -/
def Timely (session : Session N K) : Event N K → Prop
  | .putBytes _ currentTimeMillis _ _ => ∀ write ∈ session.writes, write.1.toUInt64 < currentTimeMillis.toUInt64
  | .finish get _ => session.opened[get]? = some session.state.puts.length
  | _ => True

instance (session : Session N K) (event : Event N K) : Decidable (session.Timely event) :=
  match event with
  | .putBytes .. => inferInstanceAs (Decidable (∀ write ∈ session.writes, _))
  | .finish .. => inferInstanceAs (Decidable (_ = _))
  | .handlePut .. | .lose .. | .putReply .. | .getBytes _ | .handleGet .. => .isTrue trivial

/-- The request of a write. -/
def request (client : Int64) (key : K) (write : Int64 × Bytes) : PutRequest K Value :=
  ⟨key, some (createMetadata write.1 client write.2)⟩

/-- Enough replicas had handled a put when they answered the get, or have not answered it. -/
def Quorate (writeQuorum : Nat) (state : State N K) (get : Get N K) (put : Nat) : Prop :=
  ∃ acknowledged : List (Fin N), acknowledged.Nodup ∧ writeQuorum ≤ acknowledged.length ∧
    (∀ replica ∈ acknowledged, ∃ delivery ∈ state.handled replica, delivery.put = some put) ∧
    ∀ answer ∈ get.answers, answer.source ∈ acknowledged →
      ∃ delivery ∈ (state.handled answer.source).take answer.handled, delivery.put = some put

/-- What holds as long as every step is timely. -/
structure Own (writeQuorum : Nat) (client : Int64) (key : K) (session : Session N K) : Prop where
  consistent : Consistent session.state
  puts : session.state.puts = session.writes.map (request client key)
  increasing : session.writes.Pairwise fun earlier later => earlier.1.toUInt64 < later.1.toUInt64
  sorted : ∀ replica, (session.state.traffic replica).Pairwise fun earlier later =>
    rank earlier.request.value ≤ rank later.request.value
  known : ∀ replica, ∀ delivery ∈ session.state.traffic replica, delivery.request ∈ session.state.puts
  keyed : ∀ get ∈ session.state.gets, get.key = key
  counted : session.opened.length = session.state.gets.length
  quorate : ∀ (place : Nat) (get : Get N K) (count : Nat), session.state.gets[place]? = some get →
    session.opened[place]? = some count → ∀ put < count, Quorate writeQuorum session.state get put

theorem initial_own (writeQuorum : Nat) (client : Int64) (key : K) :
    Own writeQuorum client key (initial : Session N K) := by
  refine ⟨initial_consistent, rfl, .nil, ?_, ?_, ?_, rfl, ?_⟩ <;> simp [initial, State.initial, State.traffic]

section

variable {writeQuorum readQuorum : Nat} {client : Int64} {key : K} {session next : Session N K}

omit [LinearOrder K] in
theorem rank_request_lt {earlier later : Int64 × Bytes} (before : earlier.1.toUInt64 < later.1.toUInt64) :
    rank (request client key earlier).value < rank (request client key later).value := by
  have less := UInt64.lt_iff_toNat_lt.mp before
  change version (createMetadata earlier.1 client earlier.2) + 1 <
    version (createMetadata later.1 client later.2) + 1
  rw [version_createMetadata, version_createMetadata]
  omega

/-- The last put has the newest version, and no other put has it. -/
theorem Own.le_last (own : Own writeQuorum client key session) {write : Int64 × Bytes}
    (last : session.writes.getLast? = some write) {put : PutRequest K Value}
    (issued : put ∈ session.state.puts) :
    rank put.value < rank (request client key write).value ∨ put = request client key write := by
  obtain ⟨front, split⟩ := List.getLast?_eq_some_iff.mp last
  have increasing := own.increasing
  rw [split] at increasing
  rw [own.puts, split] at issued
  obtain ⟨other, member, rfl⟩ := List.mem_map.mp issued
  rcases List.mem_append.mp member with early | same
  · exact .inl (rank_request_lt ((List.pairwise_append.mp increasing).2.2 other early write (by simp)))
  · rw [List.mem_singleton.mp same]
    exact .inr rfl

/-- What a replica answers is what one of the puts has written. -/
theorem Own.answer_known (own : Own writeQuorum client key session) {get : Get N K}
    (opened : get ∈ session.state.gets) {answer : Answer N} (given : answer ∈ get.answers) {value : Value}
    (answered : answer.value = some value) : (⟨key, some value⟩ : PutRequest K Value) ∈ session.state.puts := by
  have snapshot := (own.consistent.given get opened answer given).2
  obtain ⟨delivery, member, same⟩ := latest_mem (snapshot.symm.trans answered)
  rw [own.keyed get opened] at same
  rw [← same]
  exact own.known _ delivery (List.mem_append_left _ (List.mem_of_mem_take member))

/-- A replica that had handled a put answers with it or with something newer. -/
theorem Own.answer_at_least (own : Own writeQuorum client key session) {get : Get N K}
    (opened : get ∈ session.state.gets) {answer : Answer N} (given : answer ∈ get.answers)
    {delivery : Delivery K} {put : Nat} {write : Int64 × Bytes}
    (handled : delivery ∈ (session.state.handled answer.source).take answer.handled)
    (sent : delivery.put = some put) (issued : session.writes[put]? = some write) :
    rank (request client key write).value ≤ rank answer.value := by
  have travelled := List.mem_append_left (session.state.inFlight answer.source) (List.mem_of_mem_take handled)
  have same : delivery.request = request client key write := by
    have found := own.consistent.issued _ delivery travelled put sent
    rw [own.puts, List.getElem?_map, issued] at found
    exact (Option.some.inj found).symm
  have sorted := (own.sorted answer.source).sublist
    ((List.take_sublist answer.handled _).trans (List.sublist_append_left _ _))
  obtain ⟨last, _, _, held, position⟩ :=
    latest_of_mem sorted handled (show delivery.request.key = key by rw [same]; rfl)
  have snapshot := (own.consistent.given get opened answer given).2
  rw [own.keyed get opened, held] at snapshot
  rw [snapshot, ← same]
  rcases position with rfl | later
  · exact le_refl _
  · exact later

/-- The newest of enough replies to a get that no put has overtaken is the last write. -/
theorem Own.newest_eq (own : Own writeQuorum client key session) (overlap : N < readQuorum + writeQuorum)
    {place : Nat} {get : Get N K} (found : session.state.gets[place]? = some get)
    (current : session.opened[place]? = some session.state.puts.length) {replies : List (Answer N)}
    (given : ∀ reply ∈ replies, reply ∈ get.answers) (distinct : (replies.map Answer.source).Nodup)
    (enough : readQuorum ≤ replies.length) {newest : Option Value}
    (maximal : ∀ reply ∈ replies, rank reply.value ≤ rank newest)
    (attained : newest = none ∨ ∃ reply ∈ replies, reply.value = newest) :
    newest = session.writes.getLast?.map fun write => createMetadata write.1 client write.2 := by
  have opened := List.mem_of_getElem? found
  have issued : ∀ value, newest = some value → (⟨key, some value⟩ : PutRequest K Value) ∈ session.state.puts := by
    intro value same
    obtain ⟨reply, member, answered⟩ := attained.resolve_left (by simp [same])
    exact own.answer_known opened (given reply member) (answered.trans same)
  cases last : session.writes.getLast? with
  | none =>
      cases newest with
      | none => rfl
      | some value =>
          have put := issued value rfl
          rw [own.puts, List.getLast?_eq_none_iff.mp last] at put
          cases put
  | some write =>
      obtain ⟨front, split⟩ := List.getLast?_eq_some_iff.mp last
      have size : session.state.puts.length = front.length + 1 := by simp [own.puts, split]
      obtain ⟨acknowledged, separate, quorum, _, answered⟩ :=
        own.quorate place get _ found current front.length (by omega)
      obtain ⟨replica, wrote, replied⟩ := quorums_meet separate distinct (by rw [List.length_map]; omega)
      obtain ⟨reply, member, rfl⟩ := List.mem_map.mp replied
      obtain ⟨delivery, handled, sent⟩ := answered reply (given reply member) wrote
      have fresh := own.answer_at_least opened (given reply member) handled sent
        (show session.writes[front.length]? = some write by simp [split])
      have above := fresh.trans (maximal reply member)
      cases newest with
      | none => simp [request, rank] at above
      | some value =>
          rcases own.le_last last (issued value rfl) with older | same
          · exact absurd above (Nat.not_le_of_lt older)
          · exact (PutRequest.mk.inj same).2

/-- A step of the session is one of the replicas, and a call has waited. -/
theorem step_ok {event : Event N K} (taken : session.step readQuorum writeQuorum event = some next) :
    ∃ state, Protocol.step readQuorum session.state event = some state ∧ next = session.noted state event ∧
      (∀ called, event = .getBytes called → session.Acknowledged writeQuorum) := by
  have unguarded : ∀ {result}, (Protocol.step readQuorum session.state event).map
      (fun state => session.noted state event) = some result →
      ∃ state, Protocol.step readQuorum session.state event = some state ∧
        result = session.noted state event := by
    intro result mapped
    obtain ⟨state, ran, rfl⟩ := Option.map_eq_some_iff.mp mapped
    exact ⟨state, ran, rfl⟩
  cases event with
  | getBytes called =>
      simp only [step] at taken
      split at taken
      · rename_i acknowledged
        obtain ⟨state, ran, same⟩ := unguarded taken
        exact ⟨state, ran, same, fun _ _ => acknowledged⟩
      · cases taken
  | putBytes =>
      simp only [step] at taken
      split at taken
      · obtain ⟨state, ran, same⟩ := unguarded taken
        exact ⟨state, ran, same, fun _ other => by cases other⟩
      · cases taken
  | handlePut | lose | putReply | handleGet | finish =>
      obtain ⟨state, ran, same⟩ := unguarded taken
      exact ⟨state, ran, same, fun _ other => by cases other⟩

/-- Answers that were given stay what they were when more requests are handled. -/
theorem Quorate.mono {state after : State N K} {get : Get N K} {put : Nat} (quorate : Quorate writeQuorum state get put)
    (grown : ∀ replica, state.handled replica <+: after.handled replica)
    (bounded : ∀ answer ∈ get.answers, answer.handled ≤ (state.handled answer.source).length) :
    Quorate writeQuorum after get put := by
  obtain ⟨acknowledged, separate, quorum, handled, answered⟩ := quorate
  refine ⟨acknowledged, separate, quorum, fun replica member => ?_, fun answer given member => ?_⟩
  · obtain ⟨delivery, held, sent⟩ := handled replica member
    exact ⟨delivery, (grown replica).subset held, sent⟩
  · obtain ⟨delivery, held, sent⟩ := answered answer given member
    obtain ⟨more, extended⟩ := grown answer.source
    refine ⟨delivery, ?_, sent⟩
    rw [← extended, List.take_append_of_le_length (bounded answer given)]
    exact held

theorem Quorate.answered {state : State N K} {get : Get N K} {put : Nat} (replica : Fin N)
    (quorate : Quorate writeQuorum state get put) :
    Quorate writeQuorum state { get with answers := get.answers ++
      [⟨replica, (state.store replica).get get.key, (state.handled replica).length⟩] } put := by
  obtain ⟨acknowledged, separate, quorum, handled, answered⟩ := quorate
  refine ⟨acknowledged, separate, quorum, handled, fun answer given member => ?_⟩
  rcases List.mem_append.mp given with early | new
  · exact answered answer early member
  · rw [List.mem_singleton.mp new] at member ⊢
    rw [List.take_length]
    exact handled replica member

/-- Steps that leave the puts, the gets and what is on its way alone. -/
theorem Own.unchanged {state : State N K} (own : Own writeQuorum client key session)
    (consistent : Consistent state) (puts : state.puts = session.state.puts) (gets : state.gets = session.state.gets)
    (grown : ∀ replica, session.state.handled replica <+: state.handled replica)
    (traffic : ∀ replica, (state.traffic replica).Sublist (session.state.traffic replica)) :
    Own writeQuorum client key ⟨state, session.writes, session.opened⟩ := by
  refine ⟨consistent, puts.trans own.puts, own.increasing, ?_, ?_, ?_, ?_, ?_⟩
  · exact fun replica => (own.sorted replica).sublist (traffic replica)
  · intro replica delivery member
    rw [puts]
    exact own.known replica delivery ((traffic replica).subset member)
  · rw [gets]
    exact own.keyed
  · rw [gets]
    exact own.counted
  · intro place get count found counted put below
    rw [gets] at found
    refine (own.quorate place get count found counted put below).mono grown fun answer given => ?_
    exact (own.consistent.given get (List.mem_of_getElem? found) answer given).1

theorem send_own (own : Own writeQuorum client key session) {time : Int64} {written : Bytes}
    (later : ∀ write ∈ session.writes, write.1.toUInt64 < time.toUInt64) :
    Own writeQuorum client key ⟨session.state.send (request client key (time, written)),
      session.writes ++ [(time, written)], session.opened⟩ := by
  refine ⟨send_consistent own.consistent _, ?_, ?_, ?_, ?_, own.keyed, own.counted, own.quorate⟩
  · simp [State.send, own.puts]
  · exact List.pairwise_append.mpr ⟨own.increasing, List.pairwise_singleton .., by simpa using later⟩
  · intro replica
    rw [State.traffic_send]
    refine List.pairwise_append.mpr ⟨own.sorted replica, List.pairwise_singleton .., ?_⟩
    intro earlier member new same
    rw [List.mem_singleton.mp same]
    have issued := own.known replica earlier member
    rw [own.puts] at issued
    obtain ⟨write, known, equal⟩ := List.mem_map.mp issued
    rw [← equal]
    exact (rank_request_lt (later write known)).le
  · intro replica delivery member
    rw [State.traffic_send] at member
    rcases List.mem_append.mp member with early | new
    · exact List.mem_append_left _ (own.known replica delivery early)
    · rw [List.mem_singleton.mp new]
      exact List.mem_append_right _ (List.mem_singleton_self _)

theorem answer_own (own : Own writeQuorum client key session) {place : Nat} {opened : Get N K}
    (replica : Fin N) (found : session.state.gets[place]? = some opened) :
    Own writeQuorum client key ⟨session.state.answer place opened replica, session.writes, session.opened⟩ := by
  have known := List.mem_of_getElem? found
  refine ⟨answer_consistent own.consistent replica found, own.puts, own.increasing, own.sorted, own.known,
    ?_, ?_, ?_⟩
  · intro get member
    rcases List.mem_or_eq_of_mem_set member with old | rfl
    · exact own.keyed get old
    · exact own.keyed opened known
  · simpa [State.answer] using own.counted
  · intro other get count located counted put below
    simp only [State.answer, List.getElem?_set] at located
    by_cases same : place = other
    · subst same
      have bound := (List.getElem?_eq_some_iff.mp found).1
      simp only [if_pos bound, if_true] at located
      cases located
      exact (own.quorate place opened count found counted put below).answered replica
    · rw [if_neg same] at located
      exact own.quorate other get count located counted put below

theorem getBytes_own (own : Own writeQuorum client key session)
    (acknowledged : session.Acknowledged writeQuorum) :
    Own writeQuorum client key ⟨{ session.state with gets := session.state.gets ++ [⟨key, []⟩] },
      session.writes, session.opened ++ [session.state.puts.length]⟩ := by
  have consistent : Consistent { session.state with gets := session.state.gets ++ [⟨key, []⟩] } :=
    @step_consistent _ _ _ 0 session.state _ (.getBytes key) own.consistent rfl
  refine ⟨consistent, own.puts, own.increasing, own.sorted, own.known, ?_, ?_, ?_⟩
  · intro get member
    rcases List.mem_append.mp member with old | new
    · exact own.keyed get old
    · rw [List.mem_singleton.mp new]
  · simp [own.counted]
  · intro place get count found counted put below
    by_cases old : place < session.state.gets.length
    · rw [List.getElem?_append_left old] at found
      rw [List.getElem?_append_left (own.counted ▸ old)] at counted
      exact own.quorate place get count found counted put below
    · rw [List.getElem?_append_right (by omega)] at found
      rw [List.getElem?_append_right (by rw [own.counted]; omega)] at counted
      obtain ⟨_, rfl⟩ := List.getElem?_eq_some_iff.mp found
      obtain ⟨_, rfl⟩ := List.getElem?_eq_some_iff.mp counted
      simp only [List.getElem_singleton] at below
      refine ⟨session.state.acknowledgements put, acknowledgements_nodup own.consistent put,
        acknowledged put below, fun replica member => ?_, ?_⟩
      · exact acknowledgements_handled own.consistent member
      · intro answer given
        simp at given

/-- Prompt repairs only repeat the last put. -/
theorem repair_own (own : Own writeQuorum client key session) (overlap : N < readQuorum + writeQuorum)
    {place : Nat} {opened : Get N K} {replies : List (Answer N)} {sent : List (Fin N × PutRequest K Value)}
    (found : session.state.gets[place]? = some opened)
    (current : session.opened[place]? = some session.state.puts.length)
    (given : ∀ reply ∈ replies, reply ∈ opened.answers) (distinct : (replies.map Answer.source).Nodup)
    (enough : readQuorum ≤ replies.length) (repaired : repairs readQuorum opened.key replies = .ok sent) :
    Own writeQuorum client key ⟨session.state.repair sent, session.writes, session.opened⟩ := by
  obtain ⟨final, tallied, rfl⟩ := repairs_tallied distinct enough repaired
  have newest := own.newest_eq overlap found current given distinct enough
    (fun reply member => tallied.maximal reply.reply (List.mem_map_of_mem member))
    (tallied.attained.imp_right fun ⟨answer, member, same⟩ => by
      obtain ⟨reply, chosen, rfl⟩ := List.mem_map.mp member
      exact ⟨reply, chosen, same⟩)
  rw [own.keyed opened (List.mem_of_getElem? found)]
  have repeated : ∀ server ∈ final.losers, ∃ write, session.writes.getLast? = some write ∧
      (⟨key, final.winnerValue⟩ : PutRequest K Value) = request client key write := by
    intro server lost
    cases last : session.writes.getLast? with
    | some write => exact ⟨write, rfl, by rw [newest, last]; rfl⟩
    | none =>
        obtain ⟨answer, member, _⟩ := List.mem_map.mp (tallied.losers.mem_iff.mp lost)
        obtain ⟨counted, different⟩ := List.mem_filter.mp member
        have bound := tallied.maximal answer counted
        have differs : rank answer.2 ≠ rank final.winnerValue := by simpa using different
        rw [newest, last] at bound differs
        exact absurd (Nat.le_zero.mp bound) differs
  refine ⟨repair_consistent own.consistent _, own.puts, own.increasing, ?_, ?_, own.keyed, own.counted,
    own.quorate⟩
  · intro replica
    rw [State.traffic_repair]
    refine List.pairwise_append.mpr ⟨own.sorted replica, ?_, ?_⟩
    · refine List.pairwise_map.mpr (List.pairwise_of_forall_mem_list ?_)
      intro first member second other
      obtain ⟨_, _, rfl⟩ := List.mem_map.mp (List.mem_filter.mp member).1
      obtain ⟨_, _, rfl⟩ := List.mem_map.mp (List.mem_filter.mp other).1
      exact le_refl _
    · intro earlier member later new
      obtain ⟨repair, chosen, rfl⟩ := List.mem_map.mp new
      obtain ⟨server, lost, rfl⟩ := List.mem_map.mp (List.mem_filter.mp chosen).1
      obtain ⟨write, last, same⟩ := repeated server lost
      rw [same]
      rcases own.le_last last (own.known replica earlier member) with older | equal
      · exact older.le
      · rw [equal]
  · intro replica delivery member
    rw [State.traffic_repair] at member
    rcases List.mem_append.mp member with early | new
    · exact own.known replica delivery early
    · obtain ⟨repair, chosen, rfl⟩ := List.mem_map.mp new
      obtain ⟨server, lost, rfl⟩ := List.mem_map.mp (List.mem_filter.mp chosen).1
      obtain ⟨write, last, same⟩ := repeated server lost
      change (⟨key, final.winnerValue⟩ : PutRequest K Value) ∈ session.state.puts
      rw [same, own.puts]
      exact List.mem_map_of_mem (List.mem_of_getLast? last)

theorem step_own {event : Event N K} (overlap : N < readQuorum + writeQuorum)
    (own : Own writeQuorum client key session) (inOrder : event.InOrder) (called : OwnCall client key event)
    (timely : session.Timely event) (taken : session.step readQuorum writeQuorum event = some next) :
    Own writeQuorum client key next := by
  obtain ⟨state, ran, rfl, waited⟩ := step_ok taken
  have consistent := step_consistent own.consistent ran
  cases step_cases ran with
  | putBytes other time clientID value =>
      obtain ⟨rfl, rfl, written⟩ := called
      obtain ⟨written, rfl⟩ := Option.isSome_iff_exists.mp written
      exact send_own own timely
  | @handlePut replica place delivery sent =>
      have first : place = 0 := inOrder
      subst first
      refine own.unchanged consistent rfl rfl (fun other => ?_) fun other => ?_
      · by_cases same : other = replica
        · subst same
          simp [State.handle]
        · simp [State.handle, same]
      · rw [State.traffic_handle_first sent]
  | lose replica place =>
      exact own.unchanged consistent rfl rfl (fun _ => List.prefix_refl _)
        (State.traffic_lose session.state replica place)
  | putReply =>
      exact own.unchanged consistent rfl rfl (fun _ => List.prefix_refl _) fun _ => List.Sublist.refl _
  | getBytes other =>
      cases show other = key from called
      exact getBytes_own own (waited _ rfl)
  | handleGet replica found => exact answer_own own replica found
  | finish found given distinct enough repaired =>
      exact repair_own own overlap found timely given distinct enough repaired

end

/-- Whatever its clock reads, as long as the readings of its puts increase as
unsigned numbers and repairs are sent before the next put, a client reads its last
write: a get opened after it that no put has overtaken returns it, for every vote
over the replies of a read quorum. -/
theorem getBytes_reads_own_writes {readQuorum writeQuorum : Nat} (overlap : N < readQuorum + writeQuorum)
    {client : Int64} {key : K} {events : List (Event N K)} {session : Session N K}
    (ran : run (step readQuorum writeQuorum) initial events = some session)
    (inOrder : ∀ event ∈ events, event.InOrder) (called : ∀ event ∈ events, OwnCall client key event)
    (timely : Along (step readQuorum writeQuorum) (fun before event _ => before.Timely event) initial events)
    {place : Nat} {get : Get N K} {replies : List (Answer N)}
    (found : session.state.gets[place]? = some get)
    (current : session.opened[place]? = some session.state.puts.length)
    (given : ∀ reply ∈ replies, reply ∈ get.answers) (distinct : (replies.map Answer.source).Nodup)
    (enough : replies.length = readQuorum) :
    getBytes readQuorum key replies = .ok (session.writes.getLast?.map Prod.snd) := by
  have own : Own writeQuorum client key session := by
    refine @along_invariant _ _ _ _ (Own writeQuorum client key) _ _ _ ?_
      (initial_own writeQuorum client key) ((timely.with_forall inOrder).with_forall called) ran
    intro before event after held taken allowed
    exact step_own overlap held allowed.2.1 allowed.1 allowed.2.2 taken
  obtain ⟨newest, returned, maximal, attained⟩ :=
    GetHandler.finishGetHandler_newest key N (replies.map Answer.reply) []
  rw [List.append_nil, List.length_map, enough] at returned
  have last := own.newest_eq overlap found current given distinct enough.ge
    (fun reply member => maximal reply.reply (List.mem_map_of_mem member))
    (attained.imp_right fun ⟨answer, member, same⟩ => by
      obtain ⟨reply, chosen, rfl⟩ := List.mem_map.mp member
      exact ⟨reply, chosen, same⟩)
  rw [getBytes, returned, last, Option.map_map]
  congr 2

/-- Two puts by client 5 with these clock readings and a get on three replicas, the
last of which misses the second put. -/
def twoPuts (first second : Int64) : List (Event 3 Nat) :=
  [.putBytes 7 first 5 (some [10]), .handlePut 0 0, .handlePut 1 0, .handlePut 2 0, .putReply 0 0, .putReply 0 1,
    .putBytes 7 second 5 (some [20]), .handlePut 0 0, .handlePut 1 0, .lose 2 0, .putReply 1 0, .putReply 1 1,
    .getBytes 7, .handleGet 0 2, .handleGet 0 1]

/-- The replies of the last two replicas. -/
def twoReplies (first second : Int64) : List (Answer 3) :=
  [⟨2, some (createMetadata first 5 [10]), 1⟩, ⟨1, some (createMetadata second 5 [20]), 2⟩]

theorem getBytes_reads_second_put : ∃ session, run (step 2 2) initial (twoPuts 1 2) = some session ∧
    getBytes 2 7 (twoReplies 1 2) = .ok (some [20]) := by
  refine ⟨_, rfl, ?_⟩
  refine @getBytes_reads_own_writes 3 Nat _ 2 2 (by decide) 5 7 (twoPuts 1 2) _ rfl ?_ ?_ ?_ 0 _
    (twoReplies 1 2) rfl rfl ?_ ?_ rfl
  · simp [twoPuts, Event.InOrder]
  · simp [twoPuts, OwnCall]
  · decide
  · decide
  · decide

/-- Both puts fall into one millisecond: their versions are equal, and the vote keeps
the older value, which it has seen first. -/
theorem equal_readings_lose_write : ∃ session, run (step 2 2) initial (twoPuts 1 1) = some session ∧
    (∀ event ∈ twoPuts 1 1, event.InOrder ∧ OwnCall 5 7 event) ∧
    (session.writes.map Prod.fst).Pairwise (· ≤ ·) ∧
    ∃ get, session.state.gets[0]? = some get ∧ session.opened[0]? = some session.state.puts.length ∧
      (∀ reply ∈ twoReplies 1 1, reply ∈ get.answers) ∧ ((twoReplies 1 1).map Answer.source).Nodup ∧
      (twoReplies 1 1).length = 2 ∧ session.writes.getLast?.map Prod.snd = some [20] ∧
      getBytes 2 7 (twoReplies 1 1) = .ok (some [10]) := by
  refine ⟨_, rfl, ?_, by decide, _, rfl, rfl, by decide, by decide, rfl, rfl, by decide⟩
  simp [twoPuts, Event.InOrder, OwnCall]

end Session

end Scads.Protocol
