import Mathlib.Data.Fintype.Card
import Scads.Protocol.Replication

namespace Scads.Protocol

open Scads.Data Scads.Comm Scads.Server Scads.Client

/-! # What a replica holds

A replica holds the value of the request it handled last, and an answer is a
snapshot of that.  These facts hold in every run, whatever is lost, reordered or
repaired.
-/

variable {N : Nat} {K : Type} [LinearOrder K]

/-- The value of the last request for a key. -/
def latest (key : K) (deliveries : List (Delivery K)) : Option Value :=
  deliveries.foldl (fun current delivery =>
    if delivery.request.key = key then delivery.request.value else current) none

theorem latest_snoc (key : K) (deliveries : List (Delivery K)) (delivery : Delivery K) :
    latest key (deliveries ++ [delivery]) =
      if delivery.request.key = key then delivery.request.value else latest key deliveries := by
  simp [latest, List.foldl_append]

theorem latest_mem {key : K} {deliveries : List (Delivery K)} {value : Value}
    (held : latest key deliveries = some value) :
    ∃ delivery ∈ deliveries, delivery.request = ⟨key, some value⟩ := by
  induction deliveries using List.reverseRecOn with
  | nil => cases held
  | append_singleton deliveries last ih =>
      rw [latest_snoc] at held
      split at held
      · rename_i same
        refine ⟨last, by simp, ?_⟩
        cases last with
        | mk request put => cases request; simp_all
      · obtain ⟨delivery, member, found⟩ := ih held
        exact ⟨delivery, by simp [member], found⟩

/-- The value held after a request for the key was handled is that of this
request or of one handled later. -/
theorem latest_of_mem {key : K} {deliveries : List (Delivery K)} {delivery : Delivery K}
    {before : Delivery K → Delivery K → Prop} (ordered : deliveries.Pairwise before)
    (member : delivery ∈ deliveries) (keyed : delivery.request.key = key) :
    ∃ last ∈ deliveries, last.request.key = key ∧ latest key deliveries = last.request.value ∧
      (last = delivery ∨ before delivery last) := by
  induction deliveries using List.reverseRecOn with
  | nil => cases member
  | append_singleton deliveries last ih =>
      obtain ⟨ordered, _, across⟩ := List.pairwise_append.mp ordered
      by_cases same : last.request.key = key
      · refine ⟨last, by simp, same, by rw [latest_snoc, if_pos same], ?_⟩
        rcases List.mem_append.mp member with earlier | final
        · exact .inr (across delivery earlier last (by simp))
        · exact .inl (List.mem_singleton.mp final).symm
      · have earlier : delivery ∈ deliveries := by
          rcases List.mem_append.mp member with earlier | final
          · exact earlier
          · exact absurd keyed (by rwa [List.mem_singleton.mp final])
        obtain ⟨found, foundMember, foundKey, held, position⟩ := ih ordered earlier
        exact ⟨found, by simp [foundMember], foundKey, by rw [latest_snoc, if_neg same, held], position⟩

/-- The facts that need no assumption on the run. -/
structure Consistent (state : State N K) : Prop where
  held : ∀ replica key, (state.store replica).get key = latest key (state.handled replica)
  issued : ∀ replica, ∀ delivery ∈ state.traffic replica, ∀ put,
    delivery.put = some put → state.puts[put]? = some delivery.request
  replied : ∀ put replica, (put, replica) ∈ state.replied →
    ∃ delivery ∈ state.handled replica, delivery.put = some put
  fresh : state.replied.Nodup
  given : ∀ get ∈ state.gets, ∀ answer ∈ get.answers,
    answer.handled ≤ (state.handled answer.source).length ∧
      answer.value = latest get.key ((state.handled answer.source).take answer.handled)

theorem initial_consistent : Consistent (State.initial : State N K) := by
  refine ⟨?_, ?_, ?_, ?_, ?_⟩ <;> simp [State.initial, State.traffic, latest]

theorem getElem?_append_of_some {values more : List α} {index : Nat} {value : α}
    (found : values[index]? = some value) : (values ++ more)[index]? = some value := by
  rw [List.getElem?_append_left (List.getElem?_eq_some_iff.mp found).1]
  exact found

theorem send_consistent {state : State N K} (consistent : Consistent state)
    (request : PutRequest K Value) : Consistent (state.send request) := by
  refine ⟨consistent.held, ?_, consistent.replied, consistent.fresh, consistent.given⟩
  intro replica delivery member put own
  rw [State.traffic_send] at member
  rcases List.mem_append.mp member with earlier | sent
  · exact getElem?_append_of_some (consistent.issued replica delivery earlier put own)
  · rw [List.mem_singleton.mp sent] at own ⊢
    cases own
    simp [State.send]

theorem handle_consistent {state : State N K} (consistent : Consistent state) {replica : Fin N}
    {place : Nat} {delivery : Delivery K} (sent : (state.inFlight replica)[place]? = some delivery) :
    Consistent (state.handle replica place delivery) := by
  have grown : ∀ other, state.handled other <+: (state.handle replica place delivery).handled other := by
    intro other
    by_cases same : other = replica
    · subst same
      simp [State.handle]
    · simp [State.handle, same]
  refine ⟨?_, ?_, ?_, consistent.fresh, ?_⟩
  · intro other key
    by_cases same : other = replica
    · subst same
      simp only [State.handle, Function.update_self, Database.get_put, latest_snoc, consistent.held]
      simp only [eq_comm]
    · simpa [State.handle, same] using consistent.held other key
  · intro other found member put own
    exact consistent.issued other found (State.traffic_handle_mem sent member) put own
  · intro put other replied
    obtain ⟨found, member, own⟩ := consistent.replied put other replied
    exact ⟨found, (grown other).subset member, own⟩
  · intro get opened answer member
    obtain ⟨bound, value⟩ := consistent.given get opened answer member
    obtain ⟨more, extended⟩ := grown answer.source
    rw [← extended]
    refine ⟨bound.trans (by simp), ?_⟩
    rw [List.take_append_of_le_length bound]
    exact value

theorem answer_consistent {state : State N K} (consistent : Consistent state) {get : Nat}
    {opened : Get N K} (replica : Fin N) (found : state.gets[get]? = some opened) :
    Consistent (state.answer get opened replica) := by
  refine ⟨consistent.held, consistent.issued, consistent.replied, consistent.fresh, ?_⟩
  intro other member answer given
  have known : opened ∈ state.gets := List.mem_of_getElem? found
  rcases List.mem_or_eq_of_mem_set member with unchanged | rfl
  · exact consistent.given other unchanged answer given
  · rcases List.mem_append.mp given with earlier | new
    · exact consistent.given opened known answer earlier
    · rw [List.mem_singleton.mp new]
      simp only [State.answer]
      exact ⟨le_refl _, by rw [List.take_length]; exact consistent.held replica opened.key⟩

theorem repair_consistent {state : State N K} (consistent : Consistent state)
    (sent : List (Fin N × PutRequest K Value)) : Consistent (state.repair sent) := by
  refine ⟨consistent.held, ?_, consistent.replied, consistent.fresh, consistent.given⟩
  intro replica delivery member put own
  rw [State.traffic_repair] at member
  rcases List.mem_append.mp member with earlier | repaired
  · exact consistent.issued replica delivery earlier put own
  · obtain ⟨repair, _, rfl⟩ := List.mem_map.mp repaired
    cases own

theorem step_consistent {quorum : Nat} {state next : State N K} {event : Event N K}
    (consistent : Consistent state) (taken : step quorum state event = some next) : Consistent next := by
  cases step_cases taken with
  | putBytes => exact send_consistent consistent _
  | handlePut sent => exact handle_consistent consistent sent
  | lose replica place =>
      refine ⟨consistent.held, ?_, consistent.replied, consistent.fresh, consistent.given⟩
      intro other delivery member
      exact consistent.issued other delivery ((State.traffic_lose state replica place other).subset member)
  | putReply handled own fresh =>
      refine ⟨consistent.held, consistent.issued, ?_, ?_, consistent.given⟩
      · intro put replica member
        rcases List.mem_append.mp member with earlier | new
        · exact consistent.replied put replica earlier
        · cases List.mem_singleton.mp new
          exact ⟨_, handled, own⟩
      · simpa [List.nodup_append] using ⟨consistent.fresh, fun put replica member first second =>
          fresh (first ▸ second ▸ member)⟩
  | getBytes key =>
      refine ⟨consistent.held, consistent.issued, consistent.replied, consistent.fresh, ?_⟩
      intro get member answer given
      rcases List.mem_append.mp member with earlier | new
      · exact consistent.given get earlier answer given
      · cases List.mem_singleton.mp new
        cases given
  | handleGet replica found => exact answer_consistent consistent replica found
  | finish => exact repair_consistent consistent _

theorem run_consistent {quorum : Nat} {events : List (Event N K)} {state : State N K}
    (ran : run (step quorum) .initial events = some state) : Consistent state :=
  run_invariant (fun _ consistent taken => step_consistent consistent taken) ran
    (fun _ _ => trivial) initial_consistent

omit [LinearOrder K] in
/-- A get that had enough replies repairs the losers of their tally. -/
theorem repairs_tallied {quorum : Nat} {key : K} {replies : List (Answer N)}
    {sent : List (Fin N × PutRequest K Value)} (distinct : (replies.map Answer.source).Nodup)
    (enough : quorum ≤ replies.length) (repaired : repairs quorum key replies = .ok sent) :
    ∃ final : GetHandler (Fin N) K, GetHandler.Tallied (replies.map Answer.reply) final ∧
      sent = final.losers.map fun server => (server, ⟨key, final.winnerValue⟩) := by
  have split : (replies.take quorum).map Answer.reply ++ (replies.drop quorum).map Answer.reply =
      replies.map Answer.reply := by
    rw [← List.map_append, List.take_append_drop]
  have arrived : ((replies.take quorum).map Answer.reply ++
      (replies.drop quorum).map Answer.reply).length ≤ N := by
    rw [split]
    simpa using distinct.length_le_card
  obtain ⟨voted, final, vote, tallied, finished⟩ := @GetHandler.finish_repairs _ K key N _ _ arrived
  rw [split, List.length_map, List.length_take, Nat.min_eq_left enough] at vote
  rw [split] at tallied
  simp only [repairs, vote, bind, Except.bind, finished, Except.ok.injEq] at repaired
  exact ⟨final, tallied, repaired.symm⟩

end Scads.Protocol
