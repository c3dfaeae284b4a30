import Scads.Protocol.ReadLatest

namespace Scads.Protocol

open Scads.Data Scads.Comm Scads.Server Scads.Client

/-! # Replica versions under read repair

A put request is applied whatever the replica holds, so the version of a key at
a replica follows the order in which requests are handled there.  A repair is
computed from past replies and can be handled after a newer put.
-/

variable {N : Nat} {K : Type} [LinearOrder K]

/-- No step of the run lowers the version of the key at the replica. -/
def NeverDecreases (quorum : Nat) (events : List (Event N K)) (replica : Fin N) (key : K) : Prop :=
  ∀ past event rest before after, events = past ++ event :: rest →
    run (step quorum) .initial past = some before → step quorum before event = some after →
    rank ((before.store replica).get key) ≤ rank ((after.store replica).get key)

/-- The versions of the requests for the key, in the order they were handled. -/
def State.handledVersions (state : State N K) (replica : Fin N) (key : K) : List Nat :=
  ((state.handled replica).filter fun delivery => delivery.request.key = key).map
    fun delivery => rank delivery.request.value

theorem rank_latest (key : K) (deliveries : List (Delivery K)) :
    rank (latest key deliveries) =
      ((deliveries.filter fun delivery => delivery.request.key = key).map
        fun delivery => rank delivery.request.value).getLastD 0 := by
  induction deliveries using List.reverseRecOn with
  | nil => rfl
  | append_singleton deliveries last ih =>
      rw [latest_snoc]
      by_cases same : last.request.key = key
      · simp [same, List.filter_append]
      · simpa [same, List.filter_append] using ih

/-- A step handles one request at the replica or leaves its history alone. -/
theorem step_handled {quorum : Nat} {state next : State N K} {event : Event N K}
    (taken : step quorum state event = some next) (replica : Fin N) :
    next.handled replica = state.handled replica ∨
      ∃ delivery, next.handled replica = state.handled replica ++ [delivery] := by
  cases step_cases taken with
  | @handlePut other place delivery sent =>
      by_cases same : replica = other
      · subst same
        exact .inr ⟨delivery, by simp [State.handle]⟩
      · exact .inl (by simp [State.handle, same])
  | putBytes => exact .inl rfl
  | lose => exact .inl rfl
  | putReply => exact .inl rfl
  | getBytes => exact .inl rfl
  | handleGet => exact .inl rfl
  | finish => exact .inl rfl

theorem pairwise_snoc_iff {values : List Nat} {value : Nat} :
    (values ++ [value]).Pairwise (· ≤ ·) ↔
      values.Pairwise (· ≤ ·) ∧ values.getLastD 0 ≤ value := by
  rw [List.pairwise_append]
  constructor
  · intro ⟨sorted, _, across⟩
    refine ⟨sorted, ?_⟩
    cases values using List.reverseRecOn with
    | nil => simp
    | append_singleton values last => simpa using across last (by simp) value (by simp)
  · intro ⟨sorted, above⟩
    refine ⟨sorted, List.pairwise_singleton _ _, fun earlier member later new => ?_⟩
    rw [List.mem_singleton.mp new]
    cases values using List.reverseRecOn with
    | nil => cases member
    | append_singleton values last =>
        rw [List.getLastD_concat] at above
        rcases List.mem_append.mp member with inside | final
        · exact ((List.pairwise_append.mp sorted).2.2 earlier inside last (by simp)).trans above
        · exact (List.mem_singleton.mp final) ▸ above

/-- A step keeps the handled versions sorted exactly when it does not lower the
version the replica holds. -/
theorem step_sorted_iff {quorum : Nat} {state next : State N K} {event : Event N K}
    (consistent : Consistent state) (taken : step quorum state event = some next)
    (replica : Fin N) (key : K) :
    (next.handledVersions replica key).Pairwise (· ≤ ·) ↔
      (state.handledVersions replica key).Pairwise (· ≤ ·) ∧
        rank ((state.store replica).get key) ≤ rank ((next.store replica).get key) := by
  rw [consistent.held, (step_consistent consistent taken).held]
  simp only [State.handledVersions]
  rcases step_handled taken replica with same | ⟨delivery, grown⟩
  · simp [same]
  · rw [grown]
    by_cases keyed : delivery.request.key = key
    · rw [latest_snoc, if_pos keyed, rank_latest]
      simp only [List.filter_append, List.filter_cons, keyed, decide_true, if_true, List.filter_nil,
        List.map_append, List.map_cons, List.map_nil]
      exact pairwise_snoc_iff
    · simp [latest_snoc, keyed, List.filter_append]

theorem neverDecreases_snoc {quorum : Nat} {past : List (Event N K)} {event : Event N K}
    {middle final : State N K} {replica : Fin N} {key : K}
    (ran : run (step quorum) .initial past = some middle) (taken : step quorum middle event = some final) :
    NeverDecreases quorum (past ++ [event]) replica key ↔
      NeverDecreases quorum past replica key ∧
        rank ((middle.store replica).get key) ≤ rank ((final.store replica).get key) := by
  constructor
  · intro never
    refine ⟨?_, never past event [] middle final rfl ran taken⟩
    intro first other rest before after split
    exact never first other (rest ++ [event]) before after (by simp [split])
  · intro ⟨never, last⟩ first other rest before after split
    cases rest using List.reverseRecOn with
    | nil =>
        obtain ⟨rfl, same⟩ := List.append_inj' split rfl
        cases same
        intro reached stepped
        cases reached.symm.trans ran
        cases stepped.symm.trans taken
        exact last
    | append_singleton rest final =>
        have inner : past = first ++ other :: rest := by
          rw [← List.cons_append, ← List.append_assoc] at split
          exact (List.append_inj' split rfl).1
        exact never first other rest before after inner

/-- In every run, the version of a key at a replica never decreases exactly when
the requests for the key, puts and repairs alike, are handled there in the order
of their metadata. -/
theorem store_never_decreases_iff {quorum : Nat} {events : List (Event N K)} {final : State N K}
    (ran : run (step quorum) .initial events = some final) (replica : Fin N) (key : K) :
    NeverDecreases quorum events replica key ↔
      (final.handledVersions replica key).Pairwise (· ≤ ·) := by
  induction events using List.reverseRecOn generalizing final with
  | nil =>
      cases ran
      simp only [State.handledVersions, State.initial, List.filter_nil, List.map_nil, List.Pairwise.nil,
        iff_true]
      intro past event rest before after split
      simp at split
  | append_singleton past event ih =>
      obtain ⟨middle, earlier, taken⟩ := run_snoc.mp ran
      rw [neverDecreases_snoc earlier taken, ih earlier, step_sorted_iff (run_consistent earlier) taken]

theorem store_never_decreases_of_two_puts :
    NeverDecreases 1 ([.putBytes 7 1 5 (some [10]), .putBytes 7 2 5 (some [20]), .handlePut 0 0,
      .handlePut 0 0] : List (Event 1 Nat)) 0 7 :=
  (store_never_decreases_iff rfl 0 7).mpr (by decide)

/-- A repair that outlives a newer put: replica 1 misses the first put, answers a
get, takes the second put and is then repaired with the first one, although every
request is handled in send order. -/
theorem late_repair_overwrites :
    ∃ events : List (Event 2 Nat), (∀ event ∈ events, event.InOrder) ∧
      (∃ final, run (step 2) .initial events = some final ∧ Increasing 7 final.puts ∧
        ∀ request ∈ final.puts, request.value ≠ none) ∧
      ¬ NeverDecreases 2 events 1 7 := by
  refine ⟨[.putBytes 7 1 5 (some [10]), .handlePut 0 0, .lose 1 0, .getBytes 7, .handleGet 0 0,
    .handleGet 0 1, .putBytes 7 2 5 (some [20]), .handlePut 1 0,
    .finish 0 [⟨0, some (createMetadata 1 5 [10]), 1⟩, ⟨1, none, 0⟩], .handlePut 1 0],
    by simp [Event.InOrder], ⟨_, rfl, ?_, ?_⟩, ?_⟩
  · unfold Increasing
    decide
  · decide
  · intro never
    have lowered := never [.putBytes 7 1 5 (some [10]), .handlePut 0 0, .lose 1 0, .getBytes 7,
      .handleGet 0 0, .handleGet 0 1, .putBytes 7 2 5 (some [20]), .handlePut 1 0,
      .finish 0 [⟨0, some (createMetadata 1 5 [10]), 1⟩, ⟨1, none, 0⟩]] (.handlePut 1 0) [] _ _ rfl rfl rfl
    revert lowered
    decide

end Scads.Protocol
