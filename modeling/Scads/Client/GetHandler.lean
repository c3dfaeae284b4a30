import Scads.Client.Metadata
import Scads.Client.Quorum

namespace Scads.Client

open Scads.Comm

/-! # Voting on the replies of a get -/

def optCompareMetadata : Option Value → Option Value → Int
  | none, none => 0
  | none, some _ => -1
  | some _, none => 1
  | some left, some right => compareMetadata left right

/-- The version of an answer, with the missing value below every stored one. -/
def rank : Option Value → Nat
  | none => 0
  | some value => version value + 1

theorem optCompareMetadata_neg {left right : Option Value} :
    optCompareMetadata left right < 0 ↔ rank left < rank right := by
  cases left with
  | none => cases right <;> simp [optCompareMetadata, rank]
  | some left =>
      cases right with
      | none => simp [optCompareMetadata, rank]
      | some right =>
          simp only [optCompareMetadata, rank, compareMetadata_neg]
          omega

theorem optCompareMetadata_pos {left right : Option Value} :
    0 < optCompareMetadata left right ↔ rank right < rank left := by
  cases left with
  | none => cases right <;> simp [optCompareMetadata, rank]
  | some left =>
      cases right with
      | none => simp [optCompareMetadata, rank]
      | some right =>
          simp only [optCompareMetadata, rank, compareMetadata_pos]
          omega

theorem optCompareMetadata_zero {left right : Option Value} :
    optCompareMetadata left right = 0 ↔ rank left = rank right := by
  have below := @optCompareMetadata_neg left right
  have above := @optCompareMetadata_pos left right
  omega

/-- The state of a `GetHandler`.  `responses` is its queue: the replies that have
arrived and not been taken, oldest first. -/
structure GetHandler (S K : Type) where
  key : K
  futures : Nat
  responses : List (S × StorageMessage K Value)
  losers : List S := []
  winners : List S := []
  winnerValue : Option Value := none
  ctr : Nat := 0
  failed : Bool := false

namespace GetHandler

variable {S K : Type}

def compareNext (handler : GetHandler S K) : Except Failure (GetHandler S K) :=
  let handler := { handler with ctr := handler.ctr + 1 }
  match handler.responses with
  -- the poll timed out
  | [] => .ok { handler with failed := true }
  | (source, message) :: rest =>
      let handler := { handler with responses := rest }
      match message with
      | .getResponse value =>
          let cmp := optCompareMetadata handler.winnerValue value
          if cmp > 0 then
            .ok { handler with losers := handler.losers ++ [source] }
          else if cmp < 0 then
            .ok { handler with
              losers := handler.losers ++ handler.winners
              winners := [source]
              winnerValue := value }
          else
            .ok { handler with winners := handler.winners ++ [source] }
      | m => .error (.runtime ("Unknown message " ++ m.toString))

def compareTimes : Nat → GetHandler S K → Except Failure (GetHandler S K)
  | 0, handler => .ok handler
  | count + 1, handler => do compareTimes count (← handler.compareNext)

def vote (handler : GetHandler S K) (quorum : Nat) : Except Failure (GetHandler S K) :=
  handler.compareTimes quorum

def processRest (handler : GetHandler S K) : Except Failure (GetHandler S K) :=
  handler.compareTimes (handler.futures - handler.ctr)

/-- The repairs sent when the read repair thread gets to the handler. -/
def finish (handler : GetHandler S K) : Except Failure (List (S × PutRequest K Value)) := do
  let handler ← handler.processRest
  return handler.losers.map fun server => (server, ⟨handler.key, handler.winnerValue⟩)

end GetHandler

/-- `getBytes` once the requests are out: `none` where no value won the vote. -/
def finishGetHandler {S K : Type} (handler : GetHandler S K) (quorum : Nat) :
    Except Failure (Option Bytes) := do
  let handler ← handler.vote quorum
  if handler.failed then
    .error (.runtime "Could not complete get request - not enough servers responded")
  else
    return handler.winnerValue.map extractRecordFromValue

namespace GetHandler

variable {S K : Type}

def reply (answer : S × Option Value) : S × StorageMessage K Value :=
  (answer.1, .getResponse answer.2)

/-- A handler before its first reply is taken. -/
def opened (key : K) (futures : Nat) (answers : List (S × Option Value)) : GetHandler S K :=
  { key, futures, responses := answers.map reply }

/-- What a handler knows after it has compared the answers in `processed`: a
newest value, who gave an equally new one and who did not. -/
structure Tallied (processed : List (S × Option Value)) (handler : GetHandler S K) : Prop where
  maximal : ∀ answer ∈ processed, rank answer.2 ≤ rank handler.winnerValue
  attained : handler.winnerValue = none ∨ ∃ answer ∈ processed, answer.2 = handler.winnerValue
  winners : handler.winners.Perm
    ((processed.filter fun answer => rank answer.2 = rank handler.winnerValue).map Prod.fst)
  losers : handler.losers.Perm
    ((processed.filter fun answer => rank answer.2 ≠ rank handler.winnerValue).map Prod.fst)

theorem opened_tallied (key : K) (futures : Nat) (answers : List (S × Option Value)) :
    Tallied [] (opened key futures answers) :=
  ⟨by simp, .inl rfl, .refl _, .refl _⟩

theorem Tallied.sources {processed : List (S × Option Value)} {handler : GetHandler S K}
    (tallied : Tallied processed handler) :
    (handler.losers ++ handler.winners).Perm (processed.map Prod.fst) := by
  have parted := List.filter_append_perm
    (fun answer : S × Option Value => decide (rank answer.2 ≠ rank handler.winnerValue)) processed
  refine (tallied.losers.append tallied.winners).trans ?_
  simpa [← List.map_append] using parted.map Prod.fst

theorem compareNext_tallied {handler : GetHandler S K} {processed rest : List (S × Option Value)}
    {answer : S × Option Value} (tallied : Tallied processed handler)
    (queue : handler.responses = (answer :: rest).map reply) :
    ∃ next, handler.compareNext = .ok next ∧ Tallied (processed ++ [answer]) next ∧
      next.responses = rest.map reply ∧ next.key = handler.key ∧ next.futures = handler.futures ∧
      next.ctr = handler.ctr + 1 ∧ next.failed = handler.failed := by
  simp only [compareNext, queue, List.map_cons, reply]
  by_cases older : 0 < optCompareMetadata handler.winnerValue answer.2
  · have below := optCompareMetadata_pos.mp older
    refine ⟨_, if_pos older, ⟨?_, ?_, ?_, ?_⟩, rfl, rfl, rfl, rfl, rfl⟩
    · simpa [or_imp, forall_and, below.le] using tallied.maximal
    · exact tallied.attained.imp_right fun ⟨other, member, same⟩ => ⟨other, by simp [member], same⟩
    · simpa [List.filter_append, below.ne] using tallied.winners
    · simpa [List.filter_append, below.ne] using tallied.losers.append_right [answer.1]
  · rw [if_neg older]
    by_cases newer : optCompareMetadata handler.winnerValue answer.2 < 0
    · have above := optCompareMetadata_neg.mp newer
      refine ⟨_, if_pos newer, ⟨?_, .inr ⟨answer, by simp, rfl⟩, ?_, ?_⟩, rfl, rfl, rfl, rfl, rfl⟩
      · intro other member
        rcases List.mem_append.mp member with earlier | same
        · exact (tallied.maximal other earlier).trans above.le
        · simp [List.mem_singleton.mp same]
      · have none_equal : (processed.filter fun other => rank other.2 = rank answer.2) = [] := by
          refine List.filter_eq_nil_iff.mpr fun other member => ?_
          have := tallied.maximal other member
          simp
          omega
        simp [List.filter_append, none_equal]
      · have all_differ :
            ((processed ++ [answer]).filter fun other => rank other.2 ≠ rank answer.2) = processed := by
          rw [List.filter_append, List.filter_eq_self.mpr]
          · simp
          · intro other member
            have := tallied.maximal other member
            simp
            omega
        change (handler.losers ++ handler.winners).Perm (((processed ++ [answer]).filter
          fun other => rank other.2 ≠ rank answer.2).map Prod.fst)
        rw [all_differ]
        exact tallied.sources
    · have same : rank answer.2 = rank handler.winnerValue := by
        have notBelow := mt optCompareMetadata_pos.mpr older
        have notAbove := mt optCompareMetadata_neg.mpr newer
        omega
      refine ⟨_, if_neg newer, ⟨?_, ?_, ?_, ?_⟩, rfl, rfl, rfl, rfl, rfl⟩
      · simpa [or_imp, forall_and, same] using tallied.maximal
      · exact tallied.attained.imp_right fun ⟨other, member, equal⟩ => ⟨other, by simp [member], equal⟩
      · simpa [List.filter_append, same] using tallied.winners.append_right [answer.1]
      · simpa [List.filter_append, same] using tallied.losers

theorem compareTimes_tallied {handler : GetHandler S K} {processed : List (S × Option Value)}
    (taken rest : List (S × Option Value)) (tallied : Tallied processed handler)
    (queue : handler.responses = (taken ++ rest).map reply) :
    ∃ next, handler.compareTimes taken.length = .ok next ∧ Tallied (processed ++ taken) next ∧
      next.responses = rest.map reply ∧ next.key = handler.key ∧ next.futures = handler.futures ∧
      next.ctr = handler.ctr + taken.length ∧ next.failed = handler.failed := by
  induction taken generalizing handler processed with
  | nil => exact ⟨handler, rfl, by simpa using tallied, by simpa using queue, rfl, rfl, rfl, rfl⟩
  | cons answer taken ih =>
      obtain ⟨next, compared, nextTallied, nextQueue, key, futures, ctr, failed⟩ :=
        compareNext_tallied tallied queue
      obtain ⟨final, voted, finalTallied, finalQueue, finalKey, finalFutures, finalCtr, finalFailed⟩ :=
        ih nextTallied nextQueue
      refine ⟨final, ?_, by simpa using finalTallied, finalQueue, finalKey.trans key,
        finalFutures.trans futures, ?_, finalFailed.trans failed⟩
      · simp only [List.length_cons, compareTimes, compared]
        exact voted
      · rw [finalCtr, ctr, List.length_cons]
        omega

/-- Polls that time out only count and mark the handler as failed. -/
theorem compareTimes_timeout (count : Nat) {handler : GetHandler S K}
    (drained : handler.responses = []) :
    ∃ next, handler.compareTimes count = .ok next ∧ next.losers = handler.losers ∧
      next.winners = handler.winners ∧ next.winnerValue = handler.winnerValue ∧ next.key = handler.key := by
  induction count generalizing handler with
  | zero => exact ⟨handler, rfl, rfl, rfl, rfl, rfl⟩
  | succ count ih =>
      obtain ⟨next, compared, losers, winners, value, key⟩ :=
        @ih { handler with ctr := handler.ctr + 1, failed := true } drained
      refine ⟨next, ?_, losers, winners, value, key⟩
      rw [drained] at compared
      simp only [compareTimes, compareNext, drained]
      exact compared

theorem compareTimes_add (first second : Nat) (handler : GetHandler S K) :
    handler.compareTimes (first + second) =
      (handler.compareTimes first).bind (compareTimes second) := by
  induction first generalizing handler with
  | zero => simp [compareTimes, Except.bind]
  | succ first ih =>
      rw [Nat.succ_add]
      cases compared : handler.compareNext with
      | error failure => simp [compareTimes, compared, bind, Except.bind]
      | ok next => simpa [compareTimes, compared, bind, Except.bind] using ih next

/-- A vote over enough answers succeeds and returns a newest one of those it took. -/
theorem finishGetHandler_newest (key : K) (futures : Nat) (taken rest : List (S × Option Value)) :
    ∃ newest, finishGetHandler (opened key futures (taken ++ rest)) taken.length =
        .ok (newest.map extractRecordFromValue) ∧
      (∀ answer ∈ taken, rank answer.2 ≤ rank newest) ∧
      (newest = none ∨ ∃ answer ∈ taken, answer.2 = newest) := by
  obtain ⟨next, voted, tallied, _, _, _, _, failed⟩ :=
    compareTimes_tallied taken rest (opened_tallied key futures (taken ++ rest)) rfl
  refine ⟨next.winnerValue, ?_, tallied.maximal, tallied.attained⟩
  have completed : next.failed = false := failed
  simp [finishGetHandler, vote, voted, completed, bind, Except.bind, pure, Except.pure]

/-- The repairs of a handler go to the losers of the tally of everything that
arrived, however late it arrived. -/
theorem finish_repairs {key : K} {futures : Nat} {taken rest : List (S × Option Value)}
    (arrived : (taken ++ rest).length ≤ futures) :
    ∃ voted final : GetHandler S K, (opened key futures (taken ++ rest)).vote taken.length = .ok voted ∧
      Tallied (taken ++ rest) final ∧
      voted.finish = .ok (final.losers.map fun server => (server, ⟨key, final.winnerValue⟩)) := by
  obtain ⟨voted, vote, tallied, queue, voteKey, voteFutures, ctr, _⟩ :=
    compareTimes_tallied taken rest (opened_tallied key futures (taken ++ rest)) rfl
  obtain ⟨processed, compared, processedTallied, drained, processedKey, _, _, _⟩ :=
    compareTimes_tallied rest [] tallied (by simpa using queue)
  obtain ⟨final, timedOut, losers, winners, value, finalKey⟩ :=
    compareTimes_timeout (futures - (taken ++ rest).length) drained
  refine ⟨voted, processed, vote, by simpa using processedTallied, ?_⟩
  have remaining : voted.futures - voted.ctr = rest.length + (futures - (taken ++ rest).length) := by
    have sent : voted.futures = futures := voteFutures
    have counted : voted.ctr = taken.length := ctr.trans (Nat.zero_add _)
    rw [List.length_append] at arrived ⊢
    omega
  have named : final.key = key := finalKey.trans (processedKey.trans voteKey)
  have completed : voted.processRest = .ok final := by
    rw [processRest, remaining, compareTimes_add, compared]
    exact timedOut
  simp [finish, completed, losers, value, named, bind, Except.bind, pure, Except.pure]

/-- What a handler has decided after these answers. -/
structure Decided (processed : List (S × Option Value)) (handler : GetHandler S K) : Prop where
  greatest : ∀ answer ∈ processed, optCompareMetadata answer.2 handler.winnerValue ≤ 0
  attained : processed ≠ [] → ∃ answer ∈ processed, answer.2 = handler.winnerValue
  winners : ∀ source, source ∈ handler.winners ↔
    ∃ answer ∈ processed, answer.1 = source ∧ optCompareMetadata answer.2 handler.winnerValue = 0
  losers : ∀ source, source ∈ handler.losers ↔
    ∃ answer ∈ processed, answer.1 = source ∧ optCompareMetadata answer.2 handler.winnerValue ≠ 0
  once : (handler.winners ++ handler.losers).Nodup

theorem Tallied.decided {processed : List (S × Option Value)} {handler : GetHandler S K}
    (tallied : Tallied processed handler) (distinct : (processed.map Prod.fst).Nodup) :
    Decided processed handler := by
  constructor
  case greatest =>
    intro answer member
    have bound := tallied.maximal answer member
    have positive := @optCompareMetadata_pos answer.2 handler.winnerValue
    omega
  case attained =>
    intro answered
    cases tallied.attained with
    | inr found => exact found
    | inl missing =>
        obtain ⟨answer, member⟩ := List.exists_mem_of_ne_nil processed answered
        have bound := tallied.maximal answer member
        refine ⟨answer, member, ?_⟩
        rw [missing] at bound ⊢
        cases absent : answer.2 with
        | none => rfl
        | some value => simp [absent, rank] at bound
  case winners =>
    intro source
    rw [tallied.winners.mem_iff]
    simp only [List.mem_map, List.mem_filter, decide_eq_true_eq, optCompareMetadata_zero]
    exact ⟨fun ⟨answer, ⟨member, same⟩, named⟩ => ⟨answer, member, named, same⟩,
      fun ⟨answer, member, named, same⟩ => ⟨answer, ⟨member, same⟩, named⟩⟩
  case losers =>
    intro source
    rw [tallied.losers.mem_iff]
    simp only [List.mem_map, List.mem_filter, decide_eq_true_eq, ne_eq, optCompareMetadata_zero]
    exact ⟨fun ⟨answer, ⟨member, different⟩, named⟩ => ⟨answer, member, named, different⟩,
      fun ⟨answer, member, named, different⟩ => ⟨answer, ⟨member, different⟩, named⟩⟩
  case once =>
    exact (List.perm_append_comm.trans tallied.sources).nodup_iff.mpr distinct

/-- Tallies of the same answers agree on the rank of the winner. -/
theorem Tallied.rank_eq {processed other : List (S × Option Value)} {handler second : GetHandler S K}
    (tallied : Tallied processed handler) (again : Tallied other second) (same : processed.Perm other) :
    rank handler.winnerValue = rank second.winnerValue := by
  refine Nat.le_antisymm ?_ ?_
  · obtain missing | ⟨answer, member, won⟩ := tallied.attained
    · rw [missing]
      exact Nat.zero_le _
    · rw [← won]
      exact again.maximal answer (same.mem_iff.mp member)
  · obtain missing | ⟨answer, member, won⟩ := again.attained
    · rw [missing]
      exact Nat.zero_le _
    · rw [← won]
      exact tallied.maximal answer (same.mem_iff.mpr member)

theorem Tallied.partition {processed other : List (S × Option Value)} {handler second : GetHandler S K}
    (tallied : Tallied processed handler) (again : Tallied other second) (same : processed.Perm other) :
    handler.winners.Perm second.winners ∧ handler.losers.Perm second.losers := by
  have ranks := tallied.rank_eq again same
  refine ⟨tallied.winners.trans (.trans ?_ again.winners.symm), tallied.losers.trans (.trans ?_ again.losers.symm)⟩
  · rw [ranks]
    exact (same.filter _).map _
  · rw [ranks]
    exact (same.filter _).map _

theorem vote_tallied (key : K) (futures : Nat) (taken rest : List (S × Option Value)) :
    ∃ handler, (opened key futures (taken ++ rest)).vote taken.length = .ok handler ∧ Tallied taken handler := by
  obtain ⟨handler, voted, tallied, -⟩ :=
    compareTimes_tallied taken rest (opened_tallied key futures (taken ++ rest)) rfl
  exact ⟨handler, voted, tallied⟩

/-- Every prefix of the answers is decided, and the order of all of them does not matter. -/
theorem vote_decides (key : K) (futures : Nat) (answers : List (S × Option Value))
    (distinct : (answers.map Prod.fst).Nodup) :
    (∀ taken rest, taken ++ rest = answers →
      ∃ handler, (opened key futures answers).vote taken.length = .ok handler ∧ Decided taken handler) ∧
    ∀ other, answers.Perm other → ∃ final second : GetHandler S K,
      (opened key futures answers).vote answers.length = .ok final ∧
      (opened key futures other).vote other.length = .ok second ∧
      optCompareMetadata final.winnerValue second.winnerValue = 0 ∧
      final.winners.Perm second.winners ∧ final.losers.Perm second.losers := by
  constructor
  · intro taken rest same
    subst same
    obtain ⟨handler, voted, tallied⟩ := vote_tallied key futures taken rest
    rw [List.map_append] at distinct
    exact ⟨handler, voted, tallied.decided distinct.of_append_left⟩
  · intro other same
    obtain ⟨final, voted, tallied⟩ := vote_tallied key futures answers []
    obtain ⟨second, votedAgain, again⟩ := vote_tallied key futures other []
    rw [List.append_nil] at voted votedAgain
    exact ⟨final, second, voted, votedAgain, optCompareMetadata_zero.mpr (tallied.rank_eq again same),
      tallied.partition again same⟩

/-- A missing, an old and a new value. -/
theorem vote_decides_three :
    let answers := [(1, none), (2, some (createMetadata 5 1 [])), (3, some (createMetadata 9 1 []))]
    (answers.map Prod.fst).Nodup ∧
      ∃ handler, (opened "key" 3 answers).vote 3 = .ok handler ∧ Decided answers handler := by
  intro answers
  have distinct : (answers.map Prod.fst).Nodup := by decide
  exact ⟨distinct, (vote_decides "key" 3 answers distinct).1 answers [] (List.append_nil _)⟩

end GetHandler

end Scads.Client
