import Scads.Client.Namespace
import Scads.Client.RangeMerges

namespace Scads.Client

open Scads.Comm

/-! # The outcome of a vote on range replies -/

namespace Account

variable {S : Type} [DecidableEq S]

def hearAll (account : Account S) (answers : List (S × Value)) : Account S :=
  answers.foldl (fun account answer => account.receive answer.1 answer.2) account

theorem hearAll_snoc (account : Account S) (answers : List (S × Value)) (answer : S × Value) :
    account.hearAll (answers ++ [answer]) = (account.hearAll answers).receive answer.1 answer.2 := by
  rw [hearAll, List.foldl_append]
  rfl

theorem receive_winner (account : Account S) (source : S) (value : Value) :
    (account.receive source value).winner = some (source, value) ∧
        (∀ owner best, account.winner = some (owner, best) → version best < version value) ∨
      ∃ owner best, account.winner = some (owner, best) ∧
        (account.receive source value).winner = some (owner, best) ∧ version value ≤ version best := by
  cases won : account.winner with
  | none => exact .inl ⟨by simp [receive, won], nofun⟩
  | some winner =>
      obtain ⟨owner, best⟩ := winner
      by_cases newer : version best < version value
      · refine .inl ⟨by simp [receive, won, newer], fun _ _ same => ?_⟩
        cases same
        exact newer
      · refine .inr ⟨owner, best, rfl, ?_, Nat.le_of_not_lt newer⟩
        simp only [receive, won, if_neg newer]
        split
        · rfl
        · exact won

/-- The winner of an account is a newest of the answers. -/
theorem hearAll_newest (base : S) (answers : List (S × Value)) :
    (answers = [] ∧ ((start base).hearAll answers).winner = none) ∨
      ∃ answer ∈ answers, ((start base).hearAll answers).winner = some answer ∧
        ∀ other ∈ answers, version other.2 ≤ version answer.2 := by
  induction answers using List.reverseRecOn with
  | nil => exact .inl ⟨rfl, rfl⟩
  | append_singleton answers answer ih =>
      rw [hearAll_snoc]
      refine .inr ?_
      obtain ⟨taken, newer⟩ | ⟨owner, best, won, kept, bound⟩ :=
        ((start base).hearAll answers).receive_winner answer.1 answer.2
      · refine ⟨answer, by simp, taken, ?_⟩
        obtain ⟨rfl, -⟩ | ⟨old, -, won, maximal⟩ := ih
        · simp
        · have less := newer old.1 old.2 won
          simp only [List.mem_append, List.mem_singleton]
          intro other found
          obtain earlier | rfl := found
          · exact (maximal other earlier).trans less.le
          · exact le_refl _
      · obtain ⟨-, none⟩ | ⟨old, member, same, maximal⟩ := ih
        · rw [none] at won
          cases won
        · rw [won] at same
          cases same
          refine ⟨(owner, best), by simp [member], kept, ?_⟩
          simp only [List.mem_append, List.mem_singleton]
          intro other found
          obtain earlier | rfl := found
          · exact maximal other earlier
          · exact bound

end Account

namespace RangeHandle

section Replies

variable {S K : Type}

def encode (reply : S × List (K × Value)) : S × List (Record K Value) := (reply.1, reply.2.map toRecord)

/-- The first reply that has records. -/
def baseReply (replies : List (S × List (K × Value))) : Option (S × List (K × Value)) :=
  replies.find? fun reply => !reply.2.isEmpty

theorem baseReply_snoc (replies : List (S × List (K × Value))) (reply : S × List (K × Value)) :
    baseReply (replies ++ [reply]) =
      (baseReply replies).or (if reply.2.isEmpty then none else some reply) := by
  rw [baseReply, List.find?_append, List.find?_singleton]
  cases reply.2.isEmpty <;> rfl

theorem baseReply_prefix {early late : List (S × List (K × Value))} {base : S × List (K × Value)}
    (based : baseReply early = some base) : baseReply (early ++ late) = some base := by
  rw [baseReply, List.find?_append]
  rw [baseReply] at based
  rw [based]
  rfl

def asResponse (reply : S × List (K × Value)) : S × StorageMessage K Value :=
  (reply.1, .getRangeResponse (reply.2.map toRecord))

theorem opened_queue (futures : Nat) (replies : List (S × List (K × Value))) :
    (opened futures (replies.map encode) : RangeHandle S K).responses = replies.map asResponse := by
  simp [opened, encode, asResponse]

/-- The reply fits what the first one with records has room for. -/
def Fits (ascending : Bool) (replies : List (S × List (K × Value))) (reply : S × List (K × Value)) : Prop :=
  ascending = false → ∀ base, baseReply replies = some base → reply.2.map Prod.fst <+: base.2.map Prod.fst

theorem fits_first {ascending : Bool} {quiet early late : List (S × List (K × Value))}
    {base reply : S × List (K × Value)}
    (silent : ∀ other ∈ quiet, other.2 = []) (cut : quiet ++ [base] = early ++ reply :: late) :
    Fits ascending early reply := by
  have initial : early <+: quiet := by
    cases late using List.reverseRecOn with
    | nil => exact ⟨[], by rw [List.append_nil]; exact (List.append_inj' cut rfl).1.symm⟩
    | append_singleton late last =>
        rw [← List.cons_append, ← List.append_assoc] at cut
        exact ⟨reply :: late, (List.append_inj' cut rfl).1.symm⟩
  intro _ found based
  have member := initial.subset (List.mem_of_find?_eq_some based)
  have records := List.find?_some based
  simp [silent found member] at records

variable [LinearOrder K]

def InOrder (ascending : Bool) (keys : List K) : Prop :=
  keys.Pairwise fun left right => if ascending then left < right else right < left

def answersFor (key : K) (replies : List (S × List (K × Value))) : List (S × Value) :=
  replies.filterMap fun reply => (answerIn (reply.2.map toRecord) key).map fun value => (reply.1, value)

/-- The winners are what the replies say together. -/
structure Unites (ascending : Bool) (replies : List (S × List (K × Value))) (winners : List (Record K Value)) :
    Prop where
  order : InOrder ascending (winners.map Record.key)
  keys : ∀ key, key ∈ winners.map Record.key ↔ ∃ reply ∈ replies, key ∈ reply.2.map Prod.fst
  newest : ∀ winner ∈ winners, ∃ reply ∈ replies, ∃ value, (winner.key, value) ∈ reply.2 ∧
    winner.value = some value ∧
      ∀ other ∈ replies, ∀ entry ∈ other.2, entry.1 = winner.key → compareMetadata entry.2 value ≤ 0

/-- No reply has keys that the first one with records would have to make room for. -/
def Covers (ascending : Bool) (replies : List (S × List (K × Value))) : Prop :=
  ∀ base, baseReply replies = some base → ∀ reply ∈ replies,
    if ascending then ∀ entry ∈ reply.2, ∃ last ∈ base.2, entry.1 ≤ last.1
    else reply.2.map Prod.fst <+: base.2.map Prod.fst

theorem answersFor_snoc (key : K) (replies : List (S × List (K × Value))) (reply : S × List (K × Value)) :
    answersFor key (replies ++ [reply]) = answersFor key replies ++
      ((answerIn (reply.2.map toRecord) key).map fun value => (reply.1, value)).toList := by
  rw [answersFor, List.filterMap_append]
  cases answered : answerIn (reply.2.map toRecord) key <;> simp [answersFor, answered]

theorem answerIn_toRecord {entries : List (K × Value)} {key : K} {value : Value}
    (answered : answerIn (entries.map toRecord) key = some value) : (key, value) ∈ entries := by
  obtain ⟨record, found, valued⟩ := Option.bind_eq_some_iff.mp answered
  obtain ⟨entry, member, rfl⟩ := List.mem_map.mp (List.mem_of_find?_eq_some found)
  have keyed : (toRecord entry).key = key := by simpa using List.find?_some found
  cases valued
  rw [← keyed]
  exact member

theorem answerIn_of_mem {entries : List (K × Value)} (distinct : (entries.map Prod.fst).Nodup)
    {entry : K × Value} (member : entry ∈ entries) : answerIn (entries.map toRecord) entry.1 = some entry.2 := by
  induction entries with
  | nil => cases member
  | cons first rest ih =>
      rw [List.map_cons, answerIn_cons]
      obtain ⟨fresh, others⟩ := List.nodup_cons.mp distinct
      cases List.mem_cons.mp member with
      | inl same =>
          have keyed : (toRecord first).key = first.1 := rfl
          rw [same, if_pos keyed]
          rfl
      | inr later =>
          have different : (toRecord first).key ≠ entry.1 := by
            intro same
            change first.1 = entry.1 at same
            rw [same] at fresh
            exact fresh (List.mem_map_of_mem later)
          rw [if_neg different, ih others later]

theorem mem_answersFor {key : K} {replies : List (S × List (K × Value))} {answer : S × Value}
    (member : answer ∈ answersFor key replies) : ∃ reply ∈ replies, reply.1 = answer.1 ∧ (key, answer.2) ∈ reply.2 := by
  obtain ⟨reply, known, answered⟩ := List.mem_filterMap.mp member
  obtain ⟨value, found, rfl⟩ := Option.map_eq_some_iff.mp answered
  exact ⟨reply, known, rfl, answerIn_toRecord found⟩

theorem answersFor_of_mem {replies : List (S × List (K × Value))} {reply : S × List (K × Value)}
    (distinct : (reply.2.map Prod.fst).Nodup) {entry : K × Value} (known : reply ∈ replies)
    (member : entry ∈ reply.2) : (reply.1, entry.2) ∈ answersFor entry.1 replies :=
  List.mem_filterMap.mpr ⟨reply, known, by rw [answerIn_of_mem distinct member]; rfl⟩

theorem InOrder.nodup {ascending : Bool} {keys : List K} (ordered : InOrder ascending keys) : keys.Nodup := by
  refine ordered.imp fun less same => ?_
  subst same
  cases ascending <;> exact lt_irrefl _ less

theorem answersFor_waiting {replies : List (S × List (K × Value))} (waiting : baseReply replies = none) (key : K) :
    answersFor key replies = [] := by
  refine List.filterMap_eq_nil_iff.mpr fun reply member => ?_
  have empty := List.find?_eq_none.mp waiting reply member
  have blank : reply.2 = [] := by simpa using empty
  rw [blank]
  rfl

theorem heard_reached {winners : List (Winner S K)} {records : List (Record K Value)} {key : K} {reached : Prop}
    [Decidable reached] (reach : Reaches winners key ↔ reached) :
    heard winners records key = if reached then answerIn records key else none := by
  simp only [heard, reach]

theorem Covers.reached {ascending : Bool} {replies : List (S × List (K × Value))} (covers : Covers ascending replies)
    {base reply : S × List (K × Value)} (based : baseReply replies = some base) (known : reply ∈ replies) {key : K}
    (member : key ∈ reply.2.map Prod.fst) : ∃ last ∈ base.2, key ≤ last.1 := by
  have covered := covers base based reply known
  cases ascending with
  | true =>
      obtain ⟨entry, within, rfl⟩ := List.mem_map.mp member
      exact covered entry within
  | false =>
      obtain ⟨entry, within, same⟩ := List.mem_map.mp (covered.subset member)
      exact ⟨entry, within, same.ge⟩

theorem Covers.fits {ascending : Bool} {replies early late : List (S × List (K × Value))}
    {reply : S × List (K × Value)} (covers : Covers ascending replies) (cut : replies = early ++ reply :: late) :
    Fits ascending early reply := by
  intro descending base based
  subst descending
  have covered := covers base (by rw [cut]; exact baseReply_prefix based) reply (by simp [cut])
  rwa [if_neg Bool.false_ne_true] at covered

end Replies

variable {S K : Type} [DecidableEq S] [LinearOrder K]

/-- What a handle has come to once a reply with records has come. -/
structure Counted (ascending : Bool) (base : S × List (K × Value)) (replies : List (S × List (K × Value)))
    (handle : RangeHandle S K) : Prop where
  server : handle.baseServer = some base.1
  winners : handle.winners ≠ []
  defined : ∀ winner ∈ handle.winners, winner.record.value ≠ none
  order : InOrder ascending (handle.winners.map fun winner => winner.record.key)
  same : ascending = false → (handle.winners.map fun winner => winner.record.key) = base.2.map Prod.fst
  reach : ∀ key, Reaches handle.winners key ↔ ∃ last ∈ base.2, key ≤ last.1
  accounts : ∀ key, accountOf base.1 key handle.winners handle.conflicts =
    (Account.start base.1).hearAll (if ∃ last ∈ base.2, key ≤ last.1 then answersFor key replies else [])

/-- What a handle has come to after these replies. -/
structure Ran (ascending : Bool) (replies : List (S × List (K × Value))) (handle : RangeHandle S K) : Prop where
  waiting : baseReply replies = none → handle.winners = [] ∧ handle.conflicts = ⟨∅, ∅⟩
  counted : ∀ base, baseReply replies = some base → Counted ascending base replies handle

theorem hearAll_hear (account : Account S) (key : K) (replies : List (S × List (K × Value)))
    (reply : S × List (K × Value)) :
    account.hearAll (answersFor key (replies ++ [reply])) =
      (account.hearAll (answersFor key replies)).hear reply.1 (answerIn (reply.2.map toRecord) key) := by
  rw [answersFor_snoc]
  cases answerIn (reply.2.map toRecord) key with
  | none => rw [Option.map_none, Option.toList_none, List.append_nil]; rfl
  | some value => exact account.hearAll_snoc _ _

theorem Counted.first {ascending : Bool} {replies : List (S × List (K × Value))} {reply : S × List (K × Value)}
    (waiting : baseReply replies = none) (records : reply.2 ≠ []) (ordered : InOrder ascending (reply.2.map Prod.fst))
    {handle : RangeHandle S K} (server : handle.baseServer = some reply.1)
    (winners : handle.winners = (reply.2.map toRecord).map (⟨·, reply.1⟩)) (conflicts : handle.conflicts = ⟨∅, ∅⟩) :
    Counted ascending reply (replies ++ [reply]) handle := by
  have keys : (handle.winners.map fun winner => winner.record.key) = reply.2.map Prod.fst := by
    rw [winners, List.map_map, List.map_map]
    rfl
  have reach (key : K) : Reaches handle.winners key ↔ ∃ last ∈ reply.2, key ≤ last.1 := by
    rw [winners]
    simp [Reaches, toRecord]
  constructor
  case server => exact server
  case winners => simpa [winners] using records
  case defined =>
    intro winner member
    rw [winners] at member
    obtain ⟨record, known, rfl⟩ := List.mem_map.mp member
    obtain ⟨entry, -, rfl⟩ := List.mem_map.mp known
    exact Option.some_ne_none _
  case order => rwa [keys]
  case same => exact fun _ => keys
  case reach => exact reach
  case accounts =>
    intro key
    rw [conflicts, winners, accountOf_first]
    by_cases reached : ∃ last ∈ reply.2, key ≤ last.1
    · rw [if_pos reached, hearAll_hear, answersFor_waiting waiting]
      rfl
    · have silent : answerIn (reply.2.map toRecord) key = none := by
        refine answerIn_none fun record member => ?_
        obtain ⟨entry, known, rfl⟩ := List.mem_map.mp member
        exact fun same => reached ⟨entry, known, same.ge⟩
      rw [if_neg reached, silent]
      rfl

/-- The accounts after one more reply. -/
theorem accounts_next {base : S × List (K × Value)} {replies : List (S × List (K × Value))}
    {reply : S × List (K × Value)} {winners merged : List (Winner S K)} {conflicts noted : Conflicts S K} {key : K}
    (reach : Reaches winners key ↔ ∃ last ∈ base.2, key ≤ last.1)
    (before : accountOf base.1 key winners conflicts = (Account.start base.1).hearAll
      (if ∃ last ∈ base.2, key ≤ last.1 then answersFor key replies else []))
    (step : accountOf base.1 key merged noted =
      (accountOf base.1 key winners conflicts).hear reply.1 (heard winners (reply.2.map toRecord) key)) :
    accountOf base.1 key merged noted = (Account.start base.1).hearAll
      (if ∃ last ∈ base.2, key ≤ last.1 then answersFor key (replies ++ [reply]) else []) := by
  rw [step, before, heard_reached reach]
  by_cases reached : ∃ last ∈ base.2, key ≤ last.1
  · rw [if_pos reached, if_pos reached, if_pos reached, hearAll_hear]
  · rw [if_neg reached, if_neg reached, if_neg reached]
    rfl

/-- A counted handle takes one more reply. -/
theorem Counted.merge {ascending : Bool} {base : S × List (K × Value)} {replies : List (S × List (K × Value))}
    {reply : S × List (K × Value)} {handle : RangeHandle S K} (counted : Counted ascending base replies handle)
    (ordered : InOrder ascending (reply.2.map Prod.fst))
    (fits : ascending = false → reply.2.map Prod.fst <+: base.2.map Prod.fst) :
    ∃ merged noted, RangeHandle.merge base.1 reply.1 handle.winners (reply.2.map toRecord) handle.conflicts =
        .ok (merged, noted) ∧
      ∀ next : RangeHandle S K, next.baseServer = some base.1 → next.winners = merged → next.conflicts = noted →
        Counted ascending base (replies ++ [reply]) next := by
  obtain ⟨merged, noted, done, defined⟩ := merge_defined base.1 reply.1 handle.conflicts counted.defined
    (fun record member => by
      obtain ⟨entry, -, rfl⟩ := List.mem_map.mp member
      exact Option.some_ne_none _ : ∀ record ∈ reply.2.map toRecord, record.value ≠ none)
  refine ⟨merged, noted, done, ?_⟩
  intro next server given found
  subst given
  subst found
  have kept : next.winners ≠ [] := by
    intro empty
    have sublist := merge_keys done
    rw [empty, List.map_nil, List.sublist_nil, List.map_eq_nil_iff] at sublist
    exact counted.winners sublist
  cases ascending with
  | true =>
      have merges := merge_ascending (by simpa [InOrder, List.pairwise_map] using counted.order)
        (by simpa [InOrder, List.pairwise_map, toRecord] using ordered) done
      exact {
        server := server
        winners := kept
        defined := defined
        order := by simpa [InOrder, List.pairwise_map] using merges.sorted
        same := nofun
        reach := fun key => (merges.reach key).trans (counted.reach key)
        accounts := fun key => accounts_next (counted.reach key) (counted.accounts key) (merges.accounts key) }
  | false =>
      have same := counted.same rfl
      have begins : (reply.2.map toRecord).map Record.key <+: handle.winners.map fun winner => winner.record.key := by
        rw [same, List.map_map]
        exact fits rfl
      obtain ⟨keys, accounts⟩ := merge_prefix counted.order.nodup begins done
      have reach (key : K) : Reaches next.winners key ↔ Reaches handle.winners key := by
        have through (winners : List (Winner S K)) :
            Reaches winners key ↔ ∃ other ∈ winners.map fun winner => winner.record.key, key ≤ other := by
          simp [Reaches]
        rw [through, through, keys]
      exact {
        server := server
        winners := kept
        defined := defined
        order := by rw [keys]; exact counted.order
        same := fun _ => keys.trans same
        reach := fun key => (reach key).trans (counted.reach key)
        accounts := fun key => accounts_next (counted.reach key) (counted.accounts key) (accounts key) }

theorem processNext_ran {ascending : Bool} {replies : List (S × List (K × Value))} {reply : S × List (K × Value)}
    {handle : RangeHandle S K} {rest : List (S × StorageMessage K Value)} (ran : Ran ascending replies handle)
    (queue : handle.responses = asResponse reply :: rest) (ordered : InOrder ascending (reply.2.map Prod.fst))
    (fits : Fits ascending replies reply) :
    ∃ next, handle.processNext = .ok next ∧ Ran ascending (replies ++ [reply]) next ∧ next.responses = rest ∧
      next.ctr = handle.ctr + 1 ∧ next.futures = handle.futures := by
  cases based : baseReply replies with
  | none =>
      obtain ⟨winners, conflicts⟩ := ran.waiting based
      refine ⟨{ handle with
          ctr := handle.ctr + 1, responses := rest
          winners := (reply.2.map toRecord).map (⟨·, reply.1⟩), baseServer := some reply.1 },
        ?_, ?_, rfl, rfl, rfl⟩
      · simp [processNext, queue, asResponse, winners]
      · have next := baseReply_snoc replies reply
        rw [based, Option.none_or] at next
        constructor
        case waiting =>
          intro still
          have empty : reply.2.isEmpty = true := by
            by_contra records
            rw [next, if_neg records] at still
            cases still
          rw [List.isEmpty_iff] at empty
          exact ⟨by simp [empty], conflicts⟩
        case counted =>
          intro base found
          rw [next] at found
          split at found
          · cases found
          · next records =>
              cases found
              rw [List.isEmpty_iff] at records
              exact .first based records ordered rfl rfl conflicts
  | some base =>
      have counted := ran.counted base based
      obtain ⟨merged, noted, done, later⟩ := counted.merge ordered fun descending => fits descending base based
      obtain ⟨winner, winners, held⟩ := List.exists_cons_of_ne_nil counted.winners
      rw [held] at done
      refine ⟨{ handle with ctr := handle.ctr + 1, responses := rest, winners := merged, conflicts := noted },
        ?_, ?_, rfl, rfl, rfl⟩
      · simp [processNext, queue, asResponse, held, counted.server, done]
      · have next := baseReply_snoc replies reply
        rw [based, Option.some_or] at next
        constructor
        case waiting => exact fun still => by rw [next] at still; cases still
        case counted =>
          intro other found
          rw [next] at found
          cases found
          exact later _ counted.server rfl rfl

theorem processTimes_ran {ascending : Bool} {replies taken rest : List (S × List (K × Value))}
    {handle : RangeHandle S K} (ran : Ran ascending replies handle)
    (queue : handle.responses = (taken ++ rest).map asResponse)
    (ordered : ∀ reply ∈ taken, InOrder ascending (reply.2.map Prod.fst))
    (fits : ∀ early reply late, taken = early ++ reply :: late → Fits ascending (replies ++ early) reply) :
    ∃ final, handle.processTimes taken.length = .ok final ∧ Ran ascending (replies ++ taken) final ∧
      final.responses = rest.map asResponse ∧ final.ctr = handle.ctr + taken.length ∧
      final.futures = handle.futures := by
  induction taken generalizing handle replies with
  | nil => exact ⟨handle, rfl, by simpa using ran, by simpa using queue, rfl, rfl⟩
  | cons reply taken ih =>
      have fitsFirst := fits [] reply taken rfl
      rw [List.append_nil] at fitsFirst
      obtain ⟨next, processed, ranNext, left, ctr, futures⟩ :=
        processNext_ran ran queue (ordered reply List.mem_cons_self) fitsFirst
      obtain ⟨final, done, ranFinal, drained, counted, same⟩ := ih ranNext left
        (fun other member => ordered other (List.mem_cons_of_mem _ member))
        (fun early other late cut => by
          have later := fits (reply :: early) other late (by rw [cut, List.cons_append])
          rwa [List.append_assoc])
      refine ⟨final, ?_, ?_, drained, ?_, same.trans futures⟩
      · simp [processTimes, processed, done]
      · rwa [List.append_assoc] at ranFinal
      · rw [counted, ctr, List.length_cons]
        omega

theorem Counted.winner {ascending : Bool} {base : S × List (K × Value)} {replies : List (S × List (K × Value))}
    {handle : RangeHandle S K} (counted : Counted ascending base replies handle) {key : K}
    (reached : ∃ last ∈ base.2, key ≤ last.1) :
    (answersFor key replies = [] ∧ key ∉ handle.winners.map fun winner => winner.record.key) ∨
      ∃ winner ∈ handle.winners, ∃ value, winner.record.key = key ∧ winner.record.value = some value ∧
        (winner.source, value) ∈ answersFor key replies ∧
        ∀ other ∈ answersFor key replies, version other.2 ≤ version value := by
  have account := counted.accounts key
  rw [if_pos reached] at account
  obtain ⟨silent, none⟩ | ⟨answer, member, won, maximal⟩ := Account.hearAll_newest base.1 (answersFor key replies)
  · refine .inl ⟨silent, fun known => ?_⟩
    obtain ⟨winner, within, rfl⟩ := List.mem_map.mp known
    obtain ⟨value, held⟩ := Option.ne_none_iff_exists'.mp (counted.defined winner within)
    have won := @mem_accountOf _ _ _ _ base.1 winner _ handle.conflicts value counted.order.nodup within held
    rw [account, none] at won
    cases won
  · rw [← account] at won
    obtain ⟨winner, within, same, source, held⟩ := accountOf_mem won
    refine .inr ⟨winner, within, answer.2, same, held, ?_, maximal⟩
    rwa [source]

theorem Counted.of_key {ascending : Bool} {base : S × List (K × Value)} {replies : List (S × List (K × Value))}
    {handle : RangeHandle S K} (counted : Counted ascending base replies handle) {key : K}
    (known : key ∈ handle.winners.map fun winner => winner.record.key) : ∃ last ∈ base.2, key ≤ last.1 := by
  obtain ⟨winner, member, rfl⟩ := List.mem_map.mp known
  exact (counted.reach _).mp ⟨winner, member, le_refl _⟩

theorem Ran.unites {ascending : Bool} {replies : List (S × List (K × Value))} {handle : RangeHandle S K}
    (ran : Ran ascending replies handle) (sorted : ∀ reply ∈ replies, InOrder ascending (reply.2.map Prod.fst))
    (covers : Covers ascending replies) : Unites ascending replies (handle.winners.map Winner.record) := by
  cases based : baseReply replies with
  | none =>
      obtain ⟨winners, -⟩ := ran.waiting based
      have silent : ∀ reply ∈ replies, reply.2 = [] := fun reply member => by
        simpa using List.find?_eq_none.mp based reply member
      rw [winners]
      refine ⟨.nil, fun key => ⟨nofun, ?_⟩, nofun⟩
      intro found
      obtain ⟨reply, member, known⟩ := found
      rw [silent reply member] at known
      cases known
  | some base =>
      have counted := ran.counted base based
      have keys : (handle.winners.map Winner.record).map Record.key =
          handle.winners.map fun winner => winner.record.key := List.map_map
      constructor
      case order => rw [keys]; exact counted.order
      case keys =>
        intro key
        rw [keys]
        constructor
        · intro known
          obtain ⟨-, absent⟩ | ⟨winner, -, value, -, -, answered, -⟩ := counted.winner (counted.of_key known)
          · exact absurd known absent
          · obtain ⟨reply, member, -, entry⟩ := mem_answersFor answered
            exact ⟨reply, member, List.mem_map_of_mem entry⟩
        · intro found
          obtain ⟨reply, member, known⟩ := found
          have reached := covers.reached based member known
          obtain ⟨entry, within, rfl⟩ := List.mem_map.mp known
          have answered := answersFor_of_mem (sorted reply member).nodup member within
          obtain ⟨silent, -⟩ | ⟨winner, held, value, same, -⟩ := counted.winner reached
          · rw [silent] at answered
            cases answered
          · rw [← same]
            exact List.mem_map_of_mem held
      case newest =>
        intro record member
        obtain ⟨winner, within, rfl⟩ := List.mem_map.mp member
        have known : winner.record.key ∈ handle.winners.map fun winner => winner.record.key :=
          List.mem_map_of_mem within
        obtain ⟨-, absent⟩ | ⟨other, found, value, same, held, answered, maximal⟩ :=
          counted.winner (counted.of_key known)
        · exact absurd known absent
        · rw [List.inj_on_of_nodup_map counted.order.nodup found within same] at held
          obtain ⟨reply, replied, -, entry⟩ := mem_answersFor answered
          refine ⟨reply, replied, value, entry, held, fun other known entry inside named => ?_⟩
          have bound : version entry.2 ≤ version value :=
            maximal (other.1, entry.2) (named ▸ answersFor_of_mem (sorted other known).nodup known inside)
          have positive := @compareMetadata_pos entry.2 value
          omega

/-- An ascending vote never gets past the last key of the first reply with records. -/
theorem Ran.covers {replies : List (S × List (K × Value))} {handle : RangeHandle S K} (ran : Ran true replies handle)
    (unites : Unites true replies (handle.winners.map Winner.record)) : Covers true replies := by
  intro base based reply member
  rw [if_pos rfl]
  intro entry within
  have known := (unites.keys entry.1).mpr ⟨reply, member, List.mem_map_of_mem within⟩
  rw [List.map_map] at known
  exact (ran.counted base based).of_key known

/-- Every queue of replies is voted on. -/
theorem processTimes_defined {taken rest : List (S × List (K × Value))} {handle : RangeHandle S K}
    (defined : ∀ winner ∈ handle.winners, winner.record.value ≠ none)
    (based : handle.winners ≠ [] → handle.baseServer ≠ none)
    (queue : handle.responses = (taken ++ rest).map asResponse) :
    ∃ final, handle.processTimes taken.length = .ok final := by
  induction taken generalizing handle with
  | nil => exact ⟨handle, rfl⟩
  | cons reply taken ih =>
      have valued : ∀ record ∈ reply.2.map toRecord, record.value ≠ none := by
        intro record member
        obtain ⟨entry, -, rfl⟩ := List.mem_map.mp member
        exact Option.some_ne_none _
      rw [List.cons_append, List.map_cons] at queue
      cases held : handle.winners with
      | nil =>
          obtain ⟨final, done⟩ := @ih { handle with
              ctr := handle.ctr + 1, responses := (taken ++ rest).map asResponse
              winners := (reply.2.map toRecord).map (⟨·, reply.1⟩), baseServer := some reply.1 }
            (by
              intro winner member
              obtain ⟨record, known, rfl⟩ := List.mem_map.mp member
              exact valued record known)
            (fun _ => Option.some_ne_none _) rfl
          exact ⟨final, by simpa [processTimes, processNext, queue, asResponse, held] using done⟩
      | cons winner winners =>
          obtain ⟨base, server⟩ := Option.ne_none_iff_exists'.mp (based (by simp [held]))
          rw [held] at defined
          obtain ⟨merged, noted, mergeDone, mergeDefined⟩ :=
            merge_defined base reply.1 handle.conflicts defined valued
          obtain ⟨final, done⟩ := @ih { handle with
              ctr := handle.ctr + 1, responses := (taken ++ rest).map asResponse
              winners := merged, conflicts := noted }
            mergeDefined (fun _ => by simp [server]) rfl
          exact ⟨final, by simpa [processTimes, processNext, queue, asResponse, held, server, mergeDone] using done⟩

/-- When a descending vote ends in descending order, nothing was inserted. -/
theorem descending_begins {taken : List (S × List (K × Value))} {handle final : RangeHandle S K} {base : S}
    (winners : handle.winners ≠ []) (server : handle.baseServer = some base)
    (queue : handle.responses = taken.map asResponse)
    (sorted : ∀ reply ∈ taken, InOrder false (reply.2.map Prod.fst))
    (done : handle.processTimes taken.length = .ok final)
    (descending : final.winners.Pairwise fun left right => right.record.key < left.record.key)
    (known : ∀ reply ∈ taken, ∀ entry ∈ reply.2, ∃ winner ∈ final.winners, winner.record.key = entry.1) :
    (final.winners.map fun winner => winner.record.key) = (handle.winners.map fun winner => winner.record.key) ∧
      ∀ reply ∈ taken, reply.2.map Prod.fst <+: handle.winners.map fun winner => winner.record.key := by
  induction taken generalizing handle with
  | nil =>
      cases done
      exact ⟨rfl, nofun⟩
  | cons reply taken ih =>
      obtain ⟨winner, others, held⟩ := List.exists_cons_of_ne_nil winners
      obtain ⟨next, processed, rest⟩ := bind_eq_ok.mp done
      rw [List.map_cons] at queue
      simp only [processNext, queue, asResponse, held, server] at processed
      obtain ⟨⟨merged, noted⟩, mergeDone, same⟩ := bind_eq_ok.mp processed
      cases same
      have sublist : (merged.map fun winner => winner.record.key).Sublist
          (final.winners.map fun winner => winner.record.key) := by
        simpa [List.map_map, Function.comp_def, mark] using (processTimes_keys rest).map Prod.fst
      have lastOrder : (final.winners.map fun winner => winner.record.key).Pairwise fun left right => right < left :=
        List.pairwise_map.mpr descending
      have mergedKeys := lastOrder.sublist sublist
      have mergedOrder : merged.Pairwise fun left right => right.record.key < left.record.key :=
        List.pairwise_map.mp mergedKeys
      have keys := merge_descending mergedOrder mergeDone
      have some : merged ≠ [] := by
        intro empty
        rw [empty] at keys
        cases keys
      obtain ⟨final, later⟩ :=
        @ih _ some rfl rfl (fun other member => sorted other (List.mem_cons_of_mem _ member)) rest
        (fun other member => known other (List.mem_cons_of_mem _ member))
      have order : (winner :: others).Pairwise fun left right => right.record.key < left.record.key := by
        rw [keys] at mergedKeys
        exact List.pairwise_map.mp mergedKeys
      have begins := merge_begins order
        (by simpa [InOrder, List.pairwise_map, toRecord] using sorted reply List.mem_cons_self)
        (fun record member => by
          obtain ⟨entry, within, rfl⟩ := List.mem_map.mp member
          obtain ⟨found, inside, same⟩ := known reply List.mem_cons_self entry within
          have there : entry.1 ∈ (winner :: others).map fun winner => winner.record.key := by
            rw [← keys, ← final, ← same]
            exact List.mem_map_of_mem inside
          exact List.mem_map.mp there)
        mergedOrder mergeDone
      rw [List.map_map] at begins
      rw [held]
      refine ⟨final.trans keys, fun other member => ?_⟩
      cases List.mem_cons.mp member with
      | inl same =>
          rw [same]
          exact begins
      | inr within => exact keys ▸ later other within

theorem Ran.start (ascending : Bool) (futures : Nat) (replies : List (S × List (K × Value))) :
    Ran ascending [] (opened futures (replies.map encode) : RangeHandle S K) :=
  ⟨fun _ => ⟨rfl, rfl⟩, nofun⟩

theorem vote_ran {ascending : Bool} (futures : Nat) {taken rest : List (S × List (K × Value))}
    (sorted : ∀ reply ∈ taken, InOrder ascending (reply.2.map Prod.fst))
    (fits : ∀ early reply late, taken = early ++ reply :: late → Fits ascending early reply) :
    ∃ handle, (opened futures ((taken ++ rest).map encode)).vote taken.length = .ok handle ∧
      Ran ascending taken handle ∧ handle.responses = rest.map asResponse ∧ handle.ctr = taken.length ∧
      handle.futures = futures := by
  obtain ⟨handle, done, ran, left, ctr, same⟩ := processTimes_ran (Ran.start ascending futures (taken ++ rest))
    (opened_queue futures _) sorted fits
  exact ⟨handle, done, ran, left, ctr.trans (Nat.zero_add _), same⟩

theorem processTimes_add (first second : Nat) (handle : RangeHandle S K) :
    handle.processTimes (first + second) = (handle.processTimes first).bind (processTimes second) := by
  induction first generalizing handle with
  | zero => simp [processTimes, Except.bind]
  | succ first ih =>
      rw [Nat.succ_add]
      cases processed : handle.processNext with
      | error failure => simp [processTimes, processed, bind, Except.bind]
      | ok next => simpa [processTimes, processed, bind, Except.bind] using ih next

/-- What a descending vote must have been given to end in order. -/
theorem covers_of_descending {futures : Nat} {replies : List (S × List (K × Value))} {handle : RangeHandle S K}
    (sorted : ∀ reply ∈ replies, InOrder false (reply.2.map Prod.fst))
    (voted : (opened futures (replies.map encode)).vote replies.length = .ok handle)
    (unites : Unites false replies (handle.winners.map Winner.record)) : Covers false replies := by
  intro base based
  obtain ⟨records, quiet, rest, cut, silent⟩ := List.find?_eq_some_iff_append.mp based
  have blank : ∀ other ∈ quiet, other.2 = [] := fun other member => by simpa using silent other member
  have joined : replies = (quiet ++ [base]) ++ rest := by rw [cut, List.append_assoc]; rfl
  obtain ⟨first, firstVote, ran, queue, -⟩ := @vote_ran S K _ _ false futures (quiet ++ [base]) rest
    (fun reply member => sorted reply (by rw [joined]; exact List.mem_append_left _ member))
    (fun early reply late => fits_first blank)
  have baseFirst : baseReply (quiet ++ [base]) = some base := by
    rw [baseReply_snoc]
    have none : baseReply quiet = none := List.find?_eq_none.mpr fun other member => by simp [blank other member]
    rw [none, Option.none_or, if_neg (by simpa using records)]
  have counted := ran.counted base baseFirst
  have order : handle.winners.Pairwise fun left right => right.record.key < left.record.key := by
    simpa [InOrder, List.pairwise_map] using unites.order
  rw [joined, List.length_append, vote, processTimes_add] at voted
  rw [vote] at firstVote
  rw [firstVote] at voted
  obtain ⟨-, begins⟩ := descending_begins counted.winners counted.server queue
    (fun reply member => sorted reply (by rw [joined]; exact List.mem_append_right _ member)) voted order
    (fun reply member entry within => by
      have known := (unites.keys entry.1).mpr ⟨reply, by rw [joined]; exact List.mem_append_right _ member,
        List.mem_map_of_mem within⟩
      rw [List.map_map] at known
      exact List.mem_map.mp known)
  rw [counted.same rfl] at begins
  intro reply member
  rw [if_neg Bool.false_ne_true]
  rw [cut, List.mem_append, List.mem_cons] at member
  obtain early | rfl | late := member
  · rw [blank reply early]
    exact List.nil_prefix
  · exact List.prefix_rfl
  · exact begins reply late

/-- A vote on all replies unites them exactly when none has keys that the first one with
records would have to make room for. -/
theorem vote_unites_iff (ascending : Bool) (futures : Nat) (replies : List (S × List (K × Value)))
    (sorted : ∀ reply ∈ replies, InOrder ascending (reply.2.map Prod.fst)) :
    ∃ handle, (opened futures (replies.map encode)).vote replies.length = .ok handle ∧
      (Unites ascending replies (handle.winners.map Winner.record) ↔ Covers ascending replies) := by
  by_cases covers : Covers ascending replies
  · obtain ⟨handle, voted, ran, -⟩ := @vote_ran S K _ _ ascending futures replies [] sorted
      fun early reply late => covers.fits
    rw [List.append_nil] at voted
    exact ⟨handle, voted, iff_of_true (ran.unites sorted covers) covers⟩
  · cases ascending with
    | true =>
        obtain ⟨handle, voted, ran, -⟩ := @vote_ran S K _ _ true futures replies [] sorted
          fun _ _ _ _ ascending => nomatch ascending
        rw [List.append_nil] at voted
        exact ⟨handle, voted, iff_of_false (fun unites => covers (ran.covers unites)) covers⟩
    | false =>
        obtain ⟨handle, voted⟩ := @processTimes_defined S K _ _ replies [] (opened futures (replies.map encode))
          nofun (fun some => absurd rfl some) (by rw [List.append_nil]; exact opened_queue futures replies)
        exact ⟨handle, voted, iff_of_false (fun unites => covers (covers_of_descending sorted voted unites)) covers⟩

/-- The second reply has a newer value for a key of the first and one key less. -/
def oldAndNew : List (String × List (Nat × Value)) :=
  [("first", [(1, createMetadata 1 0 []), (2, createMetadata 1 0 [])]), ("second", [(1, createMetadata 2 0 [])])]

theorem oldAndNew_united :
    (∀ reply ∈ oldAndNew, InOrder true (reply.2.map Prod.fst)) ∧
      ∃ handle, (opened 2 (oldAndNew.map encode)).vote 2 = .ok handle ∧
        Unites true oldAndNew (handle.winners.map Winner.record) := by
  have sorted : ∀ reply ∈ oldAndNew, InOrder true (reply.2.map Prod.fst) := by simp [oldAndNew, InOrder]
  have covers : Covers true oldAndNew := by
    intro base based
    cases based
    simp only [oldAndNew, if_true]
    decide
  obtain ⟨handle, voted, unites⟩ := vote_unites_iff true 2 oldAndNew sorted
  exact ⟨sorted, handle, voted, unites.mpr covers⟩

/-- The second reply goes on after the last key of the first. -/
def longerSecond : List (String × List (Nat × Value)) :=
  [("first", [(1, createMetadata 1 0 [])]), ("second", [(1, createMetadata 1 0 []), (2, createMetadata 1 0 [])])]

theorem last_record_dropped :
    (∀ reply ∈ longerSecond, InOrder true (reply.2.map Prod.fst)) ∧
      ∃ handle, (opened 2 (longerSecond.map encode)).vote 2 = .ok handle ∧
        ¬ Unites true longerSecond (handle.winners.map Winner.record) := by
  have sorted : ∀ reply ∈ longerSecond, InOrder true (reply.2.map Prod.fst) := by simp [longerSecond, InOrder]
  obtain ⟨handle, voted, ran, -⟩ := @vote_ran _ _ _ _ true 2 longerSecond [] sorted
    fun _ _ _ _ ascending => nomatch ascending
  refine ⟨sorted, handle, voted, fun unites => ?_⟩
  have covers := ran.covers unites _ rfl _ (List.mem_cons_of_mem _ List.mem_cons_self)
  simp at covers

end RangeHandle

end Scads.Client
