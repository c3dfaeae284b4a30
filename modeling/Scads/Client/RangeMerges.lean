import Mathlib.Logic.Function.Basic
import Scads.Client.RangeHandle

namespace Scads.Client

open Scads.Comm

/-! # What a merge does to one key -/

/-- What a handle knows about one key: the answer that wins, the repairs by the owner of
the key array they are noted under, and who is taken to hold a winner. -/
structure Account (S : Type) where
  winner : Option (S × Value)
  losers : S → Option (Value × List S)
  holder : S → S

namespace Account

variable {S : Type} [DecidableEq S]

/-- The account before an answer, when the first reply came from the base server. -/
def start (base : S) : Account S := ⟨none, fun _ => none, fun _ => base⟩

def servers (account : Account S) (owner : S) : List S :=
  match account.losers owner with
  | some (_, servers) => servers
  | none => []

def receive (account : Account S) (source : S) (value : Value) : Account S :=
  match account.winner with
  | none =>
      { account with winner := some (source, value), holder := Function.update account.holder source source }
  | some (owner, best) =>
      if version best < version value then
        { winner := some (source, value)
          losers := Function.update account.losers owner (some (value, account.holder owner :: account.servers owner))
          holder := Function.update account.holder owner source }
      else if version value < version best then
        { account with
          losers := Function.update account.losers owner (some (best, source :: account.servers owner)) }
      else account

/-- A reply may say nothing of the key. -/
def hear (account : Account S) (source : S) : Option Value → Account S
  | none => account
  | some value => account.receive source value

end Account

namespace RangeHandle

section

variable {S K : Type} [LinearOrder K] {winner : Winner S K} {winners : List (Winner S K)} {record : Record K Value}
  {records : List (Record K Value)} {key : K}

def answerIn (records : List (Record K Value)) (key : K) : Option Value :=
  (records.find? fun record => record.key = key).bind Record.value

/-- The merge stops with the last winner, so that it does not get to later keys. -/
abbrev Reaches (winners : List (Winner S K)) (key : K) : Prop := ∃ winner ∈ winners, key ≤ winner.record.key

def heard (winners : List (Winner S K)) (records : List (Record K Value)) (key : K) : Option Value :=
  if Reaches winners key then answerIn records key else none

theorem answerIn_cons (record : Record K Value) (records : List (Record K Value)) (key : K) :
    answerIn (record :: records) key = if record.key = key then record.value else answerIn records key := by
  rw [answerIn, List.find?_cons]
  by_cases same : record.key = key <;> simp [same, answerIn]

theorem answerIn_none (absent : ∀ record ∈ records, record.key ≠ key) : answerIn records key = none := by
  have missing : (records.find? fun record => record.key = key) = none :=
    List.find?_eq_none.mpr fun record member => by simpa using absent record member
  rw [answerIn, missing]
  rfl

theorem heard_none (absent : ∀ record ∈ records, record.key ≠ key) : heard winners records key = none := by
  rw [heard, answerIn_none absent, ite_self]

theorem heard_cons (different : record.key ≠ key) :
    heard winners (record :: records) key = heard winners records key := by
  simp only [heard, answerIn_cons, if_neg different]

/-- A winner makes no difference when the rest of the winners reach all records. -/
theorem heard_skip (reach : ∀ record ∈ records, Reaches (winner :: winners) record.key →
    Reaches winners record.key) (key : K) : heard (winner :: winners) records key = heard winners records key := by
  by_cases known : ∃ record ∈ records, record.key = key
  · obtain ⟨record, member, rfl⟩ := known
    have same : Reaches (winner :: winners) record.key ↔ Reaches winners record.key :=
      ⟨reach record member, fun ⟨other, within, bound⟩ => ⟨other, List.mem_cons_of_mem _ within, bound⟩⟩
    simp only [heard, same]
  · have absent : ∀ record ∈ records, record.key ≠ key := fun record member same => known ⟨record, member, same⟩
    rw [heard_none absent, heard_none absent]

theorem reaches_cons (winner : Winner S K) (winners : List (Winner S K)) (key : K) :
    Reaches (winner :: winners) key ↔ key ≤ winner.record.key ∨ Reaches winners key := by
  simp [Reaches]

theorem reaches_beyond (beyond : winner.record.key < key) (reach : Reaches (winner :: winners) key) :
    Reaches winners key := by
  obtain ⟨other, member, bound⟩ := reach
  cases List.mem_cons.mp member with
  | inl same =>
      rw [same] at bound
      exact absurd beyond (not_lt.mpr bound)
  | inr within => exact ⟨other, within, bound⟩

end

variable {S K : Type} [DecidableEq S] [LinearOrder K]

def accountOf (base : S) (key : K) (winners : List (Winner S K)) (conflicts : Conflicts S K) : Account S where
  winner := (winners.find? fun winner => winner.record.key = key).bind fun winner =>
    winner.record.value.map fun value => (winner.source, value)
  losers owner := conflicts.losers.lookup (owner, key)
  holder owner := (conflicts.winnerExceptions.lookup (owner, key)).getD base

section

variable {base new : S} {winner placed : Winner S K} {winners merged : List (Winner S K)} {record : Record K Value}
  {records : List (Record K Value)} {conflicts noted final : Conflicts S K} {key : K} {value best : Value}

theorem accountOf_cons (winner : Winner S K)
    (same : accountOf base key merged noted = accountOf base key winners conflicts) :
    accountOf base key (winner :: merged) noted = accountOf base key (winner :: winners) conflicts := by
  rw [accountOf, accountOf, Account.mk.injEq] at same
  obtain ⟨found, losers, holder⟩ := same
  rw [accountOf, accountOf, Account.mk.injEq]
  refine ⟨?_, losers, holder⟩
  rw [List.find?_cons, List.find?_cons]
  split
  · rfl
  · exact found

theorem accountOf_other (different : winner.record.key ≠ key) :
    accountOf base key (winner :: winners) conflicts = accountOf base key winners conflicts := by
  simp [accountOf, different]

theorem accountOf_mem {source : S} (won : (accountOf base key winners conflicts).winner = some (source, value)) :
    ∃ winner ∈ winners, winner.record.key = key ∧ winner.source = source ∧ winner.record.value = some value := by
  obtain ⟨winner, found, valued⟩ := Option.bind_eq_some_iff.mp won
  obtain ⟨held, same, paired⟩ := Option.map_eq_some_iff.mp valued
  cases paired
  exact ⟨winner, List.mem_of_find?_eq_some found, by simpa using List.find?_some found, rfl, same⟩

theorem mem_accountOf (distinct : (winners.map fun winner => winner.record.key).Nodup) (member : winner ∈ winners)
    (held : winner.record.value = some value) :
    (accountOf base winner.record.key winners conflicts).winner = some (winner.source, value) := by
  have found : (winners.find? fun other => other.record.key = winner.record.key) = some winner := by
    cases search : winners.find? fun other => other.record.key = winner.record.key with
    | none =>
        have missing := List.find?_eq_none.mp search winner member
        simp at missing
    | some other =>
        have same : other.record.key = winner.record.key := by simpa using List.find?_some search
        rw [List.inj_on_of_nodup_map distinct (List.mem_of_find?_eq_some search) member same]
  simp [accountOf, found, held]

/-- The winners of the first reply. -/
theorem accountOf_first (base : S) (records : List (Record K Value)) (key : K) :
    accountOf base key (records.map fun record => (⟨record, base⟩ : Winner S K)) ⟨∅, ∅⟩ =
      (Account.start base).hear base (answerIn records key) := by
  have losers (owner : S) : AList.lookup (owner, key) (∅ : AList fun _ : S × K => Value × List S) = none :=
    AList.lookup_empty _
  have holders (owner : S) : AList.lookup (owner, key) (∅ : AList fun _ : S × K => S) = none := AList.lookup_empty _
  simp only [accountOf, answerIn, losers, holders, Option.getD_none, List.find?_map, Function.comp_def]
  cases records.find? fun record => record.key = key with
  | none => rfl
  | some record =>
      cases valued : record.value with
      | none => simp [valued, Account.hear, Account.start]
      | some value => simp [valued, Account.hear, Account.start, Account.receive]

/-- The notes about a winner do not touch other keys. -/
theorem accountOf_outdate {data : Value} {server : S} (different : winner.record.key ≠ key) :
    accountOf base key winners (conflicts.outdate winner data server) = accountOf base key winners conflicts := by
  have other (owner : S) : (owner, key) ≠ (winner.source, winner.record.key) := by
    intro same
    exact different (Prod.mk.inj same).2.symm
  simp only [accountOf, Conflicts.outdate, AList.lookup_insert_ne (other _)]

theorem accountOf_except {owner server : S} {noting : K} (different : noting ≠ key) :
    accountOf base key winners (conflicts.except (owner, noting) server) = accountOf base key winners conflicts := by
  have other (holder : S) : (holder, key) ≠ (owner, noting) := by
    intro same
    exact different (Prod.mk.inj same).2.symm
  simp only [accountOf, Conflicts.except, AList.lookup_insert_ne (other _)]

theorem lookup_outdate (conflicts : Conflicts S K) (winner : Winner S K) (data : Value) (server owner : S) :
    (conflicts.outdate winner data server).losers.lookup (owner, winner.record.key) =
      Function.update (fun owner => conflicts.losers.lookup (owner, winner.record.key)) winner.source
        (some (data, server :: (accountOf base winner.record.key winners conflicts).servers winner.source)) owner := by
  by_cases same : owner = winner.source
  · subst same
    rw [Conflicts.outdate, AList.lookup_insert, Function.update_self]
    rfl
  · have other : (owner, winner.record.key) ≠ (winner.source, winner.record.key) :=
      fun equal => same (Prod.mk.inj equal).1
    rw [Conflicts.outdate, AList.lookup_insert_ne other, Function.update_of_ne same]

theorem lookup_except (conflicts : Conflicts S K) (base source server owner : S) (key : K) :
    ((conflicts.except (source, key) server).winnerExceptions.lookup (owner, key)).getD base =
      Function.update (fun owner => (conflicts.winnerExceptions.lookup (owner, key)).getD base) source server
        owner := by
  by_cases same : owner = source
  · subst same
    rw [Conflicts.except, AList.lookup_insert, Function.update_self]
    rfl
  · have other : (owner, key) ≠ (source, key) := fun equal => same (Prod.mk.inj equal).1
    rw [Conflicts.except, AList.lookup_insert_ne other, Function.update_of_ne same]

theorem accountOf_newer (held : winner.record.value = some best) (valued : record.value = some value)
    (equal : winner.record.key = record.key) (newer : version best < version value) :
    accountOf base winner.record.key (⟨record, new⟩ :: winners)
        ((conflicts.outdate winner value
          ((conflicts.winnerExceptions.lookup (winner.source, winner.record.key)).getD base)).except
            (winner.source, winner.record.key) new) =
      (accountOf base winner.record.key (winner :: winners) conflicts).receive new value := by
  have won : (accountOf base winner.record.key (winner :: winners) conflicts).winner = some (winner.source, best) := by
    simp [accountOf, held]
  simp only [Account.receive, won, if_pos newer]
  rw [accountOf, Account.mk.injEq]
  refine ⟨by simp [equal, valued], funext fun owner => ?_, funext fun owner => ?_⟩
  · exact lookup_outdate conflicts winner value _ owner
  · exact lookup_except _ base winner.source new owner winner.record.key

theorem accountOf_older (held : winner.record.value = some best) (older : version value < version best) :
    accountOf base winner.record.key (winner :: winners) (conflicts.outdate winner best new) =
      (accountOf base winner.record.key (winner :: winners) conflicts).receive new value := by
  have won : (accountOf base winner.record.key (winner :: winners) conflicts).winner = some (winner.source, best) := by
    simp [accountOf, held]
  simp only [Account.receive, won, if_neg older.not_gt, if_pos older]
  rw [accountOf, Account.mk.injEq]
  exact ⟨won, funext fun owner => lookup_outdate conflicts winner best new owner, rfl⟩

theorem accountOf_tie (held : winner.record.value = some best) (tie : version value = version best) :
    (accountOf base winner.record.key (winner :: winners) conflicts).receive new value =
      accountOf base winner.record.key (winner :: winners) conflicts := by
  have won : (accountOf base winner.record.key (winner :: winners) conflicts).winner = some (winner.source, best) := by
    simp [accountOf, held]
  simp only [Account.receive, won, tie, lt_self_iff_false, if_false]

theorem accountOf_kept (held : winner.record.value = some best) (notNewer : ¬ compareMetadata best value < 0) :
    accountOf base winner.record.key (winner :: winners)
        (if _older : 0 < compareMetadata best value then conflicts.outdate winner best new else conflicts) =
      (accountOf base winner.record.key (winner :: winners) conflicts).receive new value := by
  split
  · next older => exact accountOf_older held (compareMetadata_pos.mp older)
  · next notOlder => exact (accountOf_tie held (compareMetadata_zero.mp (by omega)).symm).symm

theorem accountOf_kept_other (different : winner.record.key ≠ key) :
    accountOf base key winners
        (if _older : 0 < compareMetadata best value then conflicts.outdate winner best new else conflicts) =
      accountOf base key winners conflicts := by
  split
  · exact accountOf_outdate different
  · rfl

theorem accountOf_added (valued : record.value = some value)
    (absent : ∀ winner ∈ winners, winner.record.key ≠ record.key) :
    accountOf base record.key (⟨record, new⟩ :: winners) (conflicts.except (new, record.key) new) =
      (accountOf base record.key winners conflicts).receive new value := by
  have missing : (winners.find? fun winner => winner.record.key = record.key) = none :=
    List.find?_eq_none.mpr fun winner member => by simpa using absent winner member
  have won : (accountOf base record.key winners conflicts).winner = none := by
    rw [accountOf, missing]
    rfl
  simp only [Account.receive, won]
  rw [accountOf, Account.mk.injEq]
  refine ⟨by simp [valued], rfl, funext fun owner => ?_⟩
  exact lookup_except conflicts base new new owner record.key

/-- The rest of the merge leaves the account of a winner that it has passed. -/
theorem accounts_passed (absent : ∀ record ∈ records, record.key ≠ winner.record.key)
    (skip : ∀ key, heard (winner :: winners) records key = heard winners records key)
    (rest : ∀ key, accountOf base key merged final =
      (accountOf base key winners conflicts).hear new (heard winners records key)) (key : K) :
    accountOf base key (winner :: merged) final =
      (accountOf base key (winner :: winners) conflicts).hear new (heard (winner :: winners) records key) := by
  by_cases same : winner.record.key = key
  · subst same
    have left := rest winner.record.key
    rw [heard_none absent] at left ⊢
    exact accountOf_cons winner left
  · rw [accountOf_other same, accountOf_other same, skip, rest]

/-- A record of a winner's key is settled with it. -/
theorem accounts_settled (equal : winner.record.key = record.key) (placedKey : placed.record.key = winner.record.key)
    (valued : record.value = some value) (absent : ∀ other ∈ records, other.key ≠ winner.record.key)
    (skip : ∀ key, heard (winner :: winners) records key = heard winners records key)
    (others : ∀ key, winner.record.key ≠ key →
      accountOf base key winners noted = accountOf base key winners conflicts)
    (here : accountOf base winner.record.key (placed :: winners) noted =
      (accountOf base winner.record.key (winner :: winners) conflicts).receive new value)
    (rest : ∀ key, accountOf base key merged final =
      (accountOf base key winners noted).hear new (heard winners records key)) (key : K) :
    accountOf base key (placed :: merged) final = (accountOf base key (winner :: winners) conflicts).hear new
      (heard (winner :: winners) (record :: records) key) := by
  by_cases same : winner.record.key = key
  · subst same
    have left := rest winner.record.key
    rw [heard_none absent] at left
    have reach : Reaches (winner :: winners) winner.record.key := ⟨winner, List.mem_cons_self, le_refl _⟩
    have answered : heard (winner :: winners) (record :: records) winner.record.key = some value := by
      rw [heard, if_pos reach, answerIn_cons, if_pos equal.symm, valued]
    rw [answered, accountOf_cons placed left]
    exact here
  · have recordOther : record.key ≠ key := by rwa [← equal]
    have placedOther : placed.record.key ≠ key := by rwa [placedKey]
    rw [accountOf_other placedOther, accountOf_other same, heard_cons recordOther, skip, rest, others key same]

/-- A record before the winners is inserted. -/
theorem accounts_inserted (valued : record.value = some value)
    (first : ∀ winner ∈ winners, record.key < winner.record.key) (some : winners ≠ [])
    (absent : ∀ other ∈ records, other.key ≠ record.key)
    (rest : ∀ key, accountOf base key merged final =
      (accountOf base key winners (conflicts.except (new, record.key) new)).hear new (heard winners records key))
    (key : K) :
    accountOf base key (⟨record, new⟩ :: merged) final =
      (accountOf base key winners conflicts).hear new (heard winners (record :: records) key) := by
  by_cases same : record.key = key
  · subst same
    have left := rest record.key
    rw [heard_none absent] at left
    obtain ⟨winner, member⟩ := List.exists_mem_of_ne_nil winners some
    have reach : Reaches winners record.key := ⟨winner, member, (first winner member).le⟩
    have answered : heard winners (record :: records) record.key = .some value := by
      rw [heard, if_pos reach, answerIn_cons, if_pos rfl, valued]
    rw [answered, accountOf_cons ⟨record, new⟩ left]
    exact accountOf_added valued fun winner member => (first winner member).ne'
  · have placedOther : (⟨record, new⟩ : Winner S K).record.key ≠ key := same
    rw [accountOf_other placedOther, heard_cons same, rest, accountOf_except same]

/-- Winners and records with values merge. -/
theorem merge_defined (base new : S) {winners : List (Winner S K)} {records : List (Record K Value)}
    (conflicts : Conflicts S K) (held : ∀ winner ∈ winners, winner.record.value ≠ none)
    (valued : ∀ record ∈ records, record.value ≠ none) :
    ∃ merged noted, merge base new winners records conflicts = .ok (merged, noted) ∧
      ∀ winner ∈ merged, winner.record.value ≠ none := by
  fun_induction merge base new winners records conflicts with
  | case1 => exact ⟨[], _, rfl, List.forall_mem_nil _⟩
  | case2 winner winners conflicts => exact ⟨winner :: winners, conflicts, rfl, held⟩
  | case3 winner winners record records conflicts best value heldHere valuedHere before ih =>
      obtain ⟨merged, noted, done, defined⟩ := ih (fun other member => held other (by simp [member])) valued
      refine ⟨winner :: merged, noted, by rw [done]; rfl, ?_⟩
      simpa [held winner (by simp)] using defined
  | case4 winner winners record records conflicts best value heldHere valuedHere before equal key cmp newer server
      noting ih =>
      obtain ⟨merged, noted, done, defined⟩ := ih (fun other member => held other (by simp [member]))
        (fun other member => valued other (by simp [member]))
      refine ⟨⟨record, new⟩ :: merged, noted, by rw [done]; rfl, ?_⟩
      simpa [valued record (by simp)] using defined
  | case5 winner winners record records conflicts best value heldHere valuedHere before equal key cmp newer ih =>
      obtain ⟨merged, noted, done, defined⟩ := ih (fun other member => held other (by simp [member]))
        (fun other member => valued other (by simp [member]))
      refine ⟨winner :: merged, noted, by rw [done]; rfl, ?_⟩
      simpa [held winner (by simp)] using defined
  | case6 winner winners record records conflicts best value heldHere valuedHere before equal noting ih =>
      obtain ⟨merged, noted, done, defined⟩ := ih held (fun other member => valued other (by simp [member]))
      refine ⟨⟨record, new⟩ :: merged, noted, by rw [done]; rfl, ?_⟩
      simpa [valued record (by simp)] using defined
  | case7 winner winners record records conflicts missing =>
      obtain ⟨best, heldHere⟩ := Option.ne_none_iff_exists'.mp (held winner (by simp))
      obtain ⟨value, valuedHere⟩ := Option.ne_none_iff_exists'.mp (valued record (by simp))
      exact absurd valuedHere (missing best value heldHere)

/-- What a merge of lists in ascending order comes to. -/
structure Merges (base new : S) (winners : List (Winner S K)) (records : List (Record K Value))
    (conflicts : Conflicts S K) (merged : List (Winner S K)) (noted : Conflicts S K) : Prop where
  above : ∀ key, (∀ winner ∈ winners, key < winner.record.key) → (∀ record ∈ records, key < record.key) →
    ∀ winner ∈ merged, key < winner.record.key
  sorted : merged.Pairwise fun left right => left.record.key < right.record.key
  reach : ∀ key, Reaches merged key ↔ Reaches winners key
  accounts : ∀ key, accountOf base key merged noted =
    (accountOf base key winners conflicts).hear new (heard winners records key)

/-- A merge that puts a record of the winner's key first. -/
theorem Merges.cons {all : List (Record K Value)} (placedKey : placed.record.key = winner.record.key)
    (first : ∀ other ∈ winners, winner.record.key < other.record.key)
    (beyond : ∀ other ∈ records, winner.record.key < other.key) (within : ∀ other ∈ records, other ∈ all)
    (merges : Merges base new winners records conflicts merged noted)
    (accounts : ∀ key, accountOf base key (placed :: merged) noted =
      (accountOf base key (winner :: winners) final).hear new (heard (winner :: winners) all key)) :
    Merges base new (winner :: winners) all final (placed :: merged) noted := by
  constructor
  case above =>
    intro key lower upper other member
    cases List.mem_cons.mp member with
    | inl same =>
        rw [same, placedKey]
        exact lower winner List.mem_cons_self
    | inr later =>
        exact merges.above key (fun winner known => lower winner (List.mem_cons_of_mem _ known))
          (fun record known => upper record (within record known)) other later
  case sorted =>
    refine List.pairwise_cons.mpr ⟨?_, merges.sorted⟩
    rw [placedKey]
    exact merges.above _ first beyond
  case reach =>
    intro key
    rw [reaches_cons, reaches_cons, merges.reach, placedKey]
  case accounts => exact accounts

/-- A merge that puts a record before all winners. -/
theorem Merges.inserted (valued : record.value = some value)
    (first : ∀ other ∈ winners, record.key < other.record.key) (some : winners ≠ [])
    (beyond : ∀ other ∈ records, record.key < other.key)
    (merges : Merges base new winners records (conflicts.except (new, record.key) new) merged noted) :
    Merges base new winners (record :: records) conflicts (⟨record, new⟩ :: merged) noted := by
  constructor
  case above =>
    intro key lower upper other member
    cases List.mem_cons.mp member with
    | inl same => exact same ▸ upper record List.mem_cons_self
    | inr later =>
        exact merges.above key lower (fun record known => upper record (List.mem_cons_of_mem _ known)) other later
  case sorted => exact List.pairwise_cons.mpr ⟨merges.above _ first beyond, merges.sorted⟩
  case reach =>
    intro key
    rw [reaches_cons, merges.reach]
    refine or_iff_right_of_imp fun early => ?_
    obtain ⟨winner, member⟩ := List.exists_mem_of_ne_nil winners some
    exact ⟨winner, member, le_trans early (first winner member).le⟩
  case accounts =>
    exact accounts_inserted valued first some (fun other member => (beyond other member).ne') merges.accounts

theorem merge_ascending (ordered : winners.Pairwise fun left right => left.record.key < right.record.key)
    (ascending : records.Pairwise fun left right => left.key < right.key)
    (done : merge base new winners records conflicts = .ok (merged, noted)) :
    Merges base new winners records conflicts merged noted := by
  fun_induction merge base new winners records conflicts generalizing merged noted with
  | case1 records conflicts =>
      cases done
      refine ⟨fun _ first _ => first, ordered, fun _ => Iff.rfl, fun key => ?_⟩
      simp [heard, Reaches, Account.hear]
  | case2 winner winners conflicts =>
      cases done
      refine ⟨fun _ first _ => first, ordered, fun _ => Iff.rfl, fun key => ?_⟩
      rw [heard_none fun record member => absurd member List.not_mem_nil]
      rfl
  | case3 winner winners record records conflicts best value valued held before ih =>
      obtain ⟨⟨rest, later⟩, tail, same⟩ := bind_eq_ok.mp done
      cases same
      obtain ⟨first, others⟩ := List.pairwise_cons.mp ordered
      have merges := ih others ascending tail
      have beyond : ∀ other ∈ record :: records, winner.record.key < other.key := by
        intro other member
        cases List.mem_cons.mp member with
        | inl same => rwa [same]
        | inr within => exact before.trans ((List.pairwise_cons.mp ascending).1 other within)
      exact merges.cons rfl first beyond (fun _ => id) (accounts_passed (fun other member => (beyond other member).ne')
        (heard_skip fun other member => reaches_beyond (beyond other member)) merges.accounts)
  | case4 winner winners record records conflicts best value valued held before equal =>
      rename_i newer _ _ ih
      obtain ⟨⟨rest, later⟩, tail, same⟩ := bind_eq_ok.mp done
      cases same
      obtain ⟨first, others⟩ := List.pairwise_cons.mp ordered
      obtain ⟨beyond, otherRecords⟩ := List.pairwise_cons.mp ascending
      rw [← equal] at beyond
      have merges := ih others otherRecords tail
      refine merges.cons equal.symm first beyond (fun _ => List.mem_cons_of_mem _) ?_
      refine accounts_settled equal equal.symm valued (fun other member => (beyond other member).ne')
        (heard_skip fun other member => reaches_beyond (beyond other member)) (fun key different => ?_)
        (accountOf_newer held valued equal (compareMetadata_neg.mp newer)) merges.accounts
      rw [accountOf_except different, accountOf_outdate different]
  | case5 winner winners record records conflicts best value valued held before equal =>
      rename_i notNewer _ ih
      obtain ⟨⟨rest, later⟩, tail, same⟩ := bind_eq_ok.mp done
      cases same
      obtain ⟨first, others⟩ := List.pairwise_cons.mp ordered
      obtain ⟨beyond, otherRecords⟩ := List.pairwise_cons.mp ascending
      rw [← equal] at beyond
      have merges := ih others otherRecords tail
      refine merges.cons rfl first beyond (fun _ => List.mem_cons_of_mem _) ?_
      exact accounts_settled equal rfl valued (fun other member => (beyond other member).ne')
        (heard_skip fun other member => reaches_beyond (beyond other member)) (fun key => accountOf_kept_other)
        (accountOf_kept held notNewer) merges.accounts
  | case6 winner winners record records conflicts best value valued held before equal =>
      rename_i ih
      obtain ⟨⟨rest, later⟩, tail, same⟩ := bind_eq_ok.mp done
      cases same
      obtain ⟨beyond, otherRecords⟩ := List.pairwise_cons.mp ascending
      have merges := ih ordered otherRecords tail
      have below : record.key < winner.record.key := lt_of_le_of_ne (not_lt.mp before) (Ne.symm equal)
      have first : ∀ other ∈ winner :: winners, record.key < other.record.key := by
        intro other member
        cases List.mem_cons.mp member with
        | inl same => rwa [same]
        | inr within => exact below.trans ((List.pairwise_cons.mp ordered).1 other within)
      exact merges.inserted valued first (List.cons_ne_nil _ _) beyond
  | case7 => simp at done

/-- Records that begin like the winners are all settled with them. -/
theorem merge_prefix (distinct : (winners.map fun winner => winner.record.key).Nodup)
    (begins : records.map Record.key <+: winners.map fun winner => winner.record.key)
    (done : merge base new winners records conflicts = .ok (merged, noted)) :
    (merged.map fun winner => winner.record.key) = (winners.map fun winner => winner.record.key) ∧
      ∀ key, accountOf base key merged noted =
        (accountOf base key winners conflicts).hear new (heard winners records key) := by
  fun_induction merge base new winners records conflicts generalizing merged noted with
  | case1 records conflicts =>
      cases done
      exact ⟨rfl, fun key => by simp [heard, Reaches, Account.hear]⟩
  | case2 winner winners conflicts =>
      cases done
      refine ⟨rfl, fun key => ?_⟩
      rw [heard_none fun record member => absurd member List.not_mem_nil]
      rfl
  | case3 winner winners record records conflicts best value valued held before ih =>
      rw [List.map_cons, List.map_cons, List.cons_prefix_cons] at begins
      exact absurd begins.1 before.ne'
  | case4 winner winners record records conflicts best value valued held before equal =>
      rename_i newer _ _ ih
      obtain ⟨⟨rest, later⟩, tail, same⟩ := bind_eq_ok.mp done
      cases same
      rw [List.map_cons, List.map_cons, List.cons_prefix_cons] at begins
      obtain ⟨fresh, others⟩ := List.nodup_cons.mp distinct
      obtain ⟨keys, accounts⟩ := ih others begins.2 tail
      refine ⟨by rw [List.map_cons, List.map_cons, keys, begins.1], ?_⟩
      refine accounts_settled equal equal.symm valued (fun other member same => ?_) (heard_skip fun other member _ => ?_)
        (fun key different => ?_) (accountOf_newer held valued equal (compareMetadata_neg.mp newer)) accounts
      · have within := begins.2.subset (List.mem_map_of_mem member)
        rw [same] at within
        exact fresh within
      · obtain ⟨known, within, same⟩ := List.mem_map.mp (begins.2.subset (List.mem_map_of_mem member))
        exact ⟨known, within, same.ge⟩
      · rw [accountOf_except different, accountOf_outdate different]
  | case5 winner winners record records conflicts best value valued held before equal =>
      rename_i notNewer _ ih
      obtain ⟨⟨rest, later⟩, tail, same⟩ := bind_eq_ok.mp done
      cases same
      rw [List.map_cons, List.map_cons, List.cons_prefix_cons] at begins
      obtain ⟨fresh, others⟩ := List.nodup_cons.mp distinct
      obtain ⟨keys, accounts⟩ := ih others begins.2 tail
      refine ⟨by rw [List.map_cons, List.map_cons, keys], ?_⟩
      refine accounts_settled equal rfl valued (fun other member same => ?_) (heard_skip fun other member _ => ?_)
        (fun key => accountOf_kept_other) (accountOf_kept held notNewer) accounts
      · have within := begins.2.subset (List.mem_map_of_mem member)
        rw [same] at within
        exact fresh within
      · obtain ⟨known, within, same⟩ := List.mem_map.mp (begins.2.subset (List.mem_map_of_mem member))
        exact ⟨known, within, same.ge⟩
  | case6 winner winners record records conflicts best value valued held before equal =>
      rw [List.map_cons, List.map_cons, List.cons_prefix_cons] at begins
      exact absurd begins.1.symm equal
  | case7 => simp at done

/-- The loop inserts a record before a winner with a later key. -/
theorem inserted_out_of_order {rest : List (Winner S K)} {later : Conflicts S K}
    (tail : merge base new (winner :: winners) records conflicts = .ok (rest, later))
    (before : ¬ winner.record.key < record.key) :
    ¬ (⟨record, new⟩ :: rest).Pairwise fun left right => right.record.key < left.record.key := by
  intro descending
  obtain ⟨other, member, marked⟩ := List.mem_map.mp ((merge_keys tail).subset (List.mem_map_of_mem List.mem_cons_self))
  have less := (List.pairwise_cons.mp descending).1 other member
  rw [(Prod.mk.inj marked).1] at less
  exact before less

/-- A merge whose outcome is in descending order has inserted nothing. -/
theorem merge_descending (descending : merged.Pairwise fun left right => right.record.key < left.record.key)
    (done : merge base new winners records conflicts = .ok (merged, noted)) :
    (merged.map fun winner => winner.record.key) = winners.map fun winner => winner.record.key := by
  fun_induction merge base new winners records conflicts generalizing merged noted with
  | case1 => cases done; rfl
  | case2 => cases done; rfl
  | case3 winner winners record records conflicts best value valued held before ih =>
      obtain ⟨⟨rest, later⟩, tail, same⟩ := bind_eq_ok.mp done
      cases same
      rw [List.map_cons, List.map_cons, ih (List.pairwise_cons.mp descending).2 tail]
  | case4 winner winners record records conflicts best value valued held before equal =>
      rename_i ih
      obtain ⟨⟨rest, later⟩, tail, same⟩ := bind_eq_ok.mp done
      cases same
      rw [List.map_cons, List.map_cons, ih (List.pairwise_cons.mp descending).2 tail, equal]
  | case5 winner winners record records conflicts best value valued held before equal =>
      rename_i ih
      obtain ⟨⟨rest, later⟩, tail, same⟩ := bind_eq_ok.mp done
      cases same
      rw [List.map_cons, List.map_cons, ih (List.pairwise_cons.mp descending).2 tail]
  | case6 winner winners record records conflicts best value valued held before equal =>
      obtain ⟨⟨rest, later⟩, tail, same⟩ := bind_eq_ok.mp done
      cases same
      exact absurd descending (inserted_out_of_order tail before)
  | case7 => simp at done

/-- Records in descending order that the winners know begin like them, unless one is
inserted. -/
theorem merge_begins (ordered : winners.Pairwise fun left right => right.record.key < left.record.key)
    (sorted : records.Pairwise fun left right => right.key < left.key)
    (known : ∀ record ∈ records, ∃ winner ∈ winners, winner.record.key = record.key)
    (descending : merged.Pairwise fun left right => right.record.key < left.record.key)
    (done : merge base new winners records conflicts = .ok (merged, noted)) :
    records.map Record.key <+: winners.map fun winner => winner.record.key := by
  have follow {winner : Winner S K} {winners : List (Winner S K)} {record : Record K Value}
      {records : List (Record K Value)} (equal : winner.record.key = record.key)
      (sorted : (record :: records).Pairwise fun left right => right.key < left.key)
      (known : ∀ other ∈ record :: records, ∃ found ∈ winner :: winners, found.record.key = other.key) :
      ∀ other ∈ records, ∃ found ∈ winners, found.record.key = other.key := by
    intro other member
    obtain ⟨found, within, same⟩ := known other (List.mem_cons_of_mem _ member)
    cases List.mem_cons.mp within with
    | inl first =>
        have below := (List.pairwise_cons.mp sorted).1 other member
        rw [← same, first, equal] at below
        exact absurd below (lt_irrefl _)
    | inr later => exact ⟨found, later, same⟩
  fun_induction merge base new winners records conflicts generalizing merged noted with
  | case1 records conflicts =>
      cases records with
      | nil => exact List.prefix_rfl
      | cons record records =>
          obtain ⟨winner, member, -⟩ := known record List.mem_cons_self
          cases member
  | case2 => exact List.nil_prefix
  | case3 winner winners record records conflicts best value valued held before ih =>
      obtain ⟨found, within, same⟩ := known record List.mem_cons_self
      rw [← same] at before
      cases List.mem_cons.mp within with
      | inl first => exact absurd (first ▸ before) (lt_irrefl _)
      | inr later => exact absurd before ((List.pairwise_cons.mp ordered).1 found later).asymm
  | case4 winner winners record records conflicts best value valued held before equal
  | case5 winner winners record records conflicts best value valued held before equal =>
      rename_i ih
      obtain ⟨⟨rest, later⟩, tail, same⟩ := bind_eq_ok.mp done
      cases same
      rw [List.map_cons, List.map_cons, List.cons_prefix_cons]
      exact ⟨equal.symm, ih (List.pairwise_cons.mp ordered).2 (List.pairwise_cons.mp sorted).2
        (follow equal sorted known) (List.pairwise_cons.mp descending).2 tail⟩
  | case6 winner winners record records conflicts best value valued held before equal =>
      obtain ⟨⟨rest, later⟩, tail, same⟩ := bind_eq_ok.mp done
      cases same
      exact absurd descending (inserted_out_of_order tail before)
  | case7 => simp at done

end

end RangeHandle

end Scads.Client
