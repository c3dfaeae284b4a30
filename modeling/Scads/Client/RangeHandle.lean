import Mathlib.Data.List.AList
import Scads.Client.Metadata
import Scads.Client.Quorum

namespace Scads.Client

open Scads.Comm

/-! # Voting on the replies of a range read -/

/-- A record with the server it came from.  Two key arrays are the same object
when both the server and the key agree. -/
structure Winner (S K : Type) where
  record : Record K Value
  source : S

/-- What a merge notes about outdated servers.  The hash maps compare arrays by
identity. -/
structure Conflicts (S K : Type) where
  losers : AList fun _ : S × K => Value × List S
  winnerExceptions : AList fun _ : S × K => S

structure RangeHandle (S K : Type) where
  futures : Nat
  responses : List (S × StorageMessage K Value)
  winners : List (Winner S K) := []
  conflicts : Conflicts S K := ⟨∅, ∅⟩
  baseServer : Option S := none
  failed : Bool := false
  ctr : Nat := 0

namespace Conflicts

variable {S K : Type} [DecidableEq S] [DecidableEq K]

def outdate (conflicts : Conflicts S K) (winner : Winner S K) (data : Value) (server : S) : Conflicts S K :=
  let key := (winner.source, winner.record.key)
  let servers := match conflicts.losers.lookup key with
    | some (_, servers) => servers
    | none => []
  { conflicts with losers := conflicts.losers.insert key (data, server :: servers) }

def except (conflicts : Conflicts S K) (key : S × K) (server : S) : Conflicts S K :=
  { conflicts with winnerExceptions := conflicts.winnerExceptions.insert key server }

end Conflicts

namespace RangeHandle

variable {S K : Type} [DecidableEq S] [LinearOrder K]

/-- The loop of `merge` from the winner at `i` on. -/
def merge (baseServer newServer : S) :
    List (Winner S K) → List (Record K Value) → Conflicts S K →
      Except Failure (List (Winner S K) × Conflicts S K)
  | [], _, conflicts => .ok ([], conflicts)
  | winner :: winners, [], conflicts => .ok (winner :: winners, conflicts)
  | winner :: winners, new :: recordPtr, conflicts =>
      match winner.record.value, new.value with
      | some winnerValue, some newValue =>
          if winner.record.key < new.key then do
            let (merged, conflicts) ← merge baseServer newServer winners (new :: recordPtr) conflicts
            return (winner :: merged, conflicts)
          else if winner.record.key = new.key then
            let key := (winner.source, winner.record.key)
            let cmp := compareMetadata winnerValue newValue
            if cmp < 0 then do
              let outdatedServer := (conflicts.winnerExceptions.lookup key).getD baseServer
              let conflicts := (conflicts.outdate winner newValue outdatedServer).except key newServer
              let (merged, conflicts) ← merge baseServer newServer winners recordPtr conflicts
              return (⟨new, newServer⟩ :: merged, conflicts)
            else do
              let conflicts := if 0 < cmp then conflicts.outdate winner winnerValue newServer else conflicts
              let (merged, conflicts) ← merge baseServer newServer winners recordPtr conflicts
              return (winner :: merged, conflicts)
          else do
            let conflicts := conflicts.except (newServer, new.key) newServer
            let (merged, conflicts) ← merge baseServer newServer (winner :: winners) recordPtr conflicts
            return (⟨new, newServer⟩ :: merged, conflicts)
      | _, _ => .error (.assertion "assertion failed")
termination_by winners records => winners.length + records.length

def processNext (handle : RangeHandle S K) : Except Failure (RangeHandle S K) :=
  let handle := { handle with ctr := handle.ctr + 1 }
  match handle.responses with
  -- the poll timed out
  | [] => .ok { handle with failed := true }
  | (source, message) :: rest =>
      let handle := { handle with responses := rest }
      match message with
      | .getRangeResponse result =>
          match handle.winners, handle.baseServer with
          | [], _ =>
              .ok { handle with winners := result.map (⟨·, source⟩), baseServer := some source }
          | winners, some baseServer => do
              let (winners, conflicts) ← merge baseServer source winners result handle.conflicts
              return { handle with winners, conflicts }
          -- winners and their server are set together
          | _, none => .error (.noSuchElement "None.get")
      | m => .error (.runtime ("Unexpected Message (was expecting GetRangeResponse): " ++ m.toString))

def processTimes : Nat → RangeHandle S K → Except Failure (RangeHandle S K)
  | 0, handle => .ok handle
  | count + 1, handle => do processTimes count (← handle.processNext)

def vote (handle : RangeHandle S K) (quorum : Nat) : Except Failure (RangeHandle S K) :=
  handle.processTimes quorum

def processRest (handle : RangeHandle S K) : Except Failure (RangeHandle S K) :=
  handle.processTimes (handle.futures - handle.ctr)

/-- The repairs sent when the read repair thread gets to the handle. -/
def finish (handle : RangeHandle S K) : Except Failure (List (S × PutRequest K Value)) := do
  let handle ← handle.processRest
  return handle.conflicts.losers.entries.flatMap fun loser =>
    loser.2.2.map fun server => (server, ⟨loser.1.2, some loser.2.1⟩)

/-- A handle before its first reply is taken. -/
def opened (futures : Nat) (replies : List (S × List (Record K Value))) : RangeHandle S K :=
  { futures, responses := replies.map fun reply => (reply.1, .getRangeResponse reply.2) }

/-- Merging a reply that agrees with the winners changes nothing. -/
theorem merge_same (baseServer newServer : S) (winners : List (Winner S K)) (conflicts : Conflicts S K)
    (defined : ∀ winner ∈ winners, winner.record.value ≠ none) :
    merge baseServer newServer winners (winners.map Winner.record) conflicts = .ok (winners, conflicts) := by
  induction winners with
  | nil => simp [merge]
  | cons winner winners ih =>
      obtain ⟨value, held⟩ := Option.ne_none_iff_exists'.mp (defined winner (by simp))
      have equal : compareMetadata value value = 0 := compareMetadata_zero.mpr rfl
      rw [List.map_cons, merge, held]
      simp [equal, ih fun other member => defined other (by simp [member])]

/-- The key of a record and whether it has a value. -/
def mark (record : Record K Value) : K × Bool := (record.key, record.value.isSome)

/-- A merge adds and replaces records and removes no key. -/
theorem merge_keys {baseServer newServer : S} {winners merged : List (Winner S K)}
    {records : List (Record K Value)} {conflicts noted : Conflicts S K}
    (done : merge baseServer newServer winners records conflicts = .ok (merged, noted)) :
    (winners.map fun winner => mark winner.record).Sublist (merged.map fun winner => mark winner.record) := by
  fun_induction merge baseServer newServer winners records conflicts generalizing merged noted with
  | case1 => simp
  | case2 =>
      cases done
      exact List.Sublist.refl _
  | case3 winner winners new recordPtr conflicts winnerValue newValue _ _ _ ih =>
      obtain ⟨⟨rest, later⟩, tail, same⟩ := bind_eq_ok.mp done
      cases same
      exact .cons_cons _ (ih tail)
  | case4 =>
      rename_i held old _ equal _ _ _ _ _ ih
      obtain ⟨⟨rest, later⟩, tail, same⟩ := bind_eq_ok.mp done
      cases same
      simp only [List.map_cons, mark, equal, held, old, Option.isSome_some]
      exact .cons_cons _ (ih tail)
  | case5 =>
      rename_i ih
      obtain ⟨⟨rest, later⟩, tail, same⟩ := bind_eq_ok.mp done
      cases same
      exact .cons_cons _ (ih tail)
  | case6 =>
      rename_i ih
      obtain ⟨⟨rest, later⟩, tail, same⟩ := bind_eq_ok.mp done
      cases same
      exact .cons _ (ih tail)
  | case7 => simp at done

theorem processNext_keys {handle next : RangeHandle S K} (processed : handle.processNext = .ok next) :
    (handle.winners.map fun winner => mark winner.record).Sublist
      (next.winners.map fun winner => mark winner.record) := by
  unfold processNext at processed
  cases waiting : handle.responses with
  | nil =>
      simp only [waiting] at processed
      cases processed
      exact List.Sublist.refl _
  | cons response rest =>
      obtain ⟨source, message⟩ := response
      simp only [waiting] at processed
      split at processed
      · split at processed
        · rename_i empty
          rw [empty]
          exact List.nil_sublist _
        · obtain ⟨⟨winners, conflicts⟩, merged, same⟩ := bind_eq_ok.mp processed
          cases same
          exact merge_keys merged
        · cases processed
      · cases processed

theorem processTimes_keys {count : Nat} {handle final : RangeHandle S K}
    (processed : handle.processTimes count = .ok final) :
    (handle.winners.map fun winner => mark winner.record).Sublist
      (final.winners.map fun winner => mark winner.record) := by
  induction count generalizing handle with
  | zero =>
      cases processed
      exact List.Sublist.refl _
  | succ count ih =>
      obtain ⟨next, first, rest⟩ := bind_eq_ok.mp processed
      exact (processNext_keys first).trans (ih rest)

/-- Every key of the first reply stays among the winners. -/
theorem vote_first {futures quorum : Nat} {source : S} {records : List (Record K Value)}
    {replies : List (S × List (Record K Value))} {handle : RangeHandle S K} (positive : 1 ≤ quorum)
    (voted : (opened futures ((source, records) :: replies)).vote quorum = .ok handle) :
    (records.map mark).Sublist ((handle.winners.map Winner.record).map mark) := by
  obtain ⟨count, rfl⟩ := Nat.exists_eq_add_of_le' positive
  obtain ⟨next, first, rest⟩ := bind_eq_ok.mp voted
  have kept := processTimes_keys rest
  simp only [processNext, opened, List.map_cons] at first
  cases first
  simpa [List.map_map, Function.comp_def] using kept

/-- A handle all of whose replies have been this one so far. -/
structure Agreed (records : List (Record K Value)) (handle : RangeHandle S K) : Prop where
  winners : handle.winners.map Winner.record = records
  base : handle.baseServer ≠ none
  responded : handle.failed = false

theorem processNext_agreed {handle : RangeHandle S K} {records : List (Record K Value)} {source : S}
    {rest : List (S × StorageMessage K Value)} (defined : ∀ record ∈ records, record.value ≠ none)
    (agreed : Agreed records handle) (waiting : handle.responses = (source, .getRangeResponse records) :: rest) :
    ∃ next, handle.processNext = .ok next ∧ Agreed records next ∧ next.responses = rest := by
  obtain ⟨base, known⟩ := Option.ne_none_iff_exists'.mp agreed.base
  cases held : handle.winners with
  | nil =>
      have empty : records = [] := by rw [← agreed.winners, held, List.map_nil]
      refine ⟨{ handle with
        ctr := handle.ctr + 1, responses := rest, winners := [], baseServer := some source }, ?_, ?_, rfl⟩
      · simp [processNext, waiting, held, empty]
      · exact ⟨by simp [empty], by simp, agreed.responded⟩
  | cons winner winners =>
      have merged := merge_same base source (winner :: winners) handle.conflicts (by
        intro other member
        refine defined other.record ?_
        rw [← agreed.winners, held]
        exact List.mem_map_of_mem member)
      have same : (winner :: winners).map Winner.record = records := by rw [← held, agreed.winners]
      rw [same] at merged
      refine ⟨{ handle with ctr := handle.ctr + 1, responses := rest }, ?_, ?_, rfl⟩
      · simp [processNext, waiting, held, known, merged]
      · exact ⟨agreed.winners, agreed.base, agreed.responded⟩

theorem processTimes_agreed {count : Nat} {handle : RangeHandle S K} {records : List (Record K Value)}
    {replies : List (S × List (Record K Value))} (defined : ∀ record ∈ records, record.value ≠ none)
    (agreed : Agreed records handle) (same : ∀ reply ∈ replies, reply.2 = records)
    (waiting : handle.responses = replies.map fun reply => (reply.1, .getRangeResponse reply.2))
    (enough : count ≤ replies.length) :
    ∃ final, handle.processTimes count = .ok final ∧ Agreed records final := by
  induction count generalizing handle replies with
  | zero => exact ⟨handle, rfl, agreed⟩
  | succ count ih =>
      cases replies with
      | nil => simp at enough
      | cons reply replies =>
          rw [List.map_cons, same reply (by simp)] at waiting
          obtain ⟨next, processed, agreed, left⟩ := processNext_agreed defined agreed waiting
          obtain ⟨final, done, result⟩ := ih agreed (fun other member => same other (by simp [member]))
            left (by simpa using enough)
          exact ⟨final, by simp [processTimes, processed, done], result⟩

/-- A vote over equal replies returns what they say. -/
theorem vote_agreed {futures quorum : Nat} {records : List (Record K Value)}
    {replies : List (S × List (Record K Value))} (defined : ∀ record ∈ records, record.value ≠ none)
    (same : ∀ reply ∈ replies, reply.2 = records) (positive : 1 ≤ quorum)
    (enough : quorum ≤ replies.length) :
    ∃ handle, (opened futures replies).vote quorum = .ok handle ∧ Agreed records handle := by
  obtain ⟨count, rfl⟩ := Nat.exists_eq_add_of_le' positive
  cases replies with
  | nil => simp at enough
  | cons reply replies =>
      have first : Agreed records
          ({ opened futures replies with
            ctr := 1, winners := reply.2.map (⟨·, reply.1⟩), baseServer := some reply.1 } :
            RangeHandle S K) := by
        refine ⟨?_, by simp, rfl⟩
        rw [same reply (by simp), List.map_map]
        exact List.map_id _
      obtain ⟨final, done, agreed⟩ := @processTimes_agreed _ _ _ _ count _ _ replies defined first
        (fun other member => same other (by simp [member])) rfl (by simpa using enough)
      exact ⟨final, by simpa [vote, processTimes, processNext, opened] using done, agreed⟩

end RangeHandle

end Scads.Client
