import Scads.Data.Machines
import Scads.Server.PartitionHandler

namespace Scads.Server

open Scads.Data Scads.Comm

/-! # Iterators over the records of a partition

`FutureBasedIterator` reads a partition page by page and asks for a page before the
one at hand is used up.  A future is the reply that it comes to.
-/

/-- The failure of a loop that has used up its rounds. -/
instance : Inhabited Failure := ⟨.timeout⟩

/-- The abstract methods of `FutureBasedIterator`.  `σ` has the variables of the
subclass and the state of the server that it asks. -/
structure FutureProtocol (ρ α σ : Type) where
  issueNextRequest : σ → ρ × σ
  canRequestMore : σ → Bool
  getRecordsFromFuture : ρ → σ → Except Failure (List α × σ)

structure FutureBasedIterator (ρ α σ : Type) where
  isDone : Bool := false
  currentBuffer : List α := []
  currentIdx : Nat := 0
  activeFuture : Option ρ := none
  protocol : σ

namespace FutureBasedIterator

variable {ρ α σ : Type}

def issue (methods : FutureProtocol ρ α σ) (iterator : FutureBasedIterator ρ α σ) : FutureBasedIterator ρ α σ :=
  let (future, protocol) := methods.issueNextRequest iterator.protocol
  { iterator with activeFuture := some future, protocol }

def receive (iterator : FutureBasedIterator ρ α σ) (records : List α) (protocol : σ) : FutureBasedIterator ρ α σ :=
  { iterator with currentBuffer := records, currentIdx := 0, activeFuture := none, protocol }

def hasNext (methods : FutureProtocol ρ α σ) :
    Nat → FutureBasedIterator ρ α σ → Except Failure (Bool × FutureBasedIterator ρ α σ)
  | 0, _ => .error default
  | rounds + 1, iterator =>
      if iterator.isDone then .ok (false, iterator)
      else if iterator.currentIdx < iterator.currentBuffer.length then .ok (true, iterator)
      else
        match iterator.activeFuture with
        | some future => do
            let (records, protocol) ← methods.getRecordsFromFuture future iterator.protocol
            hasNext methods rounds (iterator.receive records protocol)
        | none =>
            if methods.canRequestMore iterator.protocol then hasNext methods rounds (iterator.issue methods)
            else .ok (false, { iterator with isDone := true })

/-- What `next` does with the record that `hasNext` found. -/
def take (methods : FutureProtocol ρ α σ) (recsPerMessageDiv2 : Int) (iterator : FutureBasedIterator ρ α σ) :
    Except Failure (α × FutureBasedIterator ρ α σ) :=
  match iterator.currentBuffer[iterator.currentIdx]? with
  | none => .error (.indexOutOfBounds iterator.currentIdx)
  | some res =>
      let iterator := { iterator with currentIdx := iterator.currentIdx + 1 }
      if recsPerMessageDiv2 ≤ iterator.currentIdx && iterator.activeFuture.isNone &&
          methods.canRequestMore iterator.protocol then
        .ok (res, iterator.issue methods)
      else .ok (res, iterator)

def next (methods : FutureProtocol ρ α σ) (recsPerMessageDiv2 : Int) (rounds : Nat)
    (iterator : FutureBasedIterator ρ α σ) : Except Failure (α × FutureBasedIterator ρ α σ) := do
  let (more, iterator) ← iterator.hasNext methods rounds
  if more then iterator.take methods recsPerMessageDiv2
  else .error (.unsupportedOperation "next on empty iterator")

/-- The iterator that the constructor gives. -/
def machine (methods : FutureProtocol ρ α σ) (recsPerMessage : Int) (protocol : σ) : Machine Failure α where
  State := FutureBasedIterator ρ α σ
  initial := { protocol }
  opened _ iterator :=
    if 0 < recsPerMessage then .ok iterator else .error (.illegalArgument "requirement failed")
  hasNext := hasNext methods
  next := next methods (recsPerMessage / 2)

end FutureBasedIterator

/-- The records that a protocol has still to give, with the reply that is under way. -/
inductive FutureProtocol.Gives {ρ α σ : Type} (methods : FutureProtocol ρ α σ) : Option ρ → σ → List α → Prop where
  | ends {protocol : σ} (last : methods.canRequestMore protocol = false) : Gives methods none protocol []
  | asks {protocol : σ} {records : List α} (more : methods.canRequestMore protocol = true)
      (rest :
        Gives methods (some (methods.issueNextRequest protocol).1) (methods.issueNextRequest protocol).2 records) :
      Gives methods none protocol records
  | page {future : ρ} {protocol after : σ} {records others : List α}
      (received : methods.getRecordsFromFuture future protocol = .ok (records, after))
      (rest : Gives methods none after others) : Gives methods (some future) protocol (records ++ others)

namespace FutureBasedIterator

variable {ρ α σ : Type} {methods : FutureProtocol ρ α σ} {iterator : FutureBasedIterator ρ α σ}

/-- The rest of the page at hand and the pages after it. -/
structure Pending (methods : FutureProtocol ρ α σ) (iterator : FutureBasedIterator ρ α σ) (here later : List α) :
    Prop where
  held : iterator.currentBuffer.drop iterator.currentIdx = here
  gives : methods.Gives iterator.activeFuture iterator.protocol later
  ended : iterator.isDone = true → here = [] ∧ later = []

/-- `hasNext` stops at a page that has a record left, or at the end. -/
def Found (methods : FutureProtocol ρ α σ) (iterator : FutureBasedIterator ρ α σ) (records : List α) : Prop :=
  ∃ after here later, Settles (iterator.hasNext methods ·) (.ok (!records.isEmpty, after)) ∧
    Pending methods after here later ∧ here ++ later = records ∧ (here = [] → later = [])

theorem found_here {here later : List α} (pending : Pending methods iterator here later) (some : here ≠ []) :
    Found methods iterator (here ++ later) := by
  have more : iterator.currentIdx < iterator.currentBuffer.length := by
    have length := congrArg List.length pending.held
    have positive := List.length_pos_iff.mpr some
    rw [List.length_drop] at length
    omega
  have going : iterator.isDone = false := by
    cases done : iterator.isDone with
    | true => exact absurd (pending.ended done).1 some
    | false => rfl
  refine ⟨iterator, here, later, .of_succ ?_, pending, rfl, fun none => absurd none some⟩
  have answer : (!(here ++ later).isEmpty) = true := by simp [some]
  simp only [hasNext, going, more, if_true, Bool.false_eq_true, if_false, answer]
  exact .const _

theorem Found.of_turn {records : List α} {turned : FutureBasedIterator ρ α σ} (found : Found methods turned records)
    (turn : ∀ rounds, iterator.hasNext methods (rounds + 1) = turned.hasNext methods rounds) :
    Found methods iterator records := by
  obtain ⟨after, here, later, answered, rest⟩ := found
  exact ⟨after, here, later, .of_succ (answered.congr turn), rest⟩

/-- The induction is on the pages that are still to come. -/
theorem found_later {later : List α} (gives : methods.Gives iterator.activeFuture iterator.protocol later)
    (going : iterator.isDone = false) (short : ¬ iterator.currentIdx < iterator.currentBuffer.length) :
    Found methods iterator later := by
  generalize waiting : iterator.activeFuture = future at gives
  generalize current : iterator.protocol = protocol at gives
  induction gives generalizing iterator with
  | @ends protocol last =>
      refine ⟨{ iterator with isDone := true }, [], [], .of_succ ?_, ⟨?_, ?_, fun _ => ⟨rfl, rfl⟩⟩, rfl, fun _ => rfl⟩
      · simp only [hasNext, going, short, waiting, current, last, Bool.false_eq_true, if_false]
        exact .const _
      · exact List.drop_eq_nil_of_le (Nat.le_of_not_lt short)
      · rw [waiting, current]
        exact .ends last
  | @asks protocol records asked rest ih =>
      refine (@ih (iterator.issue methods) going short (by rw [issue, current]) (by rw [issue, current])).of_turn ?_
      intro rounds
      simp only [hasNext, going, short, waiting, current, asked, Bool.false_eq_true, if_false, if_true]
  | @page future protocol after records others received rest ih =>
      have turn (rounds : Nat) :
          iterator.hasNext methods (rounds + 1) = (iterator.receive records after).hasNext methods rounds := by
        simp only [hasNext, going, short, waiting, current, received, Bool.false_eq_true, if_false, ok_bind]
      cases records with
      | nil =>
          exact Found.of_turn (@ih (iterator.receive [] after) going (Nat.lt_irrefl 0) rfl rfl) turn
      | cons record records =>
          refine Found.of_turn (found_here ⟨rfl, rest, fun done => ?_⟩ (List.cons_ne_nil _ _)) turn
          rw [receive, going] at done
          cases done

theorem Pending.found {here later : List α} (pending : Pending methods iterator here later) :
    Found methods iterator (here ++ later) := by
  cases here with
  | cons record here => exact found_here pending (List.cons_ne_nil _ _)
  | nil =>
      cases done : iterator.isDone with
      | true =>
          obtain ⟨-, rfl⟩ := pending.ended done
          refine ⟨iterator, [], [], .of_succ ?_, pending, rfl, fun _ => rfl⟩
          simp only [hasNext, done, if_true]
          exact .const _
      | false => exact found_later pending.gives done (Nat.not_lt.mpr (List.drop_eq_nil_iff.mp pending.held))

/-- A request that is sent ahead changes nothing about the records to come. -/
theorem Pending.issue {here later : List α} (pending : Pending methods iterator here later)
    (going : iterator.isDone = false) (idle : iterator.activeFuture = none)
    (more : methods.canRequestMore iterator.protocol = true) :
    Pending methods (iterator.issue methods) here later := by
  obtain ⟨held, gives, ended⟩ := pending
  refine ⟨held, ?_, fun done => absurd done (by rw [FutureBasedIterator.issue, going]; exact Bool.false_ne_true)⟩
  rw [idle] at gives
  cases gives with
  | ends last =>
      rw [last] at more
      cases more
  | asks asked rest => exact rest

theorem take_pending {record : α} {here later : List α} (pending : Pending methods iterator (record :: here) later)
    (recsPerMessageDiv2 : Int) :
    ∃ after, iterator.take methods recsPerMessageDiv2 = .ok (record, after) ∧ Pending methods after here later := by
  have going : iterator.isDone = false := by
    cases done : iterator.isDone with
    | true => cases (pending.ended done).1
    | false => rfl
  have read : iterator.currentBuffer[iterator.currentIdx]? = some record := by
    rw [← List.head?_drop, pending.held, List.head?_cons]
  have moved : Pending methods { iterator with currentIdx := iterator.currentIdx + 1 } here later := by
    refine ⟨?_, pending.gives, fun done => ?_⟩
    · rw [← List.drop_drop, pending.held]
      rfl
    · rw [going] at done
      cases done
  rw [take, read]
  dsimp only
  split
  · rename_i ahead
    rw [Bool.and_eq_true, Bool.and_eq_true] at ahead
    exact ⟨_, rfl, moved.issue going (Option.isNone_iff_eq_none.mp ahead.1.2) ahead.2⟩
  · exact ⟨_, rfl, moved⟩

theorem simulates (methods : FutureProtocol ρ α σ) (recsPerMessage : Int) (protocol : σ) :
    (machine methods recsPerMessage protocol).Simulates fun iterator course =>
      ∃ here later, Pending methods iterator here later ∧ course = .ofList (here ++ later) where
  hasNext := by
    intro iterator _ found
    obtain ⟨here, later, pending, rfl⟩ := found
    obtain ⟨after, rest, others, answered, pending, same, -⟩ := pending.found
    rw [Course.pending_ofList]
    exact ⟨after, answered, rest, others, pending, by rw [same]⟩
  next := by
    intro iterator record left found
    obtain ⟨here, later, pending, same⟩ := found
    obtain ⟨found, rest, others, answered, pending, parts, short⟩ := pending.found
    rw [← parts] at same answered
    cases rest with
    | nil =>
        rw [short rfl] at same
        cases same
    | cons first rest =>
        cases same
        obtain ⟨after, taken, pending⟩ := take_pending pending (recsPerMessage / 2)
        refine ⟨after, answered.bind ?_, rest, others, pending, rfl⟩
        exact (Settles.const _).congr fun rounds => taken
  fails := by
    intro iterator failure found
    obtain ⟨here, later, -, same⟩ := found
    exact absurd same.symm Course.ofList_ne_fails

/-- An iterator gives the records of its protocol. -/
theorem opens {recsPerMessage : Int} (positive : 0 < recsPerMessage) {protocol : σ} {records : List α}
    (gives : methods.Gives none protocol records) :
    (machine methods recsPerMessage protocol).Opens (.ok (.ofList records)) := by
  refine ⟨{ protocol }, ?_, _, simulates methods recsPerMessage protocol, [], records, ⟨rfl, gives, nofun⟩, rfl⟩
  exact (Settles.const _).congr fun rounds => if_pos positive

/-- An iterator whose first page fails. -/
theorem drain_fails {recsPerMessage : Int} (positive : 0 < recsPerMessage) {protocol : σ} {failure : Failure}
    (more : methods.canRequestMore protocol = true)
    (fails : methods.getRecordsFromFuture (methods.issueNextRequest protocol).1
      (methods.issueNextRequest protocol).2 = .error failure) :
    Settles (machine methods recsPerMessage protocol).drain (.error failure) := by
  refine Settles.bind ((Settles.const _).congr fun rounds => if_pos positive) ?_
  refine Machine.gather_fails (.of_succ (.of_succ ((Settles.const _).congr fun rounds => ?_)))
  have asked : hasNext methods (rounds + 1 + 1) { protocol } = .error failure := by
    simp only [hasNext, issue, more, fails, Bool.false_eq_true, if_false, if_true, List.length_nil, Nat.lt_irrefl,
      error_bind]
  exact asked

end FutureBasedIterator

/-- The variables of `ActorlessPartitionIterator`. -/
structure ActorlessPartitionIterator (K : Type) where
  lastRecvKey : Option K := none
  lastSizeReturned : Int

namespace ActorlessPartitionIterator

variable {K V : Type} [LinearOrder K]

/-- `partitionService` gives the reply to a request, if there is one in time. -/
def methods (partitionService : GetRangeRequest K → Option (StorageMessage K V)) (minKey maxKey : Option K)
    (recsPerMessage : Int) :
    FutureProtocol (Option (StorageMessage K V)) (Record K V) (ActorlessPartitionIterator K) where
  issueNextRequest iterator :=
    let req : GetRangeRequest K :=
      match iterator.lastRecvKey with
      | some sk => { minKey := some sk, maxKey, limit := some recsPerMessage, offset := some 1 }
      | none => { minKey, maxKey, limit := some recsPerMessage }
    (partitionService req, iterator)
  canRequestMore iterator := iterator.lastSizeReturned = recsPerMessage
  getRecordsFromFuture ftch _ :=
    match ftch with
    | none => .error (.runtime "GetRangeRequest timedout")
    | some (.getRangeResponse recs) => .ok (recs, ⟨recs.getLast?.map Record.key, recs.length⟩)
    | some e => .error (.runtime ("Invalid response to a GetRangeRequest: " ++ e.toString))

def machine (partitionService : GetRangeRequest K → Option (StorageMessage K V)) (minKey maxKey : Option K)
    (recsPerMessage : Int) : Machine Failure (Record K V) :=
  FutureBasedIterator.machine (methods partitionService minKey maxKey recsPerMessage) recsPerMessage
    { lastSizeReturned := recsPerMessage }

end ActorlessPartitionIterator

/-- The answers of a server to range requests. -/
def answer {K V : Type} [LinearOrder K] (database : Database K V) (request : GetRangeRequest K) :
    Option (StorageMessage K V) :=
  some (process database none (.getRangeRequest request)).2

namespace Database

variable {K V : Type} [LinearOrder K]

/-- The records with `minKey ≤ key ≤ maxKey`. -/
def recordsWithin (database : Database K V) (minKey maxKey : Option K) : List (Record K V) :=
  (database.entries.filter fun entry => InRange minKey maxKey entry.1).map fun entry => ⟨entry.1, some entry.2⟩

theorem getRange_recordsWithin (database : Database K V) (minKey maxKey : Option K) (limit : Int)
    (offset : Option Int) :
    database.getRange minKey maxKey (some limit) offset true =
      ((database.recordsWithin minKey maxKey).drop (offset.getD 0).toNat).take limit.toNat := by
  rw [getRange_eq, recordsWithin]
  simp only [limited, directed, if_true, List.map_take, List.map_drop]

theorem recordsWithin_sorted (database : Database K V) (minKey maxKey : Option K) :
    (database.recordsWithin minKey maxKey).Pairwise fun earlier later => earlier.key < later.key :=
  List.pairwise_map.mpr (database.sorted.filter _)

theorem recordsWithin_narrow (database : Database K V) {minKey : Option K} (maxKey : Option K) {key : K}
    (above : minKey.all (· ≤ key)) :
    database.recordsWithin (some key) maxKey =
      (database.recordsWithin minKey maxKey).filter fun record => key ≤ record.key := by
  rw [recordsWithin, recordsWithin, List.filter_map, List.filter_filter]
  refine congrArg _ (List.filter_congr fun entry _ => ?_)
  by_cases reached : key ≤ entry.1
  · have starts : minKey.all (· ≤ entry.1) = true := by
      cases minKey with
      | none => rfl
      | some first =>
          simp only [Option.all_some, decide_eq_true_eq] at above ⊢
          exact above.trans reached
    simp [InRange, starts, reached]
  · simp [InRange, reached]

/-- A range that starts at one of the records goes on from there. -/
theorem recordsWithin_from {database : Database K V} {minKey maxKey : Option K} {front back : List (Record K V)}
    {record : Record K V} (split : database.recordsWithin minKey maxKey = front ++ record :: back) :
    database.recordsWithin (some record.key) maxKey = record :: back := by
  have above : minKey.all (· ≤ record.key) = true := by
    have member : record ∈ database.recordsWithin minKey maxKey := by
      rw [split]
      exact List.mem_append_right _ List.mem_cons_self
    obtain ⟨entry, kept, rfl⟩ := List.mem_map.mp member
    exact (Bool.and_eq_true_iff.mp (List.mem_filter.mp kept).2).1
  have sorted := database.recordsWithin_sorted minKey maxKey
  rw [split, List.pairwise_append] at sorted
  have before : front.filter (fun other => record.key ≤ other.key) = [] := by
    refine List.filter_eq_nil_iff.mpr fun other member => ?_
    have less := sorted.2.2 other member record List.mem_cons_self
    simpa using less
  have after : back.filter (fun other => record.key ≤ other.key) = back := by
    refine List.filter_eq_self.mpr fun other member => ?_
    have less := (List.pairwise_cons.mp sorted.2.1).1 other member
    simpa using less.le
  rw [database.recordsWithin_narrow maxKey above, split, List.filter_append, before, List.nil_append,
    List.filter_cons_of_pos (by simp), after]

end Database

namespace ActorlessPartitionIterator

variable {K V : Type} [LinearOrder K] {database : Database K V} {minKey maxKey : Option K} {recsPerMessage : Int}

/-- The reply after the records of `front` were received. -/
theorem issue_eq {iterator : ActorlessPartitionIterator K} {front back : List (Record K V)}
    (split : database.recordsWithin minKey maxKey = front ++ back)
    (last : iterator.lastRecvKey = front.getLast?.map Record.key) :
    (methods (answer database) minKey maxKey recsPerMessage).issueNextRequest iterator =
      (some (.getRangeResponse (back.take recsPerMessage.toNat)), iterator) := by
  rcases List.eq_nil_or_concat front with rfl | ⟨front, record, rfl⟩
  · rw [List.getLast?_nil, Option.map_none] at last
    simp only [methods, answer, process, last, Database.getRange_recordsWithin, split]
    rfl
  · rw [List.concat_eq_append, List.getLast?_concat, Option.map_some] at last
    rw [List.concat_eq_append, List.append_assoc] at split
    simp only [methods, answer, process, last, Database.getRange_recordsWithin, Database.recordsWithin_from split]
    rfl

/-- The pages that are still to come after the records of `front`. -/
theorem gives_rest (positive : 0 < recsPerMessage) {iterator : ActorlessPartitionIterator K}
    {front back : List (Record K V)} (split : database.recordsWithin minKey maxKey = front ++ back)
    (last : iterator.lastRecvKey = front.getLast?.map Record.key) (full : iterator.lastSizeReturned = recsPerMessage) :
    (methods (answer database) minKey maxKey recsPerMessage).Gives none iterator back := by
  induction rest : back.length using Nat.strong_induction_on generalizing iterator front back with
  | _ length ih =>
      have more : (methods (answer database) minKey maxKey recsPerMessage).canRequestMore iterator = true :=
        decide_eq_true full
      have parts := List.take_append_drop recsPerMessage.toNat back
      have gives : (methods (answer database) minKey maxKey recsPerMessage).Gives none
          ⟨(back.take recsPerMessage.toNat).getLast?.map Record.key, (back.take recsPerMessage.toNat).length⟩
          (back.drop recsPerMessage.toNat) := by
        by_cases whole : recsPerMessage.toNat ≤ back.length
        · have size : (back.take recsPerMessage.toNat).length = recsPerMessage.toNat := List.length_take_of_le whole
          have some : back.take recsPerMessage.toNat ≠ [] := List.ne_nil_of_length_pos (by omega)
          refine @ih (back.drop recsPerMessage.toNat).length (by rw [List.length_drop]; omega) _
            (front ++ back.take recsPerMessage.toNat) _ (by rw [split, List.append_assoc, parts]) ?_ ?_ rfl
          · rw [List.getLast?_append_of_ne_nil _ some]
          · dsimp only
            rw [size]
            omega
        · rw [List.drop_eq_nil_of_le (by omega)]
          refine .ends (decide_eq_false ?_)
          dsimp only
          rw [List.take_of_length_le (by omega)]
          omega
      rw [← parts]
      refine .asks more ?_
      rw [issue_eq split last]
      exact .page rfl gives

/-- The iterator gives the records of its key range in order. -/
theorem opens (positive : 0 < recsPerMessage) (database : Database K V) (minKey maxKey : Option K) :
    (machine (answer database) minKey maxKey recsPerMessage).Opens
      (.ok (.ofList (database.recordsWithin minKey maxKey))) :=
  FutureBasedIterator.opens positive (gives_rest positive (List.nil_append _).symm rfl rfl)

end ActorlessPartitionIterator

end Scads.Server
