import Mathlib.Data.List.AList
import Scads.Data.Programs
import Scads.Server.PartitionIterators

namespace Scads.Server

open Scads.Data Scads.Comm

/-! # Cursor scans

`CursorBasedPartitionIterator` lets the server keep a cursor between its requests.
The cursor has a number, under which the server finds it again.  The cursors of a
storage server go over its whole database.
-/

variable {K V : Type} [LinearOrder K]

namespace Cursor

omit [LinearOrder K]

def getNext (cursor : Cursor K V) : Option (Cursor K V) :=
  match cursor.next with
  | [] => none
  | entry :: rest => some ⟨cursor.current :: cursor.previous, entry, rest⟩

/-- The loop of `advanceCursor` from an entry on: whether the last move found one, the
entries it read and where the cursor is after it. -/
def advance : Nat → Cursor K V → Bool × List (K × V) × Cursor K V
  | 0, cursor => (true, [], cursor)
  | count + 1, cursor =>
      match cursor.getNext with
      | none => (false, [cursor.current], cursor)
      | some after =>
          let (success, entries, last) := after.advance count
          (success, cursor.current :: entries, last)

theorem advance_eq (count : Nat) (cursor : Cursor K V) :
    (cursor.advance count).1 = decide (count < (cursor.ahead true).length) ∧
      (cursor.advance count).2.1 = (cursor.ahead true).take count ∧
      (count < (cursor.ahead true).length →
        (cursor.advance count).2.2.ahead true = (cursor.ahead true).drop count) := by
  induction count generalizing cursor with
  | zero => simp [advance, ahead]
  | succ count ih =>
      cases following : cursor.next with
      | nil => simp [advance, getNext, following, ahead]
      | cons entry rest =>
          obtain ⟨success, entries, last⟩ := ih ⟨cursor.current :: cursor.previous, entry, rest⟩
          simp only [ahead, if_true] at success entries last
          simp only [advance, getNext, following, ahead, if_true, success, entries, List.take_succ_cons,
            List.drop_succ_cons, List.length_cons, Nat.add_lt_add_iff_right, true_and]
          exact last

end Cursor

/-- The cursor of a context is nowhere when `getFirst` found no entry. -/
structure CursorContext (K V : Type) where
  cursor : Option (Cursor K V)
  valid : Bool := true

structure CursorServer (K V : Type) where
  cursorIdGen : Int32
  openCursors : AList fun _ : Int32 => CursorContext K V

structure CursorScanRequest where
  cursorId : Option Int32
  recsPerRequest : Int

def CursorScanRequest.toString (request : CursorScanRequest) : String :=
  showInstance "CursorScanRequest"
    [showOption ToString.toString request.cursorId, ToString.toString request.recsPerRequest]

/-- The replies to a `CursorScanRequest`. -/
inductive CursorScanMessage (K V : Type) where
  | cursorScanResponse (cursorId : Option Int32) (records : List (Record K V))
  | processingException (cause stacktrace : String)
  | requestRejected (reason : String) (req : CursorScanRequest)

def CursorScanMessage.toString {K V : Type} : CursorScanMessage K V → String
  | .cursorScanResponse cursorId records =>
      showInstance "CursorScanResponse"
        [showOption ToString.toString cursorId, showInstance "Vector" (records.map Record.toString)]
  | .processingException cause stacktrace => showInstance "ProcessingException" [cause, stacktrace]
  | .requestRejected reason req => showInstance "RequestRejected" [reason, req.toString]

namespace CursorServer

/-- The texts of the exception that a cursor throws which is asked for its entry and is nowhere. -/
structure IllegalState where
  message : String
  stackTrace : String

/-- The programs of the server.  `none` is an error, which `process` does not reply to. -/
abbrev Scan (K V : Type) := EStateM (Option Fault) (CursorServer K V)

def keep (cursorId : Int32) (context : CursorContext K V) (server : CursorServer K V) : CursorServer K V :=
  { server with openCursors := server.openCursors.insert cursorId context }

def remove (cursorId : Int32) (server : CursorServer K V) : CursorServer K V :=
  { server with openCursors := server.openCursors.erase cursorId }

def newCursor (database : Database K V) : Scan K V (Int32 × CursorContext K V) := do
  let server ← get
  let id := server.cursorIdGen
  let context : CursorContext K V := { cursor := Cursor.getFirst database }
  set (keep id context { server with cursorIdGen := id + 1 })
  return (id, context)

def cursorContext (database : Database K V) : Option Int32 → Scan K V (Int32 × CursorContext K V)
  | none => newCursor database
  | some id => do
      match (← get).openCursors.lookup id with
      | none => throw (some (.requestRejected ("Invalid cursor Id: " ++ toString id)))
      | some context => return (id, context)

def advanceCursor (thrown : IllegalState) (recsPerMessage : Int) (context : CursorContext K V) :
    Scan K V (Bool × List (Record K V) × Cursor K V) := do
  match context.cursor with
  | none => throw (some (.exception thrown.message thrown.stackTrace))
  | some cursor =>
      let (success, entries, cursor) := cursor.advance recsPerMessage.toNat
      if success && (entries.length : Int) ≠ recsPerMessage then throw none
      return (success, entries.map fun entry => ⟨entry.1, some entry.2⟩, cursor)

def cursorScan (database : Database K V) (thrown : IllegalState) (optCursorId : Option Int32)
    (recsPerMessage : Int) : Scan K V (Option Int32 × List (Record K V)) := do
  if recsPerMessage ≤ 0 then
    throw (some (.requestRejected ("Recs per message needs to be > 0: " ++ toString recsPerMessage)))
  let (cursorId, context) ← cursorContext database optCursorId
  if !context.valid then
    modify (remove cursorId)
    throw (some (.requestRejected ("Cursor ID: " ++ toString cursorId ++ " has already timedout")))
  let (moreRecs, recs, cursor) ← advanceCursor thrown recsPerMessage context
  if moreRecs then
    modify (keep cursorId ⟨some cursor, true⟩)
    return (some cursorId, recs)
  else
    modify (remove cursorId)
    return (none, recs)

/-- What `process` replies, and the server after the request. -/
def processScan (msg : CursorScanRequest) : EStateM.Result (Option Fault) (CursorServer K V)
    (Option Int32 × List (Record K V)) →
    Option (CursorScanMessage K V) × CursorServer K V
  | .ok (cursorId, records) server => (some (.cursorScanResponse cursorId records), server)
  | .error (some (.requestRejected message)) server => (some (.requestRejected message msg), server)
  | .error (some (.exception message stackTrace)) server => (some (.processingException message stackTrace), server)
  | .error none server => (none, server)

variable {database : Database K V} {thrown : IllegalState} {recsPerMessage : Int}

/-- A scan gives the entries from the cursor on, and leaves the cursor after them where
there are more. -/
theorem cursorScan_reads (positive : 0 < recsPerMessage) {optCursorId : Option Int32} {server opened : CursorServer K V}
    {cursorId : Int32} {cursor : Cursor K V}
    (found : cursorContext database optCursorId server = .ok (cursorId, ⟨some cursor, true⟩) opened) :
    ∃ after, cursorScan database thrown optCursorId recsPerMessage server =
        .ok (if recsPerMessage.toNat < (cursor.ahead true).length then some cursorId else none,
          ((cursor.ahead true).take recsPerMessage.toNat).map fun entry => ⟨entry.1, some entry.2⟩) after ∧
      (recsPerMessage.toNat < (cursor.ahead true).length → ∃ rest,
        after.openCursors.lookup cursorId = some ⟨some rest, true⟩ ∧
          rest.ahead true = (cursor.ahead true).drop recsPerMessage.toNat) := by
  obtain ⟨success, entries, last⟩ := cursor.advance_eq recsPerMessage.toNat
  have advanced : advanceCursor thrown recsPerMessage ⟨some cursor, true⟩ opened =
      .ok (decide (recsPerMessage.toNat < (cursor.ahead true).length),
        ((cursor.ahead true).take recsPerMessage.toNat).map fun entry => ⟨entry.1, some entry.2⟩,
        (cursor.advance recsPerMessage.toNat).2.2) opened := by
    have counted : (decide (recsPerMessage.toNat < (cursor.ahead true).length) &&
        decide ((((cursor.ahead true).take recsPerMessage.toNat).length : Int) ≠ recsPerMessage)) = false := by
      by_cases more : recsPerMessage.toNat < (cursor.ahead true).length
      · have size : (((cursor.ahead true).take recsPerMessage.toNat).length : Int) = recsPerMessage := by
          rw [List.length_take_of_le more.le]
          omega
        rw [size]
        simp
      · simp [more]
    simp only [advanceCursor, success, entries, counted]
    rfl
  have refused : ¬ recsPerMessage ≤ 0 := by omega
  by_cases more : recsPerMessage.toNat < (cursor.ahead true).length
  · refine ⟨keep cursorId ⟨some (cursor.advance recsPerMessage.toNat).2.2, true⟩ opened, ?_,
      fun _ => ⟨_, AList.lookup_insert _, last more⟩⟩
    simp only [cursorScan, refused, if_false, bind, EStateM.bind, found, Bool.not_true, Bool.false_eq_true]
    simp only [EStateM.bind, advanced, more, decide_true, if_true]
    rfl
  · refine ⟨remove cursorId opened, ?_, fun room => absurd room more⟩
    simp only [cursorScan, refused, if_false, bind, EStateM.bind, found, Bool.not_true, Bool.false_eq_true]
    simp only [EStateM.bind, advanced, more, decide_false, if_false, Bool.false_eq_true]
    rfl

end CursorServer

/-- The variables of `CursorBasedPartitionIterator`, and the server that it asks. -/
structure CursorBasedPartitionIterator (K V : Type) where
  cursorId : Option Int32 := none
  isServerDone : Bool := false
  server : CursorServer K V

namespace CursorBasedPartitionIterator

/-- `minKey` and `maxKey` go to the superclass, which does not use them. -/
def methods (database : Database K V) (thrown : CursorServer.IllegalState) (_minKey _maxKey : Option K)
    (recsPerMessage : Int) :
    FutureProtocol (Option (CursorScanMessage K V)) (Record K V) (CursorBasedPartitionIterator K V) where
  issueNextRequest iterator :=
    let (reply, server) := CursorServer.processScan ⟨iterator.cursorId, recsPerMessage⟩
      (CursorServer.cursorScan database thrown iterator.cursorId recsPerMessage iterator.server)
    (reply, { iterator with server })
  canRequestMore iterator := !iterator.isServerDone
  getRecordsFromFuture ftch iterator :=
    match ftch with
    | none => .error (.runtime "CursorScanRequest timedout")
    | some (.cursorScanResponse id recs) =>
        if id.isNone || (recs.length : Int) = recsPerMessage then
          .ok (recs, { iterator with cursorId := id, isServerDone := id.isNone })
        else .error (.assertion "assertion failed")
    | some e => .error (.runtime ("Invalid response to a CursorScanRequest: " ++ e.toString))

def machine (database : Database K V) (thrown : CursorServer.IllegalState) (server : CursorServer K V)
    (minKey maxKey : Option K) (recsPerMessage : Int) : Machine Failure (Record K V) :=
  FutureBasedIterator.machine (methods database thrown minKey maxKey recsPerMessage) recsPerMessage { server }

variable {database : Database K V} {thrown : CursorServer.IllegalState} {minKey maxKey : Option K}
  {recsPerMessage : Int}

/-- The pages that are still to come from the cursor that the server finds. -/
theorem gives_ahead (positive : 0 < recsPerMessage) {iterator : CursorBasedPartitionIterator K V} {cursorId : Int32}
    {cursor : Cursor K V} {opened : CursorServer K V} (going : iterator.isServerDone = false)
    (found : CursorServer.cursorContext database iterator.cursorId iterator.server =
      .ok (cursorId, ⟨some cursor, true⟩) opened) :
    (methods database thrown minKey maxKey recsPerMessage).Gives none iterator
      ((cursor.ahead true).map fun entry => ⟨entry.1, some entry.2⟩) := by
  induction rest : (cursor.ahead true).length using Nat.strong_induction_on generalizing iterator cursorId cursor opened
    with
  | _ length ih =>
      obtain ⟨after, scanned, moved⟩ := @CursorServer.cursorScan_reads _ _ _ _ thrown _ positive _ _ _ _ _ found
      have asked : (methods database thrown minKey maxKey recsPerMessage).canRequestMore iterator = true := by
        simp only [methods, going, Bool.not_false]
      have issued : (methods database thrown minKey maxKey recsPerMessage).issueNextRequest iterator =
          (some (.cursorScanResponse (if recsPerMessage.toNat < (cursor.ahead true).length then some cursorId else none)
            (((cursor.ahead true).take recsPerMessage.toNat).map fun entry => ⟨entry.1, some entry.2⟩)),
            { iterator with server := after }) := by
        simp only [methods, scanned, CursorServer.processScan]
      rw [← List.take_append_drop recsPerMessage.toNat (cursor.ahead true), List.map_append]
      refine .asks asked ?_
      rw [issued]
      by_cases more : recsPerMessage.toNat < (cursor.ahead true).length
      · obtain ⟨left, held, same⟩ := moved more
        have size : (((cursor.ahead true).take recsPerMessage.toNat).length : Int) = recsPerMessage := by
          rw [List.length_take_of_le more.le]
          omega
        have found : CursorServer.cursorContext database (some cursorId) after =
            .ok (cursorId, ⟨some left, true⟩) after := by
          simp only [CursorServer.cursorContext, bind, EStateM.bind, get, getThe, MonadStateOf.get]
          delta EStateM.get
          simp only [held]
          rfl
        have gives := @ih (left.ahead true).length (by rw [same, List.length_drop]; omega)
          ⟨some cursorId, false, after⟩ cursorId left after rfl found rfl
        rw [same] at gives
        refine .page ?_ gives
        simp only [methods, more, if_true, Option.isNone_some, List.length_map, size, Bool.false_or, decide_true]
      · rw [List.drop_eq_nil_of_le (Nat.le_of_not_lt more), List.map_nil]
        have ends : (methods database thrown minKey maxKey recsPerMessage).Gives none ⟨none, true, after⟩ [] :=
          .ends rfl
        refine .page ?_ ends
        simp only [methods, more, if_false, if_true, Option.isNone_none, Bool.true_or]

/-- The first scan throws where the database is empty. -/
theorem first_page_fails (positive : 0 < recsPerMessage) (empty : database.entries = []) (server : CursorServer K V) :
    (methods database thrown minKey maxKey recsPerMessage).getRecordsFromFuture
      ((methods database thrown minKey maxKey recsPerMessage).issueNextRequest { server }).1
      ((methods database thrown minKey maxKey recsPerMessage).issueNextRequest { server }).2 =
      .error (.runtime ("Invalid response to a CursorScanRequest: " ++
        (CursorScanMessage.processingException thrown.message thrown.stackTrace : CursorScanMessage K V).toString)) := by
  have refused : ¬ recsPerMessage ≤ 0 := by omega
  have nowhere : Cursor.getFirst database = none := by rw [Cursor.getFirst, empty]
  simp only [methods, CursorServer.cursorScan, refused, if_false, bind, EStateM.bind, CursorServer.cursorContext,
    CursorServer.newCursor, get, getThe, MonadStateOf.get]
  delta EStateM.get
  simp only [nowhere]
  rfl

/-- The iterator gives every record of the database, whatever its key range. -/
theorem opens (positive : 0 < recsPerMessage) (nonempty : database.entries ≠ []) (server : CursorServer K V) :
    (machine database thrown server minKey maxKey recsPerMessage).Opens
      (.ok (.ofList (database.entries.map fun entry => ⟨entry.1, some entry.2⟩))) := by
  obtain ⟨first, rest, stored⟩ := List.exists_cons_of_ne_nil nonempty
  have positioned : Cursor.getFirst database = some ⟨[], first, rest⟩ := by rw [Cursor.getFirst, stored]
  have found :
    CursorServer.cursorContext database none server = .ok (server.cursorIdGen, ⟨some ⟨[], first, rest⟩, true⟩)
      (CursorServer.keep server.cursorIdGen ⟨some ⟨[], first, rest⟩, true⟩
        { server with cursorIdGen := server.cursorIdGen + 1 }) := by
    simp only [CursorServer.cursorContext, CursorServer.newCursor, positioned]
    rfl
  have gives := @gives_ahead _ _ _ _ thrown minKey maxKey _ positive { server } _ _ _ rfl found
  rw [stored]
  exact FutureBasedIterator.opens positive gives

end CursorBasedPartitionIterator

section

variable (database : Database K V) (thrown : CursorServer.IllegalState) (server : CursorServer K V)
  (minKey maxKey : Option K) {recsPerMessage : Int}

theorem paged_drain (positive : 0 < recsPerMessage) :
    Settles (ActorlessPartitionIterator.machine (answer database) minKey maxKey recsPerMessage).drain
      (.ok (database.recordsWithin minKey maxKey)) := by
  have settles := (ActorlessPartitionIterator.opens positive database minKey maxKey).begins.drain
  rw [ok_bind, Course.outcome_ofList] at settles
  exact settles

theorem scanned_drain (positive : 0 < recsPerMessage) (nonempty : database.entries ≠ []) :
    Settles (CursorBasedPartitionIterator.machine database thrown server minKey maxKey recsPerMessage).drain
      (.ok (database.entries.map fun entry => ⟨entry.1, some entry.2⟩)) := by
  have settles := (@CursorBasedPartitionIterator.opens _ _ _ _ thrown minKey maxKey _ positive nonempty
    server).begins.drain
  rw [ok_bind, Course.outcome_ofList] at settles
  exact settles

/-- The two iterators read the same records exactly when there is a record and all
records of the storage server lie in the key range. -/
theorem copy_iterators_agree_iff (positive : 0 < recsPerMessage) :
    (∃ records,
      Settles (CursorBasedPartitionIterator.machine database thrown server minKey maxKey recsPerMessage).drain
        (.ok records) ∧
      Settles (ActorlessPartitionIterator.machine (answer database) minKey maxKey recsPerMessage).drain
        (.ok records)) ↔
      database.entries ≠ [] ∧ ∀ entry ∈ database.entries, Database.InRange minKey maxKey entry.1 := by
  have paged := @paged_drain _ _ _ database minKey maxKey _ positive
  cases stored : database.entries with
  | nil =>
      refine iff_of_false ?_ fun nonempty => nonempty.1 rfl
      intro found
      obtain ⟨records, scanned, -⟩ := found
      have fails := FutureBasedIterator.drain_fails positive rfl
        (@CursorBasedPartitionIterator.first_page_fails _ _ _ _ thrown minKey maxKey _ positive stored server)
      cases fails.unique scanned
  | cons first rest =>
      have nonempty : database.entries ≠ [] := by
        rw [stored]
        exact List.cons_ne_nil _ _
      have scanned := @scanned_drain _ _ _ database thrown server minKey maxKey _ positive nonempty
      rw [← stored]
      constructor
      · intro found
        obtain ⟨records, read, readPaged⟩ := found
        cases scanned.unique read
        have same := Except.ok.inj (paged.unique readPaged)
        refine ⟨nonempty, List.filter_eq_self.mp (List.map_injective_iff.mpr ?_ same)⟩
        intro entry other equal
        cases entry
        cases other
        cases equal
        rfl
      · intro ⟨_, within⟩
        refine ⟨_, scanned, ?_⟩
        rw [Database.recordsWithin, List.filter_eq_self.mpr within] at paged
        exact paged

end

theorem whole_database_copied :
    let database : Database Nat Nat := ⟨[(1, 10), (5, 50)], by decide⟩
    ∃ records,
      Settles (CursorBasedPartitionIterator.machine database ⟨"", ""⟩ ⟨0, ∅⟩ (some 1) none 1).drain (.ok records) ∧
      Settles (ActorlessPartitionIterator.machine (answer database) (some 1) none 1).drain (.ok records) := by
  intro database
  refine (copy_iterators_agree_iff database ⟨"", ""⟩ ⟨0, ∅⟩ (some 1) none (by decide)).mpr ⟨?_, ?_⟩
  · exact List.cons_ne_nil _ _
  · decide

/-- The cursor goes on past the end of the key range. -/
theorem cursor_leaves_range :
    let database : Database Nat Nat := ⟨[(1, 10), (5, 50)], by decide⟩
    let scanned := CursorBasedPartitionIterator.machine database ⟨"", ""⟩ ⟨0, ∅⟩ none (some 3) 8192
    let paged := ActorlessPartitionIterator.machine (answer database) none (some 3) 8192
    Settles scanned.drain (.ok [⟨1, some 10⟩, ⟨5, some 50⟩]) ∧ Settles paged.drain (.ok [⟨1, some 10⟩]) ∧
      ¬ ∃ records, Settles scanned.drain (.ok records) ∧ Settles paged.drain (.ok records) := by
  intro database scanned paged
  have first : Settles scanned.drain (.ok [⟨1, some 10⟩, ⟨5, some 50⟩]) :=
    scanned_drain database ⟨"", ""⟩ ⟨0, ∅⟩ none (some 3) (by decide) (List.cons_ne_nil _ _)
  have second : Settles paged.drain (.ok [⟨1, some 10⟩]) := paged_drain database none (some 3) (by decide)
  refine ⟨first, second, ?_⟩
  intro found
  obtain ⟨records, read, other⟩ := found
  cases first.unique read
  cases second.unique other

end Scads.Server
