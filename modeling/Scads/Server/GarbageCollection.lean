import Mathlib.Data.List.Perm.Basic
import Scads.Server.IterateOverRange
import Scads.Util.Slices

namespace Scads.Server

open Scads.Data Scads.Comm Scads.Util

/-! # Garbage collection

The partitions of a namespace on one server share one database.  When a partition
is deleted, the keys that no other partition is responsible for go with it.
-/

/-- The storage manager behind a partition handler. -/
inductive StorageManager where
  | bdb
  | inMemory
deriving DecidableEq, Repr

structure PartitionHandler (K : Type) where
  manager : StorageManager
  ns : String
  startKey : Option K
  endKey : Option K
deriving DecidableEq, Repr

/-- An order in which a hash set may be iterated. -/
structure Iteration (α : Type) where
  order : List α → List α
  perm : ∀ values, (order values).Perm values

def Iteration.inserted (α : Type) : Iteration α := ⟨id, fun values => .refl values⟩

/-- What arrives is what was sent, in another order. -/
theorem Iteration.exists_arrived {α β : Type} (arrival : Iteration β) (send : α → β) (sent : List α) :
    ∃ arrived : List α, arrival.order (sent.map send) = arrived.map send ∧ arrived.Perm sent := by
  have either := congrFun₂ (List.eq_map_comp_perm send) (arrival.order (sent.map send)) sent
  exact either.mpr (arrival.perm _)

variable {K V : Type} [LinearOrder K]

namespace Database

/-- The loop of `deleteRange`: what the cursor visits is deleted on the way. -/
def deleteVisited (database : Database K V) (visited : List (K × V)) : Database K V :=
  visited.foldl (fun database entry => database.delete entry.1) database

def deleteSpan (database : Database K V) (span : Span K) : Database K V :=
  database.deleteVisited (database.iterateOverRange span.lower span.upper none none true false)

theorem deleteVisited_entries (database : Database K V) (visited : List (K × V)) :
    (database.deleteVisited visited).entries =
      database.entries.filter fun entry => entry.1 ∉ visited.map Prod.fst := by
  induction visited generalizing database with
  | nil => simp [deleteVisited]
  | cons first rest ih =>
      have step := ih (database.delete first.1)
      simp only [deleteVisited, List.foldl_cons] at step ⊢
      rw [step, delete, List.filter_filter]
      refine List.filter_congr fun entry _ => Bool.eq_iff_iff.mpr ?_
      simp only [Bool.and_eq_true, decide_eq_true_eq, List.map_cons, List.mem_cons, not_or]
      exact and_comm

theorem deleteSpan_entries (database : Database K V) (span : Span K) :
    (database.deleteSpan span).entries = database.entries.filter fun entry => !span.contains entry.1 := by
  rw [deleteSpan, deleteVisited_entries, iterateOverRange_excludingLast]
  refine List.filter_congr fun entry member => Bool.eq_iff_iff.mpr ?_
  simp only [decide_eq_true_eq, List.mem_map, List.mem_filter, Bool.not_eq_true', ← Bool.not_eq_true]
  refine not_congr ⟨?_, fun inside => ⟨entry, ⟨member, inside⟩, rfl⟩⟩
  intro found
  obtain ⟨other, ⟨_, inside⟩, same⟩ := found
  rwa [← same]

/-- The entries that none of the given spans contains stay. -/
theorem foldl_deleteSpan_entries (database : Database K V) (spans : List (Span K)) :
    (spans.foldl deleteSpan database).entries =
      database.entries.filter fun entry => !Span.covers spans entry.1 := by
  induction spans generalizing database with
  | nil => simp [Span.covers]
  | cons span rest ih =>
      rw [List.foldl_cons, ih, deleteSpan_entries, List.filter_filter]
      refine List.filter_congr fun entry _ => ?_
      simp [Span.covers, Bool.and_comm]

end Database

namespace PartitionHandler

variable {handler : PartitionHandler K} {rest : List (String × PartitionHandler K)}

def span (handler : PartitionHandler K) : Span K := ⟨handler.startKey, handler.endKey⟩

def isStartKeyLEQ (handler : PartitionHandler K) (key : Option K) : Bool :=
  (handler.startKey.map fun sk => (key.map fun usrKey => decide (sk ≤ usrKey)).getD false).getD true

def isEndKeyGEQ (handler : PartitionHandler K) (key : Option K) : Bool :=
  (handler.endKey.map fun ek => (key.map fun usrKey => decide (usrKey ≤ ek)).getD false).getD true

def deleteRange (handler : PartitionHandler K) (database : Database K V) (span : Span K) :
    Except Failure (Database K V) :=
  if handler.isStartKeyLEQ span.lower && handler.isEndKeyGEQ span.upper then .ok (database.deleteSpan span)
  else .error (.assertion "assertion failed: startKey <= lowerKey && endKey >= upperKey required")

/-- What remains of a slice after the partition of a context entry was taken out of it. -/
def removeThat (thisSlice : Slice K) (that : String × PartitionHandler K) : Except Failure (Slice K) :=
  match that.2.manager with
  | .bdb => do thisSlice.remove (← Slice.ofBounds that.2.startKey that.2.endKey)
  | .inMemory => .ok thisSlice

/-- The part of a deleted partition that no remaining one covers. -/
def garbage (handler : PartitionHandler K) (rest : List (String × PartitionHandler K)) :
    Except Failure (Slice K) := do
  rest.foldlM removeThat (← Slice.ofBounds handler.startKey handler.endKey)

def collectGarbage (handler : PartitionHandler K) (rest : List (String × PartitionHandler K))
    (database : Database K V) : Except Failure (Database K V) := do
  (← handler.garbage rest).spans.foldlM handler.deleteRange database

/-- The key ranges of the partitions that share the database. -/
def bdbSpans (rest : List (String × PartitionHandler K)) : List (Span K) :=
  (rest.filter fun that => that.2.manager = .bdb).map fun that => that.2.span

def AllProper (rest : List (String × PartitionHandler K)) : Prop :=
  ∀ that ∈ rest, that.2.manager = .bdb → that.2.span.Proper

omit [LinearOrder K] in
theorem bdbSpans_perm {first second : List (String × PartitionHandler K)} (same : first.Perm second) :
    (bdbSpans first).Perm (bdbSpans second) :=
  (same.filter _).map _

theorem deleteRange_inside {span : Span K} (database : Database K V) (inside : span.Inside handler.span) :
    handler.deleteRange database span = .ok (database.deleteSpan span) := by
  have lower : handler.isStartKeyLEQ span.lower := by
    unfold isStartKeyLEQ
    cases low : handler.startKey with
    | none => rfl
    | some sk =>
        obtain ⟨start, given, below⟩ := inside.1 sk low
        rw [Option.mem_def.mp given]
        simpa using below
  have upper : handler.isEndKeyGEQ span.upper := by
    unfold isEndKeyGEQ
    cases high : handler.endKey with
    | none => rfl
    | some ek =>
        obtain ⟨stop, given, above⟩ := inside.2 ek high
        rw [Option.mem_def.mp given]
        simpa using above
  rw [deleteRange, lower, upper]
  rfl

theorem foldlM_deleteRange {spans : List (Span K)} (database : Database K V)
    (inside : ∀ span ∈ spans, span.Inside handler.span) :
    spans.foldlM handler.deleteRange database = .ok (spans.foldl Database.deleteSpan database) := by
  induction spans generalizing database with
  | nil => rfl
  | cons span rest ih =>
      rw [List.foldlM_cons, deleteRange_inside database (inside span (by simp)), ok_bind, List.foldl_cons]
      exact ih _ fun other member => inside other (by simp [member])

/-- The remaining partitions are taken out one after the other, in any order. -/
theorem foldlM_removeThat {slice : Slice K} (wellFormed : slice.WellFormed) (proper : AllProper rest) :
    ∃ left, rest.foldlM removeThat slice = .ok left ∧
      (∀ key, Span.covers left.spans key ↔
        Span.covers slice.spans key ∧ ¬ Span.covers (bdbSpans rest) key) ∧
      ∀ span ∈ left.spans, ∃ outer ∈ slice.spans, span.Inside outer := by
  induction rest generalizing slice with
  | nil => exact ⟨slice, rfl, by simp [bdbSpans, Span.covers], fun span member => ⟨span, member, .refl span⟩⟩
  | cons that rest ih =>
      have others : AllProper rest := fun other member => proper other (by simp [member])
      rw [List.foldlM_cons]
      cases kind : that.2.manager with
      | inMemory =>
          obtain ⟨left, folded, covered, inside⟩ := ih wellFormed others
          refine ⟨left, ?_, ?_, inside⟩
          · simp only [removeThat, kind, ok_bind, folded]
          · simpa [bdbSpans, kind] using covered
      | bdb =>
          obtain ⟨removed, made⟩ := Slice.ofBounds_made (proper that (by simp) kind)
          obtain ⟨next, taken, result⟩ := Slice.remove_removed wellFormed made
          obtain ⟨left, folded, covered, inside⟩ := ih result.wellFormed others
          have built : Slice.ofBounds that.2.startKey that.2.endKey = .ok removed := made.made
          refine ⟨left, ?_, fun key => ?_, fun span member => ?_⟩
          · simp only [removeThat, kind, built, ok_bind, taken, folded]
          · rw [covered, result.difference.covers_iff]
            simp [bdbSpans, kind, Span.covers, and_assoc]
          · obtain ⟨middle, known, within⟩ := inside span member
            obtain ⟨outer, found, around⟩ := result.difference.inside middle known
            exact ⟨outer, found, within.trans around⟩

/-- The collection of a deleted partition removes the keys that are its own only. -/
theorem collectGarbage_entries (database : Database K V) (own : handler.span.Proper)
    (proper : AllProper rest) :
    ∃ left, handler.collectGarbage rest database = .ok left ∧
      left.entries = database.entries.filter fun entry =>
        !(handler.span.contains entry.1 && !Span.covers (bdbSpans rest) entry.1) := by
  obtain ⟨slice, made⟩ := Slice.ofBounds_made own
  obtain ⟨left, folded, covered, inside⟩ := foldlM_removeThat made.piece.wellFormed proper
  rw [made.spans] at covered inside
  have built : Slice.ofBounds handler.startKey handler.endKey = .ok slice := made.made
  have within : ∀ span ∈ left.spans, span.Inside handler.span := fun span member => by
    simpa using inside span member
  refine ⟨left.spans.foldl Database.deleteSpan database, ?_, ?_⟩
  · simp only [collectGarbage, garbage, built, ok_bind, folded, foldlM_deleteRange database within]
  · rw [Database.foldl_deleteSpan_entries]
    refine List.filter_congr fun entry _ => ?_
    have same := covered entry.1
    simp only [Span.covers, List.any_cons, List.any_nil, Bool.or_false] at same ⊢
    rw [Bool.eq_iff_iff, Bool.not_eq_true', Bool.not_eq_true', ← Bool.not_eq_true, ← Bool.not_eq_true, same]
    simp

theorem foldlM_removeThat_improper {slice : Slice K} (wellFormed : slice.WellFormed)
    (improper : ¬ AllProper rest) : ∃ failure, rest.foldlM removeThat slice = .error failure := by
  induction rest generalizing slice with
  | nil => exact absurd (fun that member => by simp at member) improper
  | cons that rest ih =>
      rw [List.foldlM_cons]
      cases kind : that.2.manager with
      | inMemory =>
          have others : ¬ AllProper rest := by
            refine fun proper => improper fun other member managed => ?_
            rcases List.mem_cons.mp member with rfl | member
            · simp [kind] at managed
            · exact proper other member managed
          simpa only [removeThat, kind, ok_bind] using ih wellFormed others
      | bdb =>
          by_cases own : that.2.span.Proper
          · have others : ¬ AllProper rest := by
              refine fun proper => improper fun other member managed => ?_
              rcases List.mem_cons.mp member with rfl | member
              · exact own
              · exact proper other member managed
            obtain ⟨removed, made⟩ := Slice.ofBounds_made own
            obtain ⟨next, taken, result⟩ := Slice.remove_removed wellFormed made
            have built : Slice.ofBounds that.2.startKey that.2.endKey = .ok removed := made.made
            simpa only [removeThat, kind, built, ok_bind, taken] using ih result.wellFormed others
          · have built : Slice.ofBounds that.2.startKey that.2.endKey = .error _ :=
              Slice.ofBounds_improper own
            exact ⟨.assertion "assertion failed", by simp only [removeThat, kind, built, error_bind]⟩

/-- The collection fails where one of the ranges has its ends the wrong way round. -/
theorem collectGarbage_improper (database : Database K V)
    (improper : ¬ (handler.span.Proper ∧ AllProper rest)) :
    ∃ failure, handler.collectGarbage rest database = .error failure := by
  by_cases own : handler.span.Proper
  · obtain ⟨slice, made⟩ := Slice.ofBounds_made own
    have built : Slice.ofBounds handler.startKey handler.endKey = .ok slice := made.made
    obtain ⟨failure, failed⟩ :=
      foldlM_removeThat_improper made.piece.wellFormed fun proper => improper ⟨own, proper⟩
    exact ⟨failure, by simp only [collectGarbage, garbage, built, ok_bind, failed, error_bind]⟩
  · have built : Slice.ofBounds handler.startKey handler.endKey = .error _ := Slice.ofBounds_improper own
    exact ⟨.assertion "assertion failed", by simp only [collectGarbage, garbage, built, error_bind]⟩

end PartitionHandler

end Scads.Server
