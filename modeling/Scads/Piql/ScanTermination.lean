import Scads.Piql.ParallelRuns

namespace Scads.Piql

open Scads.Client Scads.Data

/-! # The end of scans

A scan fetches pages until one of them has a record or is not full.  A page that can
hold no record is always full, and a scan of such pages fetches for ever.
-/

/-- The page is empty and counts as full. -/
def Scan.Idle (scan : Scan) : Prop := scan.result = [] ∧ scan.limitReached = false

theorem Scan.Idle.undecided {scan : Scan} (idle : scan.Idle) : ¬ scan.Decided := by
  rw [Scan.Decided, idle.1, idle.2, List.length_nil]
  exact not_or.mpr ⟨Nat.not_lt_zero scan.pos, Bool.false_ne_true⟩

section

variable {store : Store} {ns : TupleProvider} {boundKeyPrefix : Key} {boundLimit : Int} {ascending : Bool}

namespace SimpleExecutor

/-- One page decides. -/
theorem hasNext_ends (positive : 1 ≤ boundLimit) (scan : Scan) :
    Ends (hasNext store ns boundKeyPrefix boundLimit ascending · scan) := by
  by_cases decided : scan.Decided
  · exact .of_ok (hasNext_decided decided)
  · have fetches := (Scan.undecided decided).2
    have settles := @hasNext_decided store ns boundKeyPrefix boundLimit ascending _
      (doFetch_has store ns boundKeyPrefix ascending positive fetches)
    exact .of_ok (.of_succ (settles.congr (hasNext_undecided decided)))

theorem indexScan_ending (positive : 1 ≤ boundLimit) :
    (indexScan store ns boundKeyPrefix boundLimit ascending).Ending := hasNext_ends positive

theorem doFetch_idle (nonpositive : boundLimit ≤ 0) {scan : Scan} (fetches : scan.limitReached = false) :
    (doFetch store ns boundKeyPrefix boundLimit ascending scan).Idle := by
  have page := @getRange_of_nonpositive store ns boundLimit ascending boundKeyPrefix scan.offset nonpositive
  refine ⟨page, ?_⟩
  rw [doFetch, page, fetches, Bool.false_or, decide_eq_false_iff_not, List.length_nil]
  omega

theorem hasNext_unfinished (nonpositive : boundLimit ≤ 0) {scan : Scan} (idle : scan.Idle) (rounds : Nat) :
    hasNext store ns boundKeyPrefix boundLimit ascending rounds scan = .error .unfinished := by
  induction rounds generalizing scan with
  | zero => rfl
  | succ rounds ih =>
      rw [hasNext_undecided idle.undecided]
      exact ih (doFetch_idle nonpositive idle.2)

theorem indexScan_unending (nonpositive : boundLimit ≤ 0) :
    (indexScan store ns boundKeyPrefix boundLimit ascending).Unending :=
  ⟨_, fun _ => rfl, hasNext_unfinished nonpositive (doFetch_idle nonpositive rfl)⟩

variable {limit : Int} {child : QueryIterator}

/-- `hasNext` asks the child first, also when the limit is used up. -/
theorem localStopAfter_ending (ending : child.Ending) : (localStopAfter limit child).Ending := fun state =>
  (ending state.1).map fun answer => (answer.1 && limit > state.2, (answer.2, state.2))

theorem localStopAfter_unending (unending : child.Unending) : (localStopAfter limit child).Unending := by
  obtain ⟨state, opened, unfinished⟩ := unending
  refine ⟨(state, 0), fun rounds => ?_, fun rounds => ?_⟩
  · change (child.opened rounds child.initial).bind _ = _
    rw [opened]
    rfl
  · change (child.hasNext rounds state).bind _ = _
    rw [unfinished]
    rfl

end SimpleExecutor

namespace ParallelExecutor

theorem updateFuture_decided (positive : 1 ≤ boundLimit) (state : ParallelScan) :
    (updateFuture boundLimit state).scan.Decided := by
  simp only [Scan.Decided, updateFuture, Bool.or_eq_true, decide_eq_true_eq]
  omega

theorem hasNext_waiting_ends (positive : 1 ≤ boundLimit) {state : ParallelScan} (waiting : state.ftchInvoked = false) :
    Ends (hasNext store ns boundKeyPrefix boundLimit ascending · state) := by
  have settles := @hasNext_decided store ns boundKeyPrefix boundLimit ascending (updateFuture boundLimit state) rfl
    (updateFuture_decided positive state)
  exact .of_ok (.of_succ (settles.congr (hasNext_waits waiting)))

theorem hasNext_ends (positive : 1 ≤ boundLimit) (state : ParallelScan) :
    Ends (hasNext store ns boundKeyPrefix boundLimit ascending · state) := by
  cases invoked : state.ftchInvoked with
  | false => exact hasNext_waiting_ends positive invoked
  | true =>
      by_cases decided : state.scan.Decided
      · exact .of_ok (hasNext_decided invoked decided)
      · have ends := @hasNext_waiting_ends store ns boundKeyPrefix boundLimit ascending positive
          (doFetch store ns boundKeyPrefix boundLimit ascending state) rfl
        exact .of_succ (ends.congr (hasNext_undecided invoked decided))

theorem indexScan_ending (positive : 1 ≤ boundLimit) :
    (indexScan store ns boundKeyPrefix boundLimit ascending).Ending := hasNext_ends positive

/-- The page and the one that was asked for are empty, and the first counts as full. -/
def Idle (state : ParallelScan) : Prop := state.scan.Idle ∧ state.ftch = []

theorem doFetch_idle (nonpositive : boundLimit ≤ 0) {state : ParallelScan} (idle : state.scan.Idle) :
    Idle (doFetch store ns boundKeyPrefix boundLimit ascending state) :=
  ⟨idle, SimpleExecutor.getRange_of_nonpositive state.scan.offset nonpositive⟩

theorem updateFuture_idle (nonpositive : boundLimit ≤ 0) {state : ParallelScan} (idle : Idle state) :
    Idle (updateFuture boundLimit state) := by
  refine ⟨⟨idle.2, ?_⟩, idle.2⟩
  rw [updateFuture, idle.2, idle.1.2, Bool.false_or, decide_eq_false_iff_not, List.length_nil]
  omega

theorem hasNext_unfinished (nonpositive : boundLimit ≤ 0) {state : ParallelScan} (idle : Idle state) (rounds : Nat) :
    hasNext store ns boundKeyPrefix boundLimit ascending rounds state = .error .unfinished := by
  induction rounds generalizing state with
  | zero => rfl
  | succ rounds ih =>
      cases invoked : state.ftchInvoked with
      | false =>
          rw [hasNext_waits invoked]
          exact ih (updateFuture_idle nonpositive idle)
      | true =>
          rw [hasNext_undecided invoked idle.1.undecided]
          exact ih (doFetch_idle nonpositive idle.1)

theorem indexScan_unending (nonpositive : boundLimit ≤ 0) :
    (indexScan store ns boundKeyPrefix boundLimit ascending).Unending :=
  ⟨_, fun _ => rfl, hasNext_unfinished nonpositive (doFetch_idle nonpositive ⟨rfl, rfl⟩)⟩

end ParallelExecutor

end

inductive Executor where
  | simple
  | parallel

namespace Executor

def apply (ctx : Context) (store : Store) : Executor → QueryPlan → Except QueryFailure QueryIterator
  | simple => SimpleExecutor.apply ctx store
  | parallel => ParallelExecutor.apply ctx store

/-- The number of records that a scan asks for at a time. -/
def pageLimit : Executor → Int → Int
  | simple, boundLimit => boundLimit
  | parallel, boundLimit => toInt32 (boundLimit + 1)

/-- The limits with which a page can hold a record. -/
def Pages : Executor → Int → Prop
  | simple, boundLimit => 1 ≤ boundLimit
  | parallel, boundLimit => 0 ≤ boundLimit ∧ boundLimit < 2 ^ 31 - 1

theorem pages_iff {executor : Executor} {boundLimit : Int} (low : -2 ^ 31 ≤ boundLimit) (high : boundLimit < 2 ^ 31) :
    executor.Pages boundLimit ↔ 1 ≤ executor.pageLimit boundLimit := by
  cases executor with
  | simple => exact Iff.rfl
  | parallel =>
      rw [Pages, pageLimit]
      by_cases last : boundLimit = 2 ^ 31 - 1
      · have wraps : toInt32 (boundLimit + 1) = -2 ^ 31 := by
          rw [last]
          decide
        omega
      · have next : toInt32 (boundLimit + 1) = boundLimit + 1 := toInt32_of_range (by omega) (by omega)
        omega

end Executor

/-- A scan with this limit, perhaps under stops. -/
inductive Scans (limit : Limit) : QueryPlan → Prop where
  | indexScan {ns : TupleProvider} {keyPrefix : KeyGenerator} {ascending : Bool} :
      Scans limit (.indexScan ns keyPrefix limit ascending)
  | localStopAfter {k : Limit} {child : QueryPlan} (scans : Scans limit child) :
      Scans limit (.localStopAfter k child)

section

variable {ctx : Context} {store : Store} {executor : Executor} {limit : Limit} {plan : QueryPlan}
  {iterator : QueryIterator}

theorem Executor.apply_indexScan {ns : TupleProvider} {keyPrefix : KeyGenerator} {ascending : Bool}
    (applied : executor.apply ctx store (.indexScan ns keyPrefix limit ascending) = .ok iterator) :
    ∃ boundLimit, bindLimit ctx limit = .ok boundLimit ∧
      (1 ≤ executor.pageLimit boundLimit → iterator.Ending) ∧
      (executor.pageLimit boundLimit ≤ 0 → iterator.Unending) := by
  cases executor with
  | simple =>
      obtain ⟨boundKeyPrefix, bound, scan⟩ := built_bind applied
      obtain ⟨boundLimit, isLimit, rfl⟩ := built_map scan
      exact ⟨boundLimit, isLimit, SimpleExecutor.indexScan_ending, SimpleExecutor.indexScan_unending⟩
  | parallel =>
      obtain ⟨boundKeyPrefix, bound, scan⟩ := built_bind applied
      obtain ⟨boundLimit, isLimit, rfl⟩ := built_map scan
      exact ⟨boundLimit, isLimit, ParallelExecutor.indexScan_ending, ParallelExecutor.indexScan_unending⟩

theorem Executor.apply_localStopAfter {k : Limit} {child : QueryPlan}
    (applied : executor.apply ctx store (.localStopAfter k child) = .ok iterator) :
    ∃ childIterator count, executor.apply ctx store child = .ok childIterator ∧
      iterator = SimpleExecutor.localStopAfter count childIterator := by
  cases executor with
  | simple | parallel =>
      obtain ⟨childIterator, built, stopped⟩ := built_bind applied
      obtain ⟨count, isLimit, rfl⟩ := built_map stopped
      exact ⟨childIterator, count, built, rfl⟩

theorem Scans.ending_or_unending (scans : Scans limit plan) (applied : executor.apply ctx store plan = .ok iterator) :
    ∃ boundLimit, bindLimit ctx limit = .ok boundLimit ∧
      (1 ≤ executor.pageLimit boundLimit → iterator.Ending) ∧
      (executor.pageLimit boundLimit ≤ 0 → iterator.Unending) := by
  induction scans generalizing iterator with
  | indexScan => exact Executor.apply_indexScan applied
  | localStopAfter scans ih =>
      obtain ⟨childIterator, count, built, rfl⟩ := Executor.apply_localStopAfter applied
      obtain ⟨boundLimit, isLimit, ending, unending⟩ := ih built
      exact ⟨boundLimit, isLimit, fun positive => SimpleExecutor.localStopAfter_ending (ending positive),
        fun nonpositive => SimpleExecutor.localStopAfter_unending (unending nonpositive)⟩

/-- `hasNext` of a scan ends, whatever the store has and whatever was called before, exactly if
the pages of the scan can hold a record. -/
theorem scans_end_iff (scans : Scans limit plan) (applied : executor.apply ctx store plan = .ok iterator) :
    ∃ boundLimit, bindLimit ctx limit = .ok boundLimit ∧
      (iterator.HasNextEnds ↔ executor.Pages boundLimit) := by
  obtain ⟨boundLimit, isLimit, ending, unending⟩ := scans.ending_or_unending applied
  refine ⟨boundLimit, isLimit, ?_⟩
  rw [Executor.pages_iff (le_bindLimit ctx isLimit) (bindLimit_lt ctx isLimit)]
  constructor
  · intro ends
    by_cases positive : 1 ≤ executor.pageLimit boundLimit
    · exact positive
    · exact absurd ends (unending (by omega)).not_hasNextEnds
  · intro positive
    exact (ending positive).hasNextEnds

end

/-- The first drafts of a user, as many as the caller wants. -/
def firstDrafts : QueryPlan :=
  .localStopAfter (.parameter 0 10) (.indexScan drafts [.constant (.utf8 "alice")] (.parameter 0 10) true)

theorem firstDrafts_scans : Scans (.parameter 0 10) firstDrafts := .localStopAfter .indexScan

def wanted (count : Int32) : Context := ⟨[.value (.int count)]⟩

theorem no_drafts_wanted_in_parallel :
    ∃ iterator, Executor.parallel.apply (wanted 0) twoTexts firstDrafts = .ok iterator ∧
      ∃ boundLimit, bindLimit (wanted 0) (.parameter 0 10) = .ok boundLimit ∧
        (iterator.HasNextEnds ↔ Executor.parallel.Pages boundLimit) :=
  ⟨_, rfl, scans_end_iff firstDrafts_scans rfl⟩

/-- A scan for no record at all asks for its empty page again and again. -/
theorem no_drafts_wanted :
    ¬ ∀ (ctx : Context) (store : Store) (executor : Executor) (limit : Limit) (plan : QueryPlan)
      (iterator : QueryIterator), Scans limit plan → executor.apply ctx store plan = .ok iterator →
        iterator.HasNextEnds := by
  intro ends
  have unending : (SimpleExecutor.localStopAfter 0
      (SimpleExecutor.indexScan twoTexts drafts [.utf8 "alice", .null] 0 true)).Unending :=
    SimpleExecutor.localStopAfter_unending (SimpleExecutor.indexScan_unending (Int.le_refl 0))
  exact unending.not_hasNextEnds (ends (wanted 0) twoTexts .simple _ firstDrafts _ firstDrafts_scans rfl)

end Scads.Piql
