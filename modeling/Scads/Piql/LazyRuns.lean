import Scads.Piql.LazyExecutor
import Scads.Piql.SimpleRuns

namespace Scads.Piql

open Scads.Client Scads.Data

/-! # Runs of the lazy executor

The lazy lookup join reads its child without opening it.  This is right for the
lazy iterators, which need not be opened, and wrong for those that the lazy
executor takes over from the simple one.
-/

namespace LazyExecutor

variable {ctx : Context} {store : Store}

theorem indexLookup_follows (store : Store) (ns : TupleProvider) (boundKey : Key) :
    (indexLookup store ns boundKey).Follows false
      (.ofList ((store.getRecord ns boundKey).toList.map fun r => [r])) := by
  let given (accessed : Bool) : Course QueryFailure Tuple :=
    if accessed then .done else .ofList ((store.getRecord ns boundKey).toList.map fun r => [r])
  refine ⟨fun accessed course => course = given accessed, ?_, rfl⟩
  constructor
  · intro accessed course same
    subst same
    refine ⟨accessed, (Settles.const _).congr fun rounds => ?_, rfl⟩
    dsimp only [indexLookup, given]
    cases accessed <;> cases store.getRecord ns boundKey <;> rfl
  · intro accessed value rest same
    cases accessed with
    | true => cases same
    | false =>
        cases read : store.getRecord ns boundKey with
        | none =>
            simp only [given, read] at same
            cases same
        | some record =>
            simp only [given, read] at same
            cases same
            refine ⟨true, (Settles.const _).congr fun rounds => ?_, rfl⟩
            dsimp only [indexLookup]
            rw [read]
  · intro accessed failure same
    cases accessed with
    | true => cases same
    | false => exact absurd same.symm Course.ofList_ne_fails

section

variable {ns : TupleProvider} {boundKeyPrefix : Key} {ascending : Bool} {scan : LazyScan} {rest : List Record}

/-- The records that a scan has still to give: the one that it holds and those after the offset. -/
structure Left (all : List Record) (scan : LazyScan) (skipped : Nat) (rest : List Record) : Prop where
  offset : scan.offset = skipped
  within : skipped ≤ all.length
  records : rest = scan.result.toList ++ all.drop skipped
  ended : scan.limitReached = true → all.drop skipped = []

theorem Left.doFetch {skipped : Nat} (left : Left (store.inOrder ns boundKeyPrefix ascending) scan skipped rest)
    (used : scan.result = none) (fetches : scan.limitReached = false) :
    Left (store.inOrder ns boundKeyPrefix ascending) (doFetch store ns boundKeyPrefix ascending scan)
      (skipped + (store.getRange ns boundKeyPrefix ascending skipped 1).length) rest := by
  have isOffset := left.offset
  have one : (store.getRange ns boundKeyPrefix ascending skipped 1).length ≤ 1 := List.length_take_le _ _
  have short : (store.getRange ns boundKeyPrefix ascending skipped 1).head?.toList =
      store.getRange ns boundKeyPrefix ascending skipped 1 := by
    revert one
    cases store.getRange ns boundKeyPrefix ascending skipped 1 with
    | nil => exact fun _ => rfl
    | cons record others =>
        intro one
        rw [List.eq_nil_of_length_eq_zero (Nat.le_zero.mp (Nat.le_of_succ_le_succ one))]
        rfl
  constructor
  · rw [← Store.toInt32_getRange 1 left.within, ← isOffset]
    rfl
  · exact Store.getRange_within 1 left.within
  · rw [left.records, used, Option.toList_none, List.nil_append, ← Store.getRange_append 1,
      LazyExecutor.doFetch, isOffset, short]
  · intro reached
    rw [LazyExecutor.doFetch, isOffset, fetches, Bool.false_or] at reached
    refine Store.drop_of_short ?_
    rw [List.isEmpty_iff.mp reached]
    decide

/-- `hasNext` holds the first of the records that are left. -/
theorem hasNext_settles {skipped : Nat}
    (left : Left (store.inOrder ns boundKeyPrefix ascending) scan skipped rest) :
    ∃ after skipped, Settles (hasNext store ns boundKeyPrefix ascending · scan) (.ok (!rest.isEmpty, after)) ∧
      Left (store.inOrder ns boundKeyPrefix ascending) after skipped rest ∧ after.result = rest.head? := by
  have decided {scan : LazyScan} {skipped : Nat}
      (left : Left (store.inOrder ns boundKeyPrefix ascending) scan skipped rest)
      (decided : scan.result.isSome = true ∨ scan.limitReached = true) :
      ∃ after skipped, Settles (hasNext store ns boundKeyPrefix ascending · scan) (.ok (!rest.isEmpty, after)) ∧
        Left (store.inOrder ns boundKeyPrefix ascending) after skipped rest ∧ after.result = rest.head? := by
    refine ⟨scan, skipped, .of_succ ((Settles.const _).congr fun rounds => ?_), left, ?_⟩
    · rw [hasNext, left.records]
      cases held : scan.result with
      | some record => rfl
      | none =>
          have reached := decided.resolve_left (by simp [held])
          simp [reached, left.ended reached]
    · rw [left.records]
      cases held : scan.result with
      | some record => rfl
      | none =>
          rw [left.ended (decided.resolve_left (by simp [held]))]
          rfl
  by_cases now : scan.result.isSome = true ∨ scan.limitReached = true
  · exact decided left now
  · obtain ⟨used, fetches⟩ := not_or.mp now
    have used : scan.result = none := by simpa using used
    have fetches : scan.limitReached = false := by simpa using fetches
    have fetched := left.doFetch used fetches
    obtain ⟨after, later, settles, kept⟩ := decided fetched (by
      simp only [doFetch, fetches, Bool.false_or]
      cases store.getRange ns boundKeyPrefix ascending scan.offset 1 <;> simp)
    refine ⟨after, later, .of_succ (settles.congr fun rounds => ?_), kept⟩
    rw [hasNext, used, if_neg (by simp), if_pos fetches]

theorem indexScan_follows (store : Store) (ns : TupleProvider) (boundKeyPrefix : Key) (ascending : Bool) :
    (indexScan store ns boundKeyPrefix ascending).Follows (indexScan store ns boundKeyPrefix ascending).initial
      (.ofList ((store.inOrder ns boundKeyPrefix ascending).map fun r => [r])) := by
  have start : Left (store.inOrder ns boundKeyPrefix ascending)
      { result := none, offset := 0, limitReached := false } 0
      (store.inOrder ns boundKeyPrefix ascending) := ⟨rfl, Nat.zero_le _, rfl, nofun⟩
  refine ⟨fun scan course => ∃ skipped rest,
    Left (store.inOrder ns boundKeyPrefix ascending) scan skipped rest ∧
      course = .ofList (rest.map fun r => [r]), ?_, _, _, start, rfl⟩
  constructor
  · intro scan course found
    obtain ⟨skipped, rest, left, rfl⟩ := found
    obtain ⟨after, later, settles, left, -⟩ := hasNext_settles left
    refine ⟨after, ?_, later, rest, left, rfl⟩
    rw [Course.pending_ofList, List.isEmpty_map]
    exact settles
  · intro scan value others found
    obtain ⟨skipped, rest, left, same⟩ := found
    cases rest with
    | nil => cases same
    | cons record rest =>
        obtain ⟨after, later, settles, left, held⟩ := hasNext_settles left
        cases same
        have behind : Left (store.inOrder ns boundKeyPrefix ascending) { after with result := none } later rest := by
          refine ⟨left.offset, left.within, ?_, left.ended⟩
          have records := left.records
          rw [held] at records
          exact (List.cons.inj records).2
        refine ⟨{ after with result := none }, settles.bind ((Settles.const _).congr fun rounds => ?_), later, _,
          behind, rfl⟩
        dsimp only
        rw [held]
        rfl
  · intro scan failure found
    obtain ⟨skipped, rest, left, same⟩ := found
    exact absurd same.symm Course.ofList_ne_fails

end

section

variable {child : QueryIterator} {result : Except QueryFailure (Course QueryFailure Tuple)}

/-- A lookup join that does not open its child. -/
def unopenedJoin (ctx : Context) (store : Store) (ns : TupleProvider) (key : KeyGenerator)
    (child : QueryIterator) : QueryIterator :=
  .holding child.initial (fun _ state => .ok state) (child.search (lookupRecord ctx store ns key)) .nullPointer

theorem indexLookupJoin_embeds (ns : TupleProvider) (key : KeyGenerator) (child : QueryIterator) :
    Embeds (unopenedJoin ctx store ns key child) (indexLookupJoin ctx store ns key child)
      fun state => (state.1, state.2, false) where
  hasNext _ _ := rfl
  next := by
    intro rounds found
    obtain ⟨state, held⟩ := found
    cases held with
    | none => rfl
    | some ret =>
        dsimp only [unopenedJoin, Machine.holding, indexLookupJoin]
        cases child.search (lookupRecord ctx store ns key) rounds state <;> rfl

theorem indexLookupJoin_answers (ctx : Context) (store : Store) (ns : TupleProvider) (key : KeyGenerator)
    (answers : child.Answers child.initial result) :
    (indexLookupJoin ctx store ns key child).Answers (child.initial, none, true)
      (result >>= Course.sift (lookupRecord ctx store ns key)) := by
  have opens : (unopenedJoin ctx store ns key child).Opens _ :=
    Machine.holding_opens (child.sifted_sought _) (.const _) (answers.sought (lookupRecord ctx store ns key))
  refine (indexLookupJoin_embeds ns key child).answers opens fun rounds => ?_
  change (child.search (lookupRecord ctx store ns key) rounds child.initial >>= _) =
    (child.search (lookupRecord ctx store ns key) rounds child.initial >>= _) >>= _
  cases child.search (lookupRecord ctx store ns key) rounds child.initial <;> rfl

theorem indexMergeJoin_embeds (ns : TupleProvider) (keyPrefix : KeyGenerator) (sortFields : List Value)
    (ascending : Bool) (child : QueryIterator) :
    Embeds (SimpleExecutor.indexMergeJoin ctx store ns keyPrefix sortFields 1 ascending child)
      (indexMergeJoin ctx store ns keyPrefix sortFields ascending child) some where
  hasNext _ _ := rfl
  next := by
    intro rounds found
    obtain ⟨datas, held⟩ := found
    cases held with
    | none => rfl
    | some ret =>
        dsimp only [SimpleExecutor.indexMergeJoin, Machine.holding, indexMergeJoin]
        change (SimpleExecutor.getNext ctx store ns sortFields 1 ascending datas >>= _) = _
        cases SimpleExecutor.getNext ctx store ns sortFields 1 ascending datas <;> rfl

theorem indexMergeJoin_answers (ctx : Context) (store : Store) (ns : TupleProvider) (keyPrefix : KeyGenerator)
    (sortFields : List Value) (ascending : Bool) (begins : child.Begins result) :
    (indexMergeJoin ctx store ns keyPrefix sortFields ascending child).Answers none (do
      let lists ← (← result).gather (joined ctx store ns keyPrefix ascending)
      merge (goesBefore ctx sortFields ascending) (total lists) lists) := by
  have opens := SimpleExecutor.indexMergeJoin_opens ctx store ns keyPrefix sortFields ascending
    (Int.le_refl 1) begins
  refine (indexMergeJoin_embeds ns keyPrefix sortFields ascending child).answers opens fun rounds => ?_
  dsimp only [SimpleExecutor.indexMergeJoin, Machine.holding, indexMergeJoin, mergeHasNext]
  cases child.opened rounds child.initial with
  | error failure => rfl
  | ok state =>
      change (child.gather _ rounds state >>= _) = (child.gather _ rounds state >>= _) >>= _
      cases child.gather (SimpleExecutor.prefetch ctx store ns keyPrefix 1 ascending) rounds state with
      | error failure => rfl
      | ok datas =>
          change (SimpleExecutor.getNext ctx store ns sortFields 1 ascending datas >>= _) =
            (SimpleExecutor.getNext ctx store ns sortFields 1 ascending datas >>= _) >>= _
          cases SimpleExecutor.getNext ctx store ns sortFields 1 ascending datas <;> rfl

section

variable {limit : Int} {state : child.State}

theorem localStopAfter_answers (bounded : limit < 2 ^ 31) (answers : child.Answers state result) :
    (SimpleExecutor.localStopAfter limit child).Answers (state, 0) (do return (← result).stop limit.toNat) := by
  cases result with
  | error failure => exact Settles.bind_error answers
  | ok course =>
      obtain ⟨after, answered, follows⟩ := answers
      refine ⟨(after, 0), (answered.bind (.const _)).congr_outcome ?_, _,
        SimpleExecutor.localStopAfter_simulates bounded child, course, follows, Int.le_refl 0, ?_⟩
      · have same : decide (limit > 0) = decide (0 < limit.toNat) := by
          simp only [gt_iff_lt, decide_eq_decide]
          omega
        change Except.ok (course.pending && decide (limit > 0), (after, (0 : Int))) = _
        rw [SimpleExecutor.stop_pending, same]
        rfl
      · rw [Int.sub_zero]

theorem localStopAfter_begins (bounded : limit < 2 ^ 31) (begins : child.Begins result) :
    (SimpleExecutor.localStopAfter limit child).Begins (do return (← result).stop limit.toNat) := by
  cases begins with
  | fails opened => exact .fails (opened.bind_error)
  | answers opened answers =>
      exact .answers (opened.bind (.const _)) (localStopAfter_answers bounded answers)

end

end

end LazyExecutor

/-- The lazy iterator of the plan can be read without being opened. -/
def QueryPlan.NeedsNoOpen : QueryPlan → Prop
  | .indexLookupJoin _ _ child | .localStopAfter _ child => child.NeedsNoOpen
  | .localSelection .. | .localIterator .. => False
  | .indexLookup .. | .indexScan .. | .indexMergeJoin .. => True
  | .indexScanJoin .. | .localSort .. | .union .. => True

/-- No lookup join of the plan reads a selection or a local iterator that would have to be opened. -/
def QueryPlan.LazilyReadable : QueryPlan → Prop
  | .indexLookupJoin _ _ child => child.NeedsNoOpen ∧ child.LazilyReadable
  | .indexMergeJoin _ _ _ _ _ child | .localSelection _ child | .localStopAfter _ child => child.LazilyReadable
  | .indexLookup .. | .indexScan .. | .localIterator .. => True
  | .indexScanJoin .. | .localSort .. | .union .. => True

section

variable {ctx : Context} {store : Store} {max : Int} {plan : QueryPlan}

theorem lazy_applies (store : Store) (limits : LimitsWithin ctx max plan) (readable : plan.LazilyReadable) :
    Agree (fun _ iterator => iterator.Begins (course ctx store plan) ∧
        (plan.NeedsNoOpen → iterator.Answers iterator.initial (course ctx store plan)))
      (SimpleExecutor.apply ctx store plan) (LazyExecutor.apply ctx store plan) := by
  induction plan with
  | indexLookup ns key =>
      rw [SimpleExecutor.apply, LazyExecutor.apply, course]
      cases bindKey ctx ns key none with
      | error failure => exact .error failure
      | ok boundKey =>
          have answers := (LazyExecutor.indexLookup_follows store ns boundKey).answers
          exact .ok ⟨.answers (.const _) answers, fun _ => answers⟩
  | indexScan ns keyPrefix limit ascending =>
      obtain ⟨boundLimit, isLimit, -, -⟩ := limits limit (by simp [QueryPlan.limits])
      rw [SimpleExecutor.apply, LazyExecutor.apply, course, isLimit]
      cases bindKey ctx ns keyPrefix none with
      | error failure => exact .error failure
      | ok boundKeyPrefix =>
          have answers := (LazyExecutor.indexScan_follows store ns boundKeyPrefix ascending).answers
          exact .ok ⟨.answers (.const _) answers, fun _ => answers⟩
  | indexLookupJoin ns key child ih =>
      rw [SimpleExecutor.apply, LazyExecutor.apply, map_eq_bind, map_eq_bind]
      refine (ih limits readable.2).bind fun here => .ok ?_
      have answers := LazyExecutor.indexLookupJoin_answers ctx store ns key (here.2 readable.1)
      exact ⟨.answers (.const _) answers, fun _ => answers⟩
  | indexMergeJoin ns keyPrefix sortFields limit ascending child ih =>
      obtain ⟨boundLimit, isLimit, positive, -⟩ := limits limit (by simp [QueryPlan.limits])
      rw [SimpleExecutor.apply, LazyExecutor.apply, course, isLimit, map_eq_bind]
      refine (ih (limits.child (List.subset_cons_self ..)) readable).bind fun here => .ok ?_
      have answers := LazyExecutor.indexMergeJoin_answers ctx store ns keyPrefix sortFields ascending here.1
      simp only [← mergePages_of_positive positive] at answers
      exact ⟨.answers (.const _) answers, fun _ => answers⟩
  | localSelection predicate child ih =>
      rw [SimpleExecutor.apply, LazyExecutor.apply, map_eq_bind, map_eq_bind]
      refine (ih limits readable).bind fun here => .ok ⟨?_, False.elim⟩
      exact (here.1.lookahead (keepSelected ctx predicate) .nullPointer).begins
  | localStopAfter count child ih =>
      obtain ⟨limit, isLimit, -, -⟩ := limits count (by simp [QueryPlan.limits])
      rw [SimpleExecutor.apply, LazyExecutor.apply, course, isLimit]
      refine (ih (limits.child (List.subset_cons_self ..)) readable).bind fun here => .ok ⟨?_, fun ready => ?_⟩
      · exact LazyExecutor.localStopAfter_begins (bindLimit_lt ctx isLimit) here.1
      · exact LazyExecutor.localStopAfter_answers (bindLimit_lt ctx isLimit) (here.2 ready)
  | localIterator ordinal wrap =>
      exact .ok ⟨(SimpleExecutor.localIterator_opens ctx ordinal wrap).begins, False.elim⟩
  | indexScanJoin | localSort | union => exact .error _

theorem unopened_done {child : QueryIterator} {test : Tuple → Except QueryFailure (Option Tuple)}
    {absent : QueryFailure} :
    (child.lookahead test absent).Answers (child.lookahead test absent).initial (.ok .done) := by
  have follows : (child.lookahead test absent).Follows (child.initial, none) .done :=
    ⟨_, Machine.holding_simulates (child.sifted_sought test), rfl⟩
  exact follows.answers

/-- An iterator that is read although it has to be opened first gives nothing or fails. -/
theorem unopened_answers (limits : LimitsWithin ctx max plan) (needed : ¬ plan.NeedsNoOpen)
    {iterator : QueryIterator} (applied : LazyExecutor.apply ctx store plan = .ok iterator) :
    iterator.Answers iterator.initial (.ok .done) ∨ iterator.Answers iterator.initial (.error .nullPointer) := by
  induction plan generalizing iterator with
  | indexLookup | indexScan | indexMergeJoin | indexScanJoin | localSort | union => exact absurd trivial needed
  | indexLookupJoin ns key child ih =>
      obtain ⟨childIterator, childApplied, rfl⟩ := built_map applied
      exact (ih limits needed childApplied).imp (LazyExecutor.indexLookupJoin_answers ctx store ns key)
        (LazyExecutor.indexLookupJoin_answers ctx store ns key)
  | localSelection predicate child ih =>
      obtain ⟨childIterator, childApplied, rfl⟩ := built_map applied
      exact .inl unopened_done
  | localStopAfter count child ih =>
      obtain ⟨childIterator, childApplied, applied⟩ := built_bind applied
      obtain ⟨limit, isLimit, rfl⟩ := built_map applied
      have bounded := bindLimit_lt ctx isLimit
      obtain nothing | fails := ih (limits.child (List.subset_cons_self ..)) needed childApplied
      · have stopped := LazyExecutor.localStopAfter_answers bounded nothing
        rw [show (Except.ok (Course.done : Course QueryFailure Tuple) >>= fun rest =>
          pure (rest.stop limit.toNat)) = (.ok .done : Except QueryFailure _) by cases limit.toNat <;> rfl] at stopped
        exact .inl stopped
      · exact .inr (LazyExecutor.localStopAfter_answers bounded fails)
  | localIterator ordinal wrap =>
      cases applied
      exact .inr (.const _)

/-- A lookup join over an iterator that has to be opened loses all its tuples. -/
theorem unopened_join_loses {ns : TupleProvider} {key : KeyGenerator} {child : QueryPlan}
    (limits : LimitsWithin ctx max child) (needed : ¬ child.NeedsNoOpen) {tuple : Tuple} {tuples : List Tuple} :
    ¬ Settles (execute (LazyExecutor.apply ctx store (.indexLookupJoin ns key child))) (.ok (tuple :: tuples)) := by
  intro yields
  cases applied : LazyExecutor.apply ctx store (.indexLookupJoin ns key child) with
  | error failure =>
      rw [applied] at yields
      cases yields.unique (.const (.error failure))
  | ok iterator =>
      rw [applied] at yields
      obtain ⟨childIterator, childApplied, rfl⟩ := built_map applied
      obtain nothing | fails := unopened_answers limits needed childApplied
      · have answers := LazyExecutor.indexLookupJoin_answers ctx store ns key nothing
        cases yields.unique (Machine.Begins.answers (.const _) answers).drain
      · have answers := LazyExecutor.indexLookupJoin_answers ctx store ns key fails
        cases yields.unique (Machine.Begins.answers (.const _) answers).drain

/-- Both executors come to the same tuples or the same failure when every iterator that has to be opened
is; a lookup join over one that is not loses the tuples that it has under the simple executor. -/
theorem lazy_agrees_with_simple (limits : LimitsWithin ctx (2 ^ 31 - 1) plan) :
    (plan.LazilyReadable →
      ∃ outcome, Settles (execute (SimpleExecutor.apply ctx store plan)) outcome ∧
        Settles (execute (LazyExecutor.apply ctx store plan)) outcome) ∧
    ∀ ns key child tuple tuples, plan = .indexLookupJoin ns key child → ¬ child.NeedsNoOpen →
      Settles (execute (SimpleExecutor.apply ctx store plan)) (.ok (tuple :: tuples)) →
      ¬ Settles (execute (LazyExecutor.apply ctx store plan)) (.ok (tuple :: tuples)) := by
  refine ⟨fun readable => ⟨_, SimpleExecutor.execute_settles limits.advance, ?_⟩, ?_⟩
  · have applies := lazy_applies store limits readable
    revert applies
    generalize SimpleExecutor.apply ctx store plan = simple
    generalize LazyExecutor.apply ctx store plan = lazily
    intro applies
    cases applies with
    | error failure => exact .const _
    | ok here => exact here.1.drain
  · intro ns key child tuple tuples same needed _
    subst same
    have below : LimitsWithin ctx (2 ^ 31 - 1) child := limits
    exact unopened_join_loses below needed

end

def noArguments : Context := ⟨[]⟩

def selectHello : QueryPlan :=
  .localSelection (.equality (.attribute 0 2) (.constant (.utf8 "hello")))
    (.indexScan thoughts [.constant (.utf8 "alice")] (.fixed 10) true)

theorem selectHello_limits : LimitsWithin noArguments (2 ^ 31 - 1) selectHello := by
  intro limit member
  obtain rfl := List.mem_singleton.mp member
  exact ⟨10, rfl, by decide, by decide⟩

/-- A selection at the top of a plan is opened. -/
theorem selection_agrees :
    LimitsWithin noArguments (2 ^ 31 - 1) selectHello ∧
      Settles (execute (LazyExecutor.apply noArguments oneThought selectHello))
        (.ok [[[.utf8 "alice", .int 1, .utf8 "hello"]]]) := by
  refine ⟨selectHello_limits, ?_⟩
  obtain ⟨outcome, simple, lazily⟩ :=
    (@lazy_agrees_with_simple noArguments oneThought selectHello selectHello_limits).1 trivial
  have yields := simple.unique (SimpleExecutor.execute_settles selectHello_limits.advance)
  rw [yields] at lazily
  exact lazily

/-- A selection below a lookup join is not. -/
theorem selection_below_join_is_lost :
    ∃ (ctx : Context) (store : Store) (plan : QueryPlan) (tuples : List Tuple),
      LimitsWithin ctx (2 ^ 31 - 1) plan ∧
        Settles (execute (SimpleExecutor.apply ctx store plan)) (.ok tuples) ∧
        ¬ Settles (execute (LazyExecutor.apply ctx store plan)) (.ok tuples) :=
  ⟨noArguments, oneThought, .indexLookupJoin thoughts [.attribute 0 0, .attribute 0 1] selectHello,
    [[[.utf8 "alice", .int 1, .utf8 "hello"], [.utf8 "alice", .int 1, .utf8 "hello"]]],
    selectHello_limits, SimpleExecutor.execute_settles selectHello_limits.advance,
    unopened_join_loses selectHello_limits id⟩

end Scads.Piql
