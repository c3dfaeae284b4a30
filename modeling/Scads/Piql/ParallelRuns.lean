import Scads.Piql.ParallelExecutor
import Scads.Piql.SimpleRuns

namespace Scads.Piql

open Scads.Client Scads.Data

/-! # Runs of the parallel executor

The parallel scan reads larger pages and waits for them as late as it can, and the
parallel lookup join looks up to ten tuples ahead.  Both give the tuples of the
simple operators when nothing that they evaluate ahead fails.
-/

section

variable (ctx : Context) (store : Store)

/-- All the tuples of a plan, each operator applied to all the tuples of its child. -/
def rows : QueryPlan → Except QueryFailure (List Tuple)
  | .indexLookup ns key => do
      let boundKey ← bindKey ctx ns key none
      return (store.getRecord ns boundKey).toList.map fun r => [r]
  | .indexScan ns keyPrefix _ ascending => do
      let boundKeyPrefix ← bindKey ctx ns keyPrefix none
      return (store.inOrder ns boundKeyPrefix ascending).map fun r => [r]
  | .indexLookupJoin ns key child => do
      return (← (← rows child).mapM (lookupRecord ctx store ns key)).filterMap id
  | .indexMergeJoin ns keyPrefix sortFields _ ascending child => do
      let lists ← (← rows child).mapM (joined ctx store ns keyPrefix ascending)
      merge (goesBefore ctx sortFields ascending) (total lists) lists >>= Course.outcome
  | .localSelection predicate child => do
      return (← (← rows child).mapM (keepSelected ctx predicate)).filterMap id
  | .localStopAfter k child => do
      let tuples ← rows child
      return tuples.take (← bindLimit ctx k).toNat
  | .localIterator ordinal wrap => do (← localTuples ctx ordinal wrap).mapM id
  | .union .. => .error (.runtime "Not yet implemented")
  | .indexScanJoin .. | .localSort .. => .error .matchError

end

/-- The plans that are built without merge joins, sorts and unions. -/
def QueryPlan.Mergeless : QueryPlan → Prop
  | .indexLookup .. | .indexScan .. | .localIterator .. => True
  | .indexLookupJoin _ _ child | .localSelection _ child | .localStopAfter _ child => child.Mergeless
  | .indexScanJoin .. | .indexMergeJoin .. | .localSort .. | .union .. => False

section

variable {ctx : Context} {store : Store} {plan : QueryPlan} {tuples : List Tuple}

theorem mapM_id_ok {results : List (Except QueryFailure Tuple)} (read : results.mapM id = .ok tuples) :
    results = tuples.map .ok := by
  have each := mapM_forall₂.mp read
  clear read
  induction each with
  | nil => rfl
  | cons here rest ih => rw [List.map_cons, ← ih, ← here, id]

/-- A plan that can be evaluated to the end gives its tuples and ends. -/
theorem course_of_rows (evaluates : rows ctx store plan = .ok tuples) (mergeless : plan.Mergeless) :
    course ctx store plan = .ok (.ofList tuples) := by
  induction plan generalizing tuples with
  | indexLookup ns key =>
      obtain ⟨boundKey, bound, same⟩ := built_bind evaluates
      cases same
      rw [course, bound]
      rfl
  | indexScan ns keyPrefix limit ascending =>
      obtain ⟨boundKeyPrefix, bound, same⟩ := built_bind evaluates
      cases same
      rw [course, bound]
      rfl
  | indexLookupJoin ns key child ih =>
      obtain ⟨childTuples, childRows, evaluates⟩ := built_bind evaluates
      obtain ⟨results, looked, same⟩ := built_bind evaluates
      cases same
      rw [course, ih childRows mergeless]
      exact Course.sift_ofList looked
  | indexScanJoin | indexMergeJoin => cases mergeless
  | localSelection predicate child ih =>
      obtain ⟨childTuples, childRows, evaluates⟩ := built_bind evaluates
      obtain ⟨results, looked, same⟩ := built_bind evaluates
      cases same
      rw [course, ih childRows mergeless]
      exact Course.sift_ofList looked
  | localSort sortFields ascending child ih => cases evaluates
  | localStopAfter count child ih =>
      obtain ⟨childTuples, childRows, evaluates⟩ := built_bind evaluates
      obtain ⟨limit, bound, same⟩ := built_bind evaluates
      cases same
      rw [course, ih childRows mergeless, bound]
      exact congrArg Except.ok (Course.stop_ofList _ _)
  | localIterator ordinal wrap =>
      obtain ⟨results, read, evaluates⟩ := built_bind evaluates
      rw [course, read, mapM_id_ok evaluates, ← Course.ofResults_ok]
      rfl
  | union child1 child2 eqField => cases evaluates

end

namespace ParallelExecutor

variable {ctx : Context} {store : Store}

theorem indexLookup_opens (ns : TupleProvider) (boundKey : Key) :
    (indexLookup store ns boundKey).Opens
      (.ok (.ofList ((store.getRecord ns boundKey).toList.map fun r => [r]))) := by
  refine ⟨some (store.getRecord ns boundKey), .const _,
    fun ftch course => course = .ofList (ftch.join.toList.map fun r => [r]), ?_, rfl⟩
  constructor
  · intro ftch course same
    subst same
    refine ⟨ftch, ?_, rfl⟩
    have pending : (Course.ofList (ftch.join.toList.map fun r => [r]) :
        Course QueryFailure Tuple).pending = ftch.join.isSome := by
      cases ftch.join <;> rfl
    rw [pending]
    exact .const _
  · intro ftch value rest same
    cases read : ftch.join with
    | none =>
        rw [read] at same
        cases same
    | some record =>
        rw [read] at same
        cases same
        refine ⟨none, (Settles.const _).congr fun rounds => ?_, rfl⟩
        dsimp only [indexLookup]
        rw [read]
  · intro ftch failure same
    exact absurd same.symm Course.ofList_ne_fails

section

variable {ns : TupleProvider} {boundKeyPrefix : Key} {boundLimit : Int} {ascending : Bool}
  {state : ParallelScan} {rest : List Record}

open SimpleExecutor (Left)

/-- The records that a scan has still to give.  Before it has waited for a page, it has read the one before. -/
structure Coming (store : Store) (ns : TupleProvider) (boundKeyPrefix : Key) (boundLimit : Int) (ascending : Bool)
    (state : ParallelScan) (skipped : Nat) (rest : List Record) : Prop where
  left : Left (store.inOrder ns boundKeyPrefix ascending) state.scan skipped rest
  asked : state.ftchInvoked = false → state.scan.result.length ≤ state.scan.pos ∧
    state.scan.limitReached = false ∧
    state.ftch = store.getRange ns boundKeyPrefix ascending state.scan.offset boundLimit

/-- `hasNext` tells whether records are left, and leaves the first of them in the page. -/
def Reports (store : Store) (ns : TupleProvider) (boundKeyPrefix : Key) (boundLimit : Int) (ascending : Bool)
    (state : ParallelScan) (rest : List Record) : Prop :=
  ∃ after skipped,
    Settles (hasNext store ns boundKeyPrefix boundLimit ascending · state) (.ok (!rest.isEmpty, after)) ∧
      Left (store.inOrder ns boundKeyPrefix ascending) after.scan skipped rest ∧
      after.ftchInvoked = true ∧ (rest ≠ [] → after.scan.pos < after.scan.result.length)

theorem hasNext_decided (invoked : state.ftchInvoked = true) (decided : state.scan.Decided) :
    Settles (hasNext store ns boundKeyPrefix boundLimit ascending · state)
      (.ok (decide (state.scan.pos < state.scan.result.length), state)) := by
  refine .of_succ ((Settles.const _).congr fun rounds => ?_)
  rw [hasNext, if_pos invoked]
  by_cases inPage : state.scan.pos < state.scan.result.length
  · rw [if_pos inPage, decide_eq_true inPage]
  · rw [if_neg inPage, if_pos (decided.resolve_left inPage), decide_eq_false inPage]

theorem hasNext_undecided (invoked : state.ftchInvoked = true) (undecided : ¬ state.scan.Decided) (rounds : Nat) :
    hasNext store ns boundKeyPrefix boundLimit ascending (rounds + 1) state =
      hasNext store ns boundKeyPrefix boundLimit ascending rounds
        (doFetch store ns boundKeyPrefix boundLimit ascending state) := by
  obtain ⟨used, fetches⟩ := Scan.undecided undecided
  rw [hasNext, if_pos invoked, if_neg used, fetches, if_neg Bool.false_ne_true]

theorem hasNext_waits (waiting : state.ftchInvoked = false) (rounds : Nat) :
    hasNext store ns boundKeyPrefix boundLimit ascending (rounds + 1) state =
      hasNext store ns boundKeyPrefix boundLimit ascending rounds (updateFuture boundLimit state) := by
  rw [hasNext, waiting, if_neg Bool.false_ne_true]

theorem reports_decided {skipped : Nat}
    (left : Left (store.inOrder ns boundKeyPrefix ascending) state.scan skipped rest) (boundLimit : Int)
    (invoked : state.ftchInvoked = true) (decided : state.scan.Decided) :
    Reports store ns boundKeyPrefix boundLimit ascending state rest := by
  refine ⟨state, skipped, (hasNext_decided invoked decided).congr_outcome ?_, left, invoked, left.inPage decided⟩
  rw [left.more decided]

theorem Coming.reports_waiting (positive : 1 ≤ boundLimit) {skipped : Nat}
    (coming : Coming store ns boundKeyPrefix boundLimit ascending state skipped rest)
    (waiting : state.ftchInvoked = false) :
    Reports store ns boundKeyPrefix boundLimit ascending state rest := by
  obtain ⟨used, fetches, page⟩ := coming.asked waiting
  have same : (updateFuture boundLimit state).scan =
      SimpleExecutor.doFetch store ns boundKeyPrefix boundLimit ascending state.scan := by
    rw [updateFuture, page, SimpleExecutor.doFetch]
  have fetched := coming.left.doFetch boundLimit used fetches
  have has := SimpleExecutor.doFetch_has store ns boundKeyPrefix ascending positive fetches
  rw [← same] at fetched has
  obtain ⟨after, later, settles, kept⟩ := reports_decided fetched boundLimit rfl has
  exact ⟨after, later, .of_succ (settles.congr (hasNext_waits waiting)), kept⟩

theorem Coming.reports (positive : 1 ≤ boundLimit) {skipped : Nat}
    (coming : Coming store ns boundKeyPrefix boundLimit ascending state skipped rest) :
    Reports store ns boundKeyPrefix boundLimit ascending state rest := by
  cases invoked : state.ftchInvoked with
  | false => exact coming.reports_waiting positive invoked
  | true =>
      by_cases decided : state.scan.Decided
      · exact reports_decided coming.left boundLimit invoked decided
      · obtain ⟨used, fetches⟩ := Scan.undecided decided
        have asks : Coming store ns boundKeyPrefix boundLimit ascending
            (doFetch store ns boundKeyPrefix boundLimit ascending state) skipped rest :=
          ⟨coming.left, fun _ => ⟨Nat.not_lt.mp used, fetches, rfl⟩⟩
        obtain ⟨after, later, settles, kept⟩ := asks.reports_waiting positive rfl
        exact ⟨after, later, .of_succ (settles.congr (hasNext_undecided invoked decided)), kept⟩

theorem indexScan_opens (ns : TupleProvider) (boundKeyPrefix : Key) (ascending : Bool)
    (positive : 1 ≤ boundLimit) :
    (indexScan store ns boundKeyPrefix boundLimit ascending).Opens
      (.ok (.ofList ((store.inOrder ns boundKeyPrefix ascending).map fun r => [r]))) := by
  have start : Left (store.inOrder ns boundKeyPrefix ascending)
      { result := [], pos := 0, offset := 0, limitReached := false } 0
      (store.inOrder ns boundKeyPrefix ascending) := ⟨rfl, Nat.zero_le _, rfl, nofun⟩
  refine ⟨_, .const _, fun state course => ∃ skipped rest,
    Coming store ns boundKeyPrefix boundLimit ascending state skipped rest ∧
      course = .ofList (rest.map fun r => [r]), ?_, _, _, ⟨start, fun _ => ⟨Nat.le_refl _, rfl, rfl⟩⟩, rfl⟩
  constructor
  · intro state course found
    obtain ⟨skipped, rest, coming, rfl⟩ := found
    obtain ⟨after, later, settles, left, invoked, -⟩ := coming.reports positive
    refine ⟨after, ?_, later, rest, ⟨left, fun waiting => ?_⟩, rfl⟩
    · rw [Course.pending_ofList, List.isEmpty_map]
      exact settles
    · rw [invoked] at waiting
      cases waiting
  · intro state value others found
    obtain ⟨skipped, rest, coming, same⟩ := found
    cases rest with
    | nil => cases same
    | cons record rest =>
        obtain ⟨after, later, settles, left, invoked, inPage⟩ := coming.reports positive
        obtain ⟨first, behind, equal, read, left⟩ := left.head (inPage (List.cons_ne_nil _ _))
        cases equal
        cases same
        refine ⟨{ after with scan := { after.scan with pos := after.scan.pos + 1 } },
          settles.bind ((Settles.const _).congr fun rounds => ?_), later, _, ⟨left, fun waiting => ?_⟩, rfl⟩
        · dsimp only
          rw [List.isEmpty_cons, Bool.not_false, if_pos rfl, elementAt, read]
          rfl
        · rw [invoked] at waiting
          cases waiting
  · intro state failure found
    obtain ⟨skipped, rest, coming, same⟩ := found
    exact absurd same.symm Course.ofList_ne_fails

end

section

variable {ns : TupleProvider} {key : KeyGenerator} {child : QueryIterator} {state : child.State × Ftchs}
  {values : List Tuple} {results : List (Option Tuple)}

/-- The tuples that the lookups in the queue have found. -/
def found (ftchs : Ftchs) : List Tuple := ftchs.filterMap fun ftch => ftch.2.map fun value => ftch.1 ++ [value]

/-- What the child has still to give, with what the lookups for it will find. -/
structure Window (ctx : Context) (store : Store) (ns : TupleProvider) (key : KeyGenerator)
    (child : QueryIterator) (state : child.State × Ftchs) (values : List Tuple)
    (results : List (Option Tuple)) : Prop where
  follows : child.Follows state.1 (.ofList values)
  looked : values.mapM (lookupRecord ctx store ns key) = .ok results

/-- The tuples that are left, when an empty queue means that the child is at its end. -/
def Queued (ctx : Context) (store : Store) (ns : TupleProvider) (key : KeyGenerator) (child : QueryIterator)
    (state : child.State × Ftchs) (tuples : List Tuple) (size : Nat) : Prop :=
  ∃ values results, Window ctx store ns key child state values results ∧ (state.2 = [] → values = []) ∧
    tuples = found state.2 ++ results.filterMap id ∧ size = state.2.length + values.length

theorem mapM_cons_ok {α β : Type} {f : α → Except QueryFailure β} {value : α} {rest : List α} {results : List β}
    (mapped : (value :: rest).mapM f = .ok results) :
    ∃ result others, f value = .ok result ∧ rest.mapM f = .ok others ∧ results = result :: others := by
  rw [List.mapM_cons] at mapped
  obtain ⟨result, first, mapped⟩ := built_bind mapped
  obtain ⟨others, rest, same⟩ := built_bind mapped
  cases same
  exact ⟨result, others, first, rest, rfl⟩

theorem Window.fillFutures (window : Window ctx store ns key child state values results) :
    ∃ after, Settles (fillFutures ctx store ns key child · state) (.ok after) ∧
      Queued ctx store ns key child after (found state.2 ++ results.filterMap id)
        (state.2.length + values.length) := by
  induction values generalizing state results with
  | nil =>
      obtain ⟨after, answered, follows⟩ := window.follows.hasNext
      refine ⟨(after, state.2), .of_succ (answered.bind (.const _)), [], results, ⟨follows, window.looked⟩,
        fun _ => rfl, rfl, rfl⟩
  | cons value rest ih =>
      obtain ⟨after, answered, follows⟩ := window.follows.hasNext
      by_cases full : state.2.length < windowSize
      · obtain ⟨later, given, follows⟩ := follows.next
        obtain ⟨result, others, first, looked, rfl⟩ := mapM_cons_ok window.looked
        obtain ⟨boundKey, bound, rfl⟩ := lookupRecord_ok first
        obtain ⟨last, filled, queued⟩ :=
          @ih (later, state.2 ++ [(value, store.getRecord ns boundKey)]) others ⟨follows, looked⟩
        refine ⟨last, .of_succ (answered.bind ?_), ?_⟩
        · dsimp only
          simp only [Course.ofList, Course.pending, full, decide_true, Bool.and_true, ↓reduceIte]
          refine given.bind ?_
          dsimp only
          rw [bound]
          exact filled
        · have same : found (state.2 ++ [(value, store.getRecord ns boundKey)]) ++ others.filterMap id =
              found state.2 ++ (((store.getRecord ns boundKey).map fun record => value ++ [record]) ::
                others).filterMap id := by
            rw [found, List.filterMap_append, List.append_assoc, ← found]
            congr 1
            cases store.getRecord ns boundKey <;> rfl
          have size : (state.2 ++ [(value, store.getRecord ns boundKey)]).length + rest.length =
              state.2.length + (value :: rest).length := by
            simp only [List.length_append, List.length_cons, List.length_nil]
            omega
          rw [← same, ← size]
          exact queued
      · refine ⟨(after, state.2), .of_succ (answered.bind ?_), value :: rest, results,
          ⟨follows, window.looked⟩, fun empty => ?_, rfl, rfl⟩
        · simp only [full, decide_false, Bool.and_false, Bool.false_eq_true, ↓reduceIte]
          exact .const _
        · rw [empty] at full
          exact absurd (by decide) full

/-- A failure of the child within the window is met when the window is filled. -/
theorem fillFutures_fails {failure : QueryFailure}
    (follows : child.Follows state.1 (values.foldr .more (.fails failure)))
    (looked : values.mapM (lookupRecord ctx store ns key) = .ok results)
    (room : state.2.length + values.length < windowSize) :
    Settles (fillFutures ctx store ns key child · state) (.error failure) := by
  induction values generalizing state results with
  | nil =>
      obtain ⟨after, answered, follows⟩ := follows.hasNext
      have full : state.2.length < windowSize := room
      refine .of_succ (answered.bind ?_)
      simp only [List.foldr_nil, Course.pending, full, decide_true, Bool.and_true, ↓reduceIte]
      exact follows.fails.bind_error
  | cons value rest ih =>
      obtain ⟨after, answered, follows⟩ := follows.hasNext
      obtain ⟨later, given, follows⟩ := follows.next
      obtain ⟨result, others, first, elsewhere, rfl⟩ := mapM_cons_ok looked
      obtain ⟨boundKey, bound, rfl⟩ := lookupRecord_ok first
      have full : state.2.length < windowSize := by omega
      have filled := @ih (later, state.2 ++ [(value, store.getRecord ns boundKey)]) others follows elsewhere (by
        rw [List.length_append, List.length_singleton, Nat.add_assoc, Nat.add_comm 1]
        exact room)
      refine .of_succ (answered.bind ?_)
      simp only [List.foldr_cons, Course.pending, full, decide_true, Bool.and_true, ↓reduceIte]
      refine given.bind ?_
      dsimp only
      rw [bound]
      exact filled

/-- The queue is filled again when its last lookup is taken. -/
theorem Window.replenish (window : Window ctx store ns key child state values results) :
    ∃ after, Settles (replenish ctx store ns key child · state) (.ok after) ∧
      Queued ctx store ns key child after (found state.2 ++ results.filterMap id)
        (state.2.length + values.length) := by
  by_cases empty : state.2.isEmpty
  · simp only [ParallelExecutor.replenish, empty, ↓reduceIte]
    obtain ⟨after, answered, follows⟩ := window.follows.hasNext
    cases values with
    | nil =>
        exact ⟨(after, state.2), answered.bind (.const _), [], results, ⟨follows, window.looked⟩,
          fun _ => rfl, rfl, rfl⟩
    | cons value rest =>
        have same : Window ctx store ns key child (after, state.2) (value :: rest) results :=
          ⟨follows, window.looked⟩
        obtain ⟨last, filled, queued⟩ := same.fillFutures
        exact ⟨last, answered.bind filled, queued⟩
  · simp only [ParallelExecutor.replenish, empty, Bool.false_eq_true, ↓reduceIte]
    refine ⟨state, .const _, values, results, window, fun none => absurd ?_ empty, rfl, rfl⟩
    rw [none]
    rfl

/-- The loop of `hasNext` ends with the first tuple that is left. -/
theorem Queued.dequeue {tuples : List Tuple} {size : Nat}
    (queued : Queued ctx store ns key child state tuples size) :
    ∃ after later, Settles (dequeue ctx store ns key child · state) (.ok (tuples.head?, after)) ∧
      Queued ctx store ns key child after tuples.tail later := by
  induction size generalizing state tuples with
  | zero =>
      obtain ⟨values, results, window, ended, same, none⟩ := queued
      obtain ⟨childState, ftchs⟩ := state
      have empty : ftchs = [] := List.eq_nil_of_length_eq_zero (by simp only at none; omega)
      subst empty
      cases ended rfl
      have looked := window.looked
      cases looked
      subst same
      exact ⟨(childState, []), 0, .of_succ (.const _), [], [], window, fun _ => rfl, rfl, rfl⟩
  | succ size ih =>
      obtain ⟨values, results, window, ended, same, sized⟩ := queued
      obtain ⟨childState, ftchs⟩ := state
      cases ftchs with
      | nil =>
          cases ended rfl
          cases sized
      | cons ftch ftchs =>
          obtain ⟨childTuple, value⟩ := ftch
          have rest : Window ctx store ns key child (childState, ftchs) values results :=
            ⟨window.follows, window.looked⟩
          obtain ⟨after, replenished, queued⟩ := rest.replenish
          have counted : ftchs.length + values.length = size := by
            simp only [List.length_cons] at sized
            omega
          cases value with
          | some recVal =>
              have first : tuples = (childTuple ++ [recVal]) :: (found ftchs ++ results.filterMap id) := same
              rw [first]
              exact ⟨after, _, .of_succ (replenished.bind (.const _)), queued⟩
          | none =>
              have skipped : tuples = found ftchs ++ results.filterMap id := same
              simp only [counted, ← skipped] at queued
              obtain ⟨last, later, dequeued, queued⟩ := ih queued
              exact ⟨last, later, .of_succ (replenished.bind dequeued), queued⟩

/-- What the join has still to give: the tuple that it holds and those of the queue and of the child. -/
def Joins (ctx : Context) (store : Store) (ns : TupleProvider) (key : KeyGenerator) (child : QueryIterator)
    (state : Option Tuple × child.State × Ftchs) (course : Course QueryFailure Tuple) : Prop :=
  ∃ tuples size, Queued ctx store ns key child state.2 tuples size ∧ course = .ofList (state.1.toList ++ tuples)

/-- `hasNext` holds the next tuple, if there is one. -/
theorem joinHasNext_settles (nextTuple : Option Tuple) {tuples : List Tuple} {size : Nat}
    (queued : Queued ctx store ns key child state tuples size) :
    ∃ after later, Settles (joinHasNext ctx store ns key child · (nextTuple, state))
        (.ok (!(nextTuple.toList ++ tuples).isEmpty, (nextTuple.toList ++ tuples).head?, after)) ∧
      Queued ctx store ns key child after (nextTuple.toList ++ tuples).tail later := by
  cases nextTuple with
  | some tuple => exact ⟨state, size, .const _, queued⟩
  | none =>
      obtain ⟨after, later, dequeued, queued⟩ := queued.dequeue
      refine ⟨after, later, (dequeued.bind (.const _)).congr_outcome ?_, queued⟩
      cases tuples <;> rfl

theorem indexLookupJoin_simulates (ns : TupleProvider) (key : KeyGenerator) (child : QueryIterator) :
    (indexLookupJoin ctx store ns key child).Simulates (Joins ctx store ns key child) where
  hasNext := by
    intro given course found
    obtain ⟨nextTuple, state⟩ := given
    obtain ⟨tuples, size, queued, rfl⟩ := found
    obtain ⟨after, later, settles, queued⟩ := joinHasNext_settles nextTuple queued
    refine ⟨((nextTuple.toList ++ tuples).head?, after), ?_, _, _, queued, ?_⟩
    · rw [Course.pending_ofList]
      exact settles
    · dsimp only
      cases nextTuple.toList ++ tuples <;> rfl
  next := by
    intro given value rest found
    obtain ⟨nextTuple, state⟩ := given
    obtain ⟨tuples, size, queued, same⟩ := found
    obtain ⟨after, later, settles, queued⟩ := joinHasNext_settles nextTuple queued
    cases left : nextTuple.toList ++ tuples with
    | nil =>
        rw [left] at same
        cases same
    | cons first others =>
        rw [left] at same settles queued
        cases same
        obtain ⟨values, results, window, -, total, -⟩ := queued
        obtain ⟨last, filled, queued⟩ := window.fillFutures
        rw [← total] at queued
        exact ⟨(none, last), settles.bind (filled.bind (.const _)), others, _, queued, rfl⟩
  fails := by
    intro given failure found
    obtain ⟨nextTuple, state⟩ := given
    obtain ⟨tuples, size, queued, same⟩ := found
    exact absurd same.symm Course.ofList_ne_fails

theorem indexLookupJoin_opens (ns : TupleProvider) (key : KeyGenerator)
    (opens : child.Opens (.ok (.ofList values)))
    (looked : values.mapM (lookupRecord ctx store ns key) = .ok results) :
    (indexLookupJoin ctx store ns key child).Opens (.ok (.ofList (results.filterMap id))) := by
  obtain ⟨start, opened, follows⟩ := opens
  have window : Window ctx store ns key child (start, []) values results := ⟨follows, looked⟩
  obtain ⟨after, filled, queued⟩ := window.fillFutures
  exact ⟨(none, after), opened.bind (filled.bind (.const _)), _, indexLookupJoin_simulates ns key child, _, _,
    queued, rfl⟩

end

end ParallelExecutor

section

variable {ctx : Context} {store : Store} {max : Int} {plan : QueryPlan} {tuples : List Tuple}

theorem simple_applies (evaluates : rows ctx store plan = .ok tuples) (mergeless : plan.Mergeless)
    (limits : LimitsWithin ctx max plan) : ∃ iterator, SimpleExecutor.apply ctx store plan = .ok iterator := by
  induction plan generalizing tuples with
  | indexLookup ns key =>
      obtain ⟨boundKey, bound, -⟩ := built_bind evaluates
      rw [SimpleExecutor.apply, bound]
      exact ⟨_, rfl⟩
  | indexScan ns keyPrefix limit ascending =>
      obtain ⟨boundKeyPrefix, bound, -⟩ := built_bind evaluates
      obtain ⟨boundLimit, isLimit, -, -⟩ := limits limit (by simp [QueryPlan.limits])
      rw [SimpleExecutor.apply, bound, isLimit]
      exact ⟨_, rfl⟩
  | indexLookupJoin ns key child ih =>
      obtain ⟨childTuples, childRows, -⟩ := built_bind evaluates
      obtain ⟨childIterator, applied⟩ := ih childRows mergeless limits
      rw [SimpleExecutor.apply, applied]
      exact ⟨_, rfl⟩
  | localSelection predicate child ih =>
      obtain ⟨childTuples, childRows, -⟩ := built_bind evaluates
      obtain ⟨childIterator, applied⟩ := ih childRows mergeless limits
      rw [SimpleExecutor.apply, applied]
      exact ⟨_, rfl⟩
  | localStopAfter count child ih =>
      obtain ⟨childTuples, childRows, -⟩ := built_bind evaluates
      obtain ⟨limit, isLimit, -, -⟩ := limits count (by simp [QueryPlan.limits])
      obtain ⟨childIterator, applied⟩ :=
        ih childRows mergeless (limits.child (List.subset_cons_self ..))
      rw [SimpleExecutor.apply, applied, isLimit]
      exact ⟨_, rfl⟩
  | localIterator ordinal wrap => exact ⟨_, rfl⟩
  | indexScanJoin | indexMergeJoin | localSort | union => cases mergeless

/-- The simple executor gives all the tuples of a plan that can be evaluated. -/
theorem simple_yields (evaluates : rows ctx store plan = .ok tuples) (mergeless : plan.Mergeless)
    (limits : LimitsWithin ctx max plan) :
    ∃ iterator, SimpleExecutor.apply ctx store plan = .ok iterator ∧ iterator.Opens (.ok (.ofList tuples)) := by
  obtain ⟨iterator, applied⟩ := simple_applies evaluates mergeless limits
  have opens := SimpleExecutor.apply_opens limits.advance applied
  rw [course_of_rows evaluates mergeless] at opens
  exact ⟨iterator, applied, opens⟩

theorem parallel_yields (evaluates : rows ctx store plan = .ok tuples) (mergeless : plan.Mergeless)
    (limits : LimitsWithin ctx (2 ^ 31 - 2) plan) :
    ∃ iterator, ParallelExecutor.apply ctx store plan = .ok iterator ∧ iterator.Opens (.ok (.ofList tuples)) := by
  induction plan generalizing tuples with
  | indexLookup ns key =>
      obtain ⟨boundKey, bound, same⟩ := built_bind evaluates
      cases same
      rw [ParallelExecutor.apply, bound]
      exact ⟨_, rfl, ParallelExecutor.indexLookup_opens ns boundKey⟩
  | indexScan ns keyPrefix limit ascending =>
      obtain ⟨boundKeyPrefix, bound, same⟩ := built_bind evaluates
      cases same
      obtain ⟨boundLimit, isLimit, positive, below⟩ := limits limit (by simp [QueryPlan.limits])
      have page : toInt32 (boundLimit + 1) = boundLimit + 1 := toInt32_of_range (by omega) (by omega)
      rw [ParallelExecutor.apply, bound, isLimit]
      exact ⟨_, rfl, ParallelExecutor.indexScan_opens ns boundKeyPrefix ascending (by omega)⟩
  | indexLookupJoin ns key child ih =>
      obtain ⟨childTuples, childRows, evaluates⟩ := built_bind evaluates
      obtain ⟨results, looked, same⟩ := built_bind evaluates
      cases same
      obtain ⟨childIterator, applied, opens⟩ := ih childRows mergeless limits
      rw [ParallelExecutor.apply, applied]
      exact ⟨_, rfl, ParallelExecutor.indexLookupJoin_opens ns key opens looked⟩
  | localSelection predicate child ih =>
      obtain ⟨childTuples, childRows, evaluates⟩ := built_bind evaluates
      obtain ⟨results, looked, same⟩ := built_bind evaluates
      cases same
      obtain ⟨childIterator, applied, opens⟩ := ih childRows mergeless limits
      have selects := opens.begins.lookahead (keepSelected ctx predicate) .nullPointer
      rw [ParallelExecutor.apply, applied]
      refine ⟨_, rfl, ?_⟩
      rw [← Course.sift_ofList looked]
      exact selects
  | localStopAfter count child ih =>
      obtain ⟨childTuples, childRows, evaluates⟩ := built_bind evaluates
      obtain ⟨limit, isLimit, same⟩ := built_bind evaluates
      cases same
      obtain ⟨childIterator, applied, opens⟩ :=
        ih childRows mergeless (limits.child (List.subset_cons_self ..))
      have stops := SimpleExecutor.localStopAfter_opens (bindLimit_lt ctx isLimit) opens
      rw [ParallelExecutor.apply, applied, isLimit]
      refine ⟨_, rfl, ?_⟩
      rw [← Course.stop_ofList]
      exact stops
  | localIterator ordinal wrap =>
      obtain ⟨results, read, evaluates⟩ := built_bind evaluates
      have opens := SimpleExecutor.localIterator_opens ctx ordinal wrap
      rw [read, mapM_id_ok evaluates] at opens
      refine ⟨_, rfl, ?_⟩
      rw [← Course.ofResults_ok]
      exact opens
  | indexScanJoin | indexMergeJoin | localSort | union => cases mergeless

/-- Builds and opens the iterator of a plan, and makes calls on it. -/
def callAll (iterator : Except QueryFailure QueryIterator) (calls : List Machine.Call) (rounds : Nat) :
    Except QueryFailure (List (Machine.Reply Tuple)) :=
  iterator.bind fun iterator => iterator.openReplies calls rounds

theorem parallel_agrees_with_simple (mergeless : plan.Mergeless) (limits : LimitsWithin ctx (2 ^ 31 - 2) plan)
    (evaluates : rows ctx store plan = .ok tuples) :
    Settles (execute (SimpleExecutor.apply ctx store plan)) (.ok tuples) ∧
      Settles (execute (ParallelExecutor.apply ctx store plan)) (.ok tuples) ∧
      ∀ calls : List Machine.Call, calls.count .next ≤ tuples.length →
        Settles (callAll (SimpleExecutor.apply ctx store plan) calls) (.ok (Machine.listReplies calls tuples)) ∧
          Settles (callAll (ParallelExecutor.apply ctx store plan) calls)
            (.ok (Machine.listReplies calls tuples)) := by
  obtain ⟨simple, simpleApplied, simpleOpens⟩ := simple_yields evaluates mergeless limits
  obtain ⟨parallel, parallelApplied, parallelOpens⟩ := parallel_yields evaluates mergeless limits
  have outcome : (Except.ok (Course.ofList tuples) >>= Course.outcome) = (.ok tuples : Except QueryFailure _) :=
    Course.outcome_ofList tuples
  rw [simpleApplied, parallelApplied]
  refine ⟨simpleOpens.begins.drain.congr_outcome outcome, parallelOpens.begins.drain.congr_outcome outcome, ?_⟩
  intro calls enough
  exact ⟨simpleOpens.replies enough, parallelOpens.replies enough⟩

end

/-- The thoughts of a user, the text of which may be missing. -/
def drafts : TupleProvider where
  ns := "drafts"
  aliasName := none
  schema :=
    { keyFields := [⟨"owner", "\"string\""⟩, ⟨"timestamp", "\"int\""⟩]
      valueFields := [⟨"text", "[\"string\",\"null\"]"⟩]
      distinct := by decide }
  isRelation := true

/-- Drafts of one user, one after the other. -/
def draftsOf (texts : List Datum) (few : texts.length < 2 ^ 31) : Store :=
  .ofRecords (texts.mapIdx fun time text => [.utf8 "alice", .int (.ofNat time), text]) (by rwa [List.length_mapIdx])

/-- The drafts of one user with a given text, of which one is looked up. -/
def oneDraft : QueryPlan :=
  .localStopAfter (.fixed 1) (.indexLookupJoin drafts [.attribute 0 0, .attribute 0 1]
    (.localSelection (.equality (.attribute 0 2) (.constant (.utf8 "hello")))
      (.indexScan drafts [.constant (.utf8 "alice")] (.fixed 10) true)))

theorem oneDraft_limits (ctx : Context) : LimitsWithin ctx (2 ^ 31 - 2) oneDraft := by
  intro limit member
  obtain rfl | member := List.mem_cons.mp member
  · exact ⟨1, rfl, by decide, by decide⟩
  · obtain rfl := List.mem_singleton.mp member
    exact ⟨10, rfl, by decide, by decide⟩

def noParameters : Context := ⟨[]⟩

def twoTexts : Store := draftsOf [.utf8 "hello", .utf8 "bye"] (by decide)

theorem comparable_drafts_agree :
    oneDraft.Mergeless ∧ LimitsWithin noParameters (2 ^ 31 - 2) oneDraft ∧
      Settles (execute (ParallelExecutor.apply noParameters twoTexts oneDraft))
        (.ok [[[.utf8 "alice", .int 0, .utf8 "hello"], [.utf8 "alice", .int 0, .utf8 "hello"]]]) := by
  have agrees := @parallel_agrees_with_simple noParameters twoTexts oneDraft
    [[[.utf8 "alice", .int 0, .utf8 "hello"], [.utf8 "alice", .int 0, .utf8 "hello"]]] trivial
    (oneDraft_limits noParameters) (by decide)
  exact ⟨trivial, oneDraft_limits noParameters, agrees.2.1⟩

def lastTextMissing : Store := draftsOf [.utf8 "hello", .utf8 "hello", .utf8 "hello", .null] (by decide)

theorem lastTextMissing_parallel :
    Settles (execute (ParallelExecutor.apply noParameters lastTextMissing oneDraft)) (.error .matchError) := by
  have scan := @ParallelExecutor.indexScan_opens lastTextMissing 11 drafts [.utf8 "alice", .null] true (by decide)
  have selected := scan.begins.lookahead
    (keepSelected noParameters (.equality (.attribute 0 2) (.constant (.utf8 "hello")))) .nullPointer
  obtain ⟨state, opened, follows⟩ := selected
  have fails : Settles (ParallelExecutor.fillFutures noParameters lastTextMissing drafts
      [.attribute 0 0, .attribute 0 1] _ · (state, [])) (.error .matchError) :=
    @ParallelExecutor.fillFutures_fails _ _ _ _ _ (state, []) [_, _] _ _ follows rfl (show 2 < 10 by decide)
  exact (opened.bind fails.bind_error).bind_error.bind_error

/-- The parallel join meets the missing text of the fourth draft, which the simple join does not read. -/
theorem prefetch_meets_missing_text :
    ∃ (ctx : Context) (store : Store) (plan : QueryPlan) (tuples : List Tuple),
      plan.Mergeless ∧ LimitsWithin ctx (2 ^ 31 - 2) plan ∧
        Settles (execute (SimpleExecutor.apply ctx store plan)) (.ok tuples) ∧
        ¬ Settles (execute (ParallelExecutor.apply ctx store plan)) (.ok tuples) := by
  refine ⟨noParameters, lastTextMissing, oneDraft,
    [[[.utf8 "alice", .int 0, .utf8 "hello"], [.utf8 "alice", .int 0, .utf8 "hello"]]], trivial,
    oneDraft_limits noParameters, SimpleExecutor.execute_settles (oneDraft_limits noParameters).advance, fun same => ?_⟩
  cases same.unique lastTextMissing_parallel

end Scads.Piql
