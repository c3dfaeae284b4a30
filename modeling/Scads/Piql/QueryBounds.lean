import Scads.Piql.Compiled
import Scads.Piql.ParallelRuns

namespace Scads.Piql

open Scads.Client Scads.Data

/-! # The bound of a query

A query with a limit that is a parameter names the largest value of it.  The stop
on top of the plan takes as many tuples as the parameter says.
-/

namespace SimpleExecutor

variable {limit : Int} {child : QueryIterator} {rounds : Nat} {tuples : List Tuple}

/-- The tuples that a stop has still to give. -/
theorem gather_localStopAfter (bounded : limit < 2 ^ 31) {state : child.State × Int} (low : 0 ≤ state.2)
    (gathered : (localStopAfter limit child).gather pure rounds state = .ok tuples) :
    tuples.length ≤ (limit - state.2).toNat := by
  induction rounds generalizing state tuples with
  | zero => cases gathered
  | succ rounds ih =>
      obtain ⟨⟨more, asked⟩, answered, gathered⟩ := built_bind gathered
      obtain ⟨⟨childMore, childState⟩, -, same⟩ := built_bind answered
      cases same
      dsimp only at gathered
      split at gathered
      · rename_i goesOn
        have left : state.2 < limit := of_decide_eq_true (Bool.and_eq_true_iff.mp goesOn).2
        obtain ⟨⟨tuple, later⟩, given, gathered⟩ := built_bind gathered
        obtain ⟨⟨childTuple, childLater⟩, -, same⟩ := built_bind given
        cases same
        obtain ⟨result, isTuple, gathered⟩ := built_bind gathered
        obtain ⟨others, rest, same⟩ := built_bind gathered
        cases same
        have next : toInt32 (state.2 + 1) = state.2 + 1 := toInt32_of_range (by omega) (by omega)
        have taken := @ih others (childLater, toInt32 (state.2 + 1)) (by rw [next]; omega) rest
        rw [next] at taken
        rw [List.length_cons]
        omega
      · cases gathered
        exact Nat.zero_le _

theorem drain_localStopAfter (bounded : limit < 2 ^ 31)
    (drained : (localStopAfter limit child).drain rounds = .ok tuples) : tuples.length ≤ limit.toNat := by
  obtain ⟨state, opened, gathered⟩ := built_bind drained
  obtain ⟨childState, -, same⟩ := built_bind opened
  cases same
  have taken := gather_localStopAfter bounded (Int.le_refl 0) gathered
  rwa [Int.sub_zero] at taken

/-- A plan with a stop on top gives at most as many tuples as its limit is. -/
theorem execute_localStopAfter {ctx : Context} {store : Store} {count : Limit} {plan : QueryPlan}
    (executed : execute (apply ctx store (.localStopAfter count plan)) rounds = .ok tuples) :
    ∃ limit, bindLimit ctx count = .ok limit ∧ tuples.length ≤ limit.toNat := by
  obtain ⟨iterator, applied, drained⟩ := built_bind executed
  obtain ⟨childIterator, -, applied⟩ := built_bind applied
  obtain ⟨limit, bound, rfl⟩ := built_map applied
  exact ⟨limit, bound, drain_localStopAfter (bindLimit_lt ctx bound) drained⟩

end SimpleExecutor

namespace Optimizer

variable {count : Limit} {body : LogicalPlan} {physical : QueryPlan}

/-- The stop on top of a logical plan is on top of the physical one. -/
theorem optimizes_stopAfter (optimizes : Optimizes (.stopAfter count body) physical) :
    ∃ plan, physical = .localStopAfter count plan := by
  have limited {range : IndexRange} (matched : unapply (.stopAfter count body) = .ok (some range)) :
      range.limit = some ⟨count, false⟩ := by
    obtain ⟨ordering, plain, base, -, -, -, -, -, bounded⟩ := unapply_ok matched
    exact bounded
  cases optimizes with
  | lookup matched alone unordered unbounded whole keyed =>
      rw [limited matched] at unbounded
      cases unbounded
  | scan matched alone unordered bounded scanned =>
      cases (limited matched).symm.trans bounded
      exact ⟨_, rfl⟩
  | orderedScan matched alone ordered hint scanned =>
      rw [limited matched] at hint
      cases hint
      exact ⟨_, rfl⟩
  | lookupJoin matched joins unordered whole below keyed =>
      rw [limited matched]
      exact ⟨_, rfl⟩
  | mergeJoin matched joins unordered several bounded below merged =>
      cases (limited matched).symm.trans bounded
      exact ⟨_, rfl⟩
  | orderedJoin matched joins ordered bounded below merged =>
      cases (limited matched).symm.trans bounded
      exact ⟨_, rfl⟩

theorem bindLimit_parameter {ctx : Context} {ordinal : Nat} {max : Int32} {limit : Int}
    (bound : bindLimit ctx (.parameter ordinal max) = .ok limit) :
    ∃ value, ctx.parameters[ordinal]? = some (.value (.int value)) ∧ limit = value.toInt := by
  obtain ⟨parameter, read, bound⟩ := built_bind bound
  have isParameter : ctx.parameters[ordinal]? = some parameter := by
    rw [elementAt] at read
    split at read
    · cases read
      assumption
    · cases read
  split at bound
  · cases bound
    exact ⟨_, isParameter, rfl⟩
  · cases bound

theorem bindLimit_of_parameter {ctx : Context} {ordinal : Nat} {max value : Int32}
    (given : ctx.parameters[ordinal]? = some (.value (.int value))) :
    bindLimit ctx (.parameter ordinal max) = .ok value.toInt := by
  rw [bindLimit, elementAt, given]
  rfl

def alice : Value := .constant (.utf8 "alice")

/-- The thoughts of one user. -/
def aliceThoughts : LogicalPlan :=
  .selection (.equality (.qualifiedAttribute thoughts ⟨"owner", "\"string\""⟩) alice) (.relation thoughts)

/-- One thought with one user. -/
def aliceThought : LogicalPlan :=
  .selection (.equality (.qualifiedAttribute Binder.users ⟨"username", "\"string\""⟩) alice)
    (.join (.selection (.equality (.qualifiedAttribute thoughts ⟨"timestamp", "\"int\""⟩) (.constant (.int 1)))
      aliceThoughts) (.relation Binder.users))

theorem apply_aliceThoughts (count : Limit) :
    apply (.stopAfter count aliceThoughts) =
      .ok (.localStopAfter count (.indexScan thoughts [alice] count true)) := rfl

theorem apply_aliceThought (count : Limit) :
    apply (.stopAfter count aliceThought) =
      .ok (.localStopAfter count
        (.indexLookupJoin Binder.users [alice] (.indexLookup thoughts [alice, .constant (.int 1)]))) := rfl

variable {ctx : Context} {ordinal : Nat} {max value : Int32}

/-- The thoughts of alice until some time. -/
def thoughtsUntil (time : Nat) : List Record :=
  (List.range time).map fun moment => [.utf8 "alice", .int (.ofNat moment), .utf8 "hello"]

theorem thoughtsUntil_counted (value : Int32) : (thoughtsUntil value.toInt.toNat).length < 2 ^ 31 := by
  rw [thoughtsUntil, List.length_map, List.length_range]
  have high := Int32.toInt_lt value
  omega

/-- A database with enough thoughts for a limit. -/
def manyThoughts (value : Int32) : Store := .ofRecords (thoughtsUntil value.toInt.toNat) (thoughtsUntil_counted value)

def noThoughts : Store := .ofRecords [] (by decide)

theorem manyThoughts_exceed (given : ctx.parameters[ordinal]? = some (.value (.int value))) (low : 1 ≤ value.toInt) :
    ∃ rounds tuples,
      execute (SimpleExecutor.apply ctx (manyThoughts value) (.localStopAfter (.parameter ordinal max)
        (.indexScan thoughts [alice] (.parameter ordinal max) true))) rounds = .ok tuples ∧
      tuples.length = value.toInt.toNat := by
  have limits : LimitsWithin ctx (2 ^ 31 - 1) (.localStopAfter (.parameter ordinal max)
      (.indexScan thoughts [alice] (.parameter ordinal max) true)) := by
    have high := Int32.toInt_lt value
    intro limit member
    have isLimit : limit = .parameter ordinal max := by simpa [QueryPlan.limits] using member
    subst isLimit
    exact ⟨value.toInt, bindLimit_of_parameter given, low, by omega⟩
  have found : (manyThoughts value).inOrder thoughts [.utf8 "alice", .null] true = thoughtsUntil value.toInt.toNat := by
    refine List.filter_eq_self.mpr fun record member => ?_
    obtain ⟨moment, -, rfl⟩ := List.mem_map.mp member
    rfl
  have counted : (thoughtsUntil value.toInt.toNat).length = value.toInt.toNat := by
    rw [thoughtsUntil, List.length_map, List.length_range]
  have evaluates : rows ctx (manyThoughts value) (.localStopAfter (.parameter ordinal max)
      (.indexScan thoughts [alice] (.parameter ordinal max) true)) =
      .ok ((thoughtsUntil value.toInt.toNat).map fun record => [record]) := by
    rw [rows, bindLimit_of_parameter given]
    change Except.ok (List.take value.toInt.toNat
      (List.map (fun r => [r]) ((manyThoughts value).inOrder thoughts [.utf8 "alice", .null] true))) = _
    rw [found, List.take_of_length_le (by rw [List.length_map, counted])]
  obtain ⟨iterator, applied, opens⟩ := simple_yields evaluates trivial limits
  obtain ⟨enough, settles⟩ := opens.begins.drain
  refine ⟨enough, (thoughtsUntil value.toInt.toNat).map fun record => [record], ?_, by rw [List.length_map, counted]⟩
  rw [applied]
  exact (settles enough (Nat.le_refl _)).trans (Course.outcome_ofList _)

/-- The tuples of a query are at most as many as its limit allows exactly if the limit that is passed is. -/
theorem query_bound_holds_iff (ctx : Context) (ordinal : Nat) (max : Int32) :
    (∀ body physical bound store rounds tuples,
      apply (.stopAfter (.parameter ordinal max) body) = .ok physical → Binder.boundPlan physical = .ok bound →
      execute (SimpleExecutor.apply ctx store bound) rounds = .ok tuples → (tuples.length : Int) ≤ max.toInt) ↔
    ∀ value, ctx.parameters[ordinal]? = some (.value (.int value)) → 0 ≤ max.toInt ∧ value.toInt ≤ max.toInt := by
  constructor
  · intro bounded value given
    have nonnegative : 0 ≤ max.toInt := by
      refine bounded aliceThought _ _ noThoughts 5 [] (apply_aliceThought _) rfl ?_
      have bound := @bindLimit_of_parameter ctx ordinal max value given
      rw [SimpleExecutor.apply, SimpleExecutor.apply, bound]
      rfl
    refine ⟨nonnegative, ?_⟩
    by_contra above
    obtain ⟨rounds, tuples, executed, counted⟩ := @manyThoughts_exceed ctx ordinal max value given (by omega)
    have within := bounded aliceThoughts _ _ (manyThoughts value) rounds tuples (apply_aliceThoughts _) rfl executed
    omega
  · intro within body physical bound store rounds tuples optimized binds executed
    obtain ⟨plan, rfl⟩ := optimizes_stopAfter (optimizes_of_apply optimized)
    obtain ⟨boundPlan, -, same⟩ := built_bind binds
    cases same
    obtain ⟨limit, isLimit, taken⟩ := SimpleExecutor.execute_localStopAfter executed
    obtain ⟨value, given, rfl⟩ := bindLimit_parameter isLimit
    obtain ⟨nonnegative, low⟩ := within value given
    omega

/-- A query with a limit of at most one returns two tuples when the limit that is passed is two. -/
theorem limit_above_max :
    ∃ (ctx : Context) (ordinal : Nat) (max : Int32) (body : LogicalPlan) (physical bound : QueryPlan) (store : Store)
      (rounds : Nat) (tuples : List Tuple),
      apply (.stopAfter (.parameter ordinal max) body) = .ok physical ∧ Binder.boundPlan physical = .ok bound ∧
        execute (SimpleExecutor.apply ctx store bound) rounds = .ok tuples ∧ max.toInt < tuples.length := by
  obtain ⟨rounds, tuples, executed, counted⟩ :=
    @manyThoughts_exceed ⟨[.value (.int 2)]⟩ 0 1 2 rfl (by decide)
  refine ⟨⟨[.value (.int 2)]⟩, 0, 1, aliceThoughts, _, _, manyThoughts 2, rounds, tuples, apply_aliceThoughts _, rfl,
    executed, ?_⟩
  rw [counted]
  decide

end Optimizer

end Scads.Piql
