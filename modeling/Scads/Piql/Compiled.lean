import Scads.Piql.Binder
import Scads.Piql.Optimizer

namespace Scads.Piql

open Scads.Client Scads.Data

/-! # Compiled plans

What the optimizer makes of a logical plan, one rule for each of its cases.
-/

namespace Optimizer

/-- Whether there is an operator for the range. -/
def answers (range : IndexRange) : Bool :=
  match range.child, range.ordering, range.limit with
  | none, none, none | some _, none, none => isLookup range = .ok true
  | some _, some _, none => false
  | _, _, some _ | none, some _, none => true

/-- The range that the plan is the top of. -/
def answered (plan : LogicalPlan) : Option IndexRange :=
  match unapply plan with
  | .ok (some range) => if answers range then some range else none
  | _ => none

/-- The optimizer turns the logical plan into the physical one. -/
inductive Optimizes : LogicalPlan → QueryPlan → Prop where
  | selection {predicate : Predicate} {child : LogicalPlan} {optChild : QueryPlan}
      (unanswered : answered (.selection predicate child) = none) (below : Optimizes child optChild) :
      Optimizes (.selection predicate child) (.localSelection predicate optChild)
  | lookup {plan : LogicalPlan} {range : IndexRange} {key : KeyGenerator}
      (matched : unapply plan = .ok (some range)) (alone : range.child = none)
      (unordered : range.ordering = none) (unbounded : range.limit = none) (whole : isLookup range = .ok true)
      (keyed : makeKeyGenerator range.relation range.equalityPreds = .ok key) :
      Optimizes plan (.indexLookup range.relation key)
  | scan {plan : LogicalPlan} {range : IndexRange} {limit : TupleLimit} {result : QueryPlan}
      (matched : unapply plan = .ok (some range)) (alone : range.child = none)
      (unordered : range.ordering = none) (bounded : range.limit = some limit)
      (scanned : scanPlan range limit.count (attributes range) (fieldNames range) true = .ok result) :
      Optimizes plan (stopped limit result)
  | orderedScan {plan : LogicalPlan} {range : IndexRange} {limit : TupleLimit} {ordering : Ordering}
      {result : QueryPlan} (matched : unapply plan = .ok (some range)) (alone : range.child = none)
      (ordered : range.ordering = some ordering)
      (hint : limit = range.limit.getD ⟨.fixed defaultFetchSize, true⟩)
      (scanned : scanPlan range limit.count (attributes range ++ orderingValues ordering)
        (fieldNames range ++ orderingNames ordering) ordering.ascending = .ok result) :
      Optimizes plan (stopped limit result)
  | lookupJoin {plan child : LogicalPlan} {range : IndexRange} {optChild : QueryPlan} {key : KeyGenerator}
      (matched : unapply plan = .ok (some range)) (joins : range.child = some child)
      (unordered : range.ordering = none) (whole : isLookup range = .ok true) (below : Optimizes child optChild)
      (keyed : makeKeyGenerator range.relation range.equalityPreds = .ok key) :
      Optimizes plan (match range.limit with
        | some limit => stopped limit (.indexLookupJoin range.relation key optChild)
        | none => .indexLookupJoin range.relation key optChild)
  | mergeJoin {plan child : LogicalPlan} {range : IndexRange} {limit : TupleLimit} {optChild result : QueryPlan}
      (matched : unapply plan = .ok (some range)) (joins : range.child = some child)
      (unordered : range.ordering = none) (several : isLookup range = .ok false)
      (bounded : range.limit = some limit) (below : Optimizes child optChild)
      (merged : mergeJoinPlan range limit.count optChild = .ok result) : Optimizes plan (stopped limit result)
  | orderedJoin {plan child : LogicalPlan} {range : IndexRange} {limit : TupleLimit} {ordering : Ordering}
      {optChild result : QueryPlan} (matched : unapply plan = .ok (some range)) (joins : range.child = some child)
      (ordered : range.ordering = some ordering) (bounded : range.limit = some limit)
      (below : Optimizes child optChild)
      (merged : orderedJoinPlan range limit.count ordering optChild = .ok result) :
      Optimizes plan (stopped limit result)

variable {plan : LogicalPlan} {range : IndexRange} {result : QueryPlan}

theorem optimizes_local {optimize : LogicalPlan → Except QueryFailure QueryPlan}
    (below : ∀ {child optChild}, optimize child = .ok optChild → Optimizes child optChild)
    (unanswered : answered plan = none) (optimized : localPlan optimize plan = .ok result) : Optimizes plan result := by
  cases plan with
  | selection predicate child =>
      obtain ⟨optChild, childOptimized, same⟩ := built_bind optimized
      cases same
      exact .selection unanswered (below childOptimized)
  | relation | sort | stopAfter | dataStopAfter | paginate | join => cases optimized

theorem optimizes_range {optimize : LogicalPlan → Except QueryFailure QueryPlan}
    (below : ∀ {child optChild}, optimize child = .ok optChild → Optimizes child optChild)
    (matched : unapply plan = .ok (some range)) (optimized : rangePlan optimize plan range = .ok result) :
    Optimizes plan result := by
  have unanswered (refused : answers range = false) : answered plan = none := by
    rw [answered, matched]
    exact if_neg (by simp [refused])
  rw [rangePlan] at optimized
  split at optimized
  · rename_i alone unordered unbounded
    obtain ⟨isWhole, whole, optimized⟩ := built_bind optimized
    cases isWhole with
    | false => exact optimizes_local below (unanswered (by simp [answers, *])) optimized
    | true =>
        obtain ⟨key, keyed, same⟩ := built_bind optimized
        cases same
        exact .lookup matched alone unordered unbounded whole keyed
  · rename_i limit alone unordered bounded
    obtain ⟨scanned, found, same⟩ := built_bind optimized
    cases same
    exact .scan matched alone unordered bounded found
  · rename_i ordering alone ordered
    obtain ⟨scanned, found, same⟩ := built_bind optimized
    cases same
    exact .orderedScan matched alone ordered rfl found
  · rename_i child joins unordered
    obtain ⟨isWhole, whole, optimized⟩ := built_bind optimized
    cases isWhole with
    | true =>
        obtain ⟨optChild, childOptimized, optimized⟩ := built_bind optimized
        obtain ⟨key, keyed, same⟩ := built_bind optimized
        have rule := Optimizes.lookupJoin matched joins unordered whole (below childOptimized) keyed
        cases bounded : range.limit with
        | none =>
            rw [bounded] at rule same
            cases same
            exact rule
        | some limit =>
            rw [bounded] at rule same
            cases same
            exact rule
    | false =>
        simp only [Bool.false_eq_true, ↓reduceIte] at optimized
        split at optimized
        · rename_i limit bounded
          obtain ⟨optChild, childOptimized, optimized⟩ := built_bind optimized
          obtain ⟨merged, found, same⟩ := built_bind optimized
          cases same
          exact .mergeJoin matched joins unordered whole bounded (below childOptimized) found
        · exact optimizes_local below (unanswered (by simp [answers, *])) optimized
  · rename_i child ordering limit joins ordered bounded
    obtain ⟨optChild, childOptimized, optimized⟩ := built_bind optimized
    obtain ⟨merged, found, same⟩ := built_bind optimized
    cases same
    exact .orderedJoin matched joins ordered bounded (below childOptimized) found
  · exact optimizes_local below (unanswered (by simp [answers, *])) optimized

theorem optimizes_of_optimize {rounds : Nat} (optimized : optimize rounds plan = .ok result) :
    Optimizes plan result := by
  induction rounds generalizing plan result with
  | zero => cases optimized
  | succ rounds ih =>
      obtain ⟨matched, unapplied, optimized⟩ := built_bind optimized
      cases matched with
      | none => exact optimizes_local ih (by rw [answered, unapplied]) optimized
      | some range => exact optimizes_range ih unapplied optimized

theorem optimizes_of_apply (optimized : apply plan = .ok result) : Optimizes plan result :=
  optimizes_of_optimize optimized

/-- The value for a key field is that of the first equality on it. -/
def KeyValue (equalityPreds : List AttributeEquality) (field : Field) (value : Value) : Prop :=
  ∃ equality, equalityPreds.find? (·.field.name = field.name) = some equality ∧ value = equality.value

theorem makeKeyGenerator_ok {ns : TupleProvider} {equalityPreds : List AttributeEquality} {key : KeyGenerator}
    (made : makeKeyGenerator ns equalityPreds = .ok key) :
    List.Forall₂ (KeyValue equalityPreds) (ns.keySchema.take equalityPreds.length) key := by
  refine (mapM_forall₂.mp made).imp fun field value here => ?_
  split at here
  · rename_i equality found
    cases here
    exact ⟨equality, found, rfl⟩
  · cases here

/-- The key of the relation is read from the record of the index. -/
def Reference (idx : TupleProvider) (field : Field) (value : Value) : Prop :=
  ∃ same, idx.keySchema.find? (·.name = field.name) = some same ∧ value = .qualifiedAttribute idx same

theorem derefPlan_ok {r idx : TupleProvider} {idxPlan : QueryPlan} (made : derefPlan r idx idxPlan = .ok result) :
    ∃ key, List.Forall₂ (Reference idx) r.keySchema key ∧ result = .indexLookupJoin r key idxPlan := by
  obtain ⟨key, found, same⟩ := built_bind made
  cases same
  refine ⟨key, (mapM_forall₂.mp found).imp fun field value here => ?_, rfl⟩
  split at here
  · rename_i field found
    cases here
    exact ⟨field, found, rfl⟩
  · cases here

/-- The plan over the primary index, or that over a secondary index with the lookups of its entries. -/
inductive Fetches (range : IndexRange) (attrs : List Value) (names : List String)
    (primary secondary : TupleProvider → KeyGenerator → QueryPlan) : QueryPlan → Prop where
  | primary {key : KeyGenerator} (contained : isPrefix attrs range.relation = .ok true)
      (keyed : makeKeyGenerator range.relation range.equalityPreds = .ok key) :
      Fetches range attrs names primary secondary (primary range.relation key)
  | secondary {idx : TupleProvider} {key reference : KeyGenerator} (other : isPrefix attrs range.relation = .ok false)
      (indexed : index range.relation names = .ok idx) (keyed : makeKeyGenerator idx range.equalityPreds = .ok key)
      (refers : List.Forall₂ (Reference idx) range.relation.keySchema reference) :
      Fetches range attrs names primary secondary (.indexLookupJoin range.relation reference (secondary idx key))

/-- The scan and the two ordered joins choose between the indexes alike. -/
theorem fetches_of_chosen {attrs : List Value} {names : List String}
    {primary secondary : TupleProvider → KeyGenerator → QueryPlan}
    (chosen : (do
      if ← isPrefix attrs range.relation then
        return primary range.relation (← makeKeyGenerator range.relation range.equalityPreds)
      else
        let idx ← index range.relation names
        derefPlan range.relation idx (secondary idx (← makeKeyGenerator idx range.equalityPreds))) = .ok result) :
    Fetches range attrs names primary secondary result := by
  obtain ⟨contained, decided, chosen⟩ := built_bind chosen
  cases contained with
  | true =>
      obtain ⟨key, keyed, same⟩ := built_bind chosen
      cases same
      exact .primary decided keyed
  | false =>
      obtain ⟨idx, indexed, chosen⟩ := built_bind chosen
      obtain ⟨key, keyed, chosen⟩ := built_bind chosen
      obtain ⟨reference, refers, rfl⟩ := derefPlan_ok chosen
      exact .secondary decided indexed keyed refers

theorem scanPlan_ok {count : Limit} {attrs : List Value} {names : List String} {ascending : Bool}
    (scanned : scanPlan range count attrs names ascending = .ok result) :
    Fetches range attrs names (fun ns key => .indexScan ns key count ascending)
      (fun ns key => .indexScan ns key count ascending) result :=
  fetches_of_chosen scanned

theorem mergeJoinPlan_ok {count : Limit} {optChild : QueryPlan}
    (merged : mergeJoinPlan range count optChild = .ok result) :
    Fetches range (attributes range) (fieldNames range) (fun ns key => .indexMergeJoin ns key [] count true optChild)
      (fun ns key => .indexMergeJoin ns key [] count true optChild) result :=
  fetches_of_chosen merged

theorem orderedJoinPlan_ok {count : Limit} {ordering : Ordering} {optChild : QueryPlan}
    (merged : orderedJoinPlan range count ordering optChild = .ok result) :
    Fetches range (attributes range ++ orderingValues ordering) (fieldNames range ++ orderingNames ordering)
      (fun ns key => .indexMergeJoin ns key (orderingValues ordering) count ordering.ascending optChild)
      (fun ns key => .indexScanJoin ns key count ordering.ascending optChild) result :=
  fetches_of_chosen merged

/-- One get on an index, or a selection that no get answers, with the plan that it selects from. -/
inductive Operation where
  | get (range : IndexRange)
  | select (predicate : Predicate) (child : LogicalPlan)
deriving DecidableEq

/-- The operations of a plan from its top, `served` where a range of an operator above covers it. -/
def operations (served : Bool) : LogicalPlan → List Operation
  | .relation _ => []
  | .join left _ => operations false left
  | .selection predicate child =>
      if served then operations true child
      else
        match answered (.selection predicate child) with
        | some range => .get range :: operations true child
        | none => .select predicate child :: operations false child
  | .sort attrs asc child =>
      (if served then [] else (answered (.sort attrs asc child)).toList.map .get) ++ operations true child
  | .stopAfter count child =>
      (if served then [] else (answered (.stopAfter count child)).toList.map .get) ++ operations true child
  | .dataStopAfter count child =>
      (if served then [] else (answered (.dataStopAfter count child)).toList.map .get) ++ operations true child
  | .paginate _ child => operations true child

/-- What is below the base relation of a range. -/
def below (child : Option LogicalPlan) : List Operation :=
  match child with
  | some child => operations false child
  | none => []

variable {base child : LogicalPlan}

theorem operations_base {joined : Option LogicalPlan} {relation : TupleProvider}
    (isBase : baseRelation base = some (joined, relation)) : operations true base = below joined := by
  cases base with
  | relation r =>
      rw [baseRelation] at isBase
      split at isBase <;> cases isBase
      rfl
  | join left right =>
      cases right with
      | relation r =>
          rw [baseRelation] at isBase
          split at isBase <;> cases isBase
          rfl
      | selection | sort | stopAfter | dataStopAfter | paginate | join => cases isBase
  | selection | sort | stopAfter | dataStopAfter | paginate => cases isBase

theorem operations_selections (plan : LogicalPlan) :
    operations true plan = operations true plan.gatherSelections.2 := by
  induction plan with
  | selection predicate child ih =>
      rw [operations, if_pos rfl, ih]
      rfl
  | relation | sort | stopAfter | dataStopAfter | paginate | join => rfl

theorem stripSort_ok {ordering : Option Ordering} (stripped : stripSort plan = .ok (ordering, child)) :
    plan = child ∨ ∃ attrs asc, plan = .sort attrs asc child := by
  cases plan with
  | sort attrs asc inner =>
      cases attrs with
      | nil => cases stripped
      | cons attr attrs =>
          rw [stripSort] at stripped
          · split at stripped <;> cases stripped
            · exact .inr ⟨_, _, rfl⟩
            · exact .inl rfl
          · nofun
  | relation | selection | stopAfter | dataStopAfter | paginate | join =>
      cases stripped
      exact .inl rfl

theorem operations_stripSort {ordering : Option Ordering} (stripped : stripSort plan = .ok (ordering, child)) :
    operations true plan = operations true child := by
  obtain rfl | ⟨attrs, asc, rfl⟩ := stripSort_ok stripped <;> rfl

theorem operations_stripStop (plan : LogicalPlan) : operations true plan = operations true (stripStop plan).2 := by
  cases plan <;> rfl

/-- A range covers the plan down to its base. -/
theorem unapply_ok (matched : unapply plan = .ok (some range)) :
    ∃ ordering plain base, stripSort (stripStop plan).2 = .ok (ordering, plain) ∧
      plain.gatherSelections.2 = base ∧ baseRelation base = some (range.child, range.relation) ∧
      plain.gatherSelections.1.mapM (toEquality range.relation) = some range.equalityPreds ∧
      range.ordering = ordering ∧ range.limit = (stripStop plan).1 := by
  rw [unapply] at matched
  obtain ⟨⟨ordering, plain⟩, stripped, matched⟩ := built_bind matched
  dsimp only at matched
  cases isBase : baseRelation plain.gatherSelections.2 with
  | none =>
      rw [isBase] at matched
      cases matched
  | some base =>
      rw [isBase] at matched
      dsimp only at matched
      cases equal : plain.gatherSelections.1.mapM (toEquality base.2) with
      | none =>
          rw [equal] at matched
          cases matched
      | some equalityPreds =>
          rw [equal] at matched
          cases matched
          exact ⟨ordering, plain, _, stripped, rfl, isBase, equal, rfl, rfl⟩

theorem operations_served (matched : unapply plan = .ok (some range)) :
    operations true plan = below range.child := by
  obtain ⟨ordering, plain, base, stripped, rfl, isBase, -⟩ := unapply_ok matched
  rw [operations_stripStop, operations_stripSort stripped, operations_selections, operations_base isBase]

theorem answered_eq (matched : unapply plan = .ok (some range)) (answer : answers range = true) :
    answered plan = some range := by
  rw [answered, matched]
  exact if_pos answer

/-- No key is given by no equality at all. -/
theorem answers_empty (empty : range.equalityPreds = []) (unordered : range.ordering = none)
    (unbounded : range.limit = none) : answers range = false := by
  have looks : isLookup range ≠ .ok true := by
    rw [isLookup, attributes, empty]
    split
    · exact nofun
    · exact nofun
  rw [answers, unordered, unbounded]
  cases range.child <;> exact decide_eq_false looks

theorem operations_answered (matched : unapply plan = .ok (some range)) (answer : answers range = true) :
    operations false plan = .get range :: below range.child := by
  have whole := answered_eq matched answer
  have served := operations_served matched
  cases plan with
  | selection predicate child =>
      rw [operations, if_neg (by decide), whole, ← served]
      rfl
  | sort attrs asc child =>
      rw [operations, if_neg (by decide), whole, ← served]
      rfl
  | stopAfter count child =>
      rw [operations, if_neg (by decide), whole, ← served]
      rfl
  | dataStopAfter count child =>
      rw [operations, if_neg (by decide), whole, ← served]
      rfl
  | relation | paginate | join =>
      obtain ⟨ordering, plain, base, stripped, rfl, isBase, equal, unordered, unbounded⟩ := unapply_ok matched
      cases stripped
      have empty : range.equalityPreds = [] := (Option.some.inj equal).symm
      rw [answers_empty empty unordered unbounded] at answer
      cases answer

/-- A selection becomes local only if no range answers it. -/
theorem operations_selection {predicate : Predicate} (alone : answered (.selection predicate child) = none) :
    operations false (.selection predicate child) = .select predicate child :: operations false child := by
  rw [operations, if_neg (by decide), alone]

section

variable {first second : LogicalPlan → Except QueryFailure QueryPlan}

end

end Optimizer

end Scads.Piql
