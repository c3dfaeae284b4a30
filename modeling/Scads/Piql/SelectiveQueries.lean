import Scads.Piql.AskedTuples
import Scads.Piql.OrderedQueries

namespace Scads.Piql

open Scads.Client Scads.Data

/-! # Selective queries

The optimizer keeps the selections of a query where what the key of a range finds is what
its equalities select: the key has the value of the first equality on each field only.
-/

/-- The indexes of the relations have an entry for each record. -/
def Database.Indexed (db : Database) (plan : LogicalPlan) : Prop :=
  ∀ r ∈ plan.relations, ∀ names idx, Optimizer.index r names = .ok idx →
    (db idx).Perm ((db r).map fun record => idx.keySchema.map (r.read record))

/-- The value is there for a tuple, and it is no attribute if the plan starts with a lookup. -/
def Value.Usable (ctx : Context) (started : Bool) (relations : List TupleProvider) (row : Tuple) (value : Value) :
    Prop :=
  (∃ datum, value.denote ctx relations row = some datum) ∧ (started = true → ¬ value.IsAttribute)

theorem Value.Usable.evaluates {ctx : Context} {started : Bool} {schema layout : List TupleProvider} {tuple : Tuple}
    {value boundValue : Value} (usable : value.Usable ctx started (relationsOf layout) (onRelations layout tuple))
    (length : tuple.length = layout.length) (binds : Binder.Binds schema value boundValue)
    (within : started = false → layout <+: schema) :
    Evaluates ctx (some tuple) (relationsOf layout) (onRelations layout tuple) value boundValue := by
  obtain ⟨⟨datum, denoted⟩, placed⟩ := usable
  refine evaluates_of_denoted length denoted binds fun named => within ?_
  by_contra starts
  exact placed (by simpa using starts) named

namespace Optimizer

/-- The index that a range is read by, where it is not the primary one. -/
def secondaryIndex : Operation → Option TupleProvider
  | .get range =>
      if isPrefix (attributes range) range.relation = .ok false then
        (index range.relation (fieldNames range)).toOption
      else none
  | .select .. => none

/-- The record has the values that the key of the range has for the tuple. -/
def meetsKey (ctx : Context) (range : IndexRange) (row : Tuple) (record : Record) : Bool :=
  meetsAll ctx (relationsBelow range) row range.relation (keyEqualities range) record

/-- The query stops before it has a tuple. -/
def StopsAtNone (ctx : Context) (range : IndexRange) : Prop :=
  ∃ limit, range.limit = some limit ∧ limit.isDataStop = false ∧ LimitAtMost ctx 0 limit.count

/-- What the key of a range finds for a tuple is what the equalities select. -/
structure FindsSelected (ctx : Context) (db : Database) (started : Bool) (range : IndexRange) (row : Tuple) :
    Prop where
  new : range.relation ∉ relationsBelow range
  present : looksUp range = false → ∀ value ∈ (Operation.get range).values,
    value.denote ctx (relationsBelow range) row ≠ some .null
  selects : ∀ record ∈ db range.relation, meetsKey ctx range row record = true →
    selected ctx range (row ++ [record]) = true
  refers : ∀ idx, secondaryIndex (.get range) = some idx →
    (∃ record ∈ db range.relation, meetsKey ctx range row record = true) →
      started = false ∧ idx ∉ (below range.child).filterMap secondaryIndex
  promised : ∀ limit, range.limit = some limit → limit.isDataStop = true → LimitAtMost ctx 0 limit.count →
    looksUp range = false → ∀ record ∈ db range.relation, meetsKey ctx range row record = false

/-- The limits of the query are bound, and the pages of its scans can hold a record. -/
structure Bounded (ctx : Context) (plan : LogicalPlan) : Prop where
  limits : ∀ op ∈ operations false plan, ∀ limit ∈ op.limits, ∃ boundLimit, bindLimit ctx limit = .ok boundLimit
  scans : ∀ limit, Scans (operations false plan) limit → ∀ boundLimit, bindLimit ctx limit = .ok boundLimit →
    1 ≤ boundLimit

/-- What a query needs for its selections to be kept: values for the tuples that its operators take, keys that find
what is selected, and values that can be compared. -/
structure KeepsSelections (ctx : Context) (store : Store) (db : Database) (started : Bool) (schema : List TupleProvider)
    (whole : QueryPlan) (plan : LogicalPlan) : Prop extends Bounded ctx plan where
  usable : ∀ range row, .get range ∈ operations false plan → TakesBelow ctx store schema whole range row →
    ∀ value ∈ (Operation.get range).values, value.Usable ctx started (relationsBelow range) row
  finds : ∀ range row, .get range ∈ operations false plan → TakesBelow ctx store schema whole range row →
    StopsAtNone ctx range ∨ FindsSelected ctx db started range row
  compares : ∀ v1 v2 child row, .select (.equality v1 v2) child ∈ operations false plan →
    Takes ctx store schema whole child row →
      (∀ value ∈ [v1, v2], value.Usable ctx started child.relations row) ∧
        ∀ l r, v1.denote ctx child.relations row = some l → v2.denote ctx child.relations row = some r →
          compareAny l r ≠ .error .matchError

variable {ctx : Context} {store : Store} {db : Database} {plan child : LogicalPlan} {range : IndexRange}
  {result bound optChild : QueryPlan} {schema : List TupleProvider}

theorem KeepsSelections.below {started : Bool} {whole : QueryPlan}
    (keeps : KeepsSelections ctx store db started schema whole plan)
    (fewer : operations false child ⊆ operations false plan) :
    KeepsSelections ctx store db started schema whole child where
  limits op member := keeps.limits op (fewer member)
  scans limit found := by
    obtain ⟨range, member, scans⟩ := found
    exact keeps.scans limit ⟨range, fewer member, scans⟩
  usable range row member := keeps.usable range row (fewer member)
  finds range row member := keeps.finds range row (fewer member)
  compares v1 v2 child row member := keeps.compares v1 v2 child row (fewer member)

theorem selects_gatherSelections (selects : plan.Selects) : plan.gatherSelections.2.Selects := by
  induction plan with
  | selection predicate child ih => exact ih selects.2
  | relation | sort | stopAfter | dataStopAfter | paginate | join => exact selects

theorem relations_stripStop (plan : LogicalPlan) : (stripStop plan).2.relations = plan.relations := by
  cases plan <;> rfl

theorem selects_stripStop (selects : plan.Selects) : (stripStop plan).2.Selects := by
  cases plan <;> exact selects

/-- What a query without sorts has of a range that is its top. -/
structure Tops (plan : LogicalPlan) (range : IndexRange) : Prop where
  unordered : range.ordering = none
  isRelation : range.relation.isRelation = true
  relations : plan.relations = relationsBelow range ++ [range.relation]
  below : ∀ child, range.child = some child → child.Selects
  bounded : range.limit = (stripStop plan).1

theorem child_of_base {base : LogicalPlan} (isBase : baseRelation base = some (range.child, range.relation))
    (joins : range.child = some child) : base = .join child (.relation range.relation) := by
  unfold baseRelation at isBase
  split at isBase
  · split at isBase
    · obtain ⟨alone, -⟩ := Prod.mk.inj (Option.some.inj isBase)
      rw [joins] at alone
      cases alone
    · cases isBase
  · split at isBase
    · obtain ⟨same, rfl⟩ := Prod.mk.inj (Option.some.inj isBase)
      rw [joins] at same
      cases same
      rfl
    · cases isBase
  · cases isBase

theorem unordered_of_selects (selects : plan.Selects) {ordering : Option Ordering} {plain : LogicalPlan}
    (stripped : stripSort plan = .ok (ordering, plain)) : ordering = none ∧ plain = plan := by
  cases plan with
  | sort => exact selects.elim
  | relation | selection | stopAfter | dataStopAfter | paginate | join =>
      cases stripped
      exact ⟨rfl, rfl⟩

theorem tops_of_unapply (selects : plan.Selects) (matched : unapply plan = .ok (some range)) : Tops plan range := by
  obtain ⟨ordering, plain, base, stripped, rfl, isBase, -, unordered, bounded⟩ := unapply_ok matched
  obtain ⟨rfl, rfl⟩ := unordered_of_selects (selects_stripStop selects) stripped
  have named := relations_base isBase
  rw [relations_gatherSelections, relations_stripStop] at named
  refine ⟨unordered, isRelation_of_base isBase, named, fun child joins => ?_, bounded⟩
  have baseSelects := selects_gatherSelections (selects_stripStop selects)
  rw [child_of_base isBase joins] at baseSelects
  exact baseSelects.1

end Optimizer

end Scads.Piql
