import Mathlib.Data.List.Perm.Subperm
import Scads.Piql.ExecutableQueries
import Scads.Piql.KeyOrder

namespace Scads.Piql

open Scads.Client Scads.Data

/-! # The answers of a query

What a logical plan asks of a database: the joined records of its relations, of these
the ones that satisfy the predicates, and of these as many as the stops let through.
The order of the tuples is left open, and which of them a stop lets through.
-/

/-- The records of the namespaces and of their indexes. -/
abbrev Database := TupleProvider → List Record

/-- What a value is on a tuple of records of these relations. -/
def Value.denote (ctx : Context) (relations : List TupleProvider) (row : Tuple) : Value → Option Datum
  | .qualifiedAttribute r f => row[relations.idxOf r]?.bind fun record => record[r.pos f]?
  | value => (bindValue ctx value none).toOption

/-- Both values are there and they are stored alike. -/
def agree (ctx : Context) (relations : List TupleProvider) (v1 v2 : Value) (row : Tuple) : Bool :=
  match v1.denote ctx relations row, v2.denote ctx relations row with
  | some l, some r => l.stored = r.stored
  | _, _ => false

namespace LogicalPlan

/-- The relations of a plan, in the order of the records of its tuples. -/
def relations : LogicalPlan → List TupleProvider
  | .relation r => [r]
  | .selection _ child | .sort _ _ child | .stopAfter _ child | .dataStopAfter _ child | .paginate _ child =>
      child.relations
  | .join left right => left.relations ++ right.relations

/-- All the predicates of a plan. -/
def predicates : LogicalPlan → List Predicate
  | .relation _ => []
  | .selection predicate child => predicate :: child.predicates
  | .sort _ _ child | .stopAfter _ child | .dataStopAfter _ child | .paginate _ child => child.predicates
  | .join left right => left.predicates ++ right.predicates

end LogicalPlan

/-- The tuples are an answer to the query. -/
inductive Answers (ctx : Context) (db : Database) : LogicalPlan → List Tuple → Prop where
  | relation {r : TupleProvider} {rows : List Tuple} (all : rows.Perm ((db r).map fun record => [record])) :
      Answers ctx db (.relation r) rows
  | selection {v1 v2 : Value} {child : LogicalPlan} {all rows : List Tuple} (below : Answers ctx db child all)
      (kept : rows.Perm (all.filter (agree ctx child.relations v1 v2))) :
      Answers ctx db (.selection (.equality v1 v2) child) rows
  | join {left right : LogicalPlan} {lefts rights rows : List Tuple} (first : Answers ctx db left lefts)
      (second : Answers ctx db right rights)
      (pairs : rows.Perm (lefts.flatMap fun row => rights.map fun other => row ++ other)) :
      Answers ctx db (.join left right) rows
  | stopAfter {count : Limit} {limit : Int} {child : LogicalPlan} {all rows : List Tuple}
      (below : Answers ctx db child all) (bounded : bindLimit ctx count = .ok limit) (among : rows.Subperm all)
      (counted : rows.length = min limit.toNat all.length) : Answers ctx db (.stopAfter count child) rows
  | dataStopAfter {count : Limit} {child : LogicalPlan} {rows : List Tuple} (below : Answers ctx db child rows) :
      Answers ctx db (.dataStopAfter count child) rows

section

variable {ctx : Context} {db : Database} {relations others : List TupleProvider} {v1 v2 : Value} {row other : Tuple}
  {plan child base : LogicalPlan} {all rows : List Tuple}

theorem agree_iff : agree ctx relations v1 v2 row = true ↔
    ∃ l r, v1.denote ctx relations row = some l ∧ v2.denote ctx relations row = some r ∧ l.stored = r.stored := by
  unfold agree
  split
  · rename_i l r first second
    rw [decide_eq_true_eq, first, second]
    constructor
    · intro same
      exact ⟨l, r, rfl, rfl, same⟩
    · intro found
      obtain ⟨_, _, isLeft, isRight, same⟩ := found
      cases isLeft
      cases isRight
      exact same
  · rename_i absent
    constructor
    · intro same
      cases same
    · intro found
      obtain ⟨l, r, first, second, -⟩ := found
      exact (absent l r first second).elim

/-- A value that a tuple has is the same on the longer tuples of a join. -/
theorem Value.denote_append {value : Value} {datum : Datum} (length : row.length = relations.length)
    (found : value.denote ctx relations row = some datum) :
    value.denote ctx (relations ++ others) (row ++ other) = some datum := by
  cases value with
  | qualifiedAttribute r f =>
      obtain ⟨record, there, read⟩ := Option.bind_eq_some_iff.mp found
      obtain ⟨inRow, -⟩ := List.getElem?_eq_some_iff.mp there
      rw [length] at inRow
      have member : r ∈ relations := List.idxOf_lt_length_iff.mp inRow
      rw [Value.denote, List.idxOf_append_of_mem member, List.getElem?_append_left (by omega), there]
      exact read
  | _ => exact found

theorem agree_append (length : row.length = relations.length) (agreed : agree ctx relations v1 v2 row = true) :
    agree ctx (relations ++ others) v1 v2 (row ++ other) = true := by
  obtain ⟨l, r, first, second, same⟩ := agree_iff.mp agreed
  exact agree_iff.mpr ⟨l, r, Value.denote_append length first, Value.denote_append length second, same⟩

namespace Answers

/-- The order of the tuples does not matter. -/
theorem perm (answers : Answers ctx db plan rows) {same : List Tuple} (perm : same.Perm rows) :
    Answers ctx db plan same := by
  induction answers with
  | relation all => exact .relation (perm.trans all)
  | selection below kept => exact .selection below (perm.trans kept)
  | join first second pairs => exact .join first second (perm.trans pairs)
  | stopAfter below bounded among counted =>
      exact .stopAfter below bounded (perm.subperm_right.mpr among) (perm.length_eq.trans counted)
  | dataStopAfter below ih => exact .dataStopAfter (ih perm)

theorem length_of_mem (answers : Answers ctx db plan rows) : ∀ row ∈ rows, row.length = plan.relations.length := by
  induction answers with
  | relation all =>
      intro row member
      obtain ⟨record, -, rfl⟩ := List.mem_map.mp (all.subset member)
      rfl
  | selection below kept ih => exact fun row member => ih row (List.mem_of_mem_filter (kept.subset member))
  | join first second pairs ihl ihr =>
      intro row member
      obtain ⟨left, isLeft, inside⟩ := List.mem_flatMap.mp (pairs.subset member)
      obtain ⟨right, isRight, rfl⟩ := List.mem_map.mp inside
      rw [List.length_append, ihl left isLeft, ihr right isRight, LogicalPlan.relations, List.length_append]
  | stopAfter below bounded among counted ih => exact fun row member => ih row (among.subset member)
  | dataStopAfter below ih => exact ih

end Answers

/-- A query of joins with relations, selections by equalities, and stops. -/
def LogicalPlan.Selects : LogicalPlan → Prop
  | .relation _ => True
  | .selection predicate child => (∃ v1 v2, predicate = .equality v1 v2) ∧ child.Selects
  | .join left right => left.Selects ∧ ∃ r, right = .relation r
  | .stopAfter _ child | .dataStopAfter _ child => child.Selects
  | .sort .. | .paginate .. => False

/-- The tuples of an answer satisfy every predicate. -/
theorem Answers.agrees (answers : Answers ctx db plan rows) (selects : plan.Selects) :
    ∀ v1 v2, .equality v1 v2 ∈ plan.predicates → ∀ row ∈ rows, agree ctx plan.relations v1 v2 row = true := by
  induction answers with
  | relation all => exact fun _ _ member => absurd member List.not_mem_nil
  | @selection left right child all rows below kept ih =>
      intro v1 v2 member row inside
      obtain ⟨inAll, agreed⟩ := List.mem_filter.mp (kept.subset inside)
      obtain same | member := List.mem_cons.mp member
      · cases same
        exact agreed
      · exact ih selects.2 v1 v2 member row inAll
  | @join left right lefts rights rows first second pairs ihl ihr =>
      obtain ⟨leftSelects, r, isRelation⟩ := selects
      subst isRelation
      intro v1 v2 member row inside
      rw [LogicalPlan.predicates, LogicalPlan.predicates, List.append_nil] at member
      obtain ⟨row, isLeft, inside⟩ := List.mem_flatMap.mp (pairs.subset inside)
      obtain ⟨other, -, rfl⟩ := List.mem_map.mp inside
      exact agree_append (first.length_of_mem row isLeft) (ihl leftSelects v1 v2 member row isLeft)
  | stopAfter below bounded among counted ih =>
      exact fun v1 v2 member row inside => ih selects v1 v2 member row (among.subset inside)
  | dataStopAfter below ih => exact ih selects

namespace Optimizer

variable {range : IndexRange} {relation : TupleProvider}

/-- The relations below the relation of a range. -/
def relationsBelow (range : IndexRange) : List TupleProvider := range.child.elim [] LogicalPlan.relations

/-- The tuple satisfies the equalities of the range. -/
def selected (ctx : Context) (range : IndexRange) (row : Tuple) : Bool :=
  range.equalityPreds.all fun equality =>
    agree ctx (relationsBelow range ++ [range.relation]) equality.value
      (.qualifiedAttribute range.relation equality.field) row

theorem relations_gatherSelections (plan : LogicalPlan) : plan.gatherSelections.2.relations = plan.relations := by
  induction plan with
  | selection predicate child ih => exact ih
  | relation | sort | stopAfter | dataStopAfter | paginate | join => rfl

theorem relations_base (isBase : baseRelation base = some (range.child, range.relation)) :
    base.relations = relationsBelow range ++ [range.relation] := by
  rw [relationsBelow]
  unfold baseRelation at isBase
  split at isBase
  · split at isBase
    · obtain ⟨alone, rfl⟩ := Prod.mk.inj (Option.some.inj isBase)
      rw [← alone]
      rfl
    · cases isBase
  · split at isBase
    · obtain ⟨joins, rfl⟩ := Prod.mk.inj (Option.some.inj isBase)
      rw [← joins]
      rfl
    · cases isBase
  · cases isBase

end Optimizer

end

end Scads.Piql
