import Scads.Piql.AnsweredQueries

namespace Scads.Piql

open Scads.Client Scads.Data

/-! # Kept selections

The key of a range has one value for each of its fields.  Of several equalities on one
field it keeps the first, and the others are lost unless they ask for the same value.
-/

namespace Optimizer

end Optimizer

section

variable {r : TupleProvider} {records : List Record}

end

namespace Optimizer

section

variable {ctx : Context} {plan : LogicalPlan} {range : IndexRange} {physical bound : QueryPlan}

/-- The equalities of a range on one field are equalities with one value. -/
def Consistent (ctx : Context) (range : IndexRange) : Prop :=
  ∀ first ∈ range.equalityPreds, ∀ second ∈ range.equalityPreds, first.field.name = second.field.name →
    first.value = second.value ∨ ∃ l r, bindValue ctx first.value none = .ok l ∧
      bindValue ctx second.value none = .ok r ∧ l.stored = r.stored

theorem Consistent.uniform (consistent : Consistent ctx range) (relations : List TupleProvider) (row : Tuple)
    {first second : AttributeEquality} (isFirst : first ∈ range.equalityPreds) (isSecond : second ∈ range.equalityPreds)
    (named : first.field.name = second.field.name) :
    (first.value.denote ctx relations row).map Datum.stored =
      (second.value.denote ctx relations row).map Datum.stored := by
  obtain same | ⟨l, r, isLeft, isRight, stored⟩ := consistent first isFirst second isSecond named
  · rw [same]
  · rw [Value.denote_of_bound isLeft, Value.denote_of_bound isRight, Option.map_some, Option.map_some, stored]

theorem Given.valued (given : Given ctx range) (covers : Covers range range.relation) :
    ∀ equality ∈ range.equalityPreds, ∃ datum, bindValue ctx equality.value none = .ok datum ∧ datum ≠ .null := by
  intro equality member
  obtain ⟨field, inKey, named⟩ := covers equality member
  obtain ⟨datum, found, present, -⟩ := given equality member field (List.mem_of_mem_take inKey) named.symm
  exact ⟨datum, found, present⟩

section

variable {limit : TupleLimit} {count : Int}

end

/-- The plan yields an answer to the query from the store. -/
def Kept (ctx : Context) (store : Store) (db : Database) (plan : LogicalPlan) (physical bound : QueryPlan) : Prop :=
  ∃ tuples, Settles (execute (SimpleExecutor.apply ctx store bound)) (.ok tuples) ∧
    Answers ctx db plan (tuples.map (onRelations physical.layout)) ∧
    ∀ v1 v2, .equality v1 v2 ∈ plan.predicates →
      ∀ tuple ∈ tuples, agree ctx plan.relations v1 v2 (onRelations physical.layout tuple) = true

end

open SimpleExecutor (thoughtAt)

end Optimizer

end Scads.Piql
