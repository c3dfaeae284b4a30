import Scads.Piql.ComparedValues
import Scads.Piql.Realizations

namespace Scads.Piql

open Scads.Client Scads.Data

/-! # Executable queries

Which logical plans the optimizer turns into plans that the binder and the simple
executor take, on every database.
-/

/-- An attribute of a relation, or no attribute. -/
def Value.Named : Value → Prop
  | .constant _ | .parameter _ => True
  | .qualifiedAttribute r _ => r.isRelation = true
  | .attribute .. | .unboundAttribute _ => False

theorem Value.Named.qualified {value : Value} (named : value.Named) : value.Qualified := by
  cases value <;> trivial

/-- All the attributes are qualified. -/
def LogicalPlan.Qualified : LogicalPlan → Prop
  | .relation _ => True
  | .selection predicate child => (∀ value ∈ predicate.values, value.Named) ∧ child.Qualified
  | .sort attrs _ child => (∀ value ∈ attrs, value.Named) ∧ child.Qualified
  | .stopAfter _ child | .dataStopAfter _ child | .paginate _ child => child.Qualified
  | .join left right => left.Qualified ∧ right.Qualified

namespace Optimizer

/-- The operations give no more tuples than this: a range has one tuple for each of those below it where the whole
key of its relation is given. -/
def AtMost (ctx : Context) (count : Nat) : List Operation → Prop
  | [] => 1 ≤ count
  | .select predicate _ :: ops => Refuses ctx predicate ∨ AtMost ctx count ops
  | .get range :: ops =>
      (∃ limit, range.limit = some limit ∧ limit.isDataStop = false ∧ LimitAtMost ctx count limit.count) ∨
        if looksUp range then AtMost ctx count ops
        else (range.child.isSome = true ∧ LimitAtMost ctx 0 (pageLimit range)) ∨ AtMost ctx 0 ops ∨
          (AtMost ctx count ops ∧ FixesKey range ∧
            ∀ value ∈ (Operation.get range).values, value.NeverNull ctx (ops.any Operation.starts))

variable {ctx : Context} {plan child : LogicalPlan} {range : IndexRange} {result optChild : QueryPlan}
  {ops : List Operation} {count : Nat}

/-- The plan is bound, and the executor makes its iterators. -/
def Built (ctx : Context) (store : Store) (physical bound : QueryPlan) : Prop :=
  Binder.boundPlan physical = .ok bound ∧ ∃ iterator, SimpleExecutor.apply ctx store bound = .ok iterator

def userName : Value := .qualifiedAttribute Binder.users ⟨"username", "\"string\""⟩

/-- The one user of a name. -/
def oneUser : LogicalPlan := .stopAfter (.fixed 1)
    (.selection (.equality userName (.parameter 0)) (.relation Binder.users))

end Optimizer

end Scads.Piql
