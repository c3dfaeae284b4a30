import Scads.Piql.Databases

namespace Scads.Piql

open Scads.Client Scads.Data

/-! # Asked tuples

An iterator reads its child as far as it has to: a lookup join and a selection until they
have found one tuple more than they are asked for, and a merge join to the end as soon as
it is opened.
-/

/-- For this many tuples the bound plan asks a plan below it for so many. -/
inductive QueryPlan.Asks (ctx : Context) (store : Store) : QueryPlan → Nat → QueryPlan → Nat → Prop where
  | self {plan : QueryPlan} {count : Nat} : Asks ctx store plan count plan count
  | indexLookupJoin {ns : TupleProvider} {key : KeyGenerator} {child below : QueryPlan} {count read asked : Nat}
      (few : FindsAtMost (lookupRecord ctx store ns key) (course ctx store child) read count)
      (later : Asks ctx store child (read + 1) below asked) :
      Asks ctx store (.indexLookupJoin ns key child) count below asked
  | localSelection {predicate : Predicate} {child below : QueryPlan} {count read asked : Nat}
      (few : FindsAtMost (keepSelected ctx predicate) (course ctx store child) read count)
      (later : Asks ctx store child (read + 1) below asked) :
      Asks ctx store (.localSelection predicate child) count below asked
  | indexMergeJoin {ns : TupleProvider} {keyPrefix : KeyGenerator} {sortFields : List Value} {limit : Limit}
      {ascending : Bool} {child below : QueryPlan} {count read asked : Nat}
      (later : Asks ctx store child read below asked) :
      Asks ctx store (.indexMergeJoin ns keyPrefix sortFields limit ascending child) count below asked
  | localStopAfter {limit : Limit} {child below : QueryPlan} {boundLimit : Int} {count asked : Nat}
      (isLimit : bindLimit ctx limit = .ok boundLimit)
      (later : Asks ctx store child (min count boundLimit.toNat) below asked) :
      Asks ctx store (.localStopAfter limit child) count below asked

section

variable {ctx : Context} {store : Store} {whole child below : QueryPlan} {count read asked : Nat}

theorem QueryPlan.Asks.trans (first : whole.Asks ctx store count child read)
    (second : child.Asks ctx store read below asked) : whole.Asks ctx store count below asked := by
  induction first with
  | self => exact second
  | indexLookupJoin few _ ih => exact .indexLookupJoin few (ih second)
  | localSelection few _ ih => exact .localSelection few (ih second)
  | indexMergeJoin _ ih => exact .indexMergeJoin (ih second)
  | localStopAfter isLimit _ ih => exact .localStopAfter isLimit (ih second)

/-- The plan is asked for this many tuples when the whole plan is drained. -/
def QueryPlan.Asked (ctx : Context) (store : Store) (whole child : QueryPlan) (read : Nat) : Prop :=
  ∃ count, whole.Asks ctx store count child read

theorem QueryPlan.Asked.reads (asked : whole.Asked ctx store child read)
    (later : child.Asks ctx store read below count) : whole.Asked ctx store below count := by
  obtain ⟨first, asks⟩ := asked
  exact ⟨first, asks.trans later⟩

end

namespace Optimizer

/-- The operator over a logical plan takes a tuple with these records of the relations. -/
def Takes (ctx : Context) (store : Store) (schema : List TupleProvider) (whole : QueryPlan) (child : LogicalPlan)
    (row : Tuple) : Prop :=
  ∃ physical bound read given tuples tuple, apply child = .ok physical ∧ Binder.bindPlan schema physical = .ok bound ∧
    whole.Asked ctx store bound read ∧ course ctx store bound = .ok given ∧ given.stop read = .ofList tuples ∧
      tuple ∈ tuples ∧ row = onRelations physical.layout tuple

/-- The range is read for a tuple: a scan once, and a join for each tuple that it takes. -/
def TakesBelow (ctx : Context) (store : Store) (schema : List TupleProvider) (whole : QueryPlan) (range : IndexRange)
    (row : Tuple) : Prop :=
  match range.child with
  | none => row = []
  | some child => Takes ctx store schema whole child row

end Optimizer

end Scads.Piql
