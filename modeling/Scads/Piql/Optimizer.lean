import Scads.Piql.QueryPlan

namespace Scads.Piql

open Scads.Client

/-! # The optimizer

Groups of logical operators that one range of an index can answer become one
physical operator.  What is left of the selections is evaluated locally.
-/

inductive LogicalPlan where
  | relation (r : TupleProvider)
  | selection (predicate : Predicate) (child : LogicalPlan)
  | sort (attributes : List Value) (ascending : Bool) (child : LogicalPlan)
  | stopAfter (count : Limit) (child : LogicalPlan)
  | dataStopAfter (count : Limit) (child : LogicalPlan)
  | paginate (count : Limit) (child : LogicalPlan)
  | join (left right : LogicalPlan)
deriving DecidableEq

namespace LogicalPlan

def height : LogicalPlan → Nat
  | .relation _ => 1
  | .selection _ child | .sort _ _ child | .stopAfter _ child | .dataStopAfter _ child | .paginate _ child =>
      child.height + 1
  | .join left right => max left.height right.height + 1

/-- The predicates of the selections on top of a plan, the outermost first, and the plan below them. -/
def gatherSelections : LogicalPlan → List Predicate × LogicalPlan
  | .selection predicate child => (predicate :: child.gatherSelections.1, child.gatherSelections.2)
  | plan => ([], plan)

end LogicalPlan

/-- An equality on an attribute of the relation of a range. -/
structure AttributeEquality where
  field : Field
  value : Value
deriving DecidableEq

structure Ordering where
  attributes : List (TupleProvider × Field)
  ascending : Bool
deriving DecidableEq

structure TupleLimit where
  count : Limit
  isDataStop : Bool
deriving DecidableEq

/-- What `IndexRange.unapply` extracts: the base is a relation or the join of `child` with it. -/
structure IndexRange where
  equalityPreds : List AttributeEquality
  limit : Option TupleLimit
  ordering : Option Ordering
  child : Option LogicalPlan
  relation : TupleProvider
deriving DecidableEq

namespace TupleProvider

def keyAttributes (provider : TupleProvider) : List Value := provider.keySchema.map (.qualifiedAttribute provider)

end TupleProvider

namespace Optimizer

def defaultFetchSize : Int32 := 10

def emptyReduceLeft : QueryFailure := .unsupportedOperation "empty.reduceLeft"

/-- `Relation.index`: the fields of the index are the given ones and the rest of the key.  Avro refuses a
schema that has a field twice. -/
def index (r : TupleProvider) (names : List String) : Except QueryFailure TupleProvider := do
  let prefixFields ← names.mapM fun name =>
    match r.fields.find? (·.name = name) with
    | some field => .ok field
    | none => .error (.illegalArgument ("Invalid field name: " ++ name))
  let suffixFields := r.keySchema.filter fun field => field.name ∉ names
  if distinct : ((prefixFields ++ suffixFields ++ []).map Field.name).Nodup then
    return { ns := r.ns ++ "/" ++ "0".intercalate names, aliasName := none,
             schema := ⟨prefixFields ++ suffixFields, [], distinct⟩, isRelation := false }
  else throw (.runtime "Duplicate field")

def isPrefix (attrs : List Value) (ns : TupleProvider) : Except QueryFailure Bool :=
  if attrs.isEmpty then .error emptyReduceLeft
  else .ok (attrs.all fun attr => attr ∈ ns.keyAttributes.take attrs.length)

def makeKeyGenerator (ns : TupleProvider) (equalityPreds : List AttributeEquality) :
    Except QueryFailure KeyGenerator :=
  (ns.keySchema.take equalityPreds.length).mapM fun f =>
    match equalityPreds.find? (·.field.name = f.name) with
    | some equality => .ok equality.value
    | none => .error (.implementationLimitation "Invalid prefix")

/-- The records of `r` for the entries of an index. -/
def derefPlan (r idx : TupleProvider) (idxPlan : QueryPlan) : Except QueryFailure QueryPlan := do
  let keyGenerator ← r.keySchema.mapM fun f =>
    match idx.keySchema.find? (·.name = f.name) with
    | some field => .ok (.qualifiedAttribute idx field)
    | none => .error (.noSuchElement ("key not found: " ++ f.name))
  return .indexLookupJoin r keyGenerator idxPlan

def stripStop : LogicalPlan → Option TupleLimit × LogicalPlan
  | .stopAfter count child => (some ⟨count, false⟩, child)
  | .dataStopAfter count child => (some ⟨count, true⟩, child)
  | otherOp => (none, otherOp)

def qualified : Value → Option (TupleProvider × Field)
  | .qualifiedAttribute r f => some (r, f)
  | _ => none

def stripSort : LogicalPlan → Except QueryFailure (Option Ordering × LogicalPlan)
  | .sort [] _ _ => .error emptyReduceLeft
  | .sort attrs asc child =>
      match attrs.mapM qualified with
      | some attributes => .ok (some ⟨attributes, asc⟩, child)
      | none => .ok (none, .sort attrs asc child)
  | otherOp => .ok (none, otherOp)

/-- The relation of a base plan, with the plan that it is joined to. -/
def baseRelation : LogicalPlan → Option (Option LogicalPlan × TupleProvider)
  | .relation r => if r.isRelation then some (none, r) else none
  | .join child (.relation r) => if r.isRelation then some (some child, r) else none
  | _ => none

def toEquality (relation : TupleProvider) : Predicate → Option AttributeEquality
  | .equality v (.qualifiedAttribute r f) =>
      if r = relation then some ⟨f, v⟩
      else
        match v with
        | .qualifiedAttribute r' f' => if r' = relation then some ⟨f', .qualifiedAttribute r f⟩ else none
        | _ => none
  | .equality (.qualifiedAttribute r f) v => if r = relation then some ⟨f, v⟩ else none
  | _ => none

def unapply (logicalPlan : LogicalPlan) : Except QueryFailure (Option IndexRange) := do
  let (limit, planWithoutStop) := stripStop logicalPlan
  let (ordering, planWithoutSort) ← stripSort planWithoutStop
  let (predicates, basePlan) := planWithoutSort.gatherSelections
  match baseRelation basePlan with
  | none => return none
  | some (child, relation) =>
      match predicates.mapM (toEquality relation) with
      | none => return none
      | some equalityPreds => return some { equalityPreds, limit, ordering, child, relation }


/-- The attributes of the equalities. -/
def attributes (range : IndexRange) : List Value :=
  range.equalityPreds.map fun equality => .qualifiedAttribute range.relation equality.field

/-- Whether the equalities give the whole primary key. -/
def isLookup (range : IndexRange) : Except QueryFailure Bool :=
  if range.equalityPreds.length = range.relation.keySchema.length then isPrefix (attributes range) range.relation
  else .ok false

def stopped (limit : TupleLimit) (plan : QueryPlan) : QueryPlan :=
  if limit.isDataStop then plan else .localStopAfter limit.count plan

/-- A range of the primary index if the attributes are a prefix of the key, else of a secondary index that
is looked up in the relation. -/
def scanPlan (range : IndexRange) (count : Limit) (attrs : List Value) (names : List String) (ascending : Bool) :
    Except QueryFailure QueryPlan := do
  if ← isPrefix attrs range.relation then
    return .indexScan range.relation (← makeKeyGenerator range.relation range.equalityPreds) count ascending
  else
    let idx ← index range.relation names
    derefPlan range.relation idx (.indexScan idx (← makeKeyGenerator idx range.equalityPreds) count ascending)

def fieldNames (range : IndexRange) : List String := range.equalityPreds.map fun equality => equality.field.name

def orderingValues (ordering : Ordering) : List Value :=
  ordering.attributes.map fun attr => .qualifiedAttribute attr.1 attr.2

def orderingNames (ordering : Ordering) : List String := ordering.attributes.map fun attr => attr.2.name

def mergeJoinPlan (range : IndexRange) (count : Limit) (optChild : QueryPlan) : Except QueryFailure QueryPlan := do
  if ← isPrefix (attributes range) range.relation then
    return .indexMergeJoin range.relation (← makeKeyGenerator range.relation range.equalityPreds) [] count true
      optChild
  else
    let idx ← index range.relation (fieldNames range)
    derefPlan range.relation idx
      (.indexMergeJoin idx (← makeKeyGenerator idx range.equalityPreds) [] count true optChild)

def orderedJoinPlan (range : IndexRange) (count : Limit) (ordering : Ordering) (optChild : QueryPlan) :
    Except QueryFailure QueryPlan := do
  if ← isPrefix (attributes range ++ orderingValues ordering) range.relation then
    return .indexMergeJoin range.relation (← makeKeyGenerator range.relation range.equalityPreds)
      (orderingValues ordering) count ordering.ascending optChild
  else
    let idx ← index range.relation (fieldNames range ++ orderingNames ordering)
    derefPlan range.relation idx
      (.indexScanJoin idx (← makeKeyGenerator idx range.equalityPreds) count ordering.ascending optChild)

/-- The case for a selection that no range answers. -/
def localPlan (optimize : LogicalPlan → Except QueryFailure QueryPlan) : LogicalPlan → Except QueryFailure QueryPlan
  | .selection predicate child => do return .localSelection predicate (← optimize child)
  | _ => .error .matchError

/-- The cases of `apply` on a range, in their order. -/
def rangePlan (optimize : LogicalPlan → Except QueryFailure QueryPlan) (plan : LogicalPlan) (range : IndexRange) :
    Except QueryFailure QueryPlan := do
  match range.child, range.ordering, range.limit with
  | none, none, none =>
      if ← isLookup range then
        return .indexLookup range.relation (← makeKeyGenerator range.relation range.equalityPreds)
      else localPlan optimize plan
  | none, none, some limit =>
      return stopped limit (← scanPlan range limit.count (attributes range) (fieldNames range) true)
  | none, some ordering, bound =>
      let limit := bound.getD ⟨.fixed defaultFetchSize, true⟩
      return stopped limit (← scanPlan range limit.count (attributes range ++ orderingValues ordering)
        (fieldNames range ++ orderingNames ordering) ordering.ascending)
  | some child, none, limit =>
      if ← isLookup range then
        let optChild ← optimize child
        let joinPlan := .indexLookupJoin range.relation (← makeKeyGenerator range.relation range.equalityPreds) optChild
        return match limit with
          | some limit => stopped limit joinPlan
          | none => joinPlan
      else
        match limit with
        | some limit => do
            let optChild ← optimize child
            return stopped limit (← mergeJoinPlan range limit.count optChild)
        | none => localPlan optimize plan
  | some child, some ordering, some limit =>
      let optChild ← optimize child
      return stopped limit (← orderedJoinPlan range limit.count ordering optChild)
  | some _, some _, none => localPlan optimize plan

def optimize : Nat → LogicalPlan → Except QueryFailure QueryPlan
  | 0, _ => .error .unfinished
  | rounds + 1, plan => do
      match ← unapply plan with
      | some range => rangePlan (optimize rounds) plan range
      | none => localPlan (optimize rounds) plan

def apply (logicalPlan : LogicalPlan) : Except QueryFailure QueryPlan := optimize logicalPlan.height logicalPlan

end Optimizer

end Scads.Piql
