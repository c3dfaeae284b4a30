import Scads.Piql.RangeKeys

namespace Scads.Piql

open Scads.Client Scads.Data

/-! # Realizations

What the operations of a logical plan become in the physical plan: its values, its
predicates, the places of its relations and the operators that it is made of.
-/

namespace Optimizer

/-- The range is a lookup that the plan starts with. -/
def startsPlan (range : IndexRange) : Bool := range.child.isNone && range.ordering.isNone && range.limit.isNone

/-- The number of records of a page of the range. -/
def pageLimit (range : IndexRange) : Limit := (range.limit.getD ⟨.fixed defaultFetchSize, true⟩).count

/-- The range becomes a lookup and not a scan or a merge join. -/
def looksUp (range : IndexRange) : Bool :=
  range.ordering.isNone && (isLookup range = .ok true) && (range.child.isSome || range.limit.isNone)

namespace Operation

/-- The values that are left for the binder. -/
def values : Operation → List Value
  | .get range => (keyEqualities range).map AttributeEquality.value
  | .select predicate _ => predicate.values

/-- The relation, where the binder sees it. -/
def places : Operation → List TupleProvider
  | .get range => if startsPlan range then [] else [range.relation]
  | .select .. => []

def starts : Operation → Bool
  | .get range => startsPlan range
  | .select .. => false

/-- The limits that are left in the plan: a lookup has no pages, and a promised limit is no stop. -/
def limits : Operation → List Limit
  | .get range =>
      if looksUp range then (range.limit.filter fun limit => !limit.isDataStop).toList.map TupleLimit.count
      else [pageLimit range]
  | .select .. => []

end Operation

variable {plan child : LogicalPlan} {range : IndexRange} {result optChild idxPlan : QueryPlan} {ops : List Operation}
  {ns idx : TupleProvider} {key : KeyGenerator} {sortFields : List Value}

/-- What a physical plan has comes from the operations of the logical one, and the other way round. -/
structure Realizes (ops : List Operation) (result : QueryPlan) : Prop where
  places : ops.flatMap Operation.places ⊆ Binder.getTupleSchema result
  seen : ∀ ns ∈ Binder.getTupleSchema result, ns.isRelation = true → ns ∈ ops.flatMap Operation.places
  lookup : result.startsWithLookup = true → ops.any Operation.starts = true
  values : ∀ value ∈ result.values, (∃ op ∈ ops, value ∈ op.values) ∨
    ∃ r f, value = .qualifiedAttribute r f ∧ r ∈ Binder.getTupleSchema result
  operands : ∀ op ∈ ops, op.values ⊆ result.values
  predicates : ∀ predicate ∈ result.predicates, ∃ child, .select predicate child ∈ ops
  selections : ∀ predicate child, .select predicate child ∈ ops → predicate ∈ result.predicates

theorem Realizes.stopped (realizes : Realizes ops result) (limit : TupleLimit) :
    Realizes ops (stopped limit result) := by
  rw [Optimizer.stopped]
  split
  · exact realizes
  · exact ⟨realizes.places, realizes.seen, realizes.lookup, realizes.values, realizes.operands, realizes.predicates,
      realizes.selections⟩

theorem Realizes.select {predicate : Predicate} (realizes : Realizes ops result) (child : LogicalPlan) :
    Realizes (.select predicate child :: ops) (.localSelection predicate result) where
  places := realizes.places
  seen := realizes.seen
  lookup looks := by
    rw [List.any_cons, realizes.lookup looks, Bool.or_true]
  values value member := by
    obtain here | below := List.mem_append.mp member
    · exact .inl ⟨_, List.mem_cons_self, here⟩
    · obtain ⟨op, there, valued⟩ | placed := realizes.values value below
      · exact .inl ⟨op, List.mem_cons_of_mem _ there, valued⟩
      · exact .inr placed
  operands op member := by
    obtain rfl | below := List.mem_cons.mp member
    · exact List.subset_append_left ..
    · exact List.subset_append_of_subset_right _ (realizes.operands op below)
  predicates other member := by
    obtain rfl | below := List.mem_cons.mp member
    · exact ⟨child, List.mem_cons_self⟩
    · obtain ⟨plan, there⟩ := realizes.predicates other below
      exact ⟨plan, List.mem_cons_of_mem _ there⟩
  selections other plan member := by
    obtain same | below := List.mem_cons.mp member
    · cases same
      exact List.mem_cons_self
    · exact List.mem_cons_of_mem _ (realizes.selections other plan below)

/-- What an operator adds to its child: a namespace, a key and the values that it merges by. -/
structure Extends (result child : QueryPlan) (ns : TupleProvider) (key : KeyGenerator) (sortFields : List Value) :
    Prop where
  schema : Binder.getTupleSchema result = ns :: Binder.getTupleSchema child
  lookup : result.startsWithLookup = child.startsWithLookup
  values : ∀ value, value ∈ result.values ↔ value ∈ key ∨ value ∈ sortFields ∨ value ∈ child.values
  predicates : result.predicates = child.predicates

/-- A plan without namespaces and values. -/
def nothing : QueryPlan := .localIterator 0 false

theorem realizes_nothing : Realizes [] nothing where
  places := List.nil_subset _
  seen := List.forall_mem_nil _
  lookup looks := absurd looks Bool.false_ne_true
  values := List.forall_mem_nil _
  operands := List.forall_mem_nil _
  predicates := List.forall_mem_nil _
  selections _ _ member := by cases member

theorem extends_indexScan (ns : TupleProvider) (key : KeyGenerator) (count : Limit) (ascending : Bool) :
    Extends (.indexScan ns key count ascending) nothing ns key [] :=
  ⟨rfl, rfl, fun value => by simp [QueryPlan.values, nothing], rfl⟩

theorem extends_indexLookupJoin (ns : TupleProvider) (key : KeyGenerator) (child : QueryPlan) :
    Extends (.indexLookupJoin ns key child) child ns key [] :=
  ⟨rfl, rfl, fun value => by simp [QueryPlan.values], rfl⟩

theorem extends_indexScanJoin (ns : TupleProvider) (key : KeyGenerator) (count : Limit) (ascending : Bool)
    (child : QueryPlan) : Extends (.indexScanJoin ns key count ascending child) child ns key [] :=
  ⟨rfl, rfl, fun value => by simp [QueryPlan.values], rfl⟩

theorem extends_indexMergeJoin (ns : TupleProvider) (key : KeyGenerator) (sortFields : List Value) (count : Limit)
    (ascending : Bool) (child : QueryPlan) :
    Extends (.indexMergeJoin ns key sortFields count ascending child) child ns key sortFields :=
  ⟨rfl, rfl, fun value => by simp [QueryPlan.values], rfl⟩

/-- The values of a range are those of its key. -/
theorem mem_values_iff (covers : Covers range ns) (keyed : makeKeyGenerator ns range.equalityPreds = .ok key)
    (value : Value) : value ∈ (Operation.get range).values ↔ value ∈ key :=
  ⟨covers.mem_keyed keyed, mem_keyEqualities_of_keyed keyed⟩

theorem places_get (placed : startsPlan range = false) : (Operation.get range).places = [range.relation] :=
  if_neg (by simp [placed])

theorem Realizes.extended (realizes : Realizes ops optChild)
    (extended : Extends result optChild range.relation key sortFields) (placed : startsPlan range = false)
    (keyed : ∀ value, value ∈ (Operation.get range).values ↔ value ∈ key)
    (sorted : ∀ value ∈ sortFields, ∃ f, value = .qualifiedAttribute range.relation f) :
    Realizes (.get range :: ops) result where
  places := by
    rw [extended.schema, List.flatMap_cons, places_get placed]
    exact List.cons_subset_cons _ realizes.places
  seen := by
    rw [extended.schema, List.flatMap_cons, places_get placed]
    intro ns member isRelation
    obtain rfl | below := List.mem_cons.mp member
    · exact List.mem_cons_self
    · exact List.mem_cons_of_mem _ (realizes.seen ns below isRelation)
  lookup looks := by
    rw [List.any_cons, realizes.lookup (extended.lookup ▸ looks), Bool.or_true]
  values value member := by
    rw [extended.schema]
    obtain inKey | inSort | below := (extended.values value).mp member
    · exact .inl ⟨_, List.mem_cons_self, (keyed value).mpr inKey⟩
    · obtain ⟨f, rfl⟩ := sorted value inSort
      exact .inr ⟨range.relation, f, rfl, List.mem_cons_self⟩
    · obtain ⟨op, there, valued⟩ | ⟨r, f, same, isPlaced⟩ := realizes.values value below
      · exact .inl ⟨op, List.mem_cons_of_mem _ there, valued⟩
      · exact .inr ⟨r, f, same, List.mem_cons_of_mem _ isPlaced⟩
  operands op member value valued := by
    obtain rfl | below := List.mem_cons.mp member
    · exact (extended.values value).mpr (.inl ((keyed value).mp valued))
    · exact (extended.values value).mpr (.inr (.inr (realizes.operands op below valued)))
  predicates predicate member := by
    obtain ⟨plan, there⟩ := realizes.predicates predicate (extended.predicates ▸ member)
    exact ⟨plan, List.mem_cons_of_mem _ there⟩
  selections predicate plan member := by
    obtain same | below := List.mem_cons.mp member
    · cases same
    · exact extended.predicates ▸ realizes.selections predicate plan below

/-- The entries of an index and the lookups of the records that they name. -/
theorem Realizes.dereferenced {reference : KeyGenerator} (realizes : Realizes ops optChild)
    (extended : Extends idxPlan optChild idx key []) (placed : startsPlan range = false)
    (isIndex : idx.isRelation = false) (keyed : ∀ value, value ∈ (Operation.get range).values ↔ value ∈ key)
    (refers : List.Forall₂ (Reference idx) range.relation.keySchema reference) :
    Realizes (.get range :: ops) (.indexLookupJoin range.relation reference idxPlan) where
  places := by
    rw [Binder.getTupleSchema, extended.schema, List.flatMap_cons, places_get placed]
    exact List.cons_subset_cons _ (List.subset_cons_of_subset _ realizes.places)
  seen := by
    rw [Binder.getTupleSchema, extended.schema, List.flatMap_cons, places_get placed]
    intro ns member isRelation
    obtain rfl | below := List.mem_cons.mp member
    · exact List.mem_cons_self
    · obtain rfl | below := List.mem_cons.mp below
      · rw [isIndex] at isRelation
        cases isRelation
      · exact List.mem_cons_of_mem _ (realizes.seen ns below isRelation)
  lookup looks := by
    rw [QueryPlan.startsWithLookup, extended.lookup] at looks
    rw [List.any_cons, realizes.lookup looks, Bool.or_true]
  values value member := by
    rw [Binder.getTupleSchema, extended.schema]
    obtain inReference | inPlan := List.mem_append.mp member
    · obtain ⟨field, -, same, -, rfl⟩ := forall₂_mem_right refers inReference
      exact .inr ⟨idx, same, rfl, by simp⟩
    · obtain inKey | inSort | below := (extended.values value).mp inPlan
      · exact .inl ⟨_, List.mem_cons_self, (keyed value).mpr inKey⟩
      · cases inSort
      · obtain ⟨op, there, valued⟩ | ⟨r, f, same, isPlaced⟩ := realizes.values value below
        · exact .inl ⟨op, List.mem_cons_of_mem _ there, valued⟩
        · exact .inr ⟨r, f, same, by simp [isPlaced]⟩
  operands op member value valued := by
    refine List.mem_append_right _ ?_
    obtain rfl | below := List.mem_cons.mp member
    · exact (extended.values value).mpr (.inl ((keyed value).mp valued))
    · exact (extended.values value).mpr (.inr (.inr (realizes.operands op below valued)))
  predicates predicate member := by
    rw [QueryPlan.predicates, extended.predicates] at member
    obtain ⟨plan, there⟩ := realizes.predicates predicate member
    exact ⟨plan, List.mem_cons_of_mem _ there⟩
  selections predicate plan member := by
    rw [QueryPlan.predicates, extended.predicates]
    obtain same | below := List.mem_cons.mp member
    · cases same
    · exact realizes.selections predicate plan below

theorem Realizes.fetched {attrs : List Value} {others : List String}
    {primary secondary : TupleProvider → KeyGenerator → QueryPlan} (realizes : Realizes ops optChild)
    (placed : startsPlan range = false)
    (first : ∀ key, Extends (primary range.relation key) optChild range.relation key sortFields)
    (second : ∀ ns key, Extends (secondary ns key) optChild ns key []) (sorted : sortFields ⊆ attrs)
    (fetches : Fetches range (attributes range ++ attrs) (fieldNames range ++ others) primary secondary result) :
    Realizes (.get range :: ops) result := by
  refine fetches.cases_on (fun key contained keyed covers => ?_) fun idx key reference other indexed keyed covers refers => ?_
  · refine realizes.extended (first key) placed (mem_values_iff covers keyed) fun value member => ?_
    have isAttribute := List.mem_append_right (attributes range) (sorted member)
    obtain ⟨f, -, same⟩ := List.mem_map.mp (List.mem_of_mem_take (mem_keyAttributes contained isAttribute))
    exact ⟨f, same.symm⟩
  · obtain ⟨names, indexed⟩ := indexed
    exact realizes.dereferenced (second idx key) placed (index_ok indexed).1 (mem_values_iff covers keyed) refers

theorem optimizes_answers (matched : unapply plan = .ok (some range)) (answer : answers range = true)
    (realizes : Realizes (.get range :: below range.child) result) : Realizes (operations false plan) result := by
  rw [operations_answered matched answer]
  exact realizes

/-- A lookup has a value for each field of the key. -/
theorem covers_of_isLookup (whole : isLookup range = .ok true)
    (keyed : makeKeyGenerator ns range.equalityPreds = .ok key)
    (same : ns = range.relation) : Covers range ns := by
  subst same
  rw [isLookup] at whole
  split at whole
  · rename_i length
    exact covers_of_keyed keyed (Nat.le_of_eq length)
  · cases whole

theorem realizes_of_optimizes (optimizes : Optimizes plan result) : Realizes (operations false plan) result := by
  induction optimizes with
  | selection unanswered _ ih =>
      rw [operations_selection unanswered]
      exact ih.select _
  | @lookup plan range key matched alone unordered unbounded whole keyed =>
      refine optimizes_answers matched (by simp [answers, *]) ?_
      have starts : startsPlan range = true := by simp [startsPlan, *]
      have values := mem_values_iff (covers_of_isLookup whole keyed rfl) keyed
      rw [alone]
      refine ⟨?_, List.forall_mem_nil _, fun _ => ?_,
        fun value member => .inl ⟨_, List.mem_cons_self, (values value).mpr member⟩, ?_, List.forall_mem_nil _, ?_⟩
      · simp [below, Operation.places, starts]
      · simp [Operation.starts, starts]
      · exact List.forall_mem_singleton.mpr fun value member => (values value).mp member
      · intro predicate child member
        cases List.mem_singleton.mp member
  | @scan plan range limit result matched alone unordered bounded scanned =>
      refine optimizes_answers matched (by simp [answers, *]) (Realizes.stopped ?_ limit)
      rw [alone]
      exact realizes_nothing.fetched (by simp [startsPlan, *]) (fun key => extends_indexScan _ key _ _)
        (fun ns key => extends_indexScan ns key _ _) (List.nil_subset []) (scanPlan_ok scanned).unordered
  | @orderedScan plan range limit ordering result matched alone ordered hint scanned =>
      have answer : answers range = true := by
        cases bounded : range.limit <;> simp [answers, *]
      refine optimizes_answers matched answer (Realizes.stopped ?_ limit)
      rw [alone]
      exact realizes_nothing.fetched (by simp [startsPlan, *]) (fun key => extends_indexScan _ key _ _)
        (fun ns key => extends_indexScan ns key _ _) (List.nil_subset _) (scanPlan_ok scanned)
  | @lookupJoin plan child range optChild key matched joins unordered whole _ keyed ih =>
      have answer : answers range = true := by
        cases bounded : range.limit <;> simp [answers, *]
      refine optimizes_answers matched answer ?_
      rw [joins]
      have realizes : Realizes (.get range :: below (some child)) (.indexLookupJoin range.relation key optChild) :=
        Realizes.extended ih (extends_indexLookupJoin _ key _) (by simp [startsPlan, *])
          (mem_values_iff (covers_of_isLookup whole keyed rfl) keyed) (List.forall_mem_nil _)
      cases range.limit with
      | none => exact realizes
      | some limit => exact realizes.stopped limit
  | @mergeJoin plan child range limit optChild result matched joins unordered _ bounded _ merged ih =>
      refine optimizes_answers matched (by simp [answers, *]) (Realizes.stopped ?_ limit)
      rw [joins]
      exact Realizes.fetched ih (by simp [startsPlan, *]) (fun key => extends_indexMergeJoin _ key _ _ _ _)
        (fun ns key => extends_indexMergeJoin ns key _ _ _ _) (List.nil_subset []) (mergeJoinPlan_ok merged).unordered
  | @orderedJoin plan child range limit ordering optChild result matched joins ordered bounded _ merged ih =>
      refine optimizes_answers matched (by simp [answers, *]) (Realizes.stopped ?_ limit)
      rw [joins]
      exact Realizes.fetched ih (by simp [startsPlan, *]) (fun key => extends_indexMergeJoin _ key _ _ _ _)
        (fun ns key => extends_indexScanJoin ns key _ _ _) (List.Subset.refl _) (orderedJoinPlan_ok merged)

theorem pageLimit_of_bounded {limit : TupleLimit} (bounded : range.limit = some limit) :
    pageLimit range = limit.count := by
  rw [pageLimit, bounded]
  rfl

/-- The operation is a scan with pages of this limit. -/
def Scans (ops : List Operation) (limit : Limit) : Prop :=
  ∃ range, .get range ∈ ops ∧ range.child = none ∧ startsPlan range = false ∧ limit = pageLimit range

end Optimizer

end Scads.Piql
