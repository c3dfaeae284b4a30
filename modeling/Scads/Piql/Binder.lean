import Scads.Piql.SimpleRuns

namespace Scads.Piql

open Scads.Client Scads.Data

/-! # The binder

The binder replaces the attributes of a physical plan by positions: the position of
a record in the tuple and of a field in the record.  It computes the layout of the
tuples from the whole plan, and the executor builds them operator by operator.
-/

namespace Binder

/-- `IndexLookup` is no `RemotePlan`, so its namespace is not listed. -/
def getTupleSchema : QueryPlan → List TupleProvider
  | .indexScan ns _ _ _ => [ns]
  | .indexLookupJoin ns _ child | .indexScanJoin ns _ _ _ child | .indexMergeJoin ns _ _ _ _ child =>
      ns :: getTupleSchema child
  | .localSelection _ child | .localSort _ _ child | .localStopAfter _ child => getTupleSchema child
  | .indexLookup .. | .localIterator .. | .union .. => []

def tupleSchema (plan : QueryPlan) : List TupleProvider := (getTupleSchema plan).reverse

variable (schema : List TupleProvider)

def bindValue : Value → Except QueryFailure Value
  | .qualifiedAttribute r f =>
      if r ∈ schema then .ok (.attribute (schema.idxOf r) (r.pos f))
      else .error (.assertion ("assertion failed: invalid relation in value " ++ r.toString))
  | otherValue => .ok otherValue

def bindPredicate : Predicate → Except QueryFailure Predicate
  | .equality l r => do return .equality (← bindValue schema l) (← bindValue schema r)
  | .like .. | .within .. => .error .matchError

/-- The child of an `IndexScanJoin` is left as it is. -/
def bindPlan : QueryPlan → Except QueryFailure QueryPlan
  | .indexLookup ns key => do return .indexLookup ns (← key.mapM (bindValue schema))
  | .indexScan ns keyPrefix limit ascending => do
      return .indexScan ns (← keyPrefix.mapM (bindValue schema)) limit ascending
  | .indexLookupJoin ns key child => do
      return .indexLookupJoin ns (← key.mapM (bindValue schema)) (← bindPlan child)
  | .indexScanJoin ns keyPrefix limit ascending child => do
      return .indexScanJoin ns (← keyPrefix.mapM (bindValue schema)) limit ascending child
  | .indexMergeJoin ns keyPrefix sortFields limit ascending child => do
      return .indexMergeJoin ns (← keyPrefix.mapM (bindValue schema)) (← sortFields.mapM (bindValue schema)) limit
        ascending (← bindPlan child)
  | .localSelection predicate child => do
      return .localSelection (← bindPredicate schema predicate) (← bindPlan child)
  | .localSort sortFields ascending child => do
      return .localSort (← sortFields.mapM (bindValue schema)) ascending (← bindPlan child)
  | .localStopAfter count child => do return .localStopAfter count (← bindPlan child)
  | .localIterator .. | .union .. => .error .matchError

def boundPlan (plan : QueryPlan) : Except QueryFailure QueryPlan := bindPlan (tupleSchema plan) plan

end Binder

namespace QueryPlan

/-- The namespaces of the records of a tuple, in the order in which the executor puts them. -/
def layout : QueryPlan → List TupleProvider
  | .indexLookup ns _ | .indexScan ns _ _ _ => [ns]
  | .indexLookupJoin ns _ child | .indexScanJoin ns _ _ _ child | .indexMergeJoin ns _ _ _ _ child =>
      child.layout ++ [ns]
  | .localSelection _ child | .localSort _ _ child | .localStopAfter _ child => child.layout
  | .localIterator .. | .union .. => []

/-- The values of a plan, each with the plan on whose tuples it is evaluated. -/
def sites : QueryPlan → List (Value × QueryPlan)
  | .indexLookup .. | .indexScan .. | .localIterator .. | .union .. => []
  | .indexLookupJoin _ key child => key.map (·, child) ++ child.sites
  | .indexScanJoin _ keyPrefix _ _ child => keyPrefix.map (·, child) ++ child.sites
  | .indexMergeJoin ns keyPrefix sortFields limit ascending child =>
      keyPrefix.map (·, child) ++
        (sortFields.map (·, .indexMergeJoin ns keyPrefix sortFields limit ascending child) ++ child.sites)
  | .localSelection predicate child => predicate.values.map (·, child) ++ child.sites
  | .localSort sortFields _ child => sortFields.map (·, child) ++ child.sites
  | .localStopAfter _ child => child.sites

/-- Built from lookups, scans, their joins, selections and stops. -/
def Plain : QueryPlan → Prop
  | .indexLookup .. | .indexScan .. => True
  | .indexLookupJoin _ _ child | .indexMergeJoin _ _ _ _ _ child | .localSelection _ child
  | .localStopAfter _ child => child.Plain
  | .indexScanJoin .. | .localSort .. | .localIterator .. | .union .. => False

/-- The plan starts from a lookup and not from a scan. -/
def startsWithLookup : QueryPlan → Bool
  | .indexLookup .. => true
  | .indexLookupJoin _ _ child | .indexScanJoin _ _ _ _ child | .indexMergeJoin _ _ _ _ _ child
  | .localSelection _ child | .localSort _ _ child | .localStopAfter _ child => child.startsWithLookup
  | .indexScan .. | .localIterator .. | .union .. => false

variable {plan on : QueryPlan} {value : Value}

theorem layout_of_scan (plain : plan.Plain) (scans : plan.startsWithLookup = false) :
    plan.layout = Binder.tupleSchema plan := by
  induction plan with
  | indexLookup ns key => cases scans
  | indexScan ns keyPrefix limit ascending => rfl
  | indexLookupJoin ns key child ih | indexMergeJoin ns key sortFields limit ascending child ih =>
      rw [layout, ih plain scans, Binder.tupleSchema, Binder.tupleSchema, Binder.getTupleSchema,
        List.reverse_cons]
  | localSelection predicate child ih | localStopAfter count child ih =>
      rw [layout, ih plain scans]
      rfl
  | indexScanJoin | localSort | localIterator | union => cases plain

/-- The namespace of a lookup at the start is missing from the tuple schema. -/
theorem layout_of_lookup (plain : plan.Plain) (looks : plan.startsWithLookup = true) :
    ∃ first, plan.layout = first :: Binder.tupleSchema plan := by
  induction plan with
  | indexLookup ns key => exact ⟨ns, rfl⟩
  | indexScan ns keyPrefix limit ascending => cases looks
  | indexLookupJoin ns key child ih | indexMergeJoin ns key sortFields limit ascending child ih =>
      obtain ⟨first, same⟩ := ih plain looks
      refine ⟨first, ?_⟩
      rw [layout, same, Binder.tupleSchema, Binder.tupleSchema, Binder.getTupleSchema, List.reverse_cons]
      rfl
  | localSelection predicate child ih | localStopAfter count child ih => exact ih plain looks
  | indexScanJoin | localSort | localIterator | union => cases plain

/-- A tuple that a value is evaluated on is the beginning of the tuples of the plan. -/
theorem layout_of_site (site : (value, on) ∈ plan.sites) : on.layout <+: plan.layout := by
  induction plan with
  | indexLookup | indexScan | localIterator | union => cases site
  | indexLookupJoin ns key child ih | indexScanJoin ns key limit ascending child ih =>
      obtain here | below := List.mem_append.mp site
      · obtain ⟨other, -, same⟩ := List.mem_map.mp here
        cases same
        exact List.prefix_append ..
      · exact (ih below).trans (List.prefix_append ..)
  | indexMergeJoin ns keyPrefix sortFields limit ascending child ih =>
      obtain here | rest := List.mem_append.mp site
      · obtain ⟨other, -, same⟩ := List.mem_map.mp here
        cases same
        exact List.prefix_append ..
      · obtain here | below := List.mem_append.mp rest
        · obtain ⟨other, -, same⟩ := List.mem_map.mp here
          cases same
          exact List.prefix_rfl
        · exact (ih below).trans (List.prefix_append ..)
  | localSelection predicate child ih =>
      obtain here | below := List.mem_append.mp site
      · obtain ⟨other, -, same⟩ := List.mem_map.mp here
        cases same
        exact List.prefix_rfl
      · exact ih below
  | localSort sortFields ascending child ih =>
      obtain here | below := List.mem_append.mp site
      · obtain ⟨other, -, same⟩ := List.mem_map.mp here
        cases same
        exact List.prefix_rfl
      · exact ih below
  | localStopAfter count child ih => exact ih site

theorem plain_of_site (plain : plan.Plain) (site : (value, on) ∈ plan.sites) : on.Plain := by
  induction plan with
  | indexLookup | indexScan => cases site
  | indexLookupJoin ns key child ih | localSelection predicate child ih =>
      obtain here | below := List.mem_append.mp site
      · obtain ⟨other, -, same⟩ := List.mem_map.mp here
        cases same
        exact plain
      · exact ih plain below
  | indexMergeJoin ns keyPrefix sortFields limit ascending child ih =>
      obtain here | rest := List.mem_append.mp site
      · obtain ⟨other, -, same⟩ := List.mem_map.mp here
        cases same
        exact plain
      · obtain here | below := List.mem_append.mp rest
        · obtain ⟨other, -, same⟩ := List.mem_map.mp here
          cases same
          exact plain
        · exact ih plain below
  | localStopAfter count child ih => exact ih plain site
  | indexScanJoin | localSort | localIterator | union => cases plain

end QueryPlan

/-- The store has given this record for the namespace. -/
def Store.Gives (store : Store) (ns : TupleProvider) (record : Record) : Prop :=
  (∃ key, store.getRecord ns key = some record) ∨ ∃ keyPrefix, record ∈ store.matching ns keyPrefix

theorem Store.gives_of_inOrder {store : Store} {ns : TupleProvider} {keyPrefix : Key} {ascending : Bool}
    {record : Record} (member : record ∈ store.inOrder ns keyPrefix ascending) : store.Gives ns record := by
  refine .inr ⟨keyPrefix, ?_⟩
  rw [Store.inOrder] at member
  split at member
  · exact member
  · exact List.mem_reverse.mp member

section

variable {ctx : Context} {store : Store} {plan : QueryPlan}

section

variable {ns : TupleProvider} {key : KeyGenerator} {layout : List TupleProvider} {tuple result : Tuple}

theorem lookupRecord_laid (laid : List.Forall₂ store.Gives layout tuple)
    (looked : lookupRecord ctx store ns key tuple = .ok (some result)) :
    List.Forall₂ store.Gives (layout ++ [ns]) result := by
  obtain ⟨boundKey, -, same⟩ := lookupRecord_ok looked
  obtain ⟨record, read, rfl⟩ := Option.map_eq_some_iff.mp same.symm
  exact List.rel_append laid (.cons (.inl ⟨boundKey, read⟩) .nil)

theorem joined_laid {ascending : Bool} {list : List Tuple} (laid : List.Forall₂ store.Gives layout tuple)
    (joins : joined ctx store ns key ascending tuple = .ok list) :
    ∀ result ∈ list, List.Forall₂ store.Gives (layout ++ [ns]) result := by
  intro result member
  obtain ⟨boundKeyPrefix, -, rfl⟩ := joined_ok joins
  obtain ⟨record, there, rfl⟩ := List.mem_map.mp member
  exact List.rel_append laid (.cons (Store.gives_of_inOrder there) .nil)

theorem keepSelected_same {predicate : Predicate} (selected : keepSelected ctx predicate tuple = .ok (some result)) :
    result = tuple := by
  obtain ⟨holds, -, same⟩ := keepSelected_ok selected
  cases holds <;> cases same
  rfl

end

/-- The tuples of a plan have the records of its layout, in this order. -/
theorem course_layout (plain : plan.Plain) {given : Course QueryFailure Tuple}
    (ran : course ctx store plan = .ok given) :
    given.Each fun tuple => List.Forall₂ store.Gives plan.layout tuple := by
  induction plan generalizing given with
  | indexLookup ns key =>
      obtain ⟨boundKey, -, same⟩ := built_bind ran
      cases same
      refine Course.each_ofList fun tuple member => ?_
      obtain ⟨record, there, rfl⟩ := List.mem_map.mp member
      exact .cons (.inl ⟨boundKey, Option.mem_toList.mp there⟩) .nil
  | indexScan ns keyPrefix limit ascending =>
      obtain ⟨boundKeyPrefix, -, same⟩ := built_bind ran
      cases same
      refine Course.each_ofList fun tuple member => ?_
      obtain ⟨record, there, rfl⟩ := List.mem_map.mp member
      exact .cons (Store.gives_of_inOrder there) .nil
  | indexLookupJoin ns key child ih =>
      obtain ⟨below, childRan, sifted⟩ := built_bind ran
      exact (ih plain childRan).sift lookupRecord_laid sifted
  | indexMergeJoin ns keyPrefix sortFields limit ascending child ih =>
      obtain ⟨below, childRan, gathered⟩ := built_bind ran
      obtain ⟨lists, fetched, gathered⟩ := built_bind gathered
      obtain ⟨boundLimit, -, merged⟩ := built_bind gathered
      exact mergePages_each ((ih plain childRan).gather joined_laid fetched) merged
  | localSelection predicate child ih =>
      obtain ⟨below, childRan, sifted⟩ := built_bind ran
      exact (ih plain childRan).sift (fun laid selected => keepSelected_same selected ▸ laid) sifted
  | localStopAfter count child ih =>
      obtain ⟨below, childRan, stopped⟩ := built_bind ran
      obtain ⟨limit, -, same⟩ := built_bind stopped
      cases same
      exact (ih plain childRan).stop _
  | indexScanJoin | localSort | localIterator | union => cases plain

/-- What the simple executor yields. -/
theorem simple_layout {tuples : List Tuple} (plain : plan.Plain) (advance : ScansAdvance ctx plan)
    (yields : Settles (execute (SimpleExecutor.apply ctx store plan)) (.ok tuples)) :
    ∀ tuple ∈ tuples, List.Forall₂ store.Gives plan.layout tuple := by
  obtain ⟨iterator, applied, outcome⟩ := built_bind (yields.unique (SimpleExecutor.execute_settles advance)).symm
  obtain ⟨given, ran, ends⟩ := built_bind outcome
  exact (course_layout plain ran).outcome ends

end

namespace Binder

variable {plan on bound : QueryPlan} {schema : List TupleProvider}

/-- Binding keeps the operators and their namespaces. -/
theorem layout_bindPlan (plain : plan.Plain) (binds : bindPlan schema plan = .ok bound) :
    bound.layout = plan.layout ∧ bound.Plain := by
  induction plan generalizing bound with
  | indexLookup ns key =>
      obtain ⟨values, -, same⟩ := built_bind binds
      cases same
      exact ⟨rfl, trivial⟩
  | indexScan ns keyPrefix limit ascending =>
      obtain ⟨values, -, same⟩ := built_bind binds
      cases same
      exact ⟨rfl, trivial⟩
  | indexLookupJoin ns key child ih =>
      obtain ⟨values, -, binds⟩ := built_bind binds
      obtain ⟨boundChild, childBinds, same⟩ := built_bind binds
      cases same
      obtain ⟨laid, kept⟩ := ih plain childBinds
      exact ⟨by rw [QueryPlan.layout, QueryPlan.layout, laid], kept⟩
  | indexMergeJoin ns keyPrefix sortFields limit ascending child ih =>
      obtain ⟨values, -, binds⟩ := built_bind binds
      obtain ⟨fields, -, binds⟩ := built_bind binds
      obtain ⟨boundChild, childBinds, same⟩ := built_bind binds
      cases same
      obtain ⟨laid, kept⟩ := ih plain childBinds
      exact ⟨by rw [QueryPlan.layout, QueryPlan.layout, laid], kept⟩
  | localSelection predicate child ih =>
      obtain ⟨boundPredicate, -, binds⟩ := built_bind binds
      obtain ⟨boundChild, childBinds, same⟩ := built_bind binds
      cases same
      have kept := ih plain childBinds
      exact kept
  | localStopAfter count child ih =>
      obtain ⟨boundChild, childBinds, same⟩ := built_bind binds
      cases same
      have kept := ih plain childBinds
      exact kept
  | indexScanJoin | localSort | localIterator | union => cases plain

/-- The values of a plan and the plans that they are evaluated on are bound one by one. -/
def BoundSite (schema : List TupleProvider) (site boundSite : Value × QueryPlan) : Prop :=
  bindValue schema site.1 = .ok boundSite.1 ∧ bindPlan schema site.2 = .ok boundSite.2

theorem boundSites_map {values boundValues : List Value} (binds : values.mapM (bindValue schema) = .ok boundValues)
    (onBinds : bindPlan schema on = .ok bound) :
    List.Forall₂ (BoundSite schema) (values.map (·, on)) (boundValues.map (·, bound)) := by
  rw [List.forall₂_map_left_iff, List.forall₂_map_right_iff]
  exact (mapM_forall₂.mp binds).imp fun _ _ here => ⟨here, onBinds⟩

theorem boundSites_predicate {predicate boundPredicate : Predicate}
    (binds : bindPredicate schema predicate = .ok boundPredicate) (onBinds : bindPlan schema on = .ok bound) :
    List.Forall₂ (BoundSite schema) (predicate.values.map (·, on)) (boundPredicate.values.map (·, bound)) := by
  cases predicate with
  | equality l r =>
      obtain ⟨left, leftBinds, binds⟩ := built_bind binds
      obtain ⟨right, rightBinds, same⟩ := built_bind binds
      cases same
      exact .cons ⟨leftBinds, onBinds⟩ (.cons ⟨rightBinds, onBinds⟩ .nil)
  | like | within => cases binds

theorem sites_bindPlan (plain : plan.Plain) (binds : bindPlan schema plan = .ok bound) :
    List.Forall₂ (BoundSite schema) plan.sites bound.sites := by
  have whole := binds
  induction plan generalizing bound with
  | indexLookup ns key =>
      obtain ⟨values, -, same⟩ := built_bind binds
      cases same
      exact .nil
  | indexScan ns keyPrefix limit ascending =>
      obtain ⟨values, -, same⟩ := built_bind binds
      cases same
      exact .nil
  | indexLookupJoin ns key child ih =>
      obtain ⟨values, keyBinds, binds⟩ := built_bind binds
      obtain ⟨boundChild, childBinds, same⟩ := built_bind binds
      cases same
      exact List.rel_append (boundSites_map keyBinds childBinds) (ih plain childBinds childBinds)
  | indexMergeJoin ns keyPrefix sortFields limit ascending child ih =>
      obtain ⟨values, keyBinds, binds⟩ := built_bind binds
      obtain ⟨fields, fieldBinds, binds⟩ := built_bind binds
      obtain ⟨boundChild, childBinds, same⟩ := built_bind binds
      cases same
      exact List.rel_append (boundSites_map keyBinds childBinds)
        (List.rel_append (boundSites_map fieldBinds whole) (ih plain childBinds childBinds))
  | localSelection predicate child ih =>
      obtain ⟨boundPredicate, predicateBinds, binds⟩ := built_bind binds
      obtain ⟨boundChild, childBinds, same⟩ := built_bind binds
      cases same
      exact List.rel_append (boundSites_predicate predicateBinds childBinds) (ih plain childBinds childBinds)
  | localStopAfter count child ih =>
      obtain ⟨boundChild, childBinds, same⟩ := built_bind binds
      cases same
      have kept := ih plain childBinds childBinds
      exact kept
  | indexScanJoin | localSort | localIterator | union => cases plain

/-- A value is bound to the place of its record in the tuples of the plan that it is evaluated on. -/
def Placed (plan on : QueryPlan) (r : TupleProvider) (f : Field) : Prop :=
  ∃ i, bindValue (tupleSchema plan) (.qualifiedAttribute r f) = .ok (.attribute i (r.pos f)) ∧
    on.layout[i]? = some r

theorem bindValue_eq_ok {r : TupleProvider} {f : Field} {i : Nat}
    (binds : bindValue schema (.qualifiedAttribute r f) = .ok (.attribute i (r.pos f))) :
    r ∈ schema ∧ i = schema.idxOf r := by
  rw [bindValue] at binds
  split at binds
  · rename_i member
    cases binds
    exact ⟨member, rfl⟩
  · cases binds

theorem placed_of_scan {r : TupleProvider} {f : Field} (plain : plan.Plain)
    (scans : plan.startsWithLookup = false) (within : on.layout <+: plan.layout) (read : r ∈ on.layout) :
    Placed plan on r f := by
  obtain ⟨rest, same⟩ := within
  have laid := QueryPlan.layout_of_scan plain scans
  rw [laid] at same
  refine ⟨on.layout.idxOf r, ?_, List.getElem?_idxOf read⟩
  rw [bindValue, ← same, if_pos (List.mem_append_left _ read), List.idxOf_append_of_mem read]

/-- The namespace of the lookup is not found, and the others are found one place too early. -/
theorem not_placed_of_lookup {r : TupleProvider} {f : Field} (plain : plan.Plain)
    (looks : plan.startsWithLookup = true) (distinct : plan.layout.Nodup) (within : on.layout <+: plan.layout) :
    ¬ Placed plan on r f := by
  intro found
  obtain ⟨i, binds, there⟩ := found
  obtain ⟨first, laid⟩ := QueryPlan.layout_of_lookup plain looks
  obtain ⟨member, rfl⟩ := bindValue_eq_ok binds
  obtain ⟨rest, same⟩ := within
  have early : plan.layout[(tupleSchema plan).idxOf r]? = some r := by
    rw [← same, List.getElem?_append_left (List.getElem?_eq_some_iff.mp there).1, there]
  have late : plan.layout[(tupleSchema plan).idxOf r + 1]? = some r := by
    rw [laid, List.getElem?_cons_succ]
    exact List.getElem?_idxOf member
  have equal := (List.getElem?_inj (List.getElem?_eq_some_iff.mp early).1 distinct).mp (early.trans late.symm)
  omega

/-- Every attribute of a record that its tuple has is bound to the place of that record exactly if the plan
starts with a scan or has no such attribute.  The layout is the one that the simple executor gives. -/
theorem binder_places_iff (plain : plan.Plain) (distinct : plan.layout.Nodup) :
    ((∀ r f on, (.qualifiedAttribute r f, on) ∈ plan.sites → r ∈ on.layout → Placed plan on r f) ↔
      (plan.startsWithLookup = false ∨
        ∀ r f on, (.qualifiedAttribute r f, on) ∈ plan.sites → r ∉ on.layout)) ∧
    (∀ bound, boundPlan plan = .ok bound →
      List.Forall₂ (BoundSite (tupleSchema plan)) plan.sites bound.sites) ∧
    ∀ value on, (value, on) ∈ plan.sites → ∀ bound ctx store max tuples,
      bindPlan (tupleSchema plan) on = .ok bound → LimitsWithin ctx max bound →
      Settles (execute (SimpleExecutor.apply ctx store bound)) (.ok tuples) →
      ∀ tuple ∈ tuples, List.Forall₂ store.Gives on.layout tuple := by
  refine ⟨⟨?_, ?_⟩, fun bound binds => sites_bindPlan plain binds, ?_⟩
  · intro placed
    cases looks : plan.startsWithLookup with
    | false => exact .inl rfl
    | true =>
        refine .inr fun r f on site read => ?_
        exact not_placed_of_lookup plain looks distinct (QueryPlan.layout_of_site site) (placed r f on site read)
  · intro found r f on site read
    obtain scans | none := found
    · exact placed_of_scan plain scans (QueryPlan.layout_of_site site) read
    · exact absurd read (none r f on site)
  · intro value on site bound ctx store max tuples binds limits yields
    obtain ⟨laid, kept⟩ := layout_bindPlan (QueryPlan.plain_of_site plain site) binds
    rw [← laid]
    exact simple_layout kept limits.advance yields

def users : TupleProvider where
  ns := "users"
  aliasName := none
  schema :=
    { keyFields := [⟨"username", "\"string\""⟩]
      valueFields := [⟨"homeTown", "\"string\""⟩]
      distinct := by decide }
  isRelation := true

/-- The thoughts of one user that have a given text, joined to some users. -/
def joinThoughts (start : QueryPlan) : QueryPlan :=
  .indexMergeJoin thoughts [.parameter 1] [] (.fixed 10) true start

def selectText (start : QueryPlan) : QueryPlan :=
  .localSelection (.equality (.qualifiedAttribute thoughts ⟨"text", "\"string\""⟩) (.parameter 0))
    (joinThoughts start)

def scanUsers : QueryPlan := .indexScan users [] (.fixed 10) true

def lookupUser : QueryPlan := .indexLookup users [.parameter 2]

theorem places_over_scan :
    (selectText scanUsers).Plain ∧ (selectText scanUsers).layout.Nodup ∧
      Placed (selectText scanUsers) (joinThoughts scanUsers) thoughts ⟨"text", "\"string\""⟩ := by
  refine ⟨trivial, by decide, ?_⟩
  exact (@binder_places_iff (selectText scanUsers) trivial (by decide)).1.mpr (.inl rfl) _ _ _ (by decide)
    (by decide)

/-- With a lookup at the start, the text of a thought is looked for in the record of the user. -/
theorem lookup_shifts_places :
    ∃ (plan : QueryPlan) (r : TupleProvider) (f : Field) (on : QueryPlan),
      plan.Plain ∧ plan.layout.Nodup ∧ (.qualifiedAttribute r f, on) ∈ plan.sites ∧ r ∈ on.layout ∧
        ¬ Placed plan on r f := by
  have site : (Value.qualifiedAttribute thoughts ⟨"text", "\"string\""⟩, joinThoughts lookupUser) ∈
      (selectText lookupUser).sites := by decide
  exact ⟨selectText lookupUser, thoughts, ⟨"text", "\"string\""⟩, joinThoughts lookupUser, trivial, by decide, site,
    by decide, not_placed_of_lookup trivial rfl (by decide) (QueryPlan.layout_of_site site)⟩

end Binder

end Scads.Piql
