import Scads.Piql.ExecutableQueries
import Scads.Piql.MergeJoins
import Scads.Piql.SwappedRows

namespace Scads.Piql

open Scads.Client Scads.Data

/-! # Sorted queries

The optimizer sorts nothing: it looks for an index that has the order.
-/

namespace Optimizer

variable {plan child : LogicalPlan} {attrs : List Value} {ascending : Bool} {range : IndexRange}

/-- A plan that is answered by a range has the ordering of its sort. -/
theorem ordering_of_sort (sorts : (stripStop plan).2 = .sort attrs ascending child)
    (matched : unapply plan = .ok (some range)) :
    ∃ ordering, range.ordering = some ordering ∧ attrs = orderingValues ordering ∧ ordering.ascending = ascending := by
  obtain ⟨ordering, plain, base, stripped, rfl, isBase, -, isOrdering, -⟩ := unapply_ok matched
  rw [sorts] at stripped
  cases attrs with
  | nil => cases stripped
  | cons attr attrs =>
      rw [stripSort] at stripped
      · split at stripped
        · rename_i attributes named
          cases stripped
          refine ⟨_, isOrdering, ?_, rfl⟩
          have each := forall₂_of_mapM_some named
          have same : List.Forall₂ (· = ·) (attr :: attrs)
              (attributes.map fun attr => .qualifiedAttribute attr.1 attr.2) := by
            refine List.forall₂_map_right_iff.mpr (each.imp fun value pair here => ?_)
            cases value <;> cases here
            rfl
          exact List.forall₂_eq_eq_eq ▸ same
        · cases stripped
          cases isBase
      · intro same
        cases same

theorem isRelation_of_base {base : LogicalPlan} {joined : Option LogicalPlan} {r : TupleProvider}
    (isBase : baseRelation base = some (joined, r)) : r.isRelation = true := by
  unfold baseRelation at isBase
  split at isBase
  · split at isBase <;> cases isBase
    assumption
  · split at isBase <;> cases isBase
    assumption
  · cases isBase

/-- The sort fields of an index that is made for a range and its ordering are the next ones of its key. -/
theorem index_follow {idx : TupleProvider} {ordering : Ordering}
    (indexed : index range.relation (fieldNames range ++ orderingNames ordering) = .ok idx) :
    ∃ entryFields, List.Forall₂ (Indexes idx) entryFields (ordering.attributes.map Prod.snd) ∧
      Follow idx range.equalityPreds.length entryFields := by
  obtain ⟨-, first, rest, named, schema⟩ := index_ok indexed
  have counted : first.length = range.equalityPreds.length + ordering.attributes.length := by
    have lengths := congrArg List.length named
    simpa [fieldNames, orderingNames] using lengths
  have early : range.equalityPreds.length ≤ first.length := by omega
  have taken : idx.keySchema.take range.equalityPreds.length = first.take range.equalityPreds.length := by
    rw [schema, List.take_append_of_le_length early]
  have dropped : idx.keySchema.drop range.equalityPreds.length = first.drop range.equalityPreds.length ++ rest := by
    rw [schema, List.drop_append_of_le_length early]
  have distinct : first.Nodup := by
    have all : (idx.keySchema.map Field.name).Nodup :=
      (List.nodup_append.mp (List.map_append ▸ idx.schema.distinct)).1
    exact (List.nodup_append.mp (schema ▸ all.of_map)).1
  have apart := List.nodup_append.mp ((List.take_append_drop range.equalityPreds.length first).symm ▸ distinct)
  refine ⟨first.drop range.equalityPreds.length, (List.forall₂_and_left _ _).mpr ⟨fun field member => ?_, ?_⟩, ?_⟩
  · rw [schema]
    exact List.mem_append_left _ (List.mem_of_mem_drop member)
  · have names : (first.drop range.equalityPreds.length).map Field.name =
        (ordering.attributes.map Prod.snd).map Field.name := by
      rw [List.map_drop, named, List.drop_left' (by rw [fieldNames, List.length_map]), orderingNames, List.map_map]
      rfl
    rw [← List.forall₂_eq_eq_eq] at names
    exact List.forall₂_map_right_iff.mp (List.forall₂_map_left_iff.mp names)
  · rw [Follow, taken, dropped, deciding_eq_self apart.2.1 fun key member known => apart.2.2 key known key member rfl]
    exact List.prefix_append ..

/-- The query stops at one tuple. -/
def StopsAtOne (ctx : Context) (range : IndexRange) : Prop :=
  ∃ limit, range.limit = some limit ∧ limit.isDataStop = false ∧ LimitAtMost ctx 1 limit.count

/-- What a sorted query needs where it reads a range: sort attributes of the relation, values for the equalities, and
an index that has the order. -/
structure ReadsInOrder (ctx : Context) (store : Store) (range : IndexRange) (ordering : Ordering) (bound : QueryPlan) :
    Prop where
  own : range.child = none → ∀ attr ∈ ordering.attributes, attr.1 = range.relation
  present : bound.ReadsPresent ctx store
  follow : ∀ key current, bound.Reads ctx store key current →
    isPrefix (attributes range ++ orderingValues ordering) range.relation = .ok true →
      Follow range.relation range.equalityPreds.length (ordering.attributes.map Prod.snd)

/-- What it needs besides where it compares two tuples: sort attributes that are bound to their places, and of which
the comparison is the order of the store. -/
structure KeepsOrder (ctx : Context) (store : Store) (before : Datum → Datum → Prop) (plan : LogicalPlan)
    (range : IndexRange) (ordering : Ordering) (layout : List TupleProvider) (bound : QueryPlan) : Prop
    extends ReadsInOrder ctx store range ordering bound where
  alike : ∀ rounds left right, bound.Compares ctx store rounds left right →
    (operations false plan).any Operation.starts = false ∧
      ComparesAlike before layout left right (orderingValues ordering)

section

variable {ctx : Context} {store : Store} {before : Datum → Datum → Prop} {ordering : Ordering}
  {result bound : QueryPlan} {asked le : Tuple → Tuple → Prop}

theorem layout_stopped (limit : TupleLimit) (result : QueryPlan) : (stopped limit result).layout = result.layout := by
  rw [stopped]
  split <;> rfl

theorem boundPlan_stopped {limit : TupleLimit} (binds : Binder.boundPlan (stopped limit result) = .ok bound) :
    ∃ inner, Binder.boundPlan result = .ok inner ∧ (bound = inner ∨ bound = .localStopAfter limit.count inner) := by
  rw [stopped] at binds
  split at binds
  · exact ⟨bound, binds, .inl rfl⟩
  · obtain ⟨inner, resultBinds, same⟩ := built_bind binds
    cases same
    exact ⟨inner, resultBinds, .inr rfl⟩

/-- A stop reads what the plan below it reads, and keeps the order. -/
theorem runsOrdered_stopped {limit : TupleLimit} (reads : ReadsInOrder ctx store range ordering bound)
    (ordered : ∀ inner, Binder.boundPlan result = .ok inner → ReadsInOrder ctx store range ordering inner →
      RunsOrdered ctx store asked le inner)
    (binds : Binder.boundPlan (stopped limit result) = .ok bound) : RunsOrdered ctx store asked le bound := by
  obtain ⟨inner, resultBinds, rfl | rfl⟩ := boundPlan_stopped binds
  · exact ordered _ resultBinds reads
  · exact localStopAfter_inSortOrder (ordered inner resultBinds ⟨reads.own, reads.present, reads.follow⟩)

theorem orderingValues_eq {r : TupleProvider} (own : ∀ attr ∈ ordering.attributes, attr.1 = r) :
    orderingValues ordering = (ordering.attributes.map Prod.snd).map (.qualifiedAttribute r) := by
  rw [orderingValues, List.map_map]
  refine List.map_congr_left fun attr member => ?_
  rw [own attr member]
  rfl

/-- The key has a value for each equality, as far as there are fields. -/
theorem follow_keyed {ns : TupleProvider} {key : KeyGenerator} {fields : List Field}
    (keyed : makeKeyGenerator ns range.equalityPreds = .ok key) :
    Follow ns key.length fields ↔ Follow ns range.equalityPreds.length fields := by
  have length := (makeKeyGenerator_ok keyed).length_eq
  rw [List.length_take] at length
  rw [Follow, ← length, ← List.take_eq_take_min, ← List.drop_eq_drop_min, Follow]

theorem orderedScan_runs {limit : TupleLimit} (inKeyOrder : store.InKeyOrder before) (exact : store.IndexesExact)
    (isRelation : range.relation.isRelation = true) (alone : range.child = none)
    (reads : ReadsInOrder ctx store range ordering bound)
    (scanned : scanPlan range limit.count (attributes range ++ orderingValues ordering)
      (fieldNames range ++ orderingNames ordering) ordering.ascending = .ok result)
    (binds : Binder.boundPlan result = .ok bound) :
    RunsOrdered ctx store asked (InSortOrder before ordering.ascending result.layout (orderingValues ordering))
      bound := by
  rw [orderingValues_eq (reads.own alone)]
  cases scanPlan_ok scanned with
  | @primary key contained keyed =>
      obtain ⟨boundKey, keyBinds, same⟩ := built_bind binds
      cases same
      have length := (mapM_forall₂.mp keyBinds).length_eq
      refine indexScan_inSortOrder inKeyOrder reads.present fun read current isRead => ?_
      rw [← length]
      exact (follow_keyed keyed).mpr (reads.follow read current isRead contained)
  | @secondary idx key reference _ indexed keyed refers =>
      obtain ⟨boundReference, referenceBinds, binds⟩ := built_bind binds
      obtain ⟨boundChild, childBinds, same⟩ := built_bind binds
      cases same
      obtain ⟨boundKey, keyBinds, same⟩ := built_bind childBinds
      cases same
      have length := (mapM_forall₂.mp keyBinds).length_eq
      have other : idx ≠ range.relation := by
        intro same
        subst same
        have notRelation := (index_ok indexed).1
        rw [isRelation] at notRelation
        cases notRelation
      obtain ⟨entryFields, indexes, follow⟩ := index_follow indexed
      refine lookup_inSortOrder inKeyOrder exact indexed other refers (mapM_forall₂.mp referenceBinds) indexes
        reads.present ?_
      rw [← length]
      exact (follow_keyed keyed).mpr follow

theorem startsWithLookup_stopped (limit : TupleLimit) (result : QueryPlan) :
    (stopped limit result).startsWithLookup = result.startsWithLookup := by
  rw [stopped]
  split <;> rfl

/-- The sort attributes of a range over the primary index are fields of its key. -/
theorem keyField_of_isPrefix
    (contained : isPrefix (attributes range ++ orderingValues ordering) range.relation = .ok true) :
    ∀ attr ∈ ordering.attributes, attr.1 = range.relation ∧ attr.2 ∈ range.relation.keySchema := by
  intro attr member
  have inKey := List.mem_of_mem_take (mem_keyAttributes contained
    (List.mem_append_right _ (List.mem_map.mpr ⟨attr, member, rfl⟩)))
  obtain ⟨field, there, same⟩ := List.mem_map.mp inKey
  obtain ⟨sameRelation, rfl⟩ := Value.qualifiedAttribute.inj same
  exact ⟨sameRelation.symm, there⟩

/-- The sort attributes are bound to the joined record, unless the plan starts with a lookup. -/
theorem orderedJoin_runs {limit : Limit} {optChild : QueryPlan} {ops : List Operation}
    (inKeyOrder : store.InKeyOrder before) (reads : ReadsInOrder ctx store range ordering bound)
    (starts : result.startsWithLookup = true → ops.any Operation.starts = true)
    (merged : orderedJoinPlan range limit ordering optChild = .ok result)
    (binds : Binder.boundPlan result = .ok bound) :
    RunsOrdered ctx store (fun left right => ops.any Operation.starts = false ∧
        ComparesAlike before result.layout left right (orderingValues ordering))
      (InSortOrder before ordering.ascending result.layout (orderingValues ordering)) bound := by
  intro iterator applied
  cases orderedJoinPlan_ok merged with
  | @primary key contained keyed =>
      have own := fun attr member => (keyField_of_isPrefix contained attr member).1
      obtain ⟨boundKey, keyBinds, binds⟩ := built_bind binds
      obtain ⟨boundFields, fieldBinds, binds⟩ := built_bind binds
      obtain ⟨boundChild, childBinds, same⟩ := built_bind binds
      cases same
      obtain ⟨childIterator, childApplied, -⟩ := built_bind applied
      have childPlain : optChild.Plain := by
        refine @plain_of_accepted ctx store _ _ _ childBinds fun refused => ?_
        rw [refused] at childApplied
        cases childApplied
      obtain ⟨laid, plain⟩ := Binder.layout_bindPlan childPlain childBinds
      have length := (mapM_forall₂.mp keyBinds).length_eq
      rw [orderingValues_eq own, QueryPlan.layout, ← laid]
      refine indexMergeJoin_inSortOrder inKeyOrder plain reads.present (fun read current isRead => ?_)
        (fun left right asked => ?_) _ applied
      · rw [← length]
        exact (follow_keyed keyed).mpr (reads.follow read current isRead contained)
      · obtain ⟨unstarted, alike⟩ := asked
        have scans : (QueryPlan.indexMergeJoin range.relation key (orderingValues ordering) limit ordering.ascending
            optChild).startsWithLookup = false := by
          by_contra looks
          rw [starts (by simpa using looks)] at unstarted
          cases unstarted
        have schema := @QueryPlan.layout_of_scan (.indexMergeJoin _ _ _ _ _ optChild) childPlain scans
        rw [QueryPlan.layout, ← laid] at schema
        rw [← schema, orderingValues_eq own] at fieldBinds
        refine goesBefore_answers (mapM_forall₂.mp fieldBinds) (fun attr member => ?_) alike
        obtain ⟨field, -, rfl⟩ := List.mem_map.mp member
        exact ⟨range.relation, field, rfl⟩
  | secondary _ indexed keyed refers =>
      -- The executor has no case for the join with a secondary index.
      obtain ⟨boundReference, -, binds⟩ := built_bind binds
      obtain ⟨boundChild, childBinds, same⟩ := built_bind binds
      cases same
      obtain ⟨boundKey, -, same⟩ := built_bind childBinds
      cases same
      obtain ⟨childIterator, childApplied, -⟩ := built_map applied
      cases childApplied

/-- One tuple is in order. -/
theorem localStopAfter_alone {limit : Limit} (plain : bound.Plain) (one : LimitAtMost ctx 1 limit) :
    RunsOrdered ctx store asked le (.localStopAfter limit bound) := by
  intro iterator applied
  obtain ⟨childIterator, childApplied, applied⟩ := built_bind applied
  obtain ⟨boundLimit, isLimit, rfl⟩ := built_map applied
  have low := one boundLimit isLimit
  refine SimpleExecutor.localStopAfter_comes (bindLimit_lt ctx isLimit) (SimpleExecutor.apply_comes plain childApplied)
    fun course _ rounds _ => ?_
  have few := (Course.atMost_stop course boundLimit.toNat).mono (show boundLimit.toNat ≤ 1 by omega)
  exact (few.stop rounds).ordered

/-- What the executor yields of a query that stops at one tuple. -/
theorem stopsAtOne_ordered {tuples : List Tuple} (stops : StopsAtOne ctx range)
    (binds : Binder.boundPlan (stopped (range.limit.getD ⟨.fixed defaultFetchSize, true⟩) result) = .ok bound)
    (yields : Settles (execute (SimpleExecutor.apply ctx store bound)) (.ok tuples)) : tuples.Pairwise le := by
  obtain ⟨limit, bounded, isStop, one⟩ := stops
  have whole : stopped (range.limit.getD ⟨.fixed defaultFetchSize, true⟩) result =
      .localStopAfter limit.count result := by
    rw [bounded]
    exact if_neg (by simp [isStop])
  rw [whole] at binds
  have plain : result.Plain := by
    refine @plain_of_accepted ctx store _ (.localStopAfter limit.count result) _ binds fun refused => ?_
    rw [refused] at yields
    cases (Settles.const _).unique yields
  obtain ⟨inner, resultBinds, same⟩ := built_bind binds
  cases same
  have runs := @localStopAfter_alone ctx store inner (fun _ _ => True) le limit.count
    (Binder.layout_bindPlan plain resultBinds).2 one
  exact yields_ordered runs (fun _ _ _ _ => trivial) yields

end

variable {ctx : Context} {store : Store} {before : Datum → Datum → Prop} {physical bound : QueryPlan}
  {tuples : List Tuple}

theorem order_carried (inKeyOrder : store.InKeyOrder before) (exact : store.IndexesExact)
    (sorts : (stripStop plan).2 = .sort attrs ascending child)
    (keeps : ∀ range ordering, unapply plan = .ok (some range) → range.ordering = some ordering →
      StopsAtOne ctx range ∨ KeepsOrder ctx store before plan range ordering physical.layout bound)
    (optimized : apply plan = .ok physical) (binds : Binder.boundPlan physical = .ok bound)
    (yields : Settles (execute (SimpleExecutor.apply ctx store bound)) (.ok tuples)) :
    tuples.Pairwise (InSortOrder before ascending physical.layout attrs) := by
  have optimizes := optimizes_of_apply optimized
  have realizes := realizes_of_optimizes optimizes
  cases optimizes with
  | selection => cases sorts
  | lookup matched _ unordered | scan matched _ unordered | lookupJoin matched _ unordered
  | mergeJoin matched _ unordered =>
      obtain ⟨ordering, ordered, -⟩ := ordering_of_sort sorts matched
      rw [unordered] at ordered
      cases ordered
  | @orderedScan _ range limit ordering result matched alone ordered hint scanned =>
      obtain ⟨_, isOrdering, rfl, rfl⟩ := ordering_of_sort sorts matched
      cases ordered.symm.trans isOrdering
      obtain stops | keepsHere := keeps range ordering matched ordered
      · exact stopsAtOne_ordered stops (hint ▸ binds) yields
      · obtain ⟨_, _, _, _, _, isBase, -⟩ := unapply_ok matched
        rw [layout_stopped] at keepsHere ⊢
        refine yields_ordered (runsOrdered_stopped keepsHere.toReadsInOrder (fun inner inside reads => ?_) binds)
          keepsHere.alike yields
        exact orderedScan_runs inKeyOrder exact (isRelation_of_base isBase) alone reads scanned inside
  | @orderedJoin _ joined range limit ordering optChild result matched joins ordered bounded _ merged =>
      obtain ⟨_, isOrdering, rfl, rfl⟩ := ordering_of_sort sorts matched
      cases ordered.symm.trans isOrdering
      obtain stops | keepsHere := keeps range ordering matched ordered
      · exact stopsAtOne_ordered stops (by rw [bounded]; exact binds) yields
      · have starts := realizes.lookup
        rw [startsWithLookup_stopped] at starts
        rw [layout_stopped] at keepsHere ⊢
        refine yields_ordered (runsOrdered_stopped keepsHere.toReadsInOrder (fun inner inside reads => ?_) binds)
          keepsHere.alike yields
        exact orderedJoin_runs inKeyOrder reads starts merged inside

/-- The equalities have values, which the key fields can have. -/
def Given (ctx : Context) (range : IndexRange) : Prop :=
  ∀ equality ∈ range.equalityPreds, ∀ field ∈ range.relation.keySchema, equality.field.name = field.name →
    ∃ datum, bindValue ctx equality.value none = .ok datum ∧ datum ≠ .null ∧ Conforms field datum.stored

theorem bindValue_of_given {schema : List TupleProvider} {value : Value} {datum : Datum}
    (given : bindValue ctx value none = .ok datum) : Binder.bindValue schema value = .ok value := by
  cases value with
  | qualifiedAttribute r f => cases given
  | _ => rfl

theorem Given.evaluated (given : Given ctx range) {schema : List TupleProvider} {fields : List Field}
    {key : KeyGenerator} (within : fields ⊆ range.relation.keySchema)
    (keyed : List.Forall₂ (KeyValue range.equalityPreds) fields key) :
    key.mapM (Binder.bindValue schema) = .ok key ∧
      ∃ values, key.mapM (fun value => bindValue ctx value none) = .ok values ∧ .null ∉ values ∧
        List.Forall₂ Conforms fields (values.map Datum.stored) := by
  induction keyed with
  | nil => exact ⟨rfl, [], rfl, List.not_mem_nil, .nil⟩
  | @cons field value fields key here rest ih =>
      obtain ⟨equality, found, rfl⟩ := here
      have named : equality.field.name = field.name := by simpa using List.find?_some found
      obtain ⟨datum, evaluates, present, conforms⟩ :=
        given equality (List.mem_of_find?_eq_some found) field (within List.mem_cons_self) named
      obtain ⟨bound, values, others, nonnull, conform⟩ := ih (List.Subset.trans (List.subset_cons_self ..) within)
      refine ⟨?_, datum :: values, ?_, ?_, .cons conforms conform⟩
      · rw [List.mapM_cons, bindValue_of_given evaluates, bound]
        rfl
      · rw [List.mapM_cons, evaluates, others]
        rfl
      · exact fun member => (List.mem_cons.mp member).elim (fun same => present same.symm) nonnull

theorem order_lost {ordering : Ordering} {count : Int} (sorts : (stripStop plan).2 = .sort attrs ascending child)
    (matched : unapply plan = .ok (some range)) (ordered : range.ordering = some ordering) (alone : range.child = none)
    (contained : isPrefix (attributes range ++ orderingValues ordering) range.relation = .ok true)
    (given : Given ctx range) (isLimit : bindLimit ctx (pageLimit range) = .ok count) (positive : 1 ≤ count)
    (several : ∀ limit, range.limit = some limit → limit.isDataStop = false → 2 ≤ count)
    (unlike : ¬ Follow range.relation range.equalityPreds.length (ordering.attributes.map Prod.snd))
    (optimized : apply plan = .ok physical) (binds : Binder.boundPlan physical = .ok bound) :
    ∃ store tuples, store.InKeyOrder Datum.Below ∧ store.Typed ∧ store.IndexesExact ∧
      Settles (execute (SimpleExecutor.apply ctx store bound)) (.ok tuples) ∧
      ¬ tuples.Pairwise (InSortOrder Datum.Below ascending physical.layout attrs) := by
  have keyFields := keyField_of_isPrefix contained
  cases optimizes_of_apply optimized with
  | selection => cases sorts
  | lookup other _ unordered | scan other _ unordered | lookupJoin other _ unordered | mergeJoin other _ unordered =>
      cases matched.symm.trans other
      rw [unordered] at ordered
      cases ordered
  | orderedJoin other joins =>
      cases matched.symm.trans other
      rw [alone] at joins
      cases joins
  | @orderedScan _ _ limit _ result other _ also hint scanned =>
      cases matched.symm.trans other
      cases ordered.symm.trans also
      obtain ⟨_, isOrdering, rfl, rfl⟩ := ordering_of_sort sorts matched
      cases ordered.symm.trans isOrdering
      cases scanPlan_ok scanned with
      | secondary unlisted =>
          rw [contained] at unlisted
          cases unlisted
      | @primary key _ keyed =>
          have counted : limit.count = pageLimit range := by rw [hint, pageLimit]
          have generated := makeKeyGenerator_ok keyed
          obtain ⟨bindsKey, values, evaluated, present, conform⟩ :=
            @Given.evaluated _ _ given [range.relation] _ _ (List.take_subset ..) generated
          have length : values.length = key.length := (mapM_forall₂.mp evaluated).length_eq.symm
          have same : range.relation.keySchema.take values.length =
              range.relation.keySchema.take range.equalityPreds.length := by
            rw [length, ← generated.length_eq, List.length_take, ← List.take_eq_take_min]
          have short : values.length ≤ range.relation.keySchema.length := by
            rw [length, ← generated.length_eq]
            exact List.length_take_le' ..
          have within : ordering.attributes.map Prod.snd ⊆ range.relation.keySchema := by
            intro field member
            obtain ⟨attr, there, rfl⟩ := List.mem_map.mp member
            exact (keyFields attr there).2
          rw [← follow_keyed keyed, ← length] at unlike
          obtain ⟨store, tuples, inKeyOrder, typed, exact, scans, stops, disorder⟩ :=
            exists_disorder evaluated short present (same ▸ conform) within unlike isLimit positive ordering.ascending
          refine ⟨store, tuples, inKeyOrder, typed, exact, ?_, ?_⟩
          · rw [← counted] at scans stops
            rw [stopped] at binds
            split at binds
            · obtain ⟨boundKey, keyBinds, same⟩ := built_bind binds
              cases same
              cases bindsKey.symm.trans keyBinds
              exact scans
            · rename_i ending
              obtain ⟨boundScan, scanBinds, same⟩ := built_bind binds
              cases same
              obtain ⟨boundKey, keyBinds, same⟩ := built_bind scanBinds
              cases same
              cases bindsKey.symm.trans keyBinds
              refine stops ?_
              cases bounded : range.limit with
              | none =>
                  rw [bounded] at hint
                  subst hint
                  exact absurd rfl ending
              | some given =>
                  rw [bounded] at hint
                  subst hint
                  exact several _ bounded (by simpa using ending)
          · rw [layout_stopped, orderingValues_eq fun attr member => (keyFields attr member).1]
            exact disorder

/-- The tuples of a sorted query are in the order of its sort attributes if the query keeps the order.  A query on
one relation that reads several records in the order of the primary key keeps it on no weaker condition. -/
theorem order_kept (sorts : (stripStop plan).2 = .sort attrs ascending child) (optimized : apply plan = .ok physical)
    (binds : Binder.boundPlan physical = .ok bound) :
    (∀ store before tuples, store.InKeyOrder before → store.IndexesExact →
      (∀ range ordering, unapply plan = .ok (some range) → range.ordering = some ordering →
        StopsAtOne ctx range ∨ KeepsOrder ctx store before plan range ordering physical.layout bound) →
      Settles (execute (SimpleExecutor.apply ctx store bound)) (.ok tuples) →
      tuples.Pairwise (InSortOrder before ascending physical.layout attrs)) ∧
    ∀ range ordering count, unapply plan = .ok (some range) → range.ordering = some ordering → range.child = none →
      isPrefix (attributes range ++ orderingValues ordering) range.relation = .ok true → Given ctx range →
      bindLimit ctx (pageLimit range) = .ok count → 1 ≤ count →
      (∀ limit, range.limit = some limit → limit.isDataStop = false → 2 ≤ count) →
      ¬ Follow range.relation range.equalityPreds.length (ordering.attributes.map Prod.snd) →
      ∃ store tuples, store.InKeyOrder Datum.Below ∧ store.Typed ∧ store.IndexesExact ∧
        Settles (execute (SimpleExecutor.apply ctx store bound)) (.ok tuples) ∧
        ¬ tuples.Pairwise (InSortOrder Datum.Below ascending physical.layout attrs) :=
  ⟨fun _ _ _ inKeyOrder exact keeps yields => order_carried inKeyOrder exact sorts keeps optimized binds yields,
    fun _ _ _ matched ordered alone contained given isLimit positive several unlike =>
      order_lost sorts matched ordered alone contained given isLimit positive several unlike optimized binds⟩

open SimpleExecutor (thoughtAt)

/-- Thoughts of two users, in key order.  Those of alice are as far apart in time as can be. -/
def diaryRecords : List Record :=
  [thoughtAt "alice" Int32.minValue, thoughtAt "alice" Int32.maxValue, thoughtAt "bob" 1]

def aliceRecord : Record := [.utf8 "alice", .utf8 "berkeley"]

def diaryTables (ns : TupleProvider) : List Record :=
  if ns = Binder.users then [aliceRecord] else only thoughts diaryRecords ns

theorem diaryTables_cases {holds : TupleProvider → List Record → Prop} (users : holds Binder.users [aliceRecord])
    (here : holds thoughts diaryRecords) (elsewhere : ∀ other, holds other []) (ns : TupleProvider) :
    holds ns (diaryTables ns) := by
  rw [diaryTables]
  split
  · rename_i same
    rw [same]
    exact users
  · exact only_cases here elsewhere ns

theorem diaryTables_counted : ∀ ns, (diaryTables ns).length < 2 ^ 31 :=
  @diaryTables_cases (fun _ held => held.length < 2 ^ 31) (by decide) (by decide) fun _ => by decide

def diaries : Store := .holding diaryTables diaryTables_counted

theorem diaries_sorted : diaryRecords.Pairwise fun left right =>
    LexLe Datum.Below (thoughts.read left) (thoughts.read right) thoughts.keySchema := by
  have names : units "alice" < units "bob" := by decide
  refine .cons (List.forall_mem_cons.mpr ⟨.inr ⟨rfl, .inl ?_⟩, ?_⟩) ?_
  · exact (by decide : (Int32.minValue).toInt < (Int32.maxValue).toInt)
  · exact List.forall_mem_singleton.mpr (.inl names)
  · exact .cons (List.forall_mem_singleton.mpr (.inl names)) (List.pairwise_singleton _ _)

theorem diaries_inKeyOrder : diaries.InKeyOrder Datum.Below :=
  holding_inKeyOrder (diaryTables_cases (List.pairwise_singleton _ _) diaries_sorted fun _ => .nil)

theorem thoughtAt_conforms (owner : String) (timestamp : Int32) :
    List.Forall₂ Conforms thoughts.fields (thoughtAt owner timestamp) := by
  refine .cons ⟨?_, fun _ => ⟨owner, rfl⟩, ?_⟩ (.cons ⟨fun _ => ⟨timestamp, rfl⟩, ?_, ?_⟩
    (.cons ⟨?_, fun _ => ⟨"hello", rfl⟩, ?_⟩ .nil))
  all_goals exact fun same => absurd same (by decide)

theorem diaries_conform : ∀ record ∈ diaryRecords, List.Forall₂ Conforms thoughts.fields record :=
  List.forall_mem_cons.mpr ⟨thoughtAt_conforms _ _, List.forall_mem_cons.mpr ⟨thoughtAt_conforms _ _,
    List.forall_mem_singleton.mpr (thoughtAt_conforms _ _)⟩⟩

theorem diaries_typed : diaries.Typed := by
  refine holding_typed (@diaryTables_cases (fun ns held => ∀ record ∈ held, List.Forall₂ Conforms ns.fields record) ?_
    diaries_conform fun _ => List.forall_mem_nil _)
  refine List.forall_mem_singleton.mpr (.cons ⟨?_, fun _ => ⟨"alice", rfl⟩, ?_⟩
    (.cons ⟨?_, fun _ => ⟨"berkeley", rfl⟩, ?_⟩ .nil))
  all_goals exact fun same => absurd same (by decide)

def ownerOf : Value := .qualifiedAttribute thoughts ⟨"owner", "\"string\""⟩

def timestampOf : Value := .qualifiedAttribute thoughts ⟨"timestamp", "\"int\""⟩

/-- The first ten records of a range. -/
def tenOf (keyPrefix : KeyGenerator) (ascending : Bool) : QueryPlan :=
  .localStopAfter (.fixed 10) (.indexScan thoughts keyPrefix (.fixed 10) ascending)

theorem tenOf_limits (ctx : Context) (keyPrefix : KeyGenerator) (ascending : Bool) :
    LimitsWithin ctx 10 (tenOf keyPrefix ascending) := by
  intro limit member
  have same : limit = .fixed 10 := by simpa [tenOf, QueryPlan.limits] using member
  exact ⟨10, by rw [same]; rfl, by decide, by decide⟩

def ofAlice : Context := ⟨[.value (.utf8 "alice")]⟩

/-- The latest thoughts of a user. -/
def latestThoughts : LogicalPlan :=
  .stopAfter (.fixed 10) (.sort [timestampOf] false
    (.selection (.equality ownerOf userName) (.join oneUser (.relation thoughts))))

def latestRange : IndexRange where
  equalityPreds := [⟨⟨"owner", "\"string\""⟩, userName⟩]
  limit := some ⟨.fixed 10, false⟩
  ordering := some ⟨[(thoughts, ⟨"timestamp", "\"int\""⟩)], false⟩
  child := some oneUser
  relation := thoughts

/-- The thoughts for the user of a name, with the name and the time as these values. -/
def latestOf (name timestamp : Value) : QueryPlan :=
  .localStopAfter (.fixed 10) (.indexMergeJoin thoughts [name] [timestamp] (.fixed 10) false
    (.localStopAfter (.fixed 1) (.indexScan Binder.users [.parameter 0] (.fixed 1) true)))

def aliceLatest : List Tuple :=
  [[aliceRecord, thoughtAt "alice" Int32.maxValue], [aliceRecord, thoughtAt "alice" Int32.minValue]]

theorem oneUser_yields : Settles (execute (SimpleExecutor.apply ofAlice diaries
    (.localStopAfter (.fixed 1) (.indexScan Binder.users [.parameter 0] (.fixed 1) true)))) (.ok [[aliceRecord]]) := by
  refine SimpleExecutor.execute_settles fun limit member boundLimit isLimit => ?_
  cases List.mem_singleton.mp member
  cases isLimit
  decide

theorem latest_thoughts_first :
    Settles (execute (SimpleExecutor.apply ofAlice diaries (latestOf (.attribute 0 0) (.attribute 1 1))))
        (.ok aliceLatest) ∧
      aliceLatest.Pairwise (InSortOrder Datum.Below false [Binder.users, thoughts] [timestampOf]) := by
  have yields : Settles (execute (SimpleExecutor.apply ofAlice diaries (latestOf (.attribute 0 0) (.attribute 1 1))))
      (.ok aliceLatest) := by
    refine SimpleExecutor.execute_settles fun limit member boundLimit isLimit => ?_
    cases List.mem_singleton.mp member
    cases isLimit
    decide
  have optimized : apply latestThoughts = .ok (latestOf userName timestampOf) := by decide
  have binds : Binder.boundPlan (latestOf userName timestampOf) = .ok (latestOf (.attribute 0 0) (.attribute 1 1)) := by
    decide
  refine ⟨yields, (order_kept rfl optimized binds).1 diaries Datum.Below _ diaries_inKeyOrder holding_exact ?_ yields⟩
  intro range ordering matched ordered
  have same : unapply latestThoughts = .ok (some latestRange) := by decide
  cases same.symm.trans matched
  cases ordered
  refine .inr ⟨⟨fun alone => ?_, fun key current reads => ?_, fun _ _ _ _ => by rw [Follow]; decide⟩,
    fun rounds left right compares => ?_⟩
  · cases alone
  · obtain ⟨rfl, -, tuples, tuple, childYields, member, rfl⟩ := reads
    cases childYields.unique oneUser_yields
    cases List.mem_singleton.mp member
    refine List.forall_mem_singleton.mpr fun datum read => ?_
    cases read
    intro same
    cases same
  · obtain ⟨count, -, -, tuples, lists, childYields, found, compared⟩ := compares
    cases childYields.unique oneUser_yields
    cases found
    have several := compared.several
    exact absurd several (by decide)

/-- The thoughts of all users by their time. -/
def timeline : LogicalPlan := .stopAfter (.fixed 10) (.sort [timestampOf, ownerOf] true (.relation thoughts))

/-- `isPrefix` asks which fields the key begins with, and not in which order: the timeline is in the order of
the owners. -/
theorem timeline_by_owner : ∃ physical bound tuples,
    timeline.Qualified ∧ apply timeline = .ok physical ∧ Binder.boundPlan physical = .ok bound ∧
      diaries.InKeyOrder Datum.Below ∧ diaries.Typed ∧ diaries.IndexesExact ∧
      Settles (execute (SimpleExecutor.apply ⟨[]⟩ diaries bound)) (.ok tuples) ∧
      ¬ tuples.Pairwise (InSortOrder Datum.Below true physical.layout [timestampOf, ownerOf]) := by
  refine ⟨tenOf [] true, tenOf [] true, diaryRecords.map fun record => [record],
    ⟨List.forall_mem_cons.mpr ⟨rfl, List.forall_mem_singleton.mpr rfl⟩, trivial⟩, by decide, by decide,
    diaries_inKeyOrder, diaries_typed, holding_exact, SimpleExecutor.execute_settles (tenOf_limits _ _ _).advance, ?_⟩
  intro ordered
  have later := (List.pairwise_cons.mp (List.pairwise_cons.mp ordered).2).1 _ List.mem_cons_self
  obtain below | ⟨same, -⟩ := later
  · have early : Int32.maxValue.toInt < (1 : Int32).toInt := below
    exact absurd early (by decide)
  · have one : Datum.int Int32.maxValue = Datum.int 1 := same
    exact absurd one (by decide)

end Optimizer

end Scads.Piql
