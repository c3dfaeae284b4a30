import Scads.Piql.AnyLimits

namespace Scads.Piql

open Scads.Client Scads.Data

/-! # The order of the tuples of a plan

A scan gives the order of the key, a lookup keeps the order of its child and a merge
join makes one order of those of its lists.
-/

/-- The value of an attribute in a tuple of these records. -/
def valueIn (layout : List TupleProvider) (tuple : Tuple) : Value → Datum
  | .qualifiedAttribute r f => r.read (tuple.getD (layout.idxOf r) []) f
  | _ => .null

/-- The tuples stand in the order of these attributes. -/
def InSortOrder (before : Datum → Datum → Prop) (ascending : Bool) (layout : List TupleProvider) (attrs : List Value)
    (left right : Tuple) : Prop :=
  LexLe (direction before ascending) (valueIn layout left) (valueIn layout right) attrs

/-- The comparison of the executor, where it does not fail, is the order of the store. -/
def ComparesLike (before : Datum → Datum → Prop) (left right : Datum) : Prop :=
  ∀ comparison, compareAny left right = .ok comparison →
    (comparison < 0 → before left right) ∧ (comparison = 0 → left = right) ∧ (0 < comparison → before right left)

/-- The comparison is the order of the store for the attributes up to the first in which the tuples differ. -/
def ComparesAlike (before : Datum → Datum → Prop) (layout : List TupleProvider) (left right : Tuple) :
    List Value → Prop
  | [] => True
  | attr :: attrs =>
      ComparesLike before (valueIn layout left attr) (valueIn layout right attr) ∧
        (valueIn layout left attr = valueIn layout right attr → ComparesAlike before layout left right attrs)

/-- The bound plan reads the records of a key: a scan once, a merge join for each tuple of its child. -/
def QueryPlan.Reads (ctx : Context) (store : Store) : QueryPlan → KeyGenerator → Option Tuple → Prop
  | .indexScan _ keyPrefix limit _, key, current =>
      key = keyPrefix ∧ current = none ∧ ∃ boundLimit, bindLimit ctx limit = .ok boundLimit ∧ 1 ≤ boundLimit
  | .indexMergeJoin _ keyPrefix _ limit _ child, key, current =>
      key = keyPrefix ∧ (∃ boundLimit, bindLimit ctx limit = .ok boundLimit ∧ 1 ≤ boundLimit) ∧
        ∃ tuples tuple, Settles (execute (SimpleExecutor.apply ctx store child)) (.ok tuples) ∧ tuple ∈ tuples ∧
          current = some tuple
  | .indexLookupJoin _ _ child, key, current | .localStopAfter _ child, key, current =>
      child.Reads ctx store key current
  | _, _, _ => False

/-- The bound plan compares two tuples when it is asked for this many: a merge join those that it finds for the
tuples of its child. -/
def QueryPlan.Compares (ctx : Context) (store : Store) : QueryPlan → Nat → Tuple → Tuple → Prop
  | .indexMergeJoin ns keyPrefix sortFields limit ascending child, rounds, left, right =>
      (∃ boundLimit, bindLimit ctx limit = .ok boundLimit ∧ 1 ≤ boundLimit) ∧
        ∃ tuples lists, Settles (execute (SimpleExecutor.apply ctx store child)) (.ok tuples) ∧
          tuples.mapM (joined ctx store ns keyPrefix ascending) = .ok lists ∧
            Data.Compares (goesBefore ctx sortFields ascending) rounds lists left right
  | .localStopAfter limit child, rounds, left, right =>
      ∃ boundLimit, bindLimit ctx limit = .ok boundLimit ∧
        child.Compares ctx store (min rounds boundLimit.toNat) left right
  | _, _, _, _ => False

section

variable {ctx : Context} {store : Store} {before : Datum → Datum → Prop} {ns : TupleProvider} {key : KeyGenerator}
  {schema layout : List TupleProvider} {ascending : Bool}

/-- A bound key that has a value for each of its first fields. -/
theorem bindKey_present {currentTuple : Option Tuple} {bound : Key}
    (present : ∀ value ∈ key, ∀ datum, bindValue ctx value currentTuple = .ok datum → datum ≠ .null)
    (found : bindKey ctx ns key currentTuple = .ok bound) :
    ∃ values count, .null ∉ values ∧ values.length = key.length ∧ bound = values ++ List.replicate count .null := by
  obtain ⟨values, evaluated, -, rfl⟩ := bindKey_ok found
  have each := mapM_forall₂.mp evaluated
  refine ⟨values, _, fun member => ?_, each.length_eq.symm, rfl⟩
  obtain ⟨value, isValue, evaluates⟩ := forall₂_mem_right each member
  exact present value isValue _ evaluates rfl

theorem inSortOrder_refl {attrs : List Value} (tuple : Tuple) : InSortOrder before ascending layout attrs tuple tuple :=
  lexLe_refl _ attrs

theorem inSortOrder_trans (inKeyOrder : store.InKeyOrder before) {attrs : List Value} {first second third : Tuple}
    (earlier : InSortOrder before ascending layout attrs first second)
    (later : InSortOrder before ascending layout attrs second third) :
    InSortOrder before ascending layout attrs first third :=
  earlier.trans (direction_trans inKeyOrder ascending) later

theorem valueIn_single (r : TupleProvider) (record : Record) (f : Field) :
    valueIn [r] [record] (.qualifiedAttribute r f) = r.read record f := by
  rw [valueIn, List.idxOf_cons_self]
  rfl

/-- The fields that can decide about the order of the records with a key prefix are the next fields of the key. -/
def Follow (ns : TupleProvider) (count : Nat) (fields : List Field) : Prop :=
  deciding (ns.keySchema.take count) fields <+: ns.keySchema.drop count

theorem inSortOrder_single {left right : Record} {fields : List Field} :
    InSortOrder before ascending [ns] (fields.map (.qualifiedAttribute ns)) [left] [right] ↔
      LexLe (direction before ascending) (ns.read left) (ns.read right) fields := by
  rw [InSortOrder, lexLe_map]
  simp only [valueIn_single]

theorem scan_ordered (inKeyOrder : store.InKeyOrder before) {bound : Key} {fields : List Field}
    (present : ∀ value ∈ key, ∀ datum, bindValue ctx value none = .ok datum → datum ≠ .null)
    (found : bindKey ctx ns key none = .ok bound) (follow : Follow ns key.length fields) :
    (store.inOrder ns bound ascending).Pairwise fun left right =>
      LexLe (direction before ascending) (ns.read left) (ns.read right) fields := by
  obtain ⟨values, count, nonnull, length, rfl⟩ := bindKey_present present found
  rw [Follow, ← length] at follow
  exact inKeyOrder.inOrder_by nonnull follow

theorem elementAt_ok {α : Type} {values : List α} {index : Nat} {value : α} :
    elementAt values index = .ok value ↔ values[index]? = some value := by
  rw [elementAt]
  cases values[index]? with
  | none =>
      constructor
      · intro same
        cases same
      · intro same
        cases same
  | some other => simp

/-- What the executor reads is what the attribute is in the tuple. -/
theorem bindValue_valueIn {value boundValue : Value} {datum : Datum} {tuple : Tuple} (named : value.IsAttribute)
    (binds : Binder.Binds schema value boundValue) (found : bindValue ctx boundValue (some tuple) = .ok datum) :
    datum = valueIn schema tuple value := by
  obtain ⟨r, f, rfl⟩ := named
  rw [Binder.Binds, Binder.bindValue] at binds
  split at binds <;> cases binds
  obtain ⟨record, read, found⟩ := built_bind found
  rw [elementAt_ok] at read found
  rw [valueIn, TupleProvider.read, List.getD_eq_getElem?_getD, List.getD_eq_getElem?_getD, read, Option.getD_some,
    found, Option.getD_some]

theorem compareTuples_signs {attrs boundFields : List Value} {left right : Tuple} {comparison : Int}
    (binds : List.Forall₂ (Binder.Binds schema) attrs boundFields) (named : ∀ attr ∈ attrs, attr.IsAttribute)
    (alike : ComparesAlike before schema left right attrs)
    (compared : compareTuples ctx left right boundFields = .ok comparison) :
    (comparison < 0 → LexLe before (valueIn schema left) (valueIn schema right) attrs) ∧
      (comparison = 0 → ∀ attr ∈ attrs, valueIn schema left attr = valueIn schema right attr) ∧
      (0 < comparison → LexLe before (valueIn schema right) (valueIn schema left) attrs) := by
  induction binds with
  | nil =>
      cases compared
      exact ⟨fun _ => trivial, fun _ => List.forall_mem_nil _, fun _ => trivial⟩
  | @cons attr boundField attrs boundFields here rest ih =>
      obtain ⟨namedHere, namedRest⟩ := List.forall_mem_cons.mp named
      obtain ⟨alikeHere, alikeRest⟩ := alike
      obtain ⟨l, leftRead, compared⟩ := built_bind compared
      obtain ⟨r, rightRead, compared⟩ := built_bind compared
      obtain ⟨difference, differs, compared⟩ := built_bind compared
      rw [bindValue_valueIn namedHere here leftRead, bindValue_valueIn namedHere here rightRead] at differs
      obtain ⟨less, same, more⟩ := alikeHere difference differs
      split at compared
      · cases compared
        rename_i nonzero
        exact ⟨fun low => .inl (less low), fun zero => absurd zero nonzero, fun high => .inl (more high)⟩
      · rename_i zero
        have equal := same (not_not.mp zero)
        obtain ⟨lessRest, sameRest, moreRest⟩ := ih namedRest (alikeRest equal) compared
        exact ⟨fun low => .inr ⟨equal, lessRest low⟩, fun none => List.forall_mem_cons.mpr ⟨equal, sameRest none⟩,
          fun high => .inr ⟨equal.symm, moreRest high⟩⟩

theorem goesBefore_answers {attrs boundFields : List Value} {left right : Tuple}
    (binds : List.Forall₂ (Binder.Binds schema) attrs boundFields) (named : ∀ attr ∈ attrs, attr.IsAttribute)
    (alike : ComparesAlike before schema left right attrs) :
    AnsweredBy (goesBefore ctx boundFields ascending) (InSortOrder before ascending schema attrs) left right := by
  constructor
  · intro goes
    obtain ⟨comparison, compared, goes⟩ := built_bind goes
    obtain ⟨less, -, more⟩ := compareTuples_signs binds named alike compared
    cases ascending with
    | true => exact less (of_decide_eq_true (Except.ok.inj goes))
    | false => exact lexLe_flip.mpr (more (of_decide_eq_true (Except.ok.inj goes)))
  · intro goes
    obtain ⟨comparison, compared, goes⟩ := built_bind goes
    obtain ⟨less, same, more⟩ := compareTuples_signs binds named alike compared
    have tied (zero : comparison = 0) : InSortOrder before ascending schema attrs right left :=
      lexLe_of_agree fun attr member => (same zero attr member).symm
    cases ascending with
    | true =>
        have low : ¬ comparison < 0 := of_decide_eq_false (Except.ok.inj goes)
        obtain zero | high : comparison = 0 ∨ 0 < comparison := by omega
        · exact tied zero
        · exact more high
    | false =>
        have high : ¬ 0 < comparison := of_decide_eq_false (Except.ok.inj goes)
        obtain zero | low : comparison = 0 ∨ comparison < 0 := by omega
        · exact tied zero
        · exact lexLe_flip.mpr (less low)

/-- The attributes of the joined record, or of an earlier record of the same relation. -/
theorem valueIn_joined {tuple : Tuple} (laid : List.Forall₂ store.Gives layout tuple) (record : Record) (f : Field) :
    valueIn (layout ++ [ns]) (tuple ++ [record]) (.qualifiedAttribute ns f) =
      if ns ∈ layout then valueIn layout tuple (.qualifiedAttribute ns f) else ns.read record f := by
  have length := laid.length_eq
  rw [valueIn, valueIn]
  split
  · rename_i member
    have inLayout : layout.idxOf ns < layout.length := List.idxOf_lt_length_iff.mpr member
    rw [List.idxOf_append_of_mem member, List.getD_eq_getElem?_getD, List.getD_eq_getElem?_getD,
      List.getElem?_append_left (by omega)]
  · rename_i new
    rw [List.idxOf_append_of_notMem new, List.idxOf_cons_self, Nat.add_zero, length, List.getD_eq_getElem?_getD,
      List.getElem?_concat_length]
    rfl

theorem joined_ordered (inKeyOrder : store.InKeyOrder before) {fields : List Field} {tuple : Tuple} {list : List Tuple}
    (present : ∀ value ∈ key, ∀ datum, bindValue ctx value (some tuple) = .ok datum → datum ≠ .null)
    (laid : List.Forall₂ store.Gives layout tuple) (follow : Follow ns key.length fields)
    (joins : joined ctx store ns key ascending tuple = .ok list) :
    list.Pairwise (InSortOrder before ascending (layout ++ [ns]) (fields.map (.qualifiedAttribute ns))) := by
  obtain ⟨bound, found, rfl⟩ := joined_ok joins
  obtain ⟨values, count, nonnull, length, rfl⟩ := bindKey_present present found
  rw [Follow, ← length] at follow
  refine List.pairwise_map.mpr ((inKeyOrder.inOrder_by nonnull follow).imp fun {left right} ordered => ?_)
  rw [InSortOrder, lexLe_map]
  simp only [valueIn_joined laid]
  split
  · exact lexLe_refl _ fields
  · exact ordered

/-- The entries of an index are those of the records of its relation. -/
def Store.IndexesExact (store : Store) : Prop :=
  ∀ r names idx, Optimizer.index r names = .ok idx → ∀ entry record, store.Gives idx entry →
    store.getRecord r (r.keySchema.map (idx.read entry)) = some record →
    ∀ field ∈ idx.keySchema, idx.read entry field = r.read record field

theorem read_of_name (r : TupleProvider) (record : Record) {field other : Field} (same : field.name = other.name) :
    r.read record field = r.read record other := by
  rw [TupleProvider.read, TupleProvider.read, TupleProvider.pos, TupleProvider.pos, same]

variable {r idx : TupleProvider} {names : List String} {reference boundReference : KeyGenerator} {entry : Record}

theorem values_of_references {fields : List Field} {values : List Datum}
    (refers : List.Forall₂ (Optimizer.Reference idx) fields reference)
    (binds : List.Forall₂ (Binder.Binds (idx :: layout)) reference boundReference)
    (evaluated : List.Forall₂ (fun value datum => bindValue ctx value (some [entry]) = .ok datum) boundReference values) :
    values = fields.map (idx.read entry) := by
  induction refers generalizing boundReference values with
  | nil =>
      cases binds
      cases evaluated
      rfl
  | @cons field value fields reference here _ ih =>
      cases binds with
      | cons bindsHere bindsRest =>
          cases evaluated with
          | cons datum rest =>
              obtain ⟨same, found, rfl⟩ := here
              have named : same.name = field.name := by simpa using List.find?_some found
              rw [List.map_cons, ih bindsRest rest, bindValue_valueIn ⟨idx, same, rfl⟩ bindsHere datum, valueIn,
                List.idxOf_cons_self]
              exact congrArg (· :: _) (read_of_name idx entry named)

/-- The record of an entry has the values of the entry. -/
theorem lookupRecord_exact (exact : store.IndexesExact) (indexed : Optimizer.index r names = .ok idx)
    (refers : List.Forall₂ (Optimizer.Reference idx) r.keySchema reference)
    (binds : List.Forall₂ (Binder.Binds (idx :: layout)) reference boundReference) (given : store.Gives idx entry)
    {result : Tuple} (looked : lookupRecord ctx store r boundReference [entry] = .ok (some result)) :
    ∃ record, result = [entry] ++ [record] ∧ ∀ field ∈ idx.keySchema, idx.read entry field = r.read record field := by
  obtain ⟨boundKey, found, same⟩ := lookupRecord_ok looked
  obtain ⟨record, read, rfl⟩ := Option.map_eq_some_iff.mp same.symm
  refine ⟨record, rfl, exact r names idx indexed entry record given ?_⟩
  obtain ⟨values, evaluated, -, rfl⟩ := bindKey_ok found
  rw [values_of_references refers binds (mapM_forall₂.mp evaluated), List.length_map, Nat.sub_self,
    List.replicate_zero, List.append_nil] at read
  exact read

/-- The sort fields of a relation and those of its index. -/
def Indexes (idx : TupleProvider) (entryField field : Field) : Prop :=
  entryField ∈ idx.keySchema ∧ entryField.name = field.name

theorem lookup_ordered (exact : store.IndexesExact) (indexed : Optimizer.index r names = .ok idx) (other : idx ≠ r)
    (refers : List.Forall₂ (Optimizer.Reference idx) r.keySchema reference)
    (binds : List.Forall₂ (Binder.Binds (idx :: layout)) reference boundReference) {entryFields fields : List Field}
    (indexes : List.Forall₂ (Indexes idx) entryFields fields) {entries : List Record}
    (given : ∀ entry ∈ entries, store.Gives idx entry)
    (ordered : entries.Pairwise fun left right =>
      LexLe (direction before ascending) (idx.read left) (idx.read right) entryFields)
    {course : Course QueryFailure Tuple}
    (sifted : (Course.ofList (entries.map fun entry => [entry])).sift (lookupRecord ctx store r boundReference) =
      .ok course) :
    course.Ordered (InSortOrder before ascending [idx, r] (fields.map (.qualifiedAttribute r))) := by
  have each : (Course.ofList (entries.map fun entry => [entry]) : Course QueryFailure Tuple).Each fun tuple =>
      ∃ entry, store.Gives idx entry ∧ tuple = [entry] := by
    refine Course.each_ofList fun tuple member => ?_
    obtain ⟨entry, there, rfl⟩ := List.mem_map.mp member
    exact ⟨entry, given entry there, rfl⟩
  have sorted : (Course.ofList (entries.map fun entry => [entry]) : Course QueryFailure Tuple).Ordered
      (InSortOrder before ascending [idx] (entryFields.map (.qualifiedAttribute idx))) :=
    Course.ordered_ofList (List.pairwise_map.mpr (ordered.imp inSortOrder_single.mpr))
  refine sorted.sift ?_ each sifted
  intro _ _ firstResult secondResult given found inOrder leftLooked rightLooked
  obtain ⟨left, leftGiven, rfl⟩ := given
  obtain ⟨right, rightGiven, rfl⟩ := found
  obtain ⟨leftRecord, rfl, leftSame⟩ := lookupRecord_exact exact indexed refers binds leftGiven leftLooked
  obtain ⟨rightRecord, rfl, rightSame⟩ := lookupRecord_exact exact indexed refers binds rightGiven rightLooked
  rw [InSortOrder, lexLe_map]
  rw [inSortOrder_single] at inOrder
  have reads {entry record : Record} (laid : store.Gives idx entry)
      (same : ∀ field ∈ idx.keySchema, idx.read entry field = r.read record field) {entryField field : Field}
      (here : Indexes idx entryField field) :
      idx.read entry entryField = valueIn ([idx] ++ [r]) ([entry] ++ [record]) (.qualifiedAttribute r field) := by
    rw [valueIn_joined (.cons laid .nil), if_neg (by simpa using Ne.symm other), same entryField here.1]
    exact read_of_name r record here.2
  exact inOrder.congr (indexes.imp fun entryField field here =>
    ⟨reads leftGiven leftSame here, reads rightGiven rightSame here⟩)

section

variable {fields : List Field} {limit : Limit} {iterator : QueryIterator} {bound child : QueryPlan}
  {asked le : Tuple → Tuple → Prop}

/-- The iterators of the plan come in order, as far as the comparisons that are made are those that may be asked. -/
def RunsOrdered (ctx : Context) (store : Store) (asked le : Tuple → Tuple → Prop) (bound : QueryPlan) : Prop :=
  ∀ iterator, SimpleExecutor.apply ctx store bound = .ok iterator → iterator.Comes fun course =>
    ∀ rounds, (∀ left right, bound.Compares ctx store rounds left right → asked left right) →
      (course.stop rounds).Ordered le

/-- The values of the keys that the bound plan reads are there. -/
def QueryPlan.ReadsPresent (ctx : Context) (store : Store) (bound : QueryPlan) : Prop :=
  ∀ key current, bound.Reads ctx store key current → ∀ value ∈ key, ∀ datum,
    bindValue ctx value current = .ok datum → datum ≠ .null

/-- A scan of a page that can hold no record never ends. -/
theorem indexScan_barren {boundKeyPrefix : Key} {boundLimit : Int} (low : ¬ 1 ≤ boundLimit) :
    (SimpleExecutor.indexScan store ns boundKeyPrefix boundLimit ascending).Comes fun _ => False :=
  .inl (SimpleExecutor.indexScan_unending (by omega)).stuck

theorem indexScan_inSortOrder (inKeyOrder : store.InKeyOrder before)
    (present : (QueryPlan.indexScan ns key limit ascending).ReadsPresent ctx store)
    (follow : ∀ read current, (QueryPlan.indexScan ns key limit ascending).Reads ctx store read current →
      Follow ns key.length fields) :
    RunsOrdered ctx store asked (InSortOrder before ascending [ns] (fields.map (.qualifiedAttribute ns)))
      (.indexScan ns key limit ascending) := by
  intro iterator applied
  obtain ⟨bound, found, applied⟩ := built_bind applied
  obtain ⟨boundLimit, isLimit, rfl⟩ := built_map applied
  by_cases positive : 1 ≤ boundLimit
  · have reads : (QueryPlan.indexScan ns key limit ascending).Reads ctx store key none :=
      ⟨rfl, rfl, boundLimit, isLimit, positive⟩
    refine SimpleExecutor.indexScan_comes.imp fun course same rounds _ => ?_
    have ordered := @scan_ordered _ _ _ _ _ ascending inKeyOrder _ _ (present key none reads) found
      (follow key none reads)
    rw [same]
    exact (Course.ordered_ofList (List.pairwise_map.mpr (ordered.imp inSortOrder_single.mpr))).stop rounds
  · exact (indexScan_barren positive).imp fun _ => False.elim

theorem lookup_inSortOrder (inKeyOrder : store.InKeyOrder before) (exact : store.IndexesExact)
    (indexed : Optimizer.index r names = .ok idx) (other : idx ≠ r)
    (refers : List.Forall₂ (Optimizer.Reference idx) r.keySchema reference)
    (bindsReference : List.Forall₂ (Binder.Binds [idx, r]) reference boundReference) {entryFields : List Field}
    (indexes : List.Forall₂ (Indexes idx) entryFields fields)
    (present : (QueryPlan.indexScan idx key limit ascending).ReadsPresent ctx store)
    (follow : Follow idx key.length entryFields) :
    RunsOrdered ctx store asked (InSortOrder before ascending [idx, r] (fields.map (.qualifiedAttribute r)))
      (.indexLookupJoin r boundReference (.indexScan idx key limit ascending)) := by
  intro iterator applied
  obtain ⟨childIterator, childApplied, rfl⟩ := built_map applied
  obtain ⟨bound, found, childApplied⟩ := built_bind childApplied
  obtain ⟨boundLimit, isLimit, rfl⟩ := built_map childApplied
  by_cases positive : 1 ≤ boundLimit
  · have ordered := @scan_ordered _ _ _ _ _ ascending inKeyOrder _ _
      (present key none ⟨rfl, rfl, boundLimit, isLimit, positive⟩) found follow
    refine SimpleExecutor.indexScan_comes.lookahead _ _ fun course result same sifted rounds _ => ?_
    rw [same] at sifted
    exact (lookup_ordered exact indexed other refers bindsReference indexes
      (fun _ => Store.gives_of_inOrder) ordered sifted).stop rounds
  · exact (indexScan_barren positive).lookahead _ _ fun course result never => never.elim

/-- The tuples of a course are those that the executor yields. -/
theorem comes_yields {holds : Course QueryFailure Tuple → Prop}
    (applied : SimpleExecutor.apply ctx store bound = .ok iterator) (comes : iterator.Comes holds) :
    iterator.Comes fun course => holds course ∧
      Settles (execute (SimpleExecutor.apply ctx store bound)) course.outcome := by
  obtain stuck | ⟨result, opens, given⟩ := comes
  · exact .inl stuck
  · refine .inr ⟨result, opens, fun course same => ⟨given course same, ?_⟩⟩
    have drained := opens.begins.drain
    rw [same] at drained
    rw [applied]
    exact drained

theorem indexMergeJoin_inSortOrder (inKeyOrder : store.InKeyOrder before) (plain : child.Plain)
    {boundFields : List Value}
    (present : (QueryPlan.indexMergeJoin ns key boundFields limit ascending child).ReadsPresent ctx store)
    (follow : ∀ read current,
      (QueryPlan.indexMergeJoin ns key boundFields limit ascending child).Reads ctx store read current →
        Follow ns key.length fields)
    (answered : ∀ left right, asked left right → AnsweredBy (goesBefore ctx boundFields ascending)
      (InSortOrder before ascending (child.layout ++ [ns]) (fields.map (.qualifiedAttribute ns))) left right) :
    RunsOrdered ctx store asked
      (InSortOrder before ascending (child.layout ++ [ns]) (fields.map (.qualifiedAttribute ns)))
      (.indexMergeJoin ns key boundFields limit ascending child) := by
  intro iterator applied
  obtain ⟨childIterator, childApplied, applied⟩ := built_bind applied
  obtain ⟨boundLimit, isLimit, rfl⟩ := built_map applied
  refine SimpleExecutor.indexMergeJoin_comes
    (comes_yields childApplied (SimpleExecutor.apply_comes plain childApplied)) ?_
  intro given lists course both gathered merged rounds compared
  obtain ⟨each, yields⟩ := both
  obtain ⟨tuples, rfl, found⟩ := Course.exists_ofList_of_gather gathered
  rw [Course.outcome_ofList] at yields
  by_cases positive : 1 ≤ boundLimit
  · rw [mergePages_of_positive positive] at merged
    refine merge_ordered inSortOrder_refl (fun _ _ _ => inSortOrder_trans inKeyOrder) (fun list member => ?_)
      (fun value best asks => answered value best (compared value best
        ⟨⟨boundLimit, isLimit, positive⟩, tuples, lists, yields, found, asks⟩)) merged
    obtain ⟨tuple, there, joins⟩ := forall₂_mem_right (mapM_forall₂.mp found) member
    have reads : (QueryPlan.indexMergeJoin ns key boundFields limit ascending child).Reads ctx store key (some tuple) :=
      ⟨rfl, ⟨boundLimit, isLimit, positive⟩, tuples, tuple, yields, there, rfl⟩
    exact joined_ordered inKeyOrder (present key _ reads) (each.outcome (Course.outcome_ofList tuples) tuple there)
      (follow key _ reads) joins
  · rw [mergePages_of_nonpositive (by omega)] at merged
    cases merged
    cases rounds <;> trivial

theorem localStopAfter_inSortOrder (ordered : RunsOrdered ctx store asked le child) :
    RunsOrdered ctx store asked le (.localStopAfter limit child) := by
  intro iterator applied
  obtain ⟨childIterator, childApplied, applied⟩ := built_bind applied
  obtain ⟨boundLimit, isLimit, rfl⟩ := built_map applied
  refine SimpleExecutor.localStopAfter_comes (bindLimit_lt ctx isLimit) (ordered childIterator childApplied)
    fun course inOrder rounds compared => ?_
  rw [Course.stop_stop]
  exact inOrder _ fun left right compares => compared left right ⟨boundLimit, isLimit, compares⟩

/-- What the executor yields is in order if the iterator of the plan comes in order. -/
theorem yields_ordered {tuples : List Tuple} (ordered : RunsOrdered ctx store asked le bound)
    (compared : ∀ rounds left right, bound.Compares ctx store rounds left right → asked left right)
    (yields : Settles (execute (SimpleExecutor.apply ctx store bound)) (.ok tuples)) : tuples.Pairwise le := by
  cases applied : SimpleExecutor.apply ctx store bound with
  | error failure =>
      rw [applied] at yields
      cases (Settles.const _).unique yields
  | ok iterator =>
      rw [applied] at yields
      have inOrder := (ordered iterator applied).drained yields tuples.length (compared tuples.length)
      rw [Course.stop_ofList, List.take_length] at inOrder
      exact inOrder.outcome (Course.outcome_ofList tuples)

end

end

end Scads.Piql
