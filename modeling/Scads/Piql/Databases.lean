import Scads.Piql.MergeJoins
import Scads.Piql.OrderedPlans
import Scads.Piql.QueryAnswers

namespace Scads.Piql

open Scads.Client Scads.Data

/-! # Stores of a database

What the gets and the ranges of a store find in a database, for one key and for the
keys that a plan makes for the tuples of its child.
-/

namespace TupleProvider

/-- The values of the key of a record, as the store compares them. -/
def storedKey (ns : TupleProvider) (record : Record) : List Datum :=
  (record.take ns.keySchema.length).map Datum.stored

end TupleProvider

/-- The key of the record starts with the given part of a key. -/
def begins (key : Key) (record : Record) : Bool :=
  ((givenPart key).map Datum.stored).isPrefixOf (record.map Datum.stored)

/-- The store has the records of the database: a get finds the record of a key, and a range the records whose
keys start with a key prefix. -/
structure Store.Has (store : Store) (db : Database) : Prop where
  typed : ∀ ns, ∀ record ∈ db ns, List.Forall₂ Conforms ns.fields record
  keyed : ∀ ns, ns.isRelation = true → (db ns).Pairwise fun left right => ns.storedKey left ≠ ns.storedKey right
  gets : ∀ ns key, store.getRecord ns key =
    (db ns).find? fun record => ns.storedKey record = key.map Datum.stored
  ranges : ∀ ns key, (store.matching ns key).Perm ((db ns).filter (begins key))

section

variable {store : Store} {db : Database} {ns : TupleProvider} {record : Record}

theorem Store.Has.gives (has : store.Has db) (member : record ∈ db ns) : store.Gives ns record :=
  .inr ⟨[], (has.ranges ns []).mem_iff.mpr (List.mem_filter.mpr ⟨member, rfl⟩)⟩

theorem Store.Has.mem (has : store.Has db) (given : store.Gives ns record) : record ∈ db ns := by
  obtain ⟨key, found⟩ | ⟨key, found⟩ := given
  · rw [has.gets] at found
    exact List.mem_of_find?_eq_some found
  · exact List.mem_of_mem_filter ((has.ranges ns key).mem_iff.mp found)

theorem Store.Has.inOrder (has : store.Has db) (key : Key) (ascending : Bool) :
    (store.inOrder ns key ascending).Perm ((db ns).filter (begins key)) := by
  rw [Store.inOrder]
  split
  · exact has.ranges ns key
  · exact (List.reverse_perm _).trans (has.ranges ns key)

/-- The records with a given key are found by a get, of which there is one at most. -/
theorem Store.Has.getRecord (has : store.Has db) (isRelation : ns.isRelation = true) (key : Key) :
    (store.getRecord ns key).toList = (db ns).filter fun record => ns.storedKey record = key.map Datum.stored := by
  rw [has.gets]
  have keyed := has.keyed ns isRelation
  revert keyed
  generalize db ns = records
  intro keyed
  induction records with
  | nil => rfl
  | cons record rest ih =>
      obtain ⟨apart, keyed⟩ := List.pairwise_cons.mp keyed
      by_cases same : ns.storedKey record = key.map Datum.stored
      · have none : (rest.filter fun record => ns.storedKey record = key.map Datum.stored) = [] :=
          List.filter_eq_nil_iff.mpr fun other member equal =>
            apart other member (same.trans (of_decide_eq_true equal).symm)
        rw [List.find?_cons_of_pos (by simpa using same), List.filter_cons_of_pos (by simpa using same), none]
        rfl
      · rw [List.find?_cons_of_neg (by simpa using same), List.filter_cons_of_neg (by simpa using same)]
        exact ih keyed

end

section

variable {ns : TupleProvider} {record : Record} {values : List Datum}

variable {ctx : Context} {relations : List TupleProvider} {row : Tuple} {fields : List Field}
  {equalities : List AttributeEquality} {key : KeyGenerator}

/-- The record has the values of the equalities for the tuple. -/
def meetsAll (ctx : Context) (relations : List TupleProvider) (row : Tuple) (ns : TupleProvider)
    (equalities : List AttributeEquality) (record : Record) : Bool :=
  equalities.all fun equality =>
    (equality.value.denote ctx relations row).map Datum.stored = some (ns.read record equality.field).stored

/-- The values are those that a key has on a tuple. -/
def Denotes (ctx : Context) (relations : List TupleProvider) (row : Tuple) (key : KeyGenerator)
    (values : List Datum) : Prop :=
  List.Forall₂ (fun value datum => value.denote ctx relations row = some datum) key values

theorem meetsAll_iff : meetsAll ctx relations row ns equalities record = true ↔ ∀ equality ∈ equalities,
    (equality.value.denote ctx relations row).map Datum.stored = some (ns.read record equality.field).stored := by
  simp only [meetsAll, List.all_eq_true, decide_eq_true_eq]

end

/-- The relations of a layout, without the indexes. -/
def relationsOf (layout : List TupleProvider) : List TupleProvider := layout.filter TupleProvider.isRelation

/-- The records of the relations in a tuple, without the entries of the indexes. -/
def onRelations : List TupleProvider → Tuple → Tuple
  | ns :: layout, record :: tuple =>
      if ns.isRelation then record :: onRelations layout tuple else onRelations layout tuple
  | _, _ => []

section

variable {layout others : List TupleProvider} {tuple other : Tuple} {r ns : TupleProvider} {record : Record}

theorem length_onRelations (length : tuple.length = layout.length) :
    (onRelations layout tuple).length = (relationsOf layout).length := by
  induction layout generalizing tuple with
  | nil =>
      rw [List.eq_nil_of_length_eq_zero length]
      rfl
  | cons ns layout ih =>
      cases tuple with
      | nil => cases length
      | cons record tuple =>
          have later := ih (Nat.succ.inj length)
          rw [relationsOf] at later ⊢
          cases isRelation : ns.isRelation with
          | true => rw [onRelations, if_pos isRelation, List.filter_cons_of_pos isRelation, List.length_cons, later,
              List.length_cons]
          | false => rw [onRelations, if_neg (by simp [isRelation]), List.filter_cons_of_neg (by simp [isRelation]), later]

/-- The first record of a relation stays the first one. -/
theorem getElem?_onRelations (length : tuple.length = layout.length) (isRelation : r.isRelation = true) :
    (onRelations layout tuple)[(relationsOf layout).idxOf r]? = tuple[layout.idxOf r]? := by
  induction layout generalizing tuple with
  | nil =>
      rw [List.eq_nil_of_length_eq_zero length]
      rfl
  | cons ns layout ih =>
      cases tuple with
      | nil => cases length
      | cons record tuple =>
          have later := ih (Nat.succ.inj length)
          rw [relationsOf] at later ⊢
          by_cases same : ns = r
          · subst same
            rw [onRelations, if_pos isRelation, List.filter_cons_of_pos isRelation, List.idxOf_cons_self,
              List.idxOf_cons_self]
            rfl
          · rw [List.idxOf_cons_ne _ same]
            cases first : ns.isRelation with
            | true =>
                rw [onRelations, if_pos first, List.filter_cons_of_pos first, List.idxOf_cons_ne _ same]
                exact later
            | false =>
                rw [onRelations, if_neg (by simp [first]), List.filter_cons_of_neg (by simp [first])]
                exact later

end

/-- The bound value is read as what the value is on a tuple of relations. -/
def Evaluates (ctx : Context) (currentTuple : Option Tuple) (relations : List TupleProvider) (row : Tuple)
    (value boundValue : Value) : Prop :=
  ∃ datum, bindValue ctx boundValue currentTuple = .ok datum ∧ value.denote ctx relations row = some datum

section

variable {ctx : Context} {store : Store} {schema layout relations : List TupleProvider} {tuple row : Tuple}
  {value boundValue : Value} {key boundKey : KeyGenerator} {ns : TupleProvider}

theorem Value.denote_of_bound {datum : Datum} (found : bindValue ctx value none = .ok datum) :
    value.denote ctx relations row = some datum := by
  cases value with
  | qualifiedAttribute r f => cases found
  | _ => exact congrArg Except.toOption found

theorem toOption_eq_some {α : Type} {result : Except QueryFailure α} {found : α} (same : result.toOption = some found) :
    result = .ok found := by
  cases result with
  | error failure => cases same
  | ok value =>
      cases same
      rfl

theorem evaluates_of_denoted {datum : Datum} (length : tuple.length = layout.length)
    (denoted : value.denote ctx (relationsOf layout) (onRelations layout tuple) = some datum)
    (binds : Binder.Binds schema value boundValue) (within : value.IsAttribute → layout <+: schema) :
    Evaluates ctx (some tuple) (relationsOf layout) (onRelations layout tuple) value boundValue := by
  refine ⟨datum, ?_, denoted⟩
  cases value with
  | qualifiedAttribute r f =>
      obtain ⟨record, there, read⟩ := Option.bind_eq_some_iff.mp denoted
      obtain ⟨inRow, -⟩ := List.getElem?_eq_some_iff.mp there
      rw [length_onRelations length] at inRow
      obtain ⟨member, isRelation⟩ := List.mem_filter.mp (List.idxOf_lt_length_iff.mp inRow)
      rw [getElem?_onRelations length isRelation] at there
      obtain ⟨rest, rfl⟩ := within ⟨r, f, rfl⟩
      rw [Binder.Binds, Binder.bindValue, if_pos (List.mem_append_left _ member),
        List.idxOf_append_of_mem member] at binds
      cases binds
      rw [bindValue, elementAt, there]
      change elementAt record _ = _
      rw [elementAt, read]
  | constant v =>
      cases binds
      cases denoted
      rfl
  | parameter ordinal =>
      cases binds
      exact toOption_eq_some denoted
  | _ => cases denoted

end

section

variable {ctx : Context} {store : Store} {db : Database} {relations : List TupleProvider} {row : Tuple}
  {ns : TupleProvider} {range : IndexRange} {key boundKey : KeyGenerator} {currentTuple : Option Tuple}

end

section

variable {ctx : Context} {store : Store} {ns : TupleProvider} {key : KeyGenerator} {child : QueryPlan}
  {tuples : List Tuple} {found : Tuple → List Record}

/-- Each tuple with each of the records that are found for it. -/
def withFound (found : Tuple → List Record) (tuples : List Tuple) : List Tuple :=
  tuples.flatMap fun tuple => (found tuple).map fun record => tuple ++ [record]

end

end Scads.Piql
