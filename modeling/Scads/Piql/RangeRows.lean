import Scads.Piql.SelectiveQueries

namespace Scads.Piql

open Scads.Client Scads.Data

/-! # The tuples of a range

The key of a range finds the records that meet its equalities, by the primary index or by
the entries of another one.
-/

namespace Optimizer

variable {ctx : Context} {store : Store} {db : Database} {plan : LogicalPlan} {range : IndexRange}
  {result bound : QueryPlan} {schema : List TupleProvider} {started : Bool}

section

variable {layout : List TupleProvider} {tuple row : Tuple} {value : Value} {key boundKey : KeyGenerator}
  {ns idx : TupleProvider} {record entry : Record} {reference boundReference : KeyGenerator}

/-- The values of the range are there for the tuple. -/
def Reads (ctx : Context) (started : Bool) (range : IndexRange) (row : Tuple) : Prop :=
  ∀ value ∈ (Operation.get range).values, value.Usable ctx started (relationsBelow range) row

/-- The key of a join is read from the tuples of its child. -/
theorem Reads.evaluates (reads : Reads ctx started range (onRelations layout tuple))
    (length : tuple.length = layout.length) (same : relationsOf layout = relationsBelow range)
    (keyed : makeKeyGenerator ns range.equalityPreds = .ok key)
    (binds : List.Forall₂ (Binder.Binds schema) key boundKey) (within : started = false → layout <+: schema) :
    List.Forall₂ (Evaluates ctx (some tuple) (relationsBelow range) (onRelations layout tuple)) key boundKey := by
  have both := (List.forall₂_and_left _ _).mpr
    ⟨fun value member => reads value (mem_keyEqualities_of_keyed keyed member), binds⟩
  refine both.imp fun value boundValue here => ?_
  rw [← same] at here ⊢
  exact here.1.evaluates length here.2 within

/-- The entry of a record in an index of its relation. -/
def entryOf (r idx : TupleProvider) (record : Record) : Record := idx.keySchema.map (r.read record)

theorem read_entryOf {r : TupleProvider} {field : Field} (named : ∃ other ∈ idx.keySchema, other.name = field.name) :
    idx.read (entryOf r idx record) field = r.read record field := by
  obtain ⟨other, member, same⟩ := named
  obtain ⟨index, inside, rfl⟩ := List.mem_iff_getElem.mp member
  rw [← read_of_name idx _ same, ← read_of_name r _ same, TupleProvider.read, pos_keySchema inside, entryOf,
    List.getD_eq_getElem?_getD, List.getElem?_map, List.getElem?_eq_getElem inside]
  rfl

theorem found_entries
    (indexed : (db idx).Perm ((db range.relation).map (entryOf range.relation idx)))
    (covers : Covers range idx) (row : Tuple) :
    ((db idx).filter (meetsAll ctx (relationsBelow range) row idx (keyEqualities range))).Perm
      (((db range.relation).filter (meetsKey ctx range row)).map (entryOf range.relation idx)) := by
  refine (indexed.filter _).trans (.of_eq ?_)
  rw [List.filter_map]
  refine congrArg (List.map _) (List.filter_congr fun record _ => ?_)
  rw [Function.comp_apply, meetsKey, Bool.eq_iff_iff, meetsAll_iff, meetsAll_iff]
  refine forall₂_congr fun equality member => ?_
  obtain ⟨field, there, same⟩ := covers equality (List.mem_of_mem_filter member)
  rw [read_entryOf ⟨field, List.mem_of_mem_take there, same⟩]

/-- The records of a namespace that the key of the range finds for a tuple. -/
def foundIn (ctx : Context) (db : Database) (range : IndexRange) (layout : List TupleProvider) (ns : TupleProvider)
    (tuple : Tuple) : List Record :=
  (db ns).filter (meetsAll ctx (relationsBelow range) (onRelations layout tuple) ns (keyEqualities range))

/-- The tuples of the child, for each of which the range finds what is selected. -/
structure Served (ctx : Context) (store : Store) (db : Database) (started : Bool) (range : IndexRange)
    (layout : List TupleProvider) (tuples : List Tuple) : Prop where
  laid : ∀ tuple ∈ tuples, List.Forall₂ store.Gives layout tuple
  same : relationsOf layout = relationsBelow range
  reads : ∀ tuple ∈ tuples, Reads ctx started range (onRelations layout tuple)
  finds : ∀ tuple ∈ tuples, FindsSelected ctx db started range (onRelations layout tuple)

theorem Served.alone (served : Served ctx store db started range [] [[]]) : relationsBelow range = [] :=
  served.same.symm

end

end Optimizer

end Scads.Piql
