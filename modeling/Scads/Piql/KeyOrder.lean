import Scads.Data.Lexicographic
import Scads.Piql.Executable

namespace Scads.Piql

open Scads.Client Scads.Data

/-! # The order of the records

The store keeps the records of a namespace in the order of their keys.  The records
that start with the same values are in the order of the fields that follow.
-/

/-- The value of a field in a record. -/
def TupleProvider.read (ns : TupleProvider) (record : Record) (field : Field) : Datum := record.getD
    (ns.pos field) .null

/-- What is stored for a value. -/
def Datum.stored : Datum → Datum
  | .string text => .utf8 text
  | datum => datum

/-- The fields of a key that are set. -/
def givenPart (key : Key) : List Datum := key.takeWhile (· ≠ .null)

/-- The store has the records that start with a key prefix, in key order.  `before` is the order of the
values of one field. -/
structure Store.InKeyOrder (store : Store) (before : Datum → Datum → Prop) : Prop where
  irreflexive : ∀ datum, ¬ before datum datum
  transitive : ∀ first second third, before first second → before second third → before first third
  sorted : ∀ ns key, (store.matching ns key).Pairwise fun left right =>
    LexLe before (ns.read left) (ns.read right) ns.keySchema
  starts : ∀ ns key record, record ∈ store.matching ns key → (givenPart key).map Datum.stored <+: record

/-- The order of a scan. -/
def direction (before : Datum → Datum → Prop) (ascending : Bool) : Datum → Datum → Prop :=
  if ascending then before else fun first second => before second first

section

variable {ns : TupleProvider} {values : List Datum}

theorem givenPart_padded (present : .null ∉ values) (count : Nat) :
    givenPart (values ++ List.replicate count .null) = values := by
  induction values with
  | nil => cases count <;> rfl
  | cons value rest ih =>
      have here : value ≠ .null := fun same => present (by simp [same])
      have later := ih fun member => present (List.mem_cons_of_mem _ member)
      rw [givenPart] at later ⊢
      rw [List.cons_append, List.takeWhile_cons_of_pos (by simpa using here), later]

theorem bindKey_ok {ctx : Context} {key : KeyGenerator} {currentTuple : Option Tuple} {boundKey : Key}
    (bound : bindKey ctx ns key currentTuple = .ok boundKey) :
    ∃ values, key.mapM (fun value => bindValue ctx value currentTuple) = .ok values ∧
      values.length ≤ ns.keySchema.length ∧
      boundKey = values ++ List.replicate (ns.keySchema.length - values.length) .null := by
  obtain ⟨values, evaluated, bound⟩ := built_bind bound
  split at bound
  · rename_i short
    cases bound
    exact ⟨values, evaluated, short, rfl⟩
  · cases bound

/-- A field has the position of the field with its name. -/
theorem pos_eq {field : Field} {index : Nat} (inFields : index < ns.fields.length)
    (named : ns.fields[index].name = field.name) : ns.pos field = index := by
  have found : ns.pos field < ns.fields.length :=
    List.findIdx_lt_length_of_exists ⟨_, List.getElem_mem inFields, by simp [named]⟩
  have same : ns.fields[ns.pos field].name = field.name := of_decide_eq_true (List.findIdx_getElem (w := found))
  refine (List.getElem?_inj (by rwa [List.length_map]) ns.schema.distinct).mp ?_
  change (ns.fields.map Field.name)[ns.pos field]? = (ns.fields.map Field.name)[index]?
  rw [List.getElem?_map, List.getElem?_map, List.getElem?_eq_getElem found, List.getElem?_eq_getElem inFields]
  exact congrArg some (same.trans named.symm)

theorem pos_keySchema {index : Nat} (inKey : index < ns.keySchema.length) : ns.pos ns.keySchema[index] = index := by
  have isField : ns.fields[index]? = some ns.keySchema[index] :=
    (List.getElem?_append_left inKey).trans (List.getElem?_eq_getElem inKey)
  obtain ⟨inFields, same⟩ := List.getElem?_eq_some_iff.mp isField
  exact pos_eq inFields (by rw [same])

theorem read_of_prefix {record : Record} (starts : values <+: record) {index : Nat}
    (inKey : index < ns.keySchema.length)
    (inValues : index < values.length) : ns.read record ns.keySchema[index] = values[index] := by
  obtain ⟨rest, rfl⟩ := starts
  rw [TupleProvider.read, pos_keySchema inKey, List.getD_eq_getElem?_getD, List.getElem?_append_left inValues,
    List.getElem?_eq_getElem inValues]
  rfl

/-- Two records that start with the same values agree in the first fields of the key. -/
theorem agree_of_starts {left right : Record} (leftStarts : values <+: left) (rightStarts : values <+: right) :
    ∀ field ∈ ns.keySchema.take values.length, ns.read left field = ns.read right field := by
  intro field member
  obtain ⟨index, there, rfl⟩ := List.mem_iff_getElem.mp member
  rw [List.length_take] at there
  rw [List.getElem_take, read_of_prefix leftStarts (by omega) (by omega),
    read_of_prefix rightStarts (by omega) (by omega)]

end

section

variable {store : Store} {before : Datum → Datum → Prop} {ns : TupleProvider} {values : List Datum} {count : Nat}
  {ascending : Bool}

theorem Store.InKeyOrder.agree (inKeyOrder : store.InKeyOrder before) (present : .null ∉ values) {left right : Record}
    (leftGiven : left ∈ store.matching ns (values ++ List.replicate count .null))
    (rightGiven : right ∈ store.matching ns (values ++ List.replicate count .null)) :
    ∀ field ∈ ns.keySchema.take values.length, ns.read left field = ns.read right field := by
  have leftStarts := inKeyOrder.starts ns _ left leftGiven
  have rightStarts := inKeyOrder.starts ns _ right rightGiven
  rw [givenPart_padded present] at leftStarts rightStarts
  have agreed := @agree_of_starts ns _ left right leftStarts rightStarts
  rwa [List.length_map] at agreed

theorem Store.InKeyOrder.matching (inKeyOrder : store.InKeyOrder before) (present : .null ∉ values) :
    (store.matching ns (values ++ List.replicate count .null)).Pairwise fun left right =>
      LexLe before (ns.read left) (ns.read right) (ns.keySchema.drop values.length) := by
  refine (inKeyOrder.sorted ns _).imp_of_mem fun {left right} leftGiven rightGiven ordered => ?_
  rw [← List.take_append_drop values.length ns.keySchema] at ordered
  exact ordered.drop_agreed inKeyOrder.irreflexive (inKeyOrder.agree present leftGiven rightGiven)

/-- The records of a range are in the order of the key fields that the prefix leaves open. -/
theorem Store.InKeyOrder.inOrder (inKeyOrder : store.InKeyOrder before) (present : .null ∉ values) :
    (store.inOrder ns (values ++ List.replicate count .null) ascending).Pairwise fun left right =>
      LexLe (direction before ascending) (ns.read left) (ns.read right) (ns.keySchema.drop values.length) ∧
        ∀ field ∈ ns.keySchema.take values.length, ns.read left field = ns.read right field := by
  have sorted : (store.matching ns (values ++ List.replicate count .null)).Pairwise fun left right =>
      LexLe before (ns.read left) (ns.read right) (ns.keySchema.drop values.length) ∧
        ∀ field ∈ ns.keySchema.take values.length, ns.read left field = ns.read right field :=
    (inKeyOrder.matching present).imp_of_mem fun leftGiven rightGiven ordered =>
      ⟨ordered, inKeyOrder.agree present leftGiven rightGiven⟩
  rw [Store.inOrder, direction]
  cases ascending with
  | true => exact sorted
  | false =>
      refine List.pairwise_reverse.mpr (sorted.imp fun {left right} both => ?_)
      obtain ⟨ordered, agree⟩ := both
      exact ⟨lexLe_flip.mpr ordered, fun field member => (agree field member).symm⟩

/-- The records of a range are in the order of fields of which those that can decide are the next ones of the key. -/
theorem Store.InKeyOrder.inOrder_by (inKeyOrder : store.InKeyOrder before) (present : .null ∉ values)
    {fields : List Field}
    (next : deciding (ns.keySchema.take values.length) fields <+: ns.keySchema.drop values.length) :
    (store.inOrder ns (values ++ List.replicate count .null) ascending).Pairwise fun left right =>
      LexLe (direction before ascending) (ns.read left) (ns.read right) fields := by
  refine (inKeyOrder.inOrder present).imp fun {left right} both => ?_
  obtain ⟨ordered, agree⟩ := both
  exact (ordered.of_prefix next).of_deciding agree

theorem direction_trans (inKeyOrder : store.InKeyOrder before) (ascending : Bool) (first second third : Datum)
    (one : direction before ascending first second) (two : direction before ascending second third) :
    direction before ascending first third := by
  cases ascending with
  | true => exact inKeyOrder.transitive _ _ _ one two
  | false => exact inKeyOrder.transitive _ _ _ two one

end

end Scads.Piql
