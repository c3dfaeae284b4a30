import Mathlib.Data.List.Perm.Subperm
import Scads.Piql.Compiled
import Scads.Piql.TupleBounds

namespace Scads.Piql

open Scads.Client Scads.Data

/-! # Keys of ranges

Which equalities of a range get into the key that is made for an index.
-/

namespace Optimizer

variable {range : IndexRange} {ns idx : TupleProvider} {key : KeyGenerator} {value : Value}

/-- The equalities that a key takes its values from: on each field the first. -/
def keyEqualities (range : IndexRange) : List AttributeEquality :=
  range.equalityPreds.filter fun equality =>
    range.equalityPreds.find? (·.field.name = equality.field.name) = some equality

/-- The key of a namespace covers the equalities. -/
def Covers (range : IndexRange) (ns : TupleProvider) : Prop :=
  ∀ equality ∈ range.equalityPreds, ∃ field ∈ ns.keySchema.take range.equalityPreds.length,
    field.name = equality.field.name

theorem mem_keyAttributes {attrs : List Value} {ns : TupleProvider} (contained : isPrefix attrs ns = .ok true)
    {value : Value} (member : value ∈ attrs) : value ∈ ns.keyAttributes.take attrs.length := by
  rw [isPrefix] at contained
  split at contained
  · cases contained
  · exact of_decide_eq_true (List.all_eq_true.mp (Except.ok.inj contained) value member)

/-- A relation's index begins with the fields that it is made for. -/
theorem index_ok {r idx : TupleProvider} {names : List String} (indexed : index r names = .ok idx) :
    idx.isRelation = false ∧ ∃ first rest, first.map Field.name = names ∧ idx.keySchema = first ++ rest := by
  obtain ⟨first, found, indexed⟩ := built_bind indexed
  dsimp only at indexed
  split at indexed
  · cases indexed
    refine ⟨rfl, first, _, ?_, rfl⟩
    have each := mapM_forall₂.mp found
    have same : List.Forall₂ (· = ·) names (first.map Field.name) := by
      refine List.forall₂_map_right_iff.mpr (each.imp fun name field here => ?_)
      split at here
      · rename_i other located
        cases here
        have named : field.name = name := by simpa using List.find?_some located
        exact named.symm
      · cases here
    exact (List.forall₂_eq_eq_eq ▸ same).symm
  · cases indexed

/-- The fields of a made key are as many as the equalities, and each has an equality. -/
theorem keyed_names (keyed : makeKeyGenerator ns range.equalityPreds = .ok key) :
    (ns.keySchema.take range.equalityPreds.length).map Field.name ⊆
      range.equalityPreds.map fun equality => equality.field.name := by
  intro name member
  obtain ⟨field, there, rfl⟩ := List.mem_map.mp member
  obtain ⟨value, -, equality, found, -⟩ := forall₂_mem_left (makeKeyGenerator_ok keyed) there
  exact List.mem_map.mpr ⟨equality, List.mem_of_find?_eq_some found, by simpa using List.find?_some found⟩

theorem keySchema_names_nodup (ns : TupleProvider) : (ns.keySchema.map Field.name).Nodup :=
  (List.nodup_append.mp (List.map_append ▸ ns.schema.distinct)).1

/-- Where the key fields are at least as many as the equalities, a key that has a value for each of its fields
has one for each equality. -/
theorem covers_of_keyed (keyed : makeKeyGenerator ns range.equalityPreds = .ok key)
    (enough : range.equalityPreds.length ≤ ns.keySchema.length) : Covers range ns := by
  have distinct : ((ns.keySchema.take range.equalityPreds.length).map Field.name).Nodup := by
    rw [List.map_take]
    exact (keySchema_names_nodup ns).sublist (List.take_sublist _ _)
  have fits := List.subperm_of_subset distinct (keyed_names keyed)
  have all := fits.perm_of_length_le (by
    rw [List.length_map, List.length_map, List.length_take]
    omega)
  intro equality member
  have named : equality.field.name ∈ range.equalityPreds.map fun equality => equality.field.name :=
    List.mem_map.mpr ⟨equality, member, rfl⟩
  obtain ⟨field, there, same⟩ := List.mem_map.mp (all.mem_iff.mpr named)
  exact ⟨field, there, same⟩

theorem covers_of_isPrefix {others : List Value}
    (contained : isPrefix (attributes range ++ others) range.relation = .ok true)
    (keyed : makeKeyGenerator range.relation range.equalityPreds = .ok key) : Covers range range.relation := by
  by_cases enough : range.equalityPreds.length ≤ range.relation.keySchema.length
  · exact covers_of_keyed keyed enough
  · intro equality member
    have isAttribute : .qualifiedAttribute range.relation equality.field ∈ attributes range ++ others :=
      List.mem_append_left _ (List.mem_map.mpr ⟨equality, member, rfl⟩)
    have inKey := List.mem_of_mem_take (mem_keyAttributes contained isAttribute)
    obtain ⟨field, there, same⟩ := List.mem_map.mp inKey
    obtain ⟨-, rfl⟩ := Value.qualifiedAttribute.inj same
    rw [List.take_of_length_le (by omega)]
    exact ⟨_, there, rfl⟩

theorem covers_of_index {others : List String} (indexed : index range.relation (fieldNames range ++ others) = .ok idx) :
    Covers range idx := by
  obtain ⟨-, first, rest, named, isKey⟩ := index_ok indexed
  have counted : range.equalityPreds.length ≤ first.length := by
    have lengths := congrArg List.length named
    simp only [fieldNames, List.length_map, List.length_append] at lengths
    omega
  have taken : (first.take range.equalityPreds.length).map Field.name = fieldNames range := by
    have length : (fieldNames range).length = range.equalityPreds.length := List.length_map _
    rw [List.map_take, named, List.take_left' length]
  intro equality member
  have inNames : equality.field.name ∈ (first.take range.equalityPreds.length).map Field.name := by
    rw [taken]
    exact List.mem_map.mpr ⟨equality, member, rfl⟩
  obtain ⟨field, there, same⟩ := List.mem_map.mp inNames
  refine ⟨field, ?_, same⟩
  rw [isKey, List.take_append_of_le_length counted]
  exact there

/-- A key is made of the values of first equalities. -/
theorem mem_keyEqualities_of_keyed (keyed : makeKeyGenerator ns range.equalityPreds = .ok key) (member : value ∈ key) :
    value ∈ (keyEqualities range).map AttributeEquality.value := by
  obtain ⟨field, -, equality, found, rfl⟩ := forall₂_mem_right (makeKeyGenerator_ok keyed) member
  have named : equality.field.name = field.name := by simpa using List.find?_some found
  refine List.mem_map.mpr ⟨equality, List.mem_filter.mpr ⟨List.mem_of_find?_eq_some found, ?_⟩, rfl⟩
  rw [named, found, decide_eq_true_eq]

/-- A key that covers the equalities has the values of all first ones. -/
theorem Covers.mem_keyed (covers : Covers range ns) (keyed : makeKeyGenerator ns range.equalityPreds = .ok key)
    (member : value ∈ (keyEqualities range).map AttributeEquality.value) : value ∈ key := by
  obtain ⟨equality, isFirst, rfl⟩ := List.mem_map.mp member
  obtain ⟨isEquality, first⟩ := List.mem_filter.mp isFirst
  obtain ⟨field, there, named⟩ := covers equality isEquality
  obtain ⟨value, inKey, other, found, rfl⟩ := forall₂_mem_left (makeKeyGenerator_ok keyed) there
  rw [named, of_decide_eq_true first] at found
  cases found
  exact inKey

/-- The equalities give every field of the primary key. -/
def FixesKey (range : IndexRange) : Prop :=
  ∀ field ∈ range.relation.keySchema, ∃ equality ∈ range.equalityPreds, equality.field.name = field.name

theorem FixesKey.fixes (fixes : FixesKey range) (covers : Covers range ns)
    (keyed : makeKeyGenerator ns range.equalityPreds = .ok key)
    (serves : ns = range.relation ∨ ∃ names, index range.relation names = .ok ns) : Fixes ns key.length := by
  refine ⟨range.relation, serves, fun field member => ?_⟩
  obtain ⟨equality, isEquality, named⟩ := fixes field member
  obtain ⟨other, there, same⟩ := covers equality isEquality
  rw [← (makeKeyGenerator_ok keyed).length_eq, List.length_take, ← List.take_eq_take_min]
  exact List.mem_map.mpr ⟨other, there, same.trans named⟩

/-- A range without an ordering is fetched by its equalities alone. -/
theorem Fetches.unordered {primary secondary : TupleProvider → KeyGenerator → QueryPlan} {result : QueryPlan}
    (fetches : Fetches range (attributes range) (fieldNames range) primary secondary result) :
    Fetches range (attributes range ++ []) (fieldNames range ++ []) primary secondary result := by
  rw [List.append_nil, List.append_nil]
  exact fetches

/-- What holds of both indexes of a range holds of the one that is chosen. -/
@[elab_as_elim]
theorem Fetches.cases_on {others : List Value} {otherNames : List String}
    {primary secondary : TupleProvider → KeyGenerator → QueryPlan} {holds : QueryPlan → Prop} {result : QueryPlan}
    (fetches : Fetches range (attributes range ++ others) (fieldNames range ++ otherNames) primary secondary result)
    (first : ∀ key, isPrefix (attributes range ++ others) range.relation = .ok true →
      makeKeyGenerator range.relation range.equalityPreds = .ok key → Covers range range.relation →
      holds (primary range.relation key))
    (second : ∀ idx key reference,
      isPrefix (attributes range ++ others) range.relation = .ok false →
      (∃ names, index range.relation names = .ok idx) → makeKeyGenerator idx range.equalityPreds = .ok key →
      Covers range idx → List.Forall₂ (Reference idx) range.relation.keySchema reference →
      holds (.indexLookupJoin range.relation reference (secondary idx key))) : holds result := by
  cases fetches with
  | primary contained keyed => exact first _ contained keyed (covers_of_isPrefix contained keyed)
  | secondary other indexed keyed refers =>
      exact second _ _ _ other ⟨_, indexed⟩ keyed (covers_of_index indexed) refers

end Optimizer

end Scads.Piql
