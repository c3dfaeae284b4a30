import Mathlib.Data.List.Forall2
import Scads.Data.SecondaryIndex
import Scads.Util.RangeTable

namespace Scads.Client

open Scads.Data Scads.Comm Scads.Util

/-! # Index entries

A namespace of pairs keeps each of its indexes in a namespace of its own, whose
keys are the index entries.  An entry lists the indexed fields of a pair, one
token each for the token indexes, and then the rest of its key.
-/

/-- A field of an Avro record with the text of its schema. -/
structure Field where
  name : String
  schema : String
deriving DecidableEq, Repr

def Field.isString (field : Field) : Bool := field.schema = "\"string\""

/-- The two halves of a pair class.  The class has each field once. -/
structure PairSchema where
  keyFields : List Field
  valueFields : List Field
  distinct : ((keyFields ++ valueFields).map Field.name).Nodup
deriving DecidableEq

inductive Datum (D : Type) where
  | utf8 (text : String)
  | other (value : D)
deriving DecidableEq, Repr

/-- An Avro record by the positions of its fields. -/
abbrev IndexedRecord (D : Type) := List (Datum D)

def Datum.Fits {D : Type} (field : Field) : Datum D → Prop
  | .utf8 _ => True
  | .other _ => field.isString = false

def Conforms {D : Type} (fields : List Field) (record : IndexedRecord D) : Prop :=
  List.Forall₂ Datum.Fits fields record

/-- The keys and the values of the pairs of a namespace. -/
def PairKey (schema : PairSchema) (D : Type) := { record : IndexedRecord D // Conforms schema.keyFields record }

def PairValue (schema : PairSchema) (D : Type) :=
  { record : IndexedRecord D // Conforms schema.valueFields record }

instance {schema : PairSchema} {D : Type} [DecidableEq D] : DecidableEq (PairKey schema D) :=
  inferInstanceAs (DecidableEq { record : IndexedRecord D // Conforms schema.keyFields record })

inductive IndexType where
  | attributeIndex (fieldName : String)
  | tokenIndex (fieldNames : List String)
deriving DecidableEq, Repr

section

variable {D : Type} (schema : PairSchema)

def showSeq (names : List String) : String := "List(" ++ ", ".intercalate names ++ ")"

def invalidFieldName (name : String) : Failure := .illegalArgument ("Invalid field name: " ++ name)

/-- The checks of `createIndex` on a field that a token index covers. -/
def checkTokenField (fieldNames : List String) (fieldName : String) : Except Failure Unit :=
  match schema.valueFields.find? (·.name = fieldName) with
  | none => .error (invalidFieldName (showSeq fieldNames))
  | some field =>
      if field.isString then .ok ()
      else .error (.illegalArgument ("Can't build token index over field " ++ showSeq fieldNames ++
        " of type " ++ field.schema ++ "."))

def checkIndexType : IndexType → Except Failure Unit
  | .attributeIndex fieldName =>
      if fieldName ∈ (schema.keyFields ++ schema.valueFields).map Field.name then .ok ()
      else .error (invalidFieldName fieldName)
  | .tokenIndex fieldNames => fieldNames.forM (checkTokenField schema fieldNames)

def attrFieldNames (fields : List IndexType) : List String :=
  fields.filterMap fun
    | .attributeIndex fieldName => some fieldName
    | .tokenIndex _ => none

/-- `createIndex`: the definition of an index gets the fields of the key that it lacks. -/
def createIndex (fields : List IndexType) : Except Failure (List IndexType) := do
  fields.forM (checkIndexType schema)
  let suffixFields := schema.keyFields.filter fun field => field.name ∉ attrFieldNames fields
  return fields ++ suffixFields.map fun field => .attributeIndex field.name

/-- The definition of an index that was created over the pairs of a namespace. -/
structure IndexDefinition where
  fields : List IndexType
  created : ∃ given, createIndex schema given = .ok fields

def getValue (key value : IndexedRecord D) (fieldName : String) : Except Failure (Datum D) :=
  match schema.keyFields.findIdx? (·.name = fieldName) with
  | some pos => elementAt key pos
  | none =>
      match schema.valueFields.findIdx? (·.name = fieldName) with
      | some pos => elementAt value pos
      | none => .error .nullPointer

def asUtf8 : Datum D → Except Failure String
  | .utf8 text => .ok text
  | .other _ => .error (.classCast "cannot be cast to org.apache.avro.util.Utf8")

/-- The non-empty parts between the blanks of a text. -/
def tokens (text : String) : List String :=
  ((text.toList.splitOn ' ').filter fun token => !token.isEmpty).map String.ofList

variable [DecidableEq D]

/-- The values that a field of an index takes for a pair. -/
def valuesOf (key value : IndexedRecord D) : IndexType → Except Failure (List (Datum D))
  | .attributeIndex fieldName => do return [← getValue schema key value fieldName]
  | .tokenIndex fieldNames => do
      let texts ← fieldNames.mapM fun fieldName => do asUtf8 (← getValue schema key value fieldName)
      return ((texts.flatMap tokens).map Datum.utf8).eraseDups

def buildRecords (key value : IndexedRecord D) :
    List IndexType → List (IndexedRecord D) → Except Failure (List (IndexedRecord D))
  | [], records => .ok records
  | field :: rest, records => do
      let values ← valuesOf schema key value field
      buildRecords key value rest (values.flatMap fun v => records.map fun r => r ++ [v])

def makeIndexFor (key value : IndexedRecord D) (mapping : List IndexType) :
    Except Failure (List (IndexedRecord D)) :=
  buildRecords schema key value mapping [[]]

end

theorem forM_ok {α : Type} {check : α → Except Failure Unit} {values : List α}
    (passed : values.forM check = .ok ()) : ∀ value ∈ values, check value = .ok () := by
  induction values with
  | nil => simp
  | cons first rest ih =>
      change (check first >>= fun _ => rest.forM check) = .ok () at passed
      obtain ⟨result, checked, remaining⟩ := bind_eq_ok.mp passed
      intro value member
      rcases List.mem_cons.mp member with rfl | member
      · exact checked
      · exact ih remaining value member

theorem elementAt_natCast {α : Type} {values : List α} {pos : Nat} (within : pos < values.length) :
    elementAt values pos = .ok values[pos] := by
  have nonneg : ¬ ((pos : Int) < 0) := by omega
  simp [elementAt, nonneg, within]

section

variable {D : Type} [DecidableEq D] {schema : PairSchema} {key value : IndexedRecord D}

theorem createIndex_ok {given fields : List IndexType} (created : createIndex schema given = .ok fields) :
    (∀ index ∈ given, checkIndexType schema index = .ok ()) ∧
      fields = given ++ (schema.keyFields.filter fun field => field.name ∉ attrFieldNames given).map
        fun field => .attributeIndex field.name := by
  obtain ⟨result, checked, built⟩ := bind_eq_ok.mp created
  cases built
  exact ⟨forM_ok checked, rfl⟩

theorem mem_attrFieldNames {fields : List IndexType} {name : String} :
    name ∈ attrFieldNames fields ↔ .attributeIndex name ∈ fields := by
  simp only [attrFieldNames, List.mem_filterMap]
  constructor
  · intro found
    obtain ⟨index, member, same⟩ := found
    cases index with
    | attributeIndex fieldName => cases same; exact member
    | tokenIndex fieldNames => cases same
  · exact fun member => ⟨_, member, rfl⟩

/-- A created index contains the whole key. -/
theorem IndexDefinition.key_mem (definition : IndexDefinition schema) {field : Field}
    (member : field ∈ schema.keyFields) : .attributeIndex field.name ∈ definition.fields := by
  obtain ⟨given, created⟩ := definition.created
  rw [(createIndex_ok created).2, List.mem_append]
  by_cases listed : field.name ∈ attrFieldNames given
  · exact .inl (mem_attrFieldNames.mp listed)
  · exact .inr (List.mem_map_of_mem (List.mem_filter.mpr ⟨member, by simpa using listed⟩))

theorem IndexDefinition.checked (definition : IndexDefinition schema) {index : IndexType}
    (member : index ∈ definition.fields) : checkIndexType schema index = .ok () := by
  obtain ⟨given, created⟩ := definition.created
  obtain ⟨checked, built⟩ := createIndex_ok created
  rw [built, List.mem_append] at member
  rcases member with member | member
  · exact checked index member
  · obtain ⟨field, kept, rfl⟩ := List.mem_map.mp member
    refine if_pos (List.mem_map_of_mem (List.mem_append_left _ ?_))
    exact (List.mem_filter.mp kept).1

theorem findIdx_name {fields : List Field} (distinct : (fields.map Field.name).Nodup) {pos : Nat}
    (within : pos < fields.length) : fields.findIdx? (·.name = fields[pos].name) = some pos := by
  rw [List.findIdx?_eq_some_iff_getElem]
  refine ⟨within, by simp, fun other below => ?_⟩
  have different := List.nodup_iff_injective_get.mp distinct
  simp only [decide_eq_true_eq]
  intro same
  have equal := @different ⟨other, by simp; omega⟩ ⟨pos, by simpa using within⟩ (by simpa using same)
  simp at equal
  omega

theorem PairSchema.distinct_keys (schema : PairSchema) : (schema.keyFields.map Field.name).Nodup := by
  have distinct := schema.distinct
  rw [List.map_append] at distinct
  exact distinct.of_append_left

theorem PairSchema.distinct_values (schema : PairSchema) : (schema.valueFields.map Field.name).Nodup := by
  have distinct := schema.distinct
  rw [List.map_append] at distinct
  exact distinct.of_append_right

omit [DecidableEq D] in
theorem getValue_key {pos : Nat} (within : pos < schema.keyFields.length) :
    getValue schema key value schema.keyFields[pos].name = elementAt key pos := by
  rw [getValue, findIdx_name schema.distinct_keys within]

omit [DecidableEq D] in
theorem getValue_value {pos : Nat} (within : pos < schema.valueFields.length) :
    getValue schema key value schema.valueFields[pos].name = elementAt value pos := by
  have apart : schema.keyFields.findIdx? (·.name = schema.valueFields[pos].name) = none := by
    have distinct := schema.distinct
    rw [List.map_append, List.nodup_append] at distinct
    rw [List.findIdx?_eq_none_iff]
    intro field member
    simpa using distinct.2.2 _ (List.mem_map_of_mem member) _
      (List.mem_map_of_mem (List.getElem_mem within))
  rw [getValue, apart, findIdx_name schema.distinct_values within]

omit [DecidableEq D] in
/-- The datum of a field fits the schema of the field. -/
theorem Conforms.elementAt {fields : List Field} {record : IndexedRecord D} (fits : Conforms fields record)
    {pos : Nat} (within : pos < fields.length) :
    ∃ datum, Util.elementAt record pos = .ok datum ∧ datum.Fits fields[pos] := by
  have bound : pos < record.length := fits.length_eq ▸ within
  refine ⟨record[pos], elementAt_natCast bound, ?_⟩
  exact List.Forall₂.get fits within bound

omit [DecidableEq D] in
theorem getValue_ok (keyFits : Conforms schema.keyFields key)
    (valueFits : Conforms schema.valueFields value) {name : String}
    (known : name ∈ (schema.keyFields ++ schema.valueFields).map Field.name) :
    ∃ datum, getValue schema key value name = .ok datum := by
  rw [List.map_append, List.mem_append] at known
  rcases known with known | known
  · obtain ⟨field, member, rfl⟩ := List.mem_map.mp known
    obtain ⟨pos, within, rfl⟩ := List.mem_iff_getElem.mp member
    obtain ⟨datum, found, _⟩ := keyFits.elementAt within
    exact ⟨datum, by rw [getValue_key within, found]⟩
  · obtain ⟨field, member, rfl⟩ := List.mem_map.mp known
    obtain ⟨pos, within, rfl⟩ := List.mem_iff_getElem.mp member
    obtain ⟨datum, found, _⟩ := valueFits.elementAt within
    exact ⟨datum, by rw [getValue_value within, found]⟩

omit [DecidableEq D] in
theorem token_text (key : IndexedRecord D) (valueFits : Conforms schema.valueFields value)
    {names : List String} {name : String}
    (checked : checkTokenField schema names name = .ok ()) :
    ∃ text, (getValue schema key value name >>= asUtf8) = .ok text := by
  rw [checkTokenField] at checked
  split at checked
  · cases checked
  · rename_i field found
    split at checked
    · rename_i string
      have same : field.name = name := by simpa using List.find?_some found
      obtain ⟨pos, within, rfl⟩ := List.mem_iff_getElem.mp (List.mem_of_find?_eq_some found)
      obtain ⟨datum, located, fits⟩ := valueFits.elementAt within
      rw [← same, getValue_value within, located, ok_bind]
      cases datum with
      | utf8 text => exact ⟨text, rfl⟩
      | other datum => exact absurd fits (by simp [Datum.Fits, string])
    · cases checked

theorem mapM_ok {ε α β : Type} {f : α → Except ε β} {values : List α}
    (each : ∀ value ∈ values, ∃ result, f value = .ok result) : ∃ results, values.mapM f = .ok results := by
  induction values with
  | nil => exact ⟨[], rfl⟩
  | cons first rest ih =>
      obtain ⟨result, computed⟩ := each first (by simp)
      obtain ⟨results, others⟩ := ih fun value member => each value (by simp [member])
      exact ⟨result :: results, by simp [List.mapM_cons, computed, others]⟩

/-- A field of a created index has values, each once, for every pair. -/
theorem valuesOf_ok (keyFits : Conforms schema.keyFields key)
    (valueFits : Conforms schema.valueFields value) {index : IndexType}
    (checked : checkIndexType schema index = .ok ()) :
    ∃ values, valuesOf schema key value index = .ok values ∧ values.Nodup := by
  cases index with
  | attributeIndex name =>
      simp only [checkIndexType] at checked
      split at checked
      · rename_i known
        obtain ⟨datum, found⟩ := getValue_ok keyFits valueFits known
        exact ⟨[datum], by simp [valuesOf, found], List.nodup_singleton datum⟩
      · cases checked
  | tokenIndex names =>
      obtain ⟨texts, read⟩ := mapM_ok fun name member =>
        token_text key valueFits (forM_ok checked name member)
      refine ⟨((texts.flatMap tokens).map Datum.utf8).eraseDups, ?_, nodup_eraseDups _⟩
      simp only [valuesOf, read, ok_bind, pure_eq_ok]

omit [DecidableEq D] in
theorem nodup_extended {values : List (Datum D)} {records : List (IndexedRecord D)} (each : values.Nodup)
    (distinct : records.Nodup) : (values.flatMap fun v => records.map fun r => r ++ [v]).Nodup := by
  rw [List.nodup_flatMap]
  constructor
  · exact fun v _ => distinct.map fun first second same => (List.append_inj' same rfl).1
  · refine each.imp fun different record left right => ?_
    obtain ⟨first, _, rfl⟩ := List.mem_map.mp left
    obtain ⟨second, _, same⟩ := List.mem_map.mp right
    exact different (List.cons.inj (List.append_inj' same rfl).2).1.symm

/-- The records that are built extend the given ones by one value of each field. -/
theorem buildRecords_ok {mapping : List IndexType} {records : List (IndexedRecord D)}
    (values : ∀ index ∈ mapping, ∃ values, valuesOf schema key value index = .ok values ∧ values.Nodup)
    (distinct : records.Nodup) :
    ∃ built, buildRecords schema key value mapping records = .ok built ∧ built.Nodup ∧
      ∀ entry ∈ built, ∃ record ∈ records, ∃ rest, entry = record ++ rest ∧
        List.Forall₂ (fun index datum =>
          ∃ values, valuesOf schema key value index = .ok values ∧ datum ∈ values) mapping rest := by
  induction mapping generalizing records with
  | nil =>
      exact ⟨records, rfl, distinct, fun entry member => ⟨entry, member, [], by simp, .nil⟩⟩
  | cons index mapping ih =>
      obtain ⟨choices, found, each⟩ := values index (by simp)
      obtain ⟨built, computed, nodup, shape⟩ :=
        ih (fun other member => values other (by simp [member])) (nodup_extended each distinct)
      refine ⟨built, by simp [buildRecords, found, computed], nodup, fun entry member => ?_⟩
      obtain ⟨extended, among, rest, rfl, fields⟩ := shape entry member
      obtain ⟨v, chosen, within⟩ := List.mem_flatMap.mp among
      obtain ⟨record, known, rfl⟩ := List.mem_map.mp within
      exact ⟨record, known, v :: rest, by simp, .cons ⟨choices, found, chosen⟩ fields⟩

variable (definition : IndexDefinition schema)

theorem makeIndexFor_built (pairKey : PairKey schema D) (pairValue : PairValue schema D) :
    ∃ built, makeIndexFor schema pairKey.1 pairValue.1 definition.fields = .ok built ∧ built.Nodup ∧
      ∀ entry ∈ built, List.Forall₂ (fun index datum =>
        ∃ values, valuesOf schema pairKey.1 pairValue.1 index = .ok values ∧ datum ∈ values)
        definition.fields entry := by
  obtain ⟨built, computed, nodup, shape⟩ := buildRecords_ok
    (fun index member => valuesOf_ok pairKey.2 pairValue.2 (definition.checked member))
    (List.nodup_singleton ([] : IndexedRecord D))
  refine ⟨built, computed, nodup, fun entry member => ?_⟩
  obtain ⟨record, among, rest, rfl, fields⟩ := shape entry member
  rw [List.mem_singleton.mp among]
  exact fields

/-- The index entries of a pair. -/
def IndexDefinition.entries (pairKey : PairKey schema D) (pairValue : PairValue schema D) :
    List (IndexedRecord D) :=
  match makeIndexFor schema pairKey.1 pairValue.1 definition.fields with
  | .ok entries => entries
  | .error _ => []

theorem makeIndexFor_eq (pairKey : PairKey schema D) (pairValue : PairValue schema D) :
    makeIndexFor schema pairKey.1 pairValue.1 definition.fields =
      .ok (definition.entries pairKey pairValue) := by
  obtain ⟨built, computed, _⟩ := makeIndexFor_built definition pairKey pairValue
  rw [IndexDefinition.entries, computed]

theorem entries_nodup (pairKey : PairKey schema D) (pairValue : PairValue schema D) :
    (definition.entries pairKey pairValue).Nodup := by
  obtain ⟨built, computed, nodup, _⟩ := makeIndexFor_built definition pairKey pairValue
  rw [IndexDefinition.entries, computed]
  exact nodup

/-- A pair yields an entry of an index. -/
def IndexDefinition.Yields (pairKey : PairKey schema D) (pairValue : PairValue schema D)
    (entry : IndexedRecord D) : Prop :=
  entry ∈ definition.entries pairKey pairValue

/-- The key can be read off an entry at the place of each of its fields. -/
theorem entry_key {definition : IndexDefinition schema} {pairKey : PairKey schema D}
    {pairValue : PairValue schema D} {entry : IndexedRecord D}
    (yielded : definition.Yields pairKey pairValue entry) {pos place : Nat}
    (within : pos < schema.keyFields.length) (listed : place < definition.fields.length)
    (same : definition.fields[place] = .attributeIndex schema.keyFields[pos].name) :
    entry[place]? = pairKey.1[pos]? := by
  obtain ⟨built, computed, _, shape⟩ := makeIndexFor_built definition pairKey pairValue
  rw [IndexDefinition.Yields, IndexDefinition.entries, computed] at yielded
  have fields := shape entry yielded
  have bound : place < entry.length := fields.length_eq ▸ listed
  obtain ⟨values, found, member⟩ := List.Forall₂.get fields listed bound
  have bounded : pos < pairKey.1.length := pairKey.2.length_eq ▸ within
  simp only [List.get_eq_getElem, same, valuesOf, getValue_key within, elementAt_natCast bounded, ok_bind,
    pure_eq_ok, Except.ok.injEq] at found
  rw [List.getElem?_eq_getElem bound, List.getElem?_eq_getElem bounded]
  subst found
  simpa using member

/-- No two keys have a common entry. -/
theorem yields_separate : Separate (@IndexDefinition.Yields D _ schema definition) := by
  intro first second firstValue secondValue entry left right
  apply Subtype.ext
  apply List.ext_getElem?
  intro pos
  by_cases within : pos < schema.keyFields.length
  · obtain ⟨place, listed, same⟩ := List.mem_iff_getElem.mp
      (definition.key_mem (List.getElem_mem within))
    rw [← entry_key left within listed same, entry_key right within listed same]
  · have short : ∀ pairKey : PairKey schema D, pairKey.1[pos]? = none := by
      intro pairKey
      have length := pairKey.2.length_eq
      exact List.getElem?_eq_none (by omega)
    rw [short, short]

end

end Scads.Client
