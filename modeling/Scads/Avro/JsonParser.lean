import Mathlib.Algebra.Group.Int.Defs
import Mathlib.Data.List.Nodup

namespace Scads.Avro.JsonObject

/-! # Records from JSON texts

The conversion reads the tokens of a Jackson parser.  Its calls share the parser, and
a call that returns early or throws leaves the parser where it is.
-/

inductive SchemaType where
  | record
  | enum
  | array
  | map
  | union
  | fixed
  | string
  | bytes
  | int
  | long
  | float
  | double
  | boolean
  | null
deriving DecidableEq, Repr

inductive Schema where
  | record (space name : String)
  | array (elementType : Schema)
  | union (types : List Schema)
  | enum
  | map
  | fixed
  | string
  | bytes
  | int
  | long
  | float
  | double
  | boolean
  | null
deriving Repr

namespace Schema

def getType : Schema → SchemaType
  | record _ _ => .record
  | array _ => .array
  | union _ => .union
  | enum => .enum
  | map => .map
  | fixed => .fixed
  | string => .string
  | bytes => .bytes
  | int => .int
  | long => .long
  | float => .float
  | double => .double
  | boolean => .boolean
  | null => .null

/-- The branches of a union. -/
def getTypes : Schema → List Schema
  | union types => types
  | _ => []

@[simp] theorem getType_union (types : List Schema) : (union types).getType = .union := rfl

@[simp] theorem getTypes_union (types : List Schema) : (union types).getTypes = types := rfl

end Schema

def canBe (schema : Schema) (fieldType : SchemaType) : Bool :=
  if fieldType = schema.getType then true
  else if schema.getType = .union ∧ (schema.getTypes.find? (·.getType = fieldType)).isSome then true
  else false

theorem canBe_record (space name : String) : canBe (.record space name) .record = true := rfl

theorem canBe_union (types : List Schema) (fieldType : SchemaType) (inner : fieldType ≠ .union) :
    canBe (.union types) fieldType = (types.find? (·.getType = fieldType)).isSome := by
  rw [canBe, Schema.getType_union, Schema.getTypes_union, if_neg inner]
  cases types.find? (·.getType = fieldType) with
  | none => rfl
  | some found => rfl

structure Field where
  name : String
  schema : Schema
deriving Repr

/-- A class of records, with the fields of its schema. -/
structure RecordClass where
  fields : List Field
  unique : (fields.map Field.name).Nodup

/-- A value of a record.  Records hold theirs in the order of the fields. -/
inductive Value (Double : Type) where
  | null
  | boolean (value : Bool)
  | int (value : Int)
  | long (value : Int)
  | double (value : Double)
  | utf8 (text : String)
  | array (elements : List (Value Double))
  | record (className : String) (values : List (Value Double))

namespace RecordClass

/-- The field of this name, with its position. -/
def getField (recordClass : RecordClass) (fieldname : Option String) : Option (Field × Nat) :=
  recordClass.fields.zipIdx.find? fun entry => some entry.1.name = fieldname

/-- A new record: what is nullable is null, and the other fields have to be set. -/
def newInstance {Double : Type} (recordClass : RecordClass) : List (Value Double) :=
  List.replicate recordClass.fields.length .null

/-- The names of the fields that are not nullable. -/
def missingFields (recordClass : RecordClass) : List String :=
  (recordClass.fields.filter fun field => !canBe field.schema .null).map Field.name

end RecordClass

inductive JsonToken (Double : Type) where
  | startObject
  | endObject
  | startArray
  | endArray
  | fieldName (name : String)
  | valueString (text : String)
  | valueNumberInt (number : Int)
  | valueNumberFloat (number : Double)
  | valueTrue
  | valueFalse
  | valueNull
deriving DecidableEq, Repr

structure Token (Double : Type) where
  token : JsonToken Double
  currentName : Option String
deriving DecidableEq, Repr

/-- The tokens from the current one on.  There is none at the end of the text. -/
abbrev JsonParser (Double : Type) := List (Token Double)

inductive JsonException (Double : Type) where
  | runtime (message : String)
  | classNotFound (className : String)
  | notAnArraySchema (schema : Schema)
  | outOfRange (number : Int)
  | unexpected (fieldname : String) (found : Option (JsonToken Double)) (expected : Schema)
  | outOfFuel
deriving Repr

section

variable {Double : Type}

def nextToken (parser : JsonParser Double) : JsonParser Double := parser.tail

def getCurrentToken (parser : JsonParser Double) : Option (JsonToken Double) := parser.head?.map Token.token

def getCurrentName (parser : JsonParser Double) : Option String := parser.head?.bind Token.currentName

def getLongValue (number : Int) : Except (JsonException Double) Int :=
  if -2 ^ 63 ≤ number ∧ number < 2 ^ 63 then .ok number else .error (.outOfRange number)

def getIntValue (number : Int) : Except (JsonException Double) Int :=
  if -2 ^ 31 ≤ number ∧ number < 2 ^ 31 then .ok number else .error (.outOfRange number)

/-- The cases of `parseValue` that read one token. -/
def scalarValue (schema : Schema) (fieldname : String) (found : Option (JsonToken Double)) :
    Except (JsonException Double) (Value Double) :=
  let unexp := .error (.unexpected fieldname found schema)
  match found with
  | some (.valueString text) => if canBe schema .string then .ok (.utf8 text) else unexp
  | some (.valueNumberInt number) =>
      if canBe schema .long then .long <$> getLongValue number
      else if canBe schema .int then .int <$> getIntValue number
      else unexp
  | some (.valueNumberFloat number) => if canBe schema .double then .ok (.double number) else unexp
  | some .valueTrue => if canBe schema .boolean then .ok (.boolean true) else unexp
  | some .valueFalse => if canBe schema .boolean then .ok (.boolean false) else unexp
  | some .valueNull => if canBe schema .null then .ok .null else unexp
  | _ => unexp

def subRecordSchema (schema : Schema) : Except (JsonException Double) Schema :=
  if schema.getType = .record then .ok schema
  else if schema.getType = .union then
    match schema.getTypes.find? (·.getType = .record) with
    | some subSchema => .ok subSchema
    | none => .error (.runtime "Unexpected subrecord")
  else .error (.runtime "Unexpected sub record")

/-- `schema.getNamespace + "." + schema.getName` -/
def className : Schema → String
  | .record space name => space ++ "." ++ name
  | _ => ""

/-- `Class.forName` -/
def subRecordClass (classes : String → Option RecordClass) (schema : Schema) :
    Except (JsonException Double) (String × RecordClass) := do
  let subSchema ← subRecordSchema schema
  match classes (className subSchema) with
  | some recordClass => return (className subSchema, recordClass)
  | none => .error (.classNotFound (className subSchema))

/-- `new GenericData.Array` and `schema.getElementType`: both need the schema of an array. -/
def elementTypeOf : Schema → Except (JsonException Double) Schema
  | .array elementType => .ok elementType
  | schema => .error (.notAnArraySchema schema)

variable (classes : String → Option RecordClass)

mutual

def parseValue : Nat → Schema → String → JsonParser Double →
    EStateM.Result (JsonException Double) (JsonParser Double) (Value Double)
  | 0, _, _, parser => .error .outOfFuel parser
  | fuel + 1, schema, fieldname, parser =>
      match getCurrentToken parser with
      | some .startObject =>
          if canBe schema .record then
            match subRecordClass classes schema with
            | .error exception => .error exception parser
            | .ok found =>
                match parseRecord fuel found.2 found.2.newInstance found.2.missingFields parser with
                | .error exception next => .error exception next
                | .ok (some subRecord) next => .ok (.record found.1 subRecord) next
                | .ok none next =>
                    if canBe schema .null then .ok .null next
                    else .error (.runtime "Record cannot be null") next
          else .error (.unexpected fieldname (some .startObject) schema) parser
      | some .startArray =>
          if canBe schema .array then
            match elementTypeOf schema with
            | .error exception => .error exception parser
            | .ok elementType =>
                match parseElements fuel elementType fieldname [] parser with
                | .error exception next => .error exception next
                | .ok elements next => .ok (.array elements) next
          else .error (.unexpected fieldname (some .startArray) schema) parser
      | found =>
          match scalarValue schema fieldname found with
          | .error exception => .error exception parser
          | .ok value => .ok value parser

/-- The loop of `parseRecord`, with the record so far and `missingFields`. -/
def parseRecord : Nat → RecordClass → List (Value Double) → List String → JsonParser Double →
    EStateM.Result (JsonException Double) (JsonParser Double) (Option (List (Value Double)))
  | 0, _, _, _, parser => .error .outOfFuel parser
  | fuel + 1, recordClass, record, missingFields, parser =>
      let parser := nextToken parser
      match getCurrentToken parser with
      | some .endObject => .ok (if missingFields.length > 0 then none else some record) parser
      | _ =>
          match recordClass.getField (getCurrentName parser) with
          | none => .ok none (nextToken (nextToken parser))
          | some found =>
              match parseValue fuel found.1.schema found.1.name (nextToken parser) with
              | .error .outOfFuel next => .error .outOfFuel next
              | .error _ next => .ok none next
              | .ok value next =>
                  parseRecord fuel recordClass (record.set found.2 value) (missingFields.erase found.1.name) next

/-- The loop of `parseValue` over an array, with the elements so far. -/
def parseElements : Nat → Schema → String → List (Value Double) → JsonParser Double →
    EStateM.Result (JsonException Double) (JsonParser Double) (List (Value Double))
  | 0, _, _, _, parser => .error .outOfFuel parser
  | fuel + 1, elementType, fieldname, array, parser =>
      let parser := nextToken parser
      match getCurrentToken parser with
      | some .endArray => .ok array parser
      | _ =>
          match parseValue fuel elementType fieldname parser with
          | .error exception next => .error exception next
          | .ok value next => parseElements fuel elementType fieldname (array ++ [value]) next

end

theorem scalarValue_fuelled {schema : Schema} {fieldname : String} {found : Option (JsonToken Double)} :
    scalarValue schema fieldname found ≠ .error .outOfFuel := by
  cases found with
  | none => simp [scalarValue]
  | some token =>
      cases token with
      | valueNumberInt number =>
          simp only [scalarValue, getLongValue, getIntValue]
          split_ifs <;> simp
      | valueString text =>
          simp only [scalarValue]
          split_ifs <;> simp
      | valueNumberFloat number =>
          simp only [scalarValue]
          split_ifs <;> simp
      | valueTrue =>
          simp only [scalarValue]
          split_ifs <;> simp
      | valueFalse =>
          simp only [scalarValue]
          split_ifs <;> simp
      | valueNull =>
          simp only [scalarValue]
          split_ifs <;> simp
      | _ => simp [scalarValue]

theorem subRecordClass_fuelled {classes : String → Option RecordClass} {schema : Schema} :
    subRecordClass classes schema ≠ .error (JsonException.outOfFuel : JsonException Double) := by
  rw [subRecordClass, subRecordSchema]
  split_ifs with isRecord isUnion
  · cases found : classes (className schema) with
    | none => simp [bind, Except.bind, found]
    | some recordClass => simp [bind, Except.bind, found, pure, Except.pure]
  · cases schema.getTypes.find? (·.getType = .record) with
    | none => simp [bind, Except.bind]
    | some subSchema =>
        cases found : classes (className subSchema) with
        | none => simp [bind, Except.bind, found]
        | some recordClass => simp [bind, Except.bind, found, pure, Except.pure]
  · simp [bind, Except.bind]

section

variable {classes : String → Option RecordClass} {fuel : Nat} {recordClass : RecordClass} {record : List (Value Double)}
  {missingFields : List String} {parser next : JsonParser Double} {field : Field} {pos : Nat} {schema : Schema}
  {fieldname : String} {array : List (Value Double)} {value : Value Double} {exception : JsonException Double}

attribute [local simp] parseValue parseRecord parseElements

theorem parseRecord_end (ends : getCurrentToken (nextToken parser) = some .endObject) :
    parseRecord classes (fuel + 1) recordClass record missingFields parser =
      .ok (if missingFields.length > 0 then none else some record) (nextToken parser) := by
  simp [ends]

theorem parseRecord_unknown (more : getCurrentToken (nextToken parser) ≠ some .endObject)
    (unknown : recordClass.getField (getCurrentName (nextToken parser)) = none) :
    parseRecord classes (fuel + 1) recordClass record missingFields parser =
      .ok none (nextToken (nextToken (nextToken parser))) := by
  rw [parseRecord]
  split
  · contradiction
  · simp only [unknown]

theorem parseRecord_value (more : getCurrentToken (nextToken parser) ≠ some .endObject)
    (known : recordClass.getField (getCurrentName (nextToken parser)) = some (field, pos))
    (parsed : parseValue classes fuel field.schema field.name (nextToken (nextToken parser)) = .ok value next) :
    parseRecord classes (fuel + 1) recordClass record missingFields parser =
      parseRecord classes fuel recordClass (record.set pos value) (missingFields.erase field.name) next := by
  rw [parseRecord]
  split
  · contradiction
  · simp only [known, parsed]

theorem parseRecord_throws (more : getCurrentToken (nextToken parser) ≠ some .endObject)
    (known : recordClass.getField (getCurrentName (nextToken parser)) = some (field, pos))
    (threw : parseValue classes fuel field.schema field.name (nextToken (nextToken parser)) = .error exception next)
    (fuelled : exception ≠ .outOfFuel) :
    parseRecord classes (fuel + 1) recordClass record missingFields parser = .ok none next := by
  rw [parseRecord]
  split
  · contradiction
  · simp only [known, threw]

theorem parseRecord_fuel (more : getCurrentToken (nextToken parser) ≠ some .endObject)
    (known : recordClass.getField (getCurrentName (nextToken parser)) = some (field, pos))
    (threw : parseValue classes fuel field.schema field.name (nextToken (nextToken parser)) = .error .outOfFuel next) :
    parseRecord classes (fuel + 1) recordClass record missingFields parser = .error .outOfFuel next := by
  rw [parseRecord]
  split
  · contradiction
  · simp only [known, threw]

theorem parseElements_end (ends : getCurrentToken (nextToken parser) = some .endArray) :
    parseElements classes (fuel + 1) schema fieldname array parser = .ok array (nextToken parser) := by
  simp [ends]

theorem parseElements_value (more : getCurrentToken (nextToken parser) ≠ some .endArray)
    (parsed : parseValue classes fuel schema fieldname (nextToken parser) = .ok value next) :
    parseElements classes (fuel + 1) schema fieldname array parser =
      parseElements classes fuel schema fieldname (array ++ [value]) next := by
  rw [parseElements]
  split
  · contradiction
  · simp only [parsed]

theorem parseElements_throws (more : getCurrentToken (nextToken parser) ≠ some .endArray)
    (threw : parseValue classes fuel schema fieldname (nextToken parser) = .error exception next) :
    parseElements classes (fuel + 1) schema fieldname array parser = .error exception next := by
  rw [parseElements]
  split
  · contradiction
  · simp only [threw]

/-- An object where there may be a record of a class that is found. -/
theorem parseValue_object {name : String} (isObject : getCurrentToken parser = some .startObject)
    (allowed : canBe schema .record = true)
    (found : (subRecordClass classes schema : Except (JsonException Double) _) = .ok (name, recordClass)) :
    parseValue classes (fuel + 1) schema fieldname parser =
      match parseRecord classes fuel recordClass recordClass.newInstance recordClass.missingFields parser with
      | .error exception next => .error exception next
      | .ok (some subRecord) next => .ok (.record name subRecord) next
      | .ok none next =>
          if canBe schema .null then .ok .null next else .error (.runtime "Record cannot be null") next := by
  simp [isObject, allowed, found]

/-- An object that cannot be a record. -/
theorem parseValue_noObject (isObject : getCurrentToken parser = some .startObject)
    (refused : canBe schema .record = true →
      ∀ found, (subRecordClass classes schema : Except (JsonException Double) _) ≠ .ok found) :
    ∃ exception, exception ≠ .outOfFuel ∧
      parseValue classes (fuel + 1) schema fieldname parser = .error exception parser := by
  by_cases allowed : canBe schema .record = true
  · cases found : (subRecordClass classes schema : Except (JsonException Double) _) with
    | error exception =>
        refine ⟨exception, fun same => subRecordClass_fuelled (same ▸ found), ?_⟩
        simp only [parseValue, isObject, allowed, if_true, found]
    | ok other => exact absurd found (refused allowed other)
  · refine ⟨.unexpected fieldname (some .startObject) schema, by simp, ?_⟩
    simp only [parseValue, isObject, allowed]
    rfl

theorem parseValue_array {elementType : Schema} (isArray : getCurrentToken parser = some .startArray)
    (isSchema : schema = .array elementType) :
    parseValue classes (fuel + 1) schema fieldname parser =
      match parseElements classes fuel elementType fieldname [] parser with
      | .error exception next => .error exception next
      | .ok elements next => .ok (.array elements) next := by
  subst isSchema
  simp only [parseValue, isArray, elementTypeOf]
  rfl

theorem parseValue_noArray (isArray : getCurrentToken parser = some .startArray)
    (refused : ∀ elementType, schema ≠ .array elementType) :
    ∃ exception, exception ≠ .outOfFuel ∧
      parseValue classes (fuel + 1) schema fieldname parser = .error exception parser := by
  have threw : elementTypeOf schema = .error (.notAnArraySchema schema : JsonException Double) := by
    cases schema with
    | array elementType => exact absurd rfl (refused elementType)
    | _ => rfl
  by_cases allowed : canBe schema .array = true
  · refine ⟨.notAnArraySchema schema, by simp, ?_⟩
    simp only [parseValue, isArray, allowed, if_true, threw]
  · refine ⟨.unexpected fieldname (some .startArray) schema, by simp, ?_⟩
    simp only [parseValue, isArray, allowed]
    rfl

theorem parseValue_scalar (isObject : getCurrentToken parser ≠ some .startObject)
    (isArray : getCurrentToken parser ≠ some .startArray) :
    parseValue classes (fuel + 1) schema fieldname parser =
      match scalarValue schema fieldname (getCurrentToken parser) with
      | .error exception => .error exception parser
      | .ok value => .ok value parser := by
  rw [parseValue]
  split
  · contradiction
  · contradiction
  · rfl

end

/-- The call ends, and the parser has moved on at most. -/
inductive Ends {α : Type} (parser : JsonParser Double) :
    EStateM.Result (JsonException Double) (JsonParser Double) α → Prop where
  | ok {value : α} {next : JsonParser Double} (shorter : next.length ≤ parser.length) : Ends parser (.ok value next)
  | error {exception : JsonException Double} {next : JsonParser Double} (fuelled : exception ≠ .outOfFuel)
      (shorter : next.length ≤ parser.length) : Ends parser (.error exception next)

theorem Ends.later {α : Type} {parser next : JsonParser Double}
    {result : EStateM.Result (JsonException Double) (JsonParser Double) α} (ends : Ends next result)
    (shorter : next.length ≤ parser.length) : Ends parser result := by
  cases ends with
  | ok less => exact .ok (Nat.le_trans less shorter)
  | error fuelled less => exact .error fuelled (Nat.le_trans less shorter)

theorem getField_none (recordClass : RecordClass) : recordClass.getField none = none := by
  simp [RecordClass.getField]

/-- The calls with this fuel end where the parser has so many tokens left. -/
structure ParseEnds (Double : Type) (classes : String → Option RecordClass) (fuel : Nat) : Prop where
  value : ∀ schema fieldname (parser : JsonParser Double), 2 * parser.length + 1 ≤ fuel →
    Ends parser (parseValue classes fuel schema fieldname parser)
  record : ∀ recordClass record missingFields (parser : JsonParser Double), 2 * parser.length ≤ fuel → 1 ≤ fuel →
    Ends parser (parseRecord classes fuel recordClass record missingFields parser)
  elements : ∀ schema fieldname array (parser : JsonParser Double), 2 * parser.length ≤ fuel → 2 ≤ fuel →
    Ends parser (parseElements classes fuel schema fieldname array parser)

section

variable {classes : String → Option RecordClass} {fuel : Nat}

theorem ParseEnds.record_succ (calls : ParseEnds Double classes fuel)
    {recordClass : RecordClass} {record : List (Value Double)} {missingFields : List String}
    {parser : JsonParser Double} (enough : 2 * parser.length ≤ fuel + 1) :
    Ends parser (parseRecord classes (fuel + 1) recordClass record missingFields parser) := by
  have first : (nextToken parser).length = parser.length - 1 := List.length_tail
  have second : (nextToken (nextToken parser)).length = (nextToken parser).length - 1 := List.length_tail
  have third : (nextToken (nextToken (nextToken parser))).length = (nextToken (nextToken parser)).length - 1 :=
    List.length_tail
  by_cases ends : getCurrentToken (nextToken parser) = some .endObject
  · rw [parseRecord_end ends]
    exact .ok (by omega)
  · cases known : recordClass.getField (getCurrentName (nextToken parser)) with
    | none =>
        rw [parseRecord_unknown ends known]
        exact .ok (by omega)
    | some found =>
        obtain ⟨field, pos⟩ := found
        -- A token with a name is there to go on from.
        have longer : 2 ≤ parser.length := by
          by_contra short
          have nothing : nextToken parser = [] := List.length_eq_zero_iff.mp (by omega)
          rw [nothing, getCurrentName, List.head?_nil, Option.bind_none, getField_none] at known
          cases known
        have ended := calls.value field.schema field.name (nextToken (nextToken parser)) (by omega)
        cases parsed : parseValue classes fuel field.schema field.name (nextToken (nextToken parser)) with
        | ok value next =>
            rw [parsed] at ended
            cases ended with
            | ok shorter =>
                rw [parseRecord_value ends known parsed]
                exact (calls.record _ _ _ next (by omega) (by omega)).later (by omega)
        | error exception next =>
            rw [parsed] at ended
            cases ended with
            | error fuelled shorter =>
                rw [parseRecord_throws ends known parsed fuelled]
                exact .ok (by omega)

theorem parseValue_nil {schema : Schema} {fieldname : String} :
    parseValue classes fuel schema fieldname ([] : JsonParser Double) =
      .error (if fuel = 0 then .outOfFuel else .unexpected fieldname none schema) [] := by
  cases fuel with
  | zero => rfl
  | succ fuel => rfl

theorem ParseEnds.elements_succ (calls : ParseEnds Double classes fuel) {schema : Schema} {fieldname : String}
    {array : List (Value Double)} {parser : JsonParser Double}
    (enough : 2 * parser.length ≤ fuel + 1) (fuelled : 1 ≤ fuel) :
    Ends parser (parseElements classes (fuel + 1) schema fieldname array parser) := by
  have first : (nextToken parser).length = parser.length - 1 := List.length_tail
  by_cases ends : getCurrentToken (nextToken parser) = some .endArray
  · rw [parseElements_end ends]
    exact .ok (by omega)
  · have ended := calls.value schema fieldname (nextToken parser) (by omega)
    cases parsed : parseValue classes fuel schema fieldname (nextToken parser) with
    | ok value next =>
        rw [parsed] at ended
        cases ended with
        | ok shorter =>
            have longer : nextToken parser ≠ [] := by
              intro nothing
              rw [nothing, parseValue_nil] at parsed
              cases parsed
            have positive := List.length_pos_iff.mpr longer
            rw [parseElements_value ends parsed]
            exact (calls.elements _ _ _ next (by omega) (by omega)).later (by omega)
    | error exception next =>
        rw [parsed] at ended
        cases ended with
        | error other shorter =>
            rw [parseElements_throws ends parsed]
            exact .error other (by omega)

theorem ParseEnds.value_succ (calls : ParseEnds Double classes fuel) {schema : Schema} {fieldname : String}
    {parser : JsonParser Double} (enough : 2 * parser.length ≤ fuel) :
    Ends parser (parseValue classes (fuel + 1) schema fieldname parser) := by
  have nonempty : ∀ token, getCurrentToken parser = some token → 1 ≤ parser.length := by
    intro token found
    cases parser with
    | nil => cases found
    | cons first rest => simp
  by_cases isObject : getCurrentToken parser = some .startObject
  · have room := nonempty _ isObject
    by_cases allowed : canBe schema .record = true ∧
        ∃ found, (subRecordClass classes schema : Except (JsonException Double) _) = .ok found
    · obtain ⟨allowed, ⟨name, recordClass⟩, found⟩ := allowed
      have ended := calls.record recordClass recordClass.newInstance recordClass.missingFields parser enough
        (by omega)
      rw [parseValue_object isObject allowed found]
      cases parsed : parseRecord classes fuel recordClass recordClass.newInstance recordClass.missingFields parser with
      | error exception next =>
          rw [parsed] at ended
          cases ended with
          | error fuelled shorter => exact .error fuelled shorter
      | ok record next =>
          rw [parsed] at ended
          cases ended with
          | ok shorter =>
              cases record with
              | some subRecord => exact .ok shorter
              | none =>
                  simp only []
                  split_ifs
                  · exact .ok shorter
                  · exact .error (by simp) shorter
    · obtain ⟨exception, fuelled, threw⟩ := @parseValue_noObject Double classes fuel parser schema fieldname isObject
        fun canRecord found same => allowed ⟨canRecord, found, same⟩
      rw [threw]
      exact .error fuelled (Nat.le_refl _)
  · by_cases isArray : getCurrentToken parser = some .startArray
    · have room := nonempty _ isArray
      by_cases isSchema : ∃ elementType, schema = .array elementType
      · obtain ⟨elementType, isSchema⟩ := isSchema
        have ended := calls.elements elementType fieldname [] parser enough (by omega)
        rw [parseValue_array isArray isSchema]
        cases parsed : parseElements classes fuel elementType fieldname [] parser with
        | error exception next =>
            rw [parsed] at ended
            cases ended with
            | error fuelled shorter => exact .error fuelled shorter
        | ok array next =>
            rw [parsed] at ended
            cases ended with
            | ok shorter => exact .ok shorter
      · obtain ⟨exception, fuelled, threw⟩ := @parseValue_noArray Double classes fuel parser schema fieldname isArray
          fun elementType same => isSchema ⟨elementType, same⟩
        rw [threw]
        exact .error fuelled (Nat.le_refl _)
    · rw [parseValue_scalar isObject isArray]
      cases found : scalarValue schema fieldname (getCurrentToken parser) with
      | error exception => exact .error (fun same => scalarValue_fuelled (same ▸ found)) (Nat.le_refl _)
      | ok value => exact .ok (Nat.le_refl _)

end

/-- Wherever the parser is, twice its tokens are fuel enough. -/
theorem parse_ends (classes : String → Option RecordClass) (fuel : Nat) : ParseEnds Double classes fuel := by
  induction fuel with
  | zero => exact ⟨fun _ _ _ enough => by omega, fun _ _ _ _ _ enough => by omega, fun _ _ _ _ _ enough => by omega⟩
  | succ fuel calls =>
      exact {
        value := fun schema fieldname parser enough => calls.value_succ (by omega)
        record := fun recordClass record missingFields parser enough _ => calls.record_succ enough
        elements := fun schema fieldname array parser enough more => calls.elements_succ enough (by omega) }

/-- The loop of `parseRecord` throws only for want of fuel. -/
theorem parseRecord_error {classes : String → Option RecordClass} {fuel : Nat} {recordClass : RecordClass}
    {record : List (Value Double)} {missingFields : List String} {parser next : JsonParser Double}
    {exception : JsonException Double}
    (threw : parseRecord classes fuel recordClass record missingFields parser = .error exception next) :
    exception = .outOfFuel := by
  induction fuel generalizing record missingFields parser with
  | zero =>
      cases threw
      rfl
  | succ fuel ih =>
      by_cases ends : getCurrentToken (nextToken parser) = some .endObject
      · rw [parseRecord_end ends] at threw
        cases threw
      · cases known : recordClass.getField (getCurrentName (nextToken parser)) with
        | none =>
            rw [parseRecord_unknown ends known] at threw
            cases threw
        | some found =>
            obtain ⟨field, pos⟩ := found
            cases parsed : parseValue classes fuel field.schema field.name (nextToken (nextToken parser)) with
            | ok value next =>
                rw [parseRecord_value ends known parsed] at threw
                exact ih threw
            | error other next =>
                by_cases fuelled : other = .outOfFuel
                · subst fuelled
                  rw [parseRecord_fuel ends known parsed] at threw
                  cases threw
                  rfl
                · rw [parseRecord_throws ends known parsed fuelled] at threw
                  cases threw

/-- The conversion always ends with a record or without one. -/
theorem toAvro_returns {classes : String → Option RecordClass} (recordClass : RecordClass) {parser : JsonParser Double}
    (nonempty : parser ≠ []) :
    ∃ record next, parseRecord classes (2 * parser.length) recordClass recordClass.newInstance
      recordClass.missingFields parser = .ok record next := by
  have positive := List.length_pos_iff.mpr nonempty
  have ends := (parse_ends classes (2 * parser.length)).record recordClass recordClass.newInstance
    recordClass.missingFields parser (Nat.le_refl _) (by omega)
  cases parsed : parseRecord classes (2 * parser.length) recordClass recordClass.newInstance
    recordClass.missingFields parser with
  | ok record next => exact ⟨record, next, rfl⟩
  | error exception next =>
      rw [parsed] at ends
      cases ends with
      | error fuelled shorter => exact absurd (parseRecord_error parsed) fuelled

end

end Scads.Avro.JsonObject
