import Scads.Avro.JsonParser

namespace Scads.Avro.JsonObject

/-! # What a JSON text says about a record

A text is a tree.  Here its conversion follows the tree, so that the value of a member
cannot depend on what is around it.
-/

inductive Json (Double : Type) where
  | string (text : String)
  | number (number : Int)
  | float (number : Double)
  | boolean (value : Bool)
  | null
  | array (elements : List (Json Double))
  | object (members : List (String × Json Double))

section

variable {Double : Type}

namespace Json

def scalar : Json Double → Bool
  | .array _ => false
  | .object _ => false
  | _ => true

def firstToken : Json Double → JsonToken Double
  | .string text => .valueString text
  | .number value => .valueNumberInt value
  | .float value => .valueNumberFloat value
  | .boolean value => if value then .valueTrue else .valueFalse
  | .null => .valueNull
  | .array _ => .startArray
  | .object _ => .startObject

def lastToken : Json Double → JsonToken Double
  | .array _ => .endArray
  | .object _ => .endObject
  | json => json.firstToken

end Json

mutual

/-- The tokens of a value.  Its first and its last one have the name of the member that
it is the value of, if it is not an element of an array. -/
def tokens (name : Option String) : Json Double → List (Token Double)
  | .array elements => ⟨.startArray, name⟩ :: (elementTokens elements ++ [⟨.endArray, name⟩])
  | .object members => ⟨.startObject, name⟩ :: (memberTokens members ++ [⟨.endObject, name⟩])
  | json => [⟨json.firstToken, name⟩]

def elementTokens : List (Json Double) → List (Token Double)
  | [] => []
  | element :: rest => tokens none element ++ elementTokens rest

def memberTokens : List (String × Json Double) → List (Token Double)
  | [] => []
  | (name, json) :: rest => ⟨.fieldName name, some name⟩ :: (tokens (some name) json ++ memberTokens rest)

end

variable (classes : String → Option RecordClass)

/-- The class of the records that a value of this schema may be: of the schema itself or
of the first record of a union. -/
def recordOf (schema : Schema) : Option (String × RecordClass) :=
  ((schema :: schema.getTypes).find? (·.getType = .record)).bind fun subSchema =>
    (classes (className subSchema)).map fun recordClass => (className subSchema, recordClass)

def elementType? : Schema → Option Schema
  | .array elementType => some elementType
  | _ => none

/-- Every field is nullable or the name of a member. -/
def complete (recordClass : RecordClass) (members : List (String × Json Double)) : Bool :=
  recordClass.fields.all fun field => canBe field.schema .null || members.any (·.1 = field.name)

mutual

/-- The value of a field of this schema, if there is one. -/
def convert (schema : Schema) : Json Double → Option (Value Double)
  | .string text => if canBe schema .string then some (.utf8 text) else none
  | .number number =>
      if canBe schema .long then if -2 ^ 63 ≤ number ∧ number < 2 ^ 63 then some (.long number) else none
      else if canBe schema .int then if -2 ^ 31 ≤ number ∧ number < 2 ^ 31 then some (.int number) else none
      else none
  | .float number => if canBe schema .double then some (.double number) else none
  | .boolean value => if canBe schema .boolean then some (.boolean value) else none
  | .null => if canBe schema .null then some .null else none
  | .array elements =>
      match elementType? schema with
      | none => none
      | some elementType => (convertElements elementType elements).map .array
  | .object members =>
      match recordOf classes schema with
      | none => none
      | some found =>
          match if complete found.2 members then convertMembers found.2 members found.2.newInstance else none with
          | some values => some (.record found.1 values)
          | none => if canBe schema .null then some .null else none

def convertElements (elementType : Schema) : List (Json Double) → Option (List (Value Double))
  | [] => some []
  | element :: rest =>
      match convert elementType element with
      | none => none
      | some value => (convertElements elementType rest).map (value :: ·)

/-- The record after the members have been put into it, each into the field of its name. -/
def convertMembers (recordClass : RecordClass) :
    List (String × Json Double) → List (Value Double) → Option (List (Value Double))
  | [], record => some record
  | (name, json) :: rest, record =>
      match recordClass.getField (some name) with
      | none => none
      | some found =>
          match convert found.1.schema json with
          | none => none
          | some value => convertMembers recordClass rest (record.set found.2 value)

end

def convertRecord (recordClass : RecordClass) (members : List (String × Json Double)) : Option (List (Value Double)) :=
  if complete recordClass members then convertMembers classes recordClass members recordClass.newInstance else none

theorem convert_object (schema : Schema) (members : List (String × Json Double)) :
    convert classes schema (.object members) = (recordOf classes schema).bind fun found =>
      (convertRecord classes found.2 members).elim (if canBe schema .null then some .null else none) fun values =>
        some (.record found.1 values) := by
  rw [convert]
  cases recordOf classes schema with
  | none => rfl
  | some found =>
      simp only [Option.bind_some, convertRecord]
      cases (if complete found.2 members then convertMembers classes found.2 members found.2.newInstance else none) with
      | none => rfl
      | some values => rfl

/-- All members are known and can be converted, but the last one may be unknown if it
is not an object or an array. -/
def ReadToEnd (recordClass : RecordClass) : List (String × Json Double) → Prop
  | [] => True
  | (name, json) :: rest =>
      match recordClass.getField (some name) with
      | none => rest = [] ∧ json.scalar = true
      | some found => (convert classes found.1.schema json).isSome = true ∧ ReadToEnd recordClass rest

mutual

/-- Every object in the place of a nullable record is read to its end, among those that
come before the first failure. -/
def Orderly (schema : Schema) : Json Double → Prop
  | .array elements => ∀ elementType, elementType? schema = some elementType → OrderlyElements elementType elements
  | .object members => ∀ found, recordOf classes schema = some found →
      OrderlyMembers found.2 members ∧ (canBe schema .null = true → ReadToEnd classes found.2 members)
  | _ => True

def OrderlyElements (elementType : Schema) : List (Json Double) → Prop
  | [] => True
  | element :: rest => Orderly elementType element ∧
      ((convert classes elementType element).isSome = true → OrderlyElements elementType rest)

def OrderlyMembers (recordClass : RecordClass) : List (String × Json Double) → Prop
  | [] => True
  | (name, json) :: rest => ∀ found, recordClass.getField (some name) = some found →
      Orderly found.1.schema json ∧
        ((convert classes found.1.schema json).isSome = true → OrderlyMembers recordClass rest)

end

end

section

variable {Double : Type} {classes : String → Option RecordClass} {schema : Schema} {json : Json Double}
  {recordClass : RecordClass} {fieldname : String} {name : Option String}

theorem tokens_scalar (scalar : json.scalar = true) :
    tokens name json = [⟨json.firstToken, name⟩] ∧ json.lastToken = json.firstToken := by
  cases json with
  | array elements => cases scalar
  | object members => cases scalar
  | _ => exact ⟨rfl, rfl⟩

theorem firstToken_scalar (scalar : json.scalar = true) :
    json.firstToken ≠ .startObject ∧ json.firstToken ≠ .startArray := by
  cases json with
  | array elements => cases scalar
  | object members => cases scalar
  | boolean value => cases value <;> simp [Json.firstToken]
  | _ => simp [Json.firstToken]

theorem firstToken_start (json : Json Double) : json.firstToken ≠ .endObject ∧ json.firstToken ≠ .endArray := by
  cases json with
  | boolean value => cases value <;> simp [Json.firstToken]
  | _ => simp [Json.firstToken]

/-- A value begins with its first token. -/
theorem tokens_cons (name : Option String) (json : Json Double) :
    ∃ rest, tokens name json = ⟨json.firstToken, name⟩ :: rest := by
  cases json with
  | array elements => exact ⟨_, rfl⟩
  | object members => exact ⟨_, rfl⟩
  | _ => exact ⟨[], rfl⟩

/-- One token is converted as the value that it stands for. -/
theorem scalarValue_firstToken (scalar : json.scalar = true) :
    (scalarValue schema fieldname (some json.firstToken)).toOption = convert classes schema json := by
  cases json with
  | array elements => cases scalar
  | object members => cases scalar
  | string text =>
      simp only [scalarValue, Json.firstToken, convert]
      split_ifs <;> rfl
  | number value =>
      simp only [scalarValue, Json.firstToken, convert, getLongValue, getIntValue]
      split_ifs <;> rfl
  | float value =>
      simp only [scalarValue, Json.firstToken, convert]
      split_ifs <;> rfl
  | boolean value =>
      cases value with
      | false =>
          simp only [scalarValue, Json.firstToken, convert, Bool.false_eq_true, if_false]
          split_ifs <;> rfl
      | true =>
          simp only [scalarValue, Json.firstToken, convert, if_true]
          split_ifs <;> rfl
  | null =>
      simp only [scalarValue, Json.firstToken, convert]
      split_ifs <;> rfl

theorem subRecordClass_iff {found : String × RecordClass} :
    (canBe schema .record = true ∧ (subRecordClass classes schema : Except (JsonException Double) _) = .ok found) ↔
      recordOf classes schema = some found := by
  cases schema with
  | record space name =>
      have itself : (subRecordSchema (.record space name) : Except (JsonException Double) _) =
          .ok (.record space name) := rfl
      have first : recordOf classes (.record space name) =
          (classes (className (.record space name))).map fun recordClass =>
            (className (.record space name), recordClass) := rfl
      rw [canBe_record, subRecordClass, itself, first]
      cases loaded : classes (className (.record space name)) with
      | none => simp [bind, Except.bind, loaded]
      | some recordClass => simp [bind, Except.bind, loaded, pure, Except.pure]
  | union types =>
      have branches : recordOf classes (.union types) = (types.find? (·.getType = .record)).bind fun subSchema =>
          (classes (className subSchema)).map fun recordClass => (className subSchema, recordClass) := rfl
      rw [canBe_union types .record (by decide), branches]
      cases branch : types.find? (·.getType = .record) with
      | none => simp
      | some subSchema =>
          have first : (subRecordSchema (.union types) : Except (JsonException Double) _) = .ok subSchema := by
            rw [subRecordSchema, Schema.getType_union, Schema.getTypes_union, if_neg (by decide), if_pos rfl, branch]
          rw [subRecordClass, first]
          cases loaded : classes (className subSchema) with
          | none => simp [bind, Except.bind, loaded]
          | some recordClass => simp [bind, Except.bind, loaded, pure, Except.pure]
  | _ => exact iff_of_false (fun both => by cases both.1) (fun some => by cases some)

theorem length_missingFields (members : List (String × Json Double)) :
    ((members.map Prod.fst).foldl List.erase recordClass.missingFields).length > 0 ↔
      complete recordClass members = false := by
  have unique : recordClass.missingFields.Nodup := recordClass.unique.sublist ((List.filter_sublist).map _)
  rw [← List.diff_eq_foldl, gt_iff_lt, List.length_pos_iff_exists_mem, complete, List.all_eq_false]
  simp only [unique.mem_sdiff_iff]
  constructor
  · intro missing
    obtain ⟨name, required, absent⟩ := missing
    obtain ⟨field, isRequired, rfl⟩ := List.mem_map.mp required
    obtain ⟨member, notNull⟩ := List.mem_filter.mp isRequired
    refine ⟨field, member, ?_⟩
    have nowhere : ∀ entry ∈ members, entry.1 ≠ field.name := fun entry inside same =>
      absent (same ▸ List.mem_map_of_mem inside)
    have none : members.any (fun entry => decide (entry.1 = field.name)) = false :=
      List.any_eq_false.mpr fun entry inside => by simpa using nowhere entry inside
    rw [none, Bool.or_false, Bool.not_eq_true]
    simpa using notNull
  · intro missing
    obtain ⟨field, member, lacking⟩ := missing
    simp only [Bool.or_eq_true, not_or, Bool.not_eq_true, List.any_eq_false, decide_eq_true_eq] at lacking
    refine ⟨field.name, List.mem_map_of_mem (List.mem_filter.mpr ⟨member, by simp [lacking.1]⟩), fun inside => ?_⟩
    obtain ⟨entry, among, same⟩ := List.mem_map.mp inside
    exact lacking.2 entry among same

/-- With this fuel the tokens of a value are read as the value, whatever is behind them. -/
def ValueRead (classes : String → Option RecordClass) (fuel : Nat) (schema : Schema) (json : Json Double) : Prop :=
  ∀ fieldname name rest,
    (∀ value, convert classes schema json = some value →
      parseValue classes fuel schema fieldname (tokens name json ++ rest) =
        .ok value (⟨json.lastToken, name⟩ :: rest)) ∧
    (convert classes schema json = none → ∃ exception next, exception ≠ .outOfFuel ∧
      parseValue classes fuel schema fieldname (tokens name json ++ rest) = .error exception next)

def ElementsRead (classes : String → Option RecordClass) (fuel : Nat) (schema : Schema)
    (elements : List (Json Double)) : Prop :=
  ∀ fieldname first name array rest,
    (∀ values, convertElements classes schema elements = some values →
      parseElements classes fuel schema fieldname array
        (first :: (elementTokens elements ++ ⟨.endArray, name⟩ :: rest)) =
        .ok (array ++ values) (⟨.endArray, name⟩ :: rest)) ∧
    (convertElements classes schema elements = none → ∃ exception next, exception ≠ .outOfFuel ∧
      parseElements classes fuel schema fieldname array
        (first :: (elementTokens elements ++ ⟨.endArray, name⟩ :: rest)) =
        .error exception next)

def MembersRead (classes : String → Option RecordClass) (fuel : Nat) (recordClass : RecordClass)
    (members : List (String × Json Double)) : Prop :=
  ∀ first name record missingFields rest,
    (∀ values, convertMembers classes recordClass members record = some values →
      parseRecord classes fuel recordClass record missingFields
          (first :: (memberTokens members ++ ⟨.endObject, name⟩ :: rest)) =
        .ok (if ((members.map Prod.fst).foldl List.erase missingFields).length > 0 then none else some values)
          (⟨.endObject, name⟩ :: rest)) ∧
    (convertMembers classes recordClass members record = none → ∃ next,
      parseRecord classes fuel recordClass record missingFields
          (first :: (memberTokens members ++ ⟨.endObject, name⟩ :: rest)) = .ok none next ∧
        (ReadToEnd classes recordClass members → next = ⟨.endObject, name⟩ :: rest))

/-- This fuel is enough for all trees with so many tokens whose objects are read to their end. -/
structure TreesRead (Double : Type) (classes : String → Option RecordClass) (fuel : Nat) : Prop where
  value : ∀ schema (json : Json Double), Orderly classes schema json → 2 * (tokens none json).length ≤ fuel + 1 →
    ValueRead classes fuel schema json
  elements : ∀ schema (elements : List (Json Double)), OrderlyElements classes schema elements →
    2 * (elementTokens elements).length + 1 ≤ fuel → ElementsRead classes fuel schema elements
  members : ∀ recordClass (members : List (String × Json Double)), OrderlyMembers classes recordClass members →
    2 * (memberTokens members).length + 1 ≤ fuel → MembersRead classes fuel recordClass members

variable {fuel : Nat}

theorem TreesRead.elements_succ {elements : List (Json Double)} (trees : TreesRead Double classes fuel)
    (orderly : OrderlyElements classes schema elements) (enough : 2 * (elementTokens elements).length ≤ fuel) :
    ElementsRead classes (fuel + 1) schema elements := by
  intro fieldname first name array rest
  cases elements with
  | nil =>
      refine ⟨fun values converted => ?_, fun failed => ?_⟩
      · rw [convertElements, Option.some_inj] at converted
        rw [← converted, List.append_nil]
        exact parseElements_end rfl
      · cases failed
  | cons element elements =>
      obtain ⟨tail, begins⟩ := tokens_cons none element
      rw [elementTokens, List.length_append] at enough
      have length : (tokens none element).length = tail.length + 1 := by rw [begins, List.length_cons]
      rw [OrderlyElements] at orderly
      have value := trees.value schema element orderly.1 (by omega) fieldname none
        (elementTokens elements ++ ⟨.endArray, name⟩ :: rest)
      have more : getCurrentToken (nextToken (first :: (elementTokens (element :: elements) ++
          ⟨.endArray, name⟩ :: rest))) ≠ some .endArray := by
        rw [elementTokens, begins]
        simp [getCurrentToken, nextToken, (firstToken_start element).2]
      have next : nextToken (first :: (elementTokens (element :: elements) ++ ⟨.endArray, name⟩ :: rest)) =
          tokens none element ++ (elementTokens elements ++ ⟨.endArray, name⟩ :: rest) := by
        rw [elementTokens, List.append_assoc]
        rfl
      rw [convertElements]
      cases converted : convert classes schema element with
      | none =>
          refine ⟨fun values impossible => (by cases impossible), fun _ => ?_⟩
          obtain ⟨exception, last, fuelled, threw⟩ := value.2 converted
          exact ⟨exception, last, fuelled, parseElements_throws more (next ▸ threw)⟩
      | some found =>
          have parsed := value.1 found converted
          have remaining := trees.elements schema elements (orderly.2 (by rw [converted]; rfl)) (by omega) fieldname
            ⟨element.lastToken, none⟩ name (array ++ [found]) rest
          rw [parseElements_value more (next ▸ parsed)]
          refine ⟨fun values whole => ?_, fun failed => ?_⟩
          · obtain ⟨last, others, same⟩ := Option.map_eq_some_iff.mp whole
            rw [← same, List.append_cons array found last]
            exact remaining.1 last others
          · exact remaining.2 (Option.map_eq_none_iff.mp failed)

theorem TreesRead.array_succ {items : List (Json Double)} (trees : TreesRead Double classes fuel)
    (orderly : Orderly classes schema (.array items)) (enough : 2 * (tokens none (.array items)).length ≤ fuel + 2) :
    ValueRead classes (fuel + 1) schema (.array items) := by
  intro fieldname name rest
  have current : getCurrentToken (tokens name (.array items) ++ rest) = some .startArray := rfl
  rw [convert]
  cases isSchema : elementType? schema with
  | none =>
      refine ⟨fun values impossible => (by cases impossible), fun _ => ?_⟩
      obtain ⟨exception, fuelled, threw⟩ := @parseValue_noArray _ classes fuel _ schema fieldname current
        fun elementType same => by
          subst same
          cases isSchema
      exact ⟨exception, _, fuelled, threw⟩
  | some elementType =>
      have same : schema = .array elementType := by
        cases schema <;> cases isSchema
        rfl
      simp only [tokens, List.length_cons, List.length_append, List.length_nil] at enough
      rw [Orderly] at orderly
      have read := trees.elements elementType items (orderly elementType isSchema) (by omega) fieldname
        ⟨.startArray, name⟩ name [] rest
      have split : tokens name (.array items) ++ rest =
          ⟨.startArray, name⟩ :: (elementTokens items ++ ⟨.endArray, name⟩ :: rest) := by
        simp [tokens]
      rw [parseValue_array current same, split]
      refine ⟨fun value whole => ?_, fun failed => ?_⟩
      · obtain ⟨values, converted, rfl⟩ := Option.map_eq_some_iff.mp whole
        rw [read.1 values converted]
        rfl
      · obtain ⟨exception, next, fuelled, threw⟩ := read.2 (Option.map_eq_none_iff.mp failed)
        rw [threw]
        exact ⟨exception, next, fuelled, rfl⟩

/-- `parseRecord` gives the record of the tree, and ends at the end of the object if there is one
or if the members are read to their end. -/
theorem record_read {members : List (String × Json Double)} (read : MembersRead classes fuel recordClass members)
    (first : Token Double) (name : Option String) (rest : List (Token Double)) :
    ∃ next, parseRecord classes fuel recordClass recordClass.newInstance recordClass.missingFields
        (first :: (memberTokens members ++ ⟨.endObject, name⟩ :: rest)) =
          .ok (convertRecord classes recordClass members) next ∧
      ((convertRecord classes recordClass members).isSome = true ∨ ReadToEnd classes recordClass members →
        next = ⟨.endObject, name⟩ :: rest) := by
  have read := read first name recordClass.newInstance recordClass.missingFields rest
  have missing := @length_missingFields _ recordClass members
  rw [convertRecord]
  cases converted : convertMembers classes recordClass members recordClass.newInstance with
  | some values =>
      refine ⟨_, (read.1 values converted).trans ?_, fun _ => rfl⟩
      cases whole : complete recordClass members with
      | true => rw [if_neg (by rw [missing, whole]; decide), if_pos rfl]
      | false => rw [if_pos (missing.mpr whole), if_neg Bool.false_ne_true]
  | none =>
      obtain ⟨next, stopped, toEnd⟩ := read.2 converted
      have nothing : (if complete recordClass members = true then (none : Option (List (Value Double))) else none) =
          none := ite_self _
      rw [nothing]
      exact ⟨next, stopped, fun either => toEnd (either.resolve_left (by simp))⟩

theorem TreesRead.object_succ {entries : List (String × Json Double)} (trees : TreesRead Double classes fuel)
    (orderly : Orderly classes schema (.object entries))
    (enough : 2 * (tokens none (.object entries)).length ≤ fuel + 2) :
    ValueRead classes (fuel + 1) schema (.object entries) := by
  intro fieldname name rest
  have current : getCurrentToken (tokens name (.object entries) ++ rest) = some .startObject := rfl
  rw [convert_object]
  cases found : recordOf classes schema with
  | none =>
      refine ⟨fun values impossible => (by cases impossible), fun _ => ?_⟩
      obtain ⟨exception, fuelled, threw⟩ := @parseValue_noObject _ classes fuel _ schema fieldname current
        fun allowed other same => by
          rw [subRecordClass_iff.mp ⟨allowed, same⟩] at found
          cases found
      exact ⟨exception, _, fuelled, threw⟩
  | some found' =>
      obtain ⟨subName, subClass⟩ := found'
      obtain ⟨allowed, loaded⟩ := (@subRecordClass_iff Double _ _ _).mpr found
      simp only [tokens, List.length_cons, List.length_append, List.length_nil] at enough
      rw [Orderly] at orderly
      obtain ⟨inside, toEnd⟩ := orderly _ found
      obtain ⟨next, read, ends⟩ :=
        record_read (trees.members subClass entries inside (by omega)) ⟨.startObject, name⟩ name rest
      have split : tokens name (.object entries) ++ rest =
          ⟨.startObject, name⟩ :: (memberTokens entries ++ ⟨.endObject, name⟩ :: rest) := by
        simp [tokens]
      rw [parseValue_object current allowed loaded, split, read]
      rw [Option.bind_some]
      cases converted : convertRecord classes subClass entries with
      | some values =>
          rw [ends (.inl (by rw [converted]; rfl))]
          refine ⟨fun value same => ?_, fun failed => (by cases failed)⟩
          cases same
          rfl
      | none =>
          simp only []
          split_ifs with nullable
          · rw [ends (.inr (toEnd nullable))]
            refine ⟨fun value same => ?_, fun failed => (by cases failed)⟩
            cases same
            rfl
          · exact ⟨fun value impossible => (by cases impossible), fun _ => ⟨_, next, by simp, rfl⟩⟩

theorem TreesRead.value_succ (trees : TreesRead Double classes fuel) (orderly : Orderly classes schema json)
    (enough : 2 * (tokens none json).length ≤ fuel + 2) : ValueRead classes (fuel + 1) schema json := by
  intro fieldname name rest
  by_cases scalar : json.scalar = true
  · obtain ⟨whole, last⟩ := @tokens_scalar _ json name scalar
    have start := firstToken_scalar scalar
    have same := @scalarValue_firstToken _ classes schema json fieldname scalar
    have current : getCurrentToken (tokens name json ++ rest) = some json.firstToken := by rw [whole]; rfl
    rw [parseValue_scalar (by simp [current, start.1]) (by simp [current, start.2]), current, ← same, whole, last]
    cases found : scalarValue schema fieldname (some json.firstToken) with
    | ok value =>
        refine ⟨fun found converted => ?_, fun failed => (by cases failed)⟩
        cases converted
        rfl
    | error exception =>
        refine ⟨fun found converted => (by cases converted), fun _ => ?_⟩
        exact ⟨exception, _, fun same => scalarValue_fuelled (same ▸ found), rfl⟩
  · cases json with
    | array items => exact trees.array_succ orderly enough fieldname name rest
    | object entries => exact trees.object_succ orderly enough fieldname name rest
    | _ => exact absurd rfl scalar

theorem getField_some {name : String} {found : Field × Nat} (known : recordClass.getField (some name) = some found) :
    recordClass.fields[found.2]? = some found.1 := by
  have member := List.mem_of_find?_eq_some known
  exact List.mem_zipIdx_iff_getElem?.mp member

section

variable {members : List (String × Json Double)} {record values : List (Value Double)}

end

end

end Scads.Avro.JsonObject
