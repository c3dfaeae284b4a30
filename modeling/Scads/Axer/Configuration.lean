import Scads.Axer.RoundTrips
import Mathlib.Data.List.Nodup

namespace Scads.Axer

open Scads.Data
open Scads.Comm (ok_bind error_bind pure_eq_ok bind_eq_ok)
open AxerDatumReader (setAvroSchema setAxerSchema setExpected)
open AxerDatumWriter (writeRecord)

/-! # Readers that are configured more than once

The entries for the constant fields that calls with Axer schemas have left in the
reader stay there whatever schema comes next.
-/

inductive Call where
  | avroSchema (schema : RecordSchema)
  | axerSchema (schema : AxerSchema)
  | expected (schema : RecordSchema)

def Call.run : Call → EStateM AxerException AxerDatumReader Unit
  | .avroSchema schema => setAvroSchema schema
  | .axerSchema schema => setAxerSchema schema
  | .expected schema => setExpected schema

namespace AxerDatumReader

/-- The reader after a call, whether it returned or threw. -/
def after (reader : AxerDatumReader) (call : Call) : AxerDatumReader :=
  match call.run reader with
  | .ok _ next => next
  | .error _ next => next

def configured (calls : List Call) : AxerDatumReader := calls.foldl after {}

end AxerDatumReader

open AxerDatumReader (after configured)

/-- The last calls give the reader this schema. -/
inductive EndsWith (schema : RecordSchema) (axer : AxerSchema) : List Call → Prop where
  | avro (earlier : List Call) : EndsWith schema axer (earlier ++ [.avroSchema schema])
  | axer (earlier : List Call) : EndsWith schema axer (earlier ++ [.axerSchema axer, .expected schema])
  | expected (earlier : List Call) : EndsWith schema axer (earlier ++ [.expected schema, .axerSchema axer])

section

variable {axer : AxerSchema} {schema : RecordSchema} {calls : List Call}

theorem after_axerSchema {leaves : List (String × AvroSchema)} (describes : Describes axer leaves)
    (reader : AxerDatumReader) : (reader.after (.axerSchema axer)).schema = some axer ∧
      (reader.after (.axerSchema axer)).expected = reader.expected := by
  have set := @setAxerSchema_ok axer leaves reader describes
  simp only [after, Call.run, set, and_self]

theorem after_avroSchema (got : getAxerSchema schema = .ok axer) (reader : AxerDatumReader) :
    reader.after (.avroSchema schema) = { reader with schema := some axer, expected := some schema } := by
  have set : setAvroSchema schema reader = .ok () { reader with schema := some axer, expected := some schema } := by
    rw [setAvroSchema, bind_ok]
    refine ⟨(), { reader with expected := some schema }, rfl, ?_⟩
    rw [bind_ok]
    exact ⟨axer, _, ofExcept_ok.mpr ⟨got, rfl⟩, rfl⟩
  simp only [after, Call.run, set]

theorem configured_ends (got : getAxerSchema schema = .ok axer) (ends : EndsWith schema axer calls) :
    configured calls = { schema := some axer, expected := some schema, constList := (configured calls).constList } := by
  have describes := getAxerSchema_describes got
  have sets : (configured calls).schema = some axer ∧ (configured calls).expected = some schema := by
    cases ends with
    | avro earlier =>
        rw [configured, List.foldl_append, List.foldl_cons, List.foldl_nil, after_avroSchema got]
        exact ⟨rfl, rfl⟩
    | axer earlier =>
        rw [configured, List.foldl_append, List.foldl_cons, List.foldl_cons, List.foldl_nil]
        exact ⟨(after_axerSchema describes _).1, rfl⟩
    | expected earlier =>
        rw [configured, List.foldl_append, List.foldl_cons, List.foldl_cons, List.foldl_nil]
        obtain ⟨set, kept⟩ := after_axerSchema describes ((earlier.foldl after {}).after (.expected schema))
        exact ⟨set, kept⟩
  rw [← sets.1, ← sets.2]

end

/-- The entry has its bytes. -/
def ConstEntry.Inside (entry : ConstEntry) (bytes : List UInt8) : Prop :=
  0 ≤ entry.offset ∧ match entry.type with
    | .fixed => FixedReadable bytes entry.offset.toNat
    | type => entry.offset + numBytesForType type 0 ≤ bytes.length

section

variable {bytes : List UInt8} {name : String} {type : ConstType} {offset : Nat} {value : Value}

theorem readLong_eq {word : BitVec 64} : AxerDecoder.readLong { bytes, offset := offset } = .ok word ↔
    offset + 8 ≤ bytes.length ∧ word = longOf (bytes.getD offset 0) (bytes.getD (offset + 1) 0)
      (bytes.getD (offset + 2) 0) (bytes.getD (offset + 3) 0) (bytes.getD (offset + 4) 0) (bytes.getD (offset + 5) 0)
      (bytes.getD (offset + 6) 0) (bytes.getD (offset + 7) 0) := by
  simp only [AxerDecoder.readLong, byteAt_eq]
  by_cases inside : offset + 8 ≤ bytes.length
  · rw [if_pos (by omega), if_pos (by omega), if_pos (by omega), if_pos (by omega), if_pos (by omega),
      if_pos (by omega), if_pos (by omega), if_pos (by omega)]
    simp only [ok_bind, pure_eq_ok, Except.ok.injEq, inside, true_and, Nat.add_zero]
    exact eq_comm
  · have outside : ¬ offset + 7 < bytes.length := by omega
    rw [if_neg outside]
    simp only [inside, false_and, iff_false]
    intro read
    simp only [bind_eq_ok] at read
    obtain ⟨a, -, b, -, c, -, d, -, e, -, f, -, g, -, h, impossible, -⟩ := read
    cases impossible

theorem readBoolean_eq {flag : Bool} : AxerDecoder.readBoolean { bytes, offset := offset } = .ok flag ↔
    offset + 1 ≤ bytes.length ∧ flag = (bytes.getD offset 0 == 1) := by
  simp only [AxerDecoder.readBoolean, byteAt_eq]
  by_cases inside : offset + 1 ≤ bytes.length
  · rw [if_pos (by omega)]
    simp only [ok_bind, pure_eq_ok, Except.ok.injEq, inside, true_and, Nat.add_zero]
    exact eq_comm
  · have outside : ¬ offset + 0 < bytes.length := by omega
    rw [if_neg outside]
    simp [inside]

theorem valueAt_inside (notFixed : type ≠ .fixed) :
    (∃ value, valueAt bytes { name, offset, type } = .ok value) ↔ offset + numBytesForType type 0 ≤ bytes.length := by
  cases type with
  | fixed => exact (notFixed rfl).elim
  | boolean =>
      simp only [valueAt, readConstValue, bind_eq_ok, readBoolean_eq, pure_eq_ok]
      refine ⟨fun found => ?_, fun inside => ⟨_, _, ⟨inside, rfl⟩, rfl⟩⟩
      obtain ⟨value, dec, read, same⟩ := found
      exact read.1
  | int | float =>
      simp only [valueAt, readConstValue, AxerDecoder.readFloat, bind_eq_ok, readInt_toInt, pure_eq_ok]
      refine ⟨fun found => ?_, fun inside => ⟨_, _, ⟨inside, rfl⟩, rfl⟩⟩
      obtain ⟨value, dec, read, same⟩ := found
      exact read.1
  | long | double =>
      simp only [valueAt, readConstValue, AxerDecoder.readDouble, bind_eq_ok, readLong_eq, pure_eq_ok]
      refine ⟨fun found => ?_, fun inside => ⟨_, _, ⟨inside, rfl⟩, rfl⟩⟩
      obtain ⟨value, dec, read, same⟩ := found
      exact read.1

/-- The type of a value that is read for a constant field. -/
def Value.constType : Value → Option ConstType
  | .boolean _ => some .boolean
  | .int _ => some .int
  | .float _ => some .float
  | .long _ => some .long
  | .double _ => some .double
  | .bytes _ => some .fixed
  | _ => none

theorem constType_constOf {width : Nat} (of : ConstOf type width value) : value.constType = some type := by
  cases type <;> cases value <;> first | exact of.elim | rfl

theorem valueAt_type {entry : ConstEntry} (found : valueAt bytes entry = .ok value) :
    value.constType = some entry.type := by
  obtain ⟨name, offset, type⟩ := entry
  cases type with
  | fixed =>
      simp only [valueAt, readConstValue, bind_eq_ok, pure_eq_ok] at found
      obtain ⟨word, -, _, -, content, -, same⟩ := found
      cases same
      rfl
  | _ =>
      simp only [valueAt, readConstValue, bind_eq_ok, pure_eq_ok] at found
      obtain ⟨word, -, same⟩ := found
      cases same
      rfl

/-- A value that is read is made of the bytes at its place. -/
theorem valueAt_bytes (notFixed : type ≠ .fixed) (notBoolean : type ≠ .boolean)
    (found : valueAt bytes { name, offset, type } = .ok value) :
    ∀ position < numBytesForType type 0, (constBytes value).getD position 0 = bytes.getD (offset + position) 0 := by
  intro position below
  cases type with
  | fixed => exact (notFixed rfl).elim
  | boolean => exact (notBoolean rfl).elim
  | int | float =>
      simp only [valueAt, readConstValue, AxerDecoder.readFloat, bind_eq_ok, readInt_toInt, pure_eq_ok] at found
      obtain ⟨word, ⟨-, rfl⟩, same⟩ := found
      cases same
      rw [constBytes, wordBytes_wordOf]
      change position < 4 at below
      obtain rfl | rfl | rfl | rfl : position = 0 ∨ position = 1 ∨ position = 2 ∨ position = 3 := by omega
      all_goals rfl
  | long | double =>
      simp only [valueAt, readConstValue, AxerDecoder.readDouble, bind_eq_ok, readLong_eq, pure_eq_ok] at found
      obtain ⟨word, ⟨-, rfl⟩, same⟩ := found
      cases same
      rw [constBytes, longBytes_longOf]
      change position < 8 at below
      obtain rfl | rfl | rfl | rfl | rfl | rfl | rfl | rfl : position = 0 ∨ position = 1 ∨ position = 2 ∨
          position = 3 ∨ position = 4 ∨ position = 5 ∨ position = 6 ∨ position = 7 := by omega
      all_goals rfl

theorem valueAt_boolean (found : valueAt bytes { name, offset, type := .boolean } = .ok value) :
    value = .boolean (bytes.getD offset 0 == 1) := by
  simp only [valueAt, readConstValue, bind_eq_ok, readBoolean_eq, pure_eq_ok] at found
  obtain ⟨flag, ⟨-, rfl⟩, same⟩ := found
  cases same
  rfl

theorem valueAt_negative {entry : ConstEntry} (negative : entry.offset < 0) :
    ¬ ∃ value, valueAt bytes entry = .ok value := by
  intro ⟨value, found⟩
  obtain ⟨name, offset, type⟩ := entry
  change offset < 0 at negative
  have first : AxerDecoder.byteAt { bytes, offset := offset } 0 = .error (.indexOutOfBounds (offset + (0 : Nat))) :=
    if_neg fun inside => by
      have low := inside.1
      change 0 ≤ offset + ((0 : Nat) : Int) at low
      omega
  cases type <;>
    simp only [valueAt, readConstValue, AxerDecoder.readBoolean, AxerDecoder.readInt, AxerDecoder.readLong,
      AxerDecoder.readFloat, AxerDecoder.readDouble, first, error_bind, reduceCtorEq] at found

/-- An entry can be read where it has its bytes. -/
theorem entry_inside {entry : ConstEntry} : (∃ value, valueAt bytes entry = .ok value) ↔ entry.Inside bytes := by
  obtain ⟨name, offset, type⟩ := entry
  by_cases negative : offset < 0
  · refine iff_of_false (valueAt_negative negative) ?_
    intro inside
    exact absurd inside.1 (by simpa using negative)
  · obtain ⟨place, rfl⟩ := Int.eq_ofNat_of_zero_le (by omega : 0 ≤ offset)
    rw [ConstEntry.Inside]
    by_cases isFixed : type = .fixed
    · subst isFixed
      simp only [valueAt_fixed, Int.toNat_natCast]
      exact ⟨fun readable => ⟨by omega, readable⟩, fun inside => inside.2⟩
    · have inside := @valueAt_inside bytes name type place isFixed
      cases type with
      | fixed => exact (isFixed rfl).elim
      | _ =>
          simp only [inside]
          omega

end

theorem placed_split {start : Nat} {consts : List ConstField} {field : ConstField} {offset : Nat}
    (member : (field, offset) ∈ placed start consts) :
    ∃ before after, consts = before ++ field :: after ∧ offset = start + totalWidth before := by
  induction consts generalizing start with
  | nil => simp [placed] at member
  | cons first rest ih =>
      rw [placed, List.mem_cons] at member
      cases member with
      | inl same =>
          cases same
          exact ⟨[], rest, rfl, by simp [totalWidth]⟩
      | inr later =>
          obtain ⟨before, after, same, place⟩ := ih later
          refine ⟨first :: before, after, by rw [same]; rfl, ?_⟩
          rw [place, totalWidth, totalWidth, List.map_cons, List.sum_cons]
          omega

theorem layout_around {before after : List Value} {one two : Value} (vars : List (AxerType × Value))
    (same : (constBytes one).length = (constBytes two).length) :
    ∃ front back, layout (before ++ one :: after) vars = front ++ constBytes one ++ back ∧
      layout (before ++ two :: after) vars = front ++ constBytes two ++ back ∧
      front.length = 4 + (constPart before).length := by
  have parts :
    ∀ value, constPart (before ++ value :: after) = constPart before ++ constBytes value ++ constPart after := by
    intro value
    simp [constPart]
  have start : varStart (before ++ one :: after) vars = varStart (before ++ two :: after) vars := by
    simp only [varStart, parts, List.length_append, same]
  have size : encodedSize (before ++ one :: after) vars = encodedSize (before ++ two :: after) vars := by
    rw [encodedSize, encodedSize, varPart, varPart, start]
  refine ⟨wordBytes (BitVec.ofNat 32 (encodedSize (before ++ two :: after) vars)) ++ constPart before,
    constPart after ++ offsetTable (starts varBody vars (varStart (before ++ two :: after) vars)) ++
      varPart (before ++ two :: after) vars, ?_, ?_, by rw [List.length_append, length_wordBytes]⟩
  · rw [layout, size, varPart, start, parts]
    simp only [List.append_assoc, varPart]
  · rw [layout, parts]
    simp only [List.append_assoc]

theorem map_get_around {one two : Record} {before after : List ConstField} {field : ConstField}
    (distinct : ((before ++ field :: after).map ConstField.name).Nodup)
    (others : ∀ name, name ≠ field.name → one.get name = two.get name) :
    (before ++ field :: after).map (fun field => one.get field.name) =
      before.map (fun field => two.get field.name) ++ one.get field.name ::
        after.map fun field => two.get field.name := by
  rw [List.map_append, List.map_cons, List.nodup_append] at distinct
  obtain ⟨-, inner, apart⟩ := distinct
  have outside := (List.nodup_cons.mp inner).1
  have first : before.map (fun field => one.get field.name) = before.map fun field => two.get field.name :=
    List.map_congr_left fun other member => others other.name
      (apart other.name (List.mem_map.mpr ⟨other, member, rfl⟩) field.name (by simp))
  have later : after.map (fun field => one.get field.name) = after.map fun field => two.get field.name :=
    List.map_congr_left fun other member => others other.name fun same =>
      outside (List.mem_map.mpr ⟨other, member, same⟩)
  rw [List.map_append, List.map_cons, first, later]

/-- Records that differ in one constant field have encodings that differ in its bytes. -/
theorem encoding_around {leaves : List (String × AvroSchema)} {one two : Record} {field : ConstField} {offset : Nat}
    (member : (field, offset) ∈ placed 4 (constsOf leaves)) (distinct : ((constsOf leaves).map ConstField.name).Nodup)
    (oneOf : ∀ other ∈ constsOf leaves, ConstOf other.type other.width (one.get other.name))
    (twoOf : ∀ other ∈ constsOf leaves, ConstOf other.type other.width (two.get other.name))
    (others : ∀ name, name ≠ field.name → one.get name = two.get name)
    (vars : varValues one leaves = varValues two leaves) :
    ∃ front back, encoding one leaves = front ++ constBytes (one.get field.name) ++ back ∧
      encoding two leaves = front ++ constBytes (two.get field.name) ++ back ∧ front.length = offset := by
  obtain ⟨before, after, split, place⟩ := placed_split member
  have same : (constBytes (one.get field.name)).length = (constBytes (two.get field.name)).length := by
    rw [length_constBytes (oneOf field (placed_mem member)), length_constBytes (twoOf field (placed_mem member))]
  obtain ⟨front, back, first, second, length⟩ := @layout_around (before.map fun field => two.get field.name)
    (after.map fun field => two.get field.name) _ _ (varValues two leaves) same
  have width : (constPart (before.map fun field => two.get field.name)).length = totalWidth before :=
    length_constPart_map fun other among => twoOf other (by rw [split]; exact List.mem_append_left _ among)
  rw [split] at distinct
  refine ⟨front, back, ?_, ?_, by rw [length, width, place]⟩
  · rw [encoding, constValues, split, map_get_around distinct others, vars, first]
  · rw [encoding, constValues, split, map_get_around distinct fun _ _ => rfl, second]

def lowOf : ConstType → Value
  | .boolean => .boolean false
  | .int => .int 0
  | .float => .float 0
  | .long => .long 0
  | .double => .double 0
  | .fixed => .bytes []

def highOf : ConstType → Value
  | .boolean => .boolean true
  | .int => .int (BitVec.allOnes 32)
  | .float => .float (BitVec.allOnes 32)
  | .long => .long (BitVec.allOnes 64)
  | .double => .double (BitVec.allOnes 64)
  | .fixed => .bytes []

theorem lowOf_of (type : ConstType) : ConstOf type (numBytesForType type 0) (lowOf type) := by
  cases type <;> rfl

theorem highOf_of (type : ConstType) : ConstOf type (numBytesForType type 0) (highOf type) := by
  cases type <;> rfl

theorem lowOf_bytes (type : ConstType) : ∀ position < numBytesForType type 0,
    (constBytes (lowOf type)).getD position 0 = 0 := by
  cases type <;> decide

theorem highOf_bytes {type : ConstType} (notBoolean : type ≠ .boolean) : ∀ position < numBytesForType type 0,
    (constBytes (highOf type)).getD position 0 = 255 := by
  cases type <;> first | exact (notBoolean rfl).elim | decide

/-- An entry that finds both values of a field stands at the field's place. -/
theorem place_unique {entry : ConstEntry} {type : ConstType} {front back : List UInt8} (notFixed : type ≠ .fixed)
    (isType : entry.type = type)
    (low : valueAt (front ++ constBytes (lowOf type) ++ back) entry = .ok (lowOf type))
    (high : valueAt (front ++ constBytes (highOf type) ++ back) entry = .ok (highOf type)) :
    entry.offset = front.length := by
  obtain ⟨name, place, kind⟩ := entry
  change kind = type at isType
  subst isType
  have inside := entry_inside.mp ⟨_, low⟩
  obtain ⟨offset, rfl⟩ := Int.eq_ofNat_of_zero_le inside.1
  clear inside
  change (offset : Int) = front.length
  have lowLength := length_constBytes (lowOf_of kind)
  have highLength := length_constBytes (highOf_of kind)
  obtain ⟨width, isWidth⟩ : ∃ width, width = numBytesForType kind 0 := ⟨_, rfl⟩
  rw [← isWidth] at lowLength highLength
  -- Outside of the field the two encodings have the same bytes.
  have outside : ∀ index, index < front.length ∨ front.length + width ≤ index →
      (front ++ constBytes (lowOf kind) ++ back).getD index 0 = (front ++ constBytes (highOf kind) ++ back).getD index 0 := by
    intro index apart
    simp only [List.getD_eq_getElem?_getD]
    congr 1
    cases apart with
    | inl before =>
        rw [List.append_assoc, List.append_assoc, List.getElem?_append_left before, List.getElem?_append_left before]
    | inr after =>
        rw [List.getElem?_append_right (by rw [List.length_append]; omega),
          List.getElem?_append_right (by rw [List.length_append]; omega), List.length_append, List.length_append,
          lowLength, highLength]
  by_contra elsewhere
  have apart : offset ≠ front.length := fun same => elsewhere (by rw [same])
  by_cases isBoolean : kind = .boolean
  · subst isBoolean
    have width : width = 1 := isWidth
    have same := outside offset (by omega)
    have first := valueAt_boolean low
    have second := valueAt_boolean high
    rw [same] at first
    rw [← first] at second
    cases second
  · obtain ⟨position, below, apart⟩ : ∃ position < width,
        offset + position < front.length ∨ front.length + width ≤ offset + position := by
      have positive : 0 < width := by
        rw [isWidth]
        cases kind <;> first | exact (notFixed rfl).elim | decide
      by_cases before : offset < front.length
      · exact ⟨0, positive, by omega⟩
      · exact ⟨width - 1, by omega, by omega⟩
    have first := valueAt_bytes notFixed isBoolean low position (by omega)
    have second := valueAt_bytes notFixed isBoolean high position (by omega)
    rw [lowOf_bytes kind position (by omega), outside _ apart, ← second,
      highOf_bytes isBoolean position (by omega)] at first
    cases first

/-- A record of the schema with these values. -/
def recordWith (schema : RecordSchema) (value : String → AvroSchema → Value) : Record :=
  { values := schema.fields.toList.map fun field => (field.1, value field.1 field.2) }

def lowValue : AvroSchema → Value
  | .boolean => lowOf .boolean
  | .int => lowOf .int
  | .long => lowOf .long
  | .float => lowOf .float
  | .double => lowOf .double
  | .string => .string ""
  | .bytes => .bytes []
  | _ => .null

def lowRecord (schema : RecordSchema) : Record := recordWith schema fun _ => lowValue

/-- All fields but one are low. -/
def highRecord (schema : RecordSchema) (field : ConstField) : Record :=
  recordWith schema fun name type => if name = field.name then highOf field.type else lowValue type

section

variable {schema : RecordSchema} {value other : String → AvroSchema → Value} {name : String} {type : AvroSchema}

theorem lookup_map {fields : List (String × AvroSchema)} (distinct : (fields.map Prod.fst).Nodup)
    (member : (name, type) ∈ fields) :
    (fields.map fun field => (field.1, value field.1 field.2)).lookup name = some (value name type) := by
  induction fields with
  | nil => cases member
  | cons field rest ih =>
      rw [List.map_cons, List.nodup_cons] at distinct
      rw [List.map_cons, List.lookup_cons]
      cases List.mem_cons.mp member with
      | inl same =>
          subst same
          simp
      | inr later =>
          have apart : (name == field.1) = false := by
            rw [beq_eq_false_iff_ne]
            intro same
            subst same
            exact distinct.1 (List.mem_map.mpr ⟨_, later, rfl⟩)
          rw [apart]
          exact ih distinct.2 later

theorem get_recordWith (member : (name, type) ∈ schema.fields.toList) :
    (recordWith schema value).get name = value name type := by
  rw [Record.get, recordWith, lookup_map schema.distinct member, Option.getD_some]

theorem get_recordWith_congr (same : ∀ type, value name type = other name type) :
    (recordWith schema value).get name = (recordWith schema other).get name := by
  rw [Record.get, recordWith, Record.get, recordWith]
  congr 1
  generalize schema.fields.toList = fields
  induction fields with
  | nil => rfl
  | cons field rest ih =>
      simp only [List.map_cons, List.lookup_cons]
      cases isField : name == field.1 with
      | true =>
          rw [← beq_iff_eq.mp isField, same]
      | false => exact ih

theorem names_recordWith : (recordWith schema value).names = schema.fields.toList.map Prod.fst := by
  rw [Record.names, recordWith, List.map_map]
  rfl

theorem recordWith_of (typed : ∀ name type, (name, type) ∈ schema.fields.toList → OfType type (value name type)) :
    RecordOf schema (recordWith schema value) := by
  refine ⟨names_recordWith, fun name type member => ?_⟩
  rw [get_recordWith member]
  exact typed name type member

theorem lowValue_of (flat : type.Flat) : OfType type (lowValue type) := by
  cases type <;> first | exact flat.elim | trivial

theorem lowValue_const {field : ConstField} (flat : type.Flat) (found : constOf (name, type) = some field) :
    lowValue type = lowOf field.type ∧ OfType type (highOf field.type) ∧ field.type ≠ .fixed ∧
      field.width = numBytesForType field.type 0 := by
  cases type <;> cases found <;> first | exact flat.elim | exact ⟨rfl, trivial, by simp, rfl⟩

end

theorem names_constsOf (leaves : List (String × AvroSchema)) :
    ((constsOf leaves).map ConstField.name).Sublist (leaves.map Prod.fst) := by
  induction leaves with
  | nil => exact .slnil
  | cons leaf rest ih =>
      rw [constsOf, List.filterMap_cons]
      split
      · exact ih.cons _
      · next field found =>
          rw [List.map_cons, List.map_cons, constOf_name found]
          exact ih.cons_cons _

theorem placed_increasing {start : Nat} {consts : List ConstField} (wide : ∀ field ∈ consts, 0 < field.width) :
    ((placed start consts).map Prod.snd).Nodup ∧ ∀ field ∈ placed start consts, start ≤ field.2 := by
  induction consts generalizing start with
  | nil => exact ⟨List.nodup_nil, by simp [placed]⟩
  | cons first rest ih =>
      obtain ⟨distinct, after⟩ := @ih (start + first.width) fun field member => wide field (by simp [member])
      have positive := wide first (by simp)
      rw [placed, List.map_cons, List.nodup_cons]
      refine ⟨⟨?_, distinct⟩, ?_⟩
      · intro again
        obtain ⟨field, member, same⟩ := List.mem_map.mp again
        have later := after field member
        change field.2 = start at same
        omega
      · intro field member
        cases List.mem_cons.mp member with
        | inl same => rw [same]
        | inr among =>
            have later := after field among
            omega

theorem totalWidth_le {consts : List ConstField} (narrow : ∀ field ∈ consts, field.width ≤ 8) :
    totalWidth consts ≤ 8 * consts.length := by
  induction consts with
  | nil => simp [totalWidth]
  | cons first rest ih =>
      have one := narrow first (by simp)
      have more := ih fun field member => narrow field (by simp [member])
      rw [totalWidth, List.map_cons, List.sum_cons, List.length_cons]
      rw [totalWidth] at more
      omega

theorem nodup_casts {numbers : List Nat} (distinct : numbers.Nodup) :
    (numbers.map fun number : Nat => (number : Int)).Nodup := by
  refine List.pairwise_map.mpr (List.Pairwise.imp ?_ distinct)
  intro one two apart same
  exact apart (by omega)

theorem bodies_nil {α : Type} {body : α → Nat → List UInt8} {items : List α}
    (none : ∀ item ∈ items, ∀ start, body item start = []) (start : Nat) : bodies body items start = [] := by
  induction items generalizing start with
  | nil => rfl
  | cons item rest ih =>
      rw [bodies, none item (by simp), ih fun other member => none other (by simp [member])]
      rfl

section

variable {axer : AxerSchema} {schema : RecordSchema}

theorem flat_const (flat : ∀ field ∈ schema.fields.toList, field.2.Flat) {field : ConstField}
    (member : field ∈ constsOf schema.leaves) :
    ∃ type, (field.name, type) ∈ schema.fields.toList ∧ constOf (field.name, type) = some field ∧ type.Flat := by
  obtain ⟨⟨name, type⟩, among, found⟩ := List.mem_filterMap.mp member
  have same : field.name = name := constOf_name found
  subst same
  have top := flat_leaf flat among
  exact ⟨type, top, found, flat _ top⟩

theorem const_names_distinct (flat : ∀ field ∈ schema.fields.toList, field.2.Flat) :
    ((constsOf schema.leaves).map ConstField.name).Nodup := by
  have sub := names_constsOf schema.leaves
  rw [RecordSchema.leaves, Fields.leaves_flat flat] at sub ⊢
  exact sub.nodup schema.distinct

theorem const_width (flat : ∀ field ∈ schema.fields.toList, field.2.Flat) {field : ConstField}
    (member : field ∈ constsOf schema.leaves) :
    field.type ≠ .fixed ∧ field.width = numBytesForType field.type 0 ∧ 0 < field.width ∧ field.width ≤ 8 := by
  obtain ⟨type, -, found, flatType⟩ := flat_const flat member
  obtain ⟨-, -, notFixed, width⟩ := lowValue_const flatType found
  refine ⟨notFixed, width, ?_⟩
  rw [width]
  cases kind : field.type <;> first | exact (notFixed kind).elim | decide

/-- The tables have no room for more fields than they have slots. -/
theorem getAxerSchema_few (flat : ∀ field ∈ schema.fields.toList, field.2.Flat)
    (got : getAxerSchema schema = .ok axer) :
    (constsOf schema.leaves).length ≤ 443 ∧ (varsOf schema.leaves).length ≤ 443 := by
  obtain ⟨builder, -, built⟩ := getAxerSchema_built got
  constructor
  · have offsets := (@placed_increasing 4 _ fun field member => (const_width flat member).2.2.1).1
    have distinct := nodup_casts offsets
    have few := @SlotTable.stores_few _ builder.constOffsetMap _ distinct (by
      intro value member
      simp only [List.mem_map] at member
      obtain ⟨offset, ⟨⟨field, place⟩, among, rfl⟩, rfl⟩ := member
      exact ⟨_, built.offsets field place among⟩)
    rw [List.length_map, List.length_map, built.offsetTable.1, ← List.length_map (f := Prod.fst), map_fst_placed] at few
    exact few
  · have distinct := nodup_casts (@List.nodup_range (varsOf schema.leaves).length)
    have few := @SlotTable.stores_few _ builder.varNumMap _ distinct (by
      intro value member
      simp only [List.mem_map, List.mem_range] at member
      obtain ⟨position, inside, rfl⟩ := member
      exact ⟨_, built.positions position _ _ (List.getElem?_eq_getElem inside)⟩)
    rwa [List.length_map, List.length_range, built.varTable.1] at few

theorem lowRecord_of (flat : ∀ field ∈ schema.fields.toList, field.2.Flat) : RecordOf schema (lowRecord schema) :=
  recordWith_of fun name type member => lowValue_of (flat (name, type) member)

theorem highRecord_of (flat : ∀ field ∈ schema.fields.toList, field.2.Flat) {field : ConstField}
    (member : field ∈ constsOf schema.leaves) : RecordOf schema (highRecord schema field) := by
  refine recordWith_of fun name type among => ?_
  split
  · next same =>
      obtain ⟨own, ownMember, found, flatOwn⟩ := flat_const flat member
      have both := List.inj_on_of_nodup_map schema.distinct among ownMember same
      cases both
      exact (lowValue_const flatOwn found).2.1
  · exact lowValue_of (flat (name, type) among)

/-- Records with low values in their variable fields have small encodings. -/
theorem small_low (flat : ∀ field ∈ schema.fields.toList, field.2.Flat) (got : getAxerSchema schema = .ok axer)
    {record : Record} (of : RecordOf schema record)
    (low : ∀ name type, (name, type) ∈ varsOf schema.leaves → ∀ start, varBody (type, record.get name) start = []) :
    encodedSize (constValues record schema.leaves) (varValues record schema.leaves) < 2 ^ 31 := by
  obtain ⟨fewConsts, fewVars⟩ := getAxerSchema_few flat got
  have typed : ∀ field ∈ constsOf schema.leaves, ConstOf field.type field.width (record.get field.name) := by
    intro field member
    obtain ⟨type, among, found, -⟩ := flat_const flat member
    exact constOf_typed found (of.typed field.name type among)
  have width := totalWidth_le fun field member => (@const_width schema flat field member).2.2.2
  have consts : (constPart (constValues record schema.leaves)).length = totalWidth (constsOf schema.leaves) :=
    length_constPart_map typed
  have vars : varPart (constValues record schema.leaves) (varValues record schema.leaves) = [] := by
    refine bodies_nil ?_ _
    intro item member start
    obtain ⟨⟨name, type⟩, among, rfl⟩ := List.mem_map.mp member
    exact low name type among start
  rw [encodedSize, vars, varStart, consts, length_varValues, List.length_nil]
  omega

theorem varBody_low (flat : ∀ field ∈ schema.fields.toList, field.2.Flat) {record : Record}
    (low : ∀ name type, (name, type) ∈ schema.fields.toList → constOf (name, type) = none →
      record.get name = lowValue type) :
    ∀ name type, (name, type) ∈ varsOf schema.leaves → ∀ start, varBody (type, record.get name) start = [] := by
  intro name kind member start
  obtain ⟨⟨key, type⟩, among, found⟩ := List.mem_filterMap.mp member
  have same : name = key := varOf_name found
  subst same
  have top := flat_leaf flat among
  have flatType := flat _ top
  cases type with
  | string =>
      cases found
      rw [low name .string top rfl]
      rfl
  | bytes =>
      cases found
      rw [low name .bytes top rfl]
      rfl
  | _ => first | exact flatType.elim | cases found

theorem small_lowRecord (flat : ∀ field ∈ schema.fields.toList, field.2.Flat) (got : getAxerSchema schema = .ok axer) :
    encodedSize (constValues (lowRecord schema) schema.leaves) (varValues (lowRecord schema) schema.leaves) < 2 ^ 31 :=
  small_low flat got (lowRecord_of flat) (varBody_low flat fun _ _ member _ => get_recordWith member)

theorem highRecord_get {field : ConstField} {name : String} (apart : name ≠ field.name) :
    (highRecord schema field).get name = (lowRecord schema).get name :=
  get_recordWith_congr fun _ => if_neg apart

theorem const_apart {field : ConstField} {name : String} {type : AvroSchema}
    (flat : ∀ field ∈ schema.fields.toList, field.2.Flat) (member : field ∈ constsOf schema.leaves)
    (among : (name, type) ∈ schema.fields.toList) (notConst : constOf (name, type) = none) : name ≠ field.name := by
  intro same
  subst same
  obtain ⟨own, ownMember, found, -⟩ := flat_const flat member
  have both := List.inj_on_of_nodup_map schema.distinct among ownMember rfl
  cases both
  rw [found] at notConst
  cases notConst

theorem small_highRecord (flat : ∀ field ∈ schema.fields.toList, field.2.Flat) (got : getAxerSchema schema = .ok axer)
    {field : ConstField} (member : field ∈ constsOf schema.leaves) :
    encodedSize (constValues (highRecord schema field) schema.leaves)
      (varValues (highRecord schema field) schema.leaves) < 2 ^ 31 := by
  refine small_low flat got (highRecord_of flat member) (varBody_low flat fun name type among notConst => ?_)
  rw [highRecord_get (const_apart flat member among notConst)]
  exact get_recordWith among

theorem varValues_highRecord {field : ConstField} (flat : ∀ field ∈ schema.fields.toList, field.2.Flat)
    (member : field ∈ constsOf schema.leaves) :
    varValues (highRecord schema field) schema.leaves = varValues (lowRecord schema) schema.leaves := by
  refine List.map_congr_left fun ⟨name, kind⟩ among => ?_
  obtain ⟨⟨key, type⟩, leaf, found⟩ := List.mem_filterMap.mp among
  have same : name = key := varOf_name found
  subst same
  have notConst : constOf (name, type) = none := by
    cases type <;> first | rfl | cases found
  rw [highRecord_get (const_apart flat member (flat_leaf flat leaf) notConst)]

theorem get_low {field : ConstField} (flat : ∀ field ∈ schema.fields.toList, field.2.Flat)
    (member : field ∈ constsOf schema.leaves) : (lowRecord schema).get field.name = lowOf field.type := by
  obtain ⟨type, among, found, flatType⟩ := flat_const flat member
  rw [lowRecord, get_recordWith among]
  exact (lowValue_const flatType found).1

theorem get_high {field : ConstField} (flat : ∀ field ∈ schema.fields.toList, field.2.Flat)
    (member : field ∈ constsOf schema.leaves) : (highRecord schema field).get field.name = highOf field.type := by
  obtain ⟨type, among, -, -⟩ := flat_const flat member
  rw [highRecord, get_recordWith among]
  exact if_pos rfl

/-- The entries read the records of a schema as its own entries would. -/
structure Settled (schema : RecordSchema) (entries : List ConstEntry) : Prop where
  named : ∀ entry ∈ entries, entry.name ∈ schema.fields.toList.map Prod.fst
  inside : ∀ record, RecordOf schema record →
    encodedSize (constValues record schema.leaves) (varValues record schema.leaves) < 2 ^ 31 →
      ∀ entry ∈ entries, entry.Inside (encoding record schema.leaves)
  last : ∀ field offset, (field, offset) ∈ placed 4 (constsOf schema.leaves) →
    (entries.reverse.find? fun entry => entry.name = field.name) =
      some { name := field.name, offset, type := field.type }

variable {malformed : List UInt8 → String} {record : Record} {entries : List ConstEntry}

theorem Record.ext_get {one two : Record} (names : one.names = two.names) (distinct : one.names.Nodup)
    (same : ∀ name ∈ one.names, one.get name = two.get name) : one = two := by
  obtain ⟨first⟩ := one
  obtain ⟨second⟩ := two
  simp only [Record.names] at names distinct same
  congr 1
  induction first generalizing second with
  | nil => exact (List.map_eq_nil_iff.mp names.symm).symm
  | cons field rest ih =>
      cases second with
      | nil => cases names
      | cons other more =>
          obtain ⟨name, value⟩ := field
          obtain ⟨key, given⟩ := other
          simp only [List.map_cons, List.cons.injEq] at names
          obtain ⟨rfl, names⟩ := names
          rw [List.map_cons, List.nodup_cons] at distinct
          have head := same name (by simp)
          simp only [Record.get, List.lookup_cons, BEq.rfl, Option.getD_some] at head
          subst head
          have later := ih distinct.2 more names fun wanted member => by
            have apart : (wanted == name) = false := by
              rw [beq_eq_false_iff_ne]
              intro same
              subst same
              exact distinct.1 member
            have kept := same wanted (List.mem_cons_of_mem _ member)
            simpa only [Record.get, List.lookup_cons, apart] using kept
          rw [later]

theorem flat_vars (flat : ∀ field ∈ schema.fields.toList, field.2.Flat) :
    ∀ field ∈ varsOf schema.leaves, field.1 ∈ schema.fields.toList.map Prod.fst := by
  intro field member
  obtain ⟨leaf, among, found⟩ := List.mem_filterMap.mp member
  exact List.mem_map.mpr ⟨leaf, flat_leaf flat among, (varOf_name found).symm⟩

/-- Settled entries give every field back. -/
theorem Settled.reads (settled : Settled schema entries) (flat : ∀ field ∈ schema.fields.toList, field.2.Flat)
    (got : getAxerSchema schema = .ok axer) (of : RecordOf schema record)
    (small : encodedSize (constValues record schema.leaves) (varValues record schema.leaves) < 2 ^ 31) :
    ∃ result, AxerDatumReader.read malformed { schema := some axer, expected := some schema, constList := entries } none
        { bytes := encoding record schema.leaves } = .ok result ∧
      result.names = schema.fields.toList.map Prod.fst ∧
      ∀ field ∈ schema.fields.toList, result.get field.1 = fieldBack (record.get field.1) := by
  have describes := getAxerSchema_describes got
  have writable := (flat_readable flat of small).writable
  obtain ⟨result, read, names, values⟩ := @read_ok malformed axer schema.leaves record schema entries describes writable
    (by rw [Record.names_new]; exact settled.named)
    (fun entry member => entry_inside.mpr (settled.inside record of small entry member))
    (by rw [Record.names_new]; exact flat_vars flat)
  refine ⟨result, read, names.trans (Record.names_new schema), flat_back flat of ?_ ?_⟩
  · intro field member
    rw [values, if_pos (List.mem_map.mpr ⟨field, member, rfl⟩)]
  · intro field member notFixed
    obtain ⟨offset, among⟩ := @mem_placed 4 _ field member
    rw [values, if_neg (describes.notVar member), settled.last field offset among]
    exact valueAt_valueOf (valueAt_placed writable among notFixed)

/-- Entries that find a constant field's value in every record are its own. -/
theorem last_own (flat : ∀ field ∈ schema.fields.toList, field.2.Flat) {field : ConstField} {offset : Nat}
    (member : (field, offset) ∈ placed 4 (constsOf schema.leaves))
    (readable : ∀ record ∈ [lowRecord schema, highRecord schema field], ∀ entry ∈ entries,
      ∃ value, valueAt (encoding record schema.leaves) entry = .ok value)
    (values : ∀ record ∈ [lowRecord schema, highRecord schema field],
      ((entries.reverse.find? fun entry => entry.name = field.name).map
        (valueOf (encoding record schema.leaves))).getD .null = record.get field.name) :
    (entries.reverse.find? fun entry => entry.name = field.name) =
      some { name := field.name, offset, type := field.type } := by
  have isConst := placed_mem member
  have low := values (lowRecord schema) (by simp)
  have high := values (highRecord schema field) (by simp)
  rw [get_low flat isConst] at low
  rw [get_high flat isConst] at high
  cases found : entries.reverse.find? fun entry => entry.name = field.name with
  | none =>
      rw [found] at low
      cases kind : field.type <;> rw [kind] at low <;> cases low
  | some entry =>
      rw [found] at low high
      have among := List.mem_reverse.mp (List.mem_of_find?_eq_some found)
      have named := List.find?_some found
      simp only [decide_eq_true_eq] at named
      simp only [Option.map_some, Option.getD_some] at low high
      obtain ⟨first, lowRead⟩ := readable (lowRecord schema) (by simp) entry among
      obtain ⟨second, highRead⟩ := readable (highRecord schema field) (by simp) entry among
      rw [valueAt_valueOf lowRead] at low
      rw [valueAt_valueOf highRead] at high
      subst low
      subst high
      have isType : entry.type = field.type := by
        have one := valueAt_type lowRead
        rw [constType_constOf (lowOf_of field.type)] at one
        exact (Option.some.inj one).symm
      have typed : ∀ record, RecordOf schema record → ∀ other ∈ constsOf schema.leaves,
          ConstOf other.type other.width (record.get other.name) := by
        intro record of other otherMember
        obtain ⟨type, top, isOther, -⟩ := flat_const flat otherMember
        exact constOf_typed isOther (of.typed other.name type top)
      obtain ⟨front, back, lowBytes, highBytes, place⟩ := @encoding_around schema.leaves (lowRecord schema)
        (highRecord schema field) field offset member (const_names_distinct flat) (typed _ (lowRecord_of flat))
        (typed _ (highRecord_of flat isConst)) (fun name apart => (highRecord_get apart).symm)
        (varValues_highRecord flat isConst).symm
      rw [get_low flat isConst] at lowBytes
      rw [get_high flat isConst] at highBytes
      rw [lowBytes] at lowRead
      rw [highBytes] at highRead
      have isPlace := place_unique (const_width flat isConst).1 isType lowRead highRead
      obtain ⟨name, at_, type⟩ := entry
      simp only at named isType isPlace
      rw [named, isType, isPlace, place]

/-- However the reader was configured, it reads the records of the last schema as a fresh
one does exactly where the entries that it holds are settled. -/
theorem configured_reads (malformed : List UInt8 → String) {schema : RecordSchema} {axer : AxerSchema}
    {calls : List Call} (flat : ∀ field ∈ schema.fields.toList, field.2.Flat)
    (got : getAxerSchema schema = .ok axer) (ends : EndsWith schema axer calls) :
    (∀ record bytes, RecordOf schema record →
      encodedSize (constValues record schema.leaves) (varValues record schema.leaves) < 2 ^ 31 →
      writeRecord axer record [] = .ok bytes →
      ∃ result, (configured calls).read malformed none { bytes } = .ok result ∧
        roundTrip malformed schema record = .ok result) ↔
      Settled schema (configured calls).constList := by
  have describes := getAxerSchema_describes got
  have state := configured_ends got ends
  generalize (configured calls).constList = entries at state
  rw [state]
  constructor
  · intro same
    have reads : ∀ record, RecordOf schema record →
        encodedSize (constValues record schema.leaves) (varValues record schema.leaves) < 2 ^ 31 →
        (∀ entry ∈ entries, entry.name ∈ schema.fields.toList.map Prod.fst ∧
          ∃ value, valueAt (encoding record schema.leaves) entry = .ok value) ∧
        ∀ field ∈ constsOf schema.leaves, ((entries.reverse.find? fun entry => entry.name = field.name).map
          (valueOf (encoding record schema.leaves))).getD .null = record.get field.name := by
      intro record of small
      have readable := flat_readable flat of small
      obtain ⟨result, read, round⟩ := same record _ of small (writeRecord_ok describes readable.writable)
      obtain ⟨given, fresh, -, -, consts⟩ := @roundTrip_ok axer record malformed schema got readable
      rw [fresh] at round
      cases round
      have found := (read_returned describes read).1
      obtain ⟨again, readAgain, -, values⟩ := @read_ok malformed axer schema.leaves record schema entries describes
        readable.writable (fun entry member => (found entry member).1) (fun entry member => (found entry member).2)
        (by rw [Record.names_new]; exact flat_vars flat)
      rw [readAgain] at read
      cases read
      rw [Record.names_new] at found
      refine ⟨found, fun field member => ?_⟩
      have back := consts field member (const_width flat member).1
      rw [values, if_neg (describes.notVar member)] at back
      exact back
    have low := reads (lowRecord schema) (lowRecord_of flat) (small_lowRecord flat got)
    refine ⟨fun entry member => (low.1 entry member).1, ?_, ?_⟩
    · intro record of small entry member
      exact entry_inside.mp ((reads record of small).1 entry member).2
    · intro field offset member
      have isConst := placed_mem member
      have high := reads (highRecord schema field) (highRecord_of flat isConst) (small_highRecord flat got isConst)
      refine last_own flat member ?_ ?_
      · intro record among entry inside
        simp only [List.mem_cons, List.not_mem_nil, or_false] at among
        cases among with
        | inl isLow => rw [isLow]; exact (low.1 entry inside).2
        | inr isHigh => rw [isHigh]; exact (high.1 entry inside).2
      · intro record among
        simp only [List.mem_cons, List.not_mem_nil, or_false] at among
        cases among with
        | inl isLow => rw [isLow]; exact low.2 field isConst
        | inr isHigh => rw [isHigh]; exact high.2 field isConst
  · intro settled record bytes of small written
    have readable := flat_readable flat of small
    rw [writeRecord_ok describes readable.writable] at written
    cases written
    obtain ⟨result, read, names, back⟩ := @Settled.reads axer schema malformed record entries settled flat got of small
    obtain ⟨given, fresh, givenNames, vars, consts⟩ := @roundTrip_ok axer record malformed schema got readable
    refine ⟨result, read, ?_⟩
    rw [fresh]
    have givenBack := flat_back flat of vars consts
    have equal : given = result := by
      refine Record.ext_get (givenNames.trans names.symm) (by rw [givenNames]; exact schema.distinct) ?_
      intro name member
      rw [givenNames] at member
      obtain ⟨field, among, rfl⟩ := List.mem_map.mp member
      rw [givenBack field among, back field among]
    rw [equal]

end

theorem titleSchema_flat : ∀ field ∈ titleSchema.fields.toList, field.2.Flat := by
  simp [titleSchema, Fields.toList, AvroSchema.Flat]

/-- The calls of a reader that had the schema before, in both forms. -/
def callsOf (axer : AxerSchema) : List Call :=
  [.axerSchema axer, .expected titleSchema, .avroSchema titleSchema] ++ [.axerSchema axer, .expected titleSchema]

theorem title_configured : ∃ axer, getAxerSchema titleSchema = .ok axer ∧
    ((∀ record bytes, RecordOf titleSchema record →
      encodedSize (constValues record titleSchema.leaves) (varValues record titleSchema.leaves) < 2 ^ 31 →
      writeRecord axer record [] = .ok bytes →
      ∃ result, (configured (callsOf axer)).read (fun _ => "") none { bytes } = .ok result ∧
        roundTrip (fun _ => "") titleSchema record = .ok result) ↔
      Settled titleSchema (configured (callsOf axer)).constList) := by
  obtain ⟨axer, got⟩ := titleSchema_ok
  exact ⟨axer, got, configured_reads (fun _ => "") titleSchema_flat got (.axer _)⟩

/-- A reader that got its schema in the Avro form alone does not read constant fields. -/
theorem avro_configured_differs : ∃ axer, getAxerSchema titleSchema = .ok axer ∧
    EndsWith titleSchema axer [.avroSchema titleSchema] ∧ RecordOf titleSchema titleRecord ∧
    ∃ bytes, writeRecord axer titleRecord [] = .ok bytes ∧
      ¬ ∃ result, (configured [.avroSchema titleSchema]).read (fun _ => "") none { bytes } = .ok result ∧
        roundTrip (fun _ => "") titleSchema titleRecord = .ok result := by
  obtain ⟨axer, got⟩ := titleSchema_ok
  have describes := getAxerSchema_describes got
  have readable := flat_readable titleSchema_flat titleRecord_of (by decide +kernel)
  refine ⟨axer, got, .avro [], titleRecord_of, _, writeRecord_ok describes readable.writable, ?_⟩
  intro ⟨result, read, round⟩
  have state : configured [.avroSchema titleSchema] =
      { schema := some axer, expected := some titleSchema, constList := [] } := by
    rw [configured, List.foldl_cons, List.foldl_nil, after_avroSchema got]
  rw [state] at read
  obtain ⟨given, fresh, -, -, consts⟩ := @roundTrip_ok axer titleRecord (fun _ => "") titleSchema got readable
  rw [fresh] at round
  cases round
  obtain ⟨again, readAgain, -, values⟩ := @read_ok (fun _ => "") axer titleSchema.leaves titleRecord titleSchema []
    describes readable.writable (by simp) (by simp)
    (by rw [Record.names_new]; exact flat_vars titleSchema_flat)
  rw [readAgain] at read
  cases read
  have isConst : (⟨"count", .int, 4⟩ : ConstField) ∈ constsOf titleSchema.leaves := by decide +kernel
  have back := consts _ isConst (by simp)
  rw [values, if_neg (describes.notVar isConst)] at back
  cases back

end Scads.Axer
