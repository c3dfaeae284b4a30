import Scads.Axer.RecordReads

namespace Scads.Axer

open Scads.Data
open Scads.Comm (ok_bind error_bind pure_eq_ok bind_eq_ok)
open AxerDatumReader (setAxerSchema setExpected)
open AxerDatumWriter (writeRecord)

/-! # Writing a record and reading it back -/

/-- A fresh reader that got an Axer schema and the schema to expect. -/
def configuredReader (axer : AxerSchema) (schema : RecordSchema) : Except AxerException AxerDatumReader :=
  match (do setAxerSchema axer; setExpected schema : EStateM AxerException AxerDatumReader Unit) {} with
  | .ok _ reader => .ok reader
  | .error failure _ => .error failure

def roundTrip (malformed : List UInt8 → String) (schema : RecordSchema) (record : Record) :
    Except AxerException Record := do
  let axer ← getAxerSchema schema
  let bytes ← writeRecord axer record []
  let reader ← configuredReader axer schema
  reader.read malformed none { bytes }

theorem configuredReader_ok {axer : AxerSchema} {leaves : List (String × AvroSchema)}
    (describes : Describes axer leaves)
    (schema : RecordSchema) : configuredReader axer schema =
      .ok { schema := some axer, expected := some schema, constList := entriesOf leaves } := by
  have set := @setAxerSchema_ok axer leaves {} describes
  have both : (do setAxerSchema axer; setExpected schema : EStateM AxerException AxerDatumReader Unit) {} =
      .ok () { schema := some axer, expected := some schema, constList := entriesOf leaves } := by
    rw [bind_ok]
    exact ⟨(), _, set, rfl⟩
  rw [configuredReader, both]

/-- The record has the fields of the schema, each with a value of its type. -/
structure RecordOf (schema : RecordSchema) (record : Record) : Prop where
  names : record.names = schema.fields.toList.map Prod.fst
  typed : ∀ name type, (name, type) ∈ schema.fields.toList → OfType type (record.get name)

theorem constOf_typed {leaf : String × AvroSchema} {field : ConstField} {value : Value}
    (found : constOf leaf = some field) (typed : OfType leaf.2 value) : ConstOf field.type field.width value := by
  obtain ⟨name, type⟩ := leaf
  cases type with
  | fixed size =>
      cases found
      cases value with
      | bytes content => exact typed.symm
      | _ => exact typed.elim
  | boolean | int | long | float | double =>
      cases found
      cases value <;> first | exact typed.elim | rfl
  | _ => cases found

/-- An array of doubles has no elements. -/
def NoDoubles : AvroSchema → Value → Prop
  | .array .double, .array items => items = []
  | _, _ => True

theorem itemsOf_typed {elementType : AvroSchema} {kind : AxerType} {items : List Value} (element : elementType.Element)
    (converted : avroToAxerType elementType = .ok kind) (typed : ∀ item ∈ items, OfType elementType item)
    (noDoubles : NoDoubles (.array elementType) (.array items)) : ItemsOf kind items := by
  cases elementType with
  | double =>
      cases converted
      exact noDoubles
  | boolean | int | long | float =>
      cases converted
      refine ⟨by simp, fun item member => ?_⟩
      have of := typed item member
      cases item <;> first | exact of.elim | rfl
  | null =>
      cases converted
      intro item member
      have of := typed item member
      cases item <;> first | exact of.elim | rfl
  | string =>
      cases converted
      intro item member
      have of := typed item member
      cases item <;> first | exact of.elim | exact ⟨_, rfl⟩
  | bytes =>
      cases converted
      intro item member
      have of := typed item member
      cases item <;> first | exact of.elim | exact ⟨_, rfl⟩
  | _ => exact element.elim

theorem varOf_typed {leaf : String × AvroSchema} {name : String} {kind : AxerType} {value : Value}
    (supported : leaf.2.Supported) (found : varOf leaf = some (name, kind)) (typed : OfType leaf.2 value)
    (noDoubles : NoDoubles leaf.2 value) : VarOf kind value := by
  obtain ⟨key, type⟩ := leaf
  cases type with
  | string =>
      cases found
      cases value <;> first | exact typed.elim | trivial
  | bytes =>
      cases found
      cases value <;> first | exact typed.elim | trivial
  | array elementType =>
      simp only [varOf] at found
      split at found
      · next type converted =>
          cases found
          rw [AvroSchema.Supported] at supported
          cases value with
          | array items =>
              rw [OfType] at typed
              exact ⟨typed.1, itemsOf_typed supported converted typed.2 noDoubles⟩
          | _ => simp [OfType] at typed
      · cases found
  | _ => cases found

mutual

theorem AvroSchema.leaves_pre {schema : AvroSchema} {name : String} :
    ∀ leaf ∈ schema.leaves name, ∃ rest, leaf.1 = name ++ rest := by
  cases schema with
  | record title fields =>
      intro leaf member
      rw [AvroSchema.leaves] at member
      obtain ⟨rest, same⟩ := Fields.leaves_pre leaf member
      exact ⟨"." ++ rest, by rw [same, String.append_assoc]⟩
  | _ =>
      intro leaf member
      simp only [AvroSchema.leaves, List.mem_singleton] at member
      subst member
      exact ⟨"", by simp⟩

theorem Fields.leaves_pre {fields : Fields} {pre : String} :
    ∀ leaf ∈ fields.leaves pre, ∃ rest, leaf.1 = pre ++ rest := by
  cases fields with
  | nil => simp [Fields.leaves]
  | cons name schema rest =>
      intro leaf member
      rw [Fields.leaves] at member
      cases List.mem_append.mp member with
      | inl first =>
          obtain ⟨more, same⟩ := AvroSchema.leaves_pre leaf first
          exact ⟨name ++ more, by rw [same, String.append_assoc]⟩
      | inr later => exact Fields.leaves_pre leaf later

end

/-- A leaf is a field, or it has a dot in its name. -/
theorem AvroSchema.mem_leaves {schema : AvroSchema} {name : String} {leaf : String × AvroSchema}
    (member : leaf ∈ schema.leaves name) : leaf = (name, schema) ∨ ∃ rest, leaf.1 = name ++ "." ++ rest := by
  cases schema with
  | record title fields =>
      rw [AvroSchema.leaves] at member
      exact .inr (Fields.leaves_pre leaf member)
  | _ =>
      simp only [AvroSchema.leaves, List.mem_singleton] at member
      exact .inl member

theorem Fields.mem_leaves {fields : Fields} {leaf : String × AvroSchema} (member : leaf ∈ fields.leaves "") :
    leaf ∈ fields.toList ∨ '.' ∈ leaf.1.toList := by
  cases fields with
  | nil => simp [Fields.leaves] at member
  | cons name schema rest =>
      rw [Fields.leaves] at member
      rw [Fields.toList, List.mem_cons]
      cases List.mem_append.mp member with
      | inl first =>
          cases AvroSchema.mem_leaves first with
          | inl same => exact .inl (.inl (by simpa using same))
          | inr dotted =>
              obtain ⟨more, same⟩ := dotted
              exact .inr (by simp [same])
      | inr later =>
          cases Fields.mem_leaves later with
          | inl among => exact .inl (.inr among)
          | inr dotted => exact .inr dotted

theorem RecordSchema.leaf_field {schema : RecordSchema} {leaf : String × AvroSchema} (member : leaf ∈ schema.leaves)
    (named : leaf.1 ∈ schema.fields.toList.map Prod.fst) : leaf ∈ schema.fields.toList := by
  cases Fields.mem_leaves member with
  | inl among => exact among
  | inr dotted => exact (schema.plain leaf.1 named dotted).elim

theorem constOf_name {leaf : String × AvroSchema} {field : ConstField} (found : constOf leaf = some field) :
    field.name = leaf.1 := by
  obtain ⟨name, type⟩ := leaf
  cases type <;> cases found
  all_goals rfl

theorem varOf_name {leaf field : _} (found : varOf leaf = some field) : field.1 = leaf.1 := by
  obtain ⟨name, type⟩ := leaf
  cases type with
  | array elementType =>
      simp only [varOf] at found
      split at found
      · cases found
        rfl
      · cases found
  | _ => first | cases found; done | (cases found; rfl)

section

variable {schema : RecordSchema} {record : Record}

theorem supported_writable (supported : schema.fields.Supported) (of : RecordOf schema record)
    (consts : ∀ field ∈ constsOf schema.leaves, field.name ∈ schema.fields.toList.map Prod.fst)
    (vars : ∀ field ∈ varsOf schema.leaves, field.1 ∈ schema.fields.toList.map Prod.fst)
    (noDoubles : ∀ field ∈ schema.fields.toList, NoDoubles field.2 (record.get field.1))
    (small : encodedSize (constValues record schema.leaves) (varValues record schema.leaves) < 2 ^ 31) :
    Writable record schema.leaves := by
  refine ⟨?_, ?_, small⟩
  · intro field member
    obtain ⟨leaf, among, found⟩ := List.mem_filterMap.mp member
    have name := constOf_name found
    have top := RecordSchema.leaf_field among (by rw [← name]; exact consts field member)
    rw [name]
    exact constOf_typed found (of.typed leaf.1 leaf.2 top)
  · intro key kind member
    obtain ⟨leaf, among, found⟩ := List.mem_filterMap.mp member
    have name : key = leaf.1 := varOf_name found
    have top := RecordSchema.leaf_field among (by rw [← name]; exact vars _ member)
    rw [name]
    exact varOf_typed (Fields.leaves_supported supported "" leaf among) found (of.typed leaf.1 leaf.2 top)
      (noDoubles leaf top)

end

/-- The int that a reader finds at an offset. -/
def intAt (bytes : List UInt8) (offset : Nat) : Int :=
  (wordOf (bytes.getD offset 0) (bytes.getD (offset + 1) 0) (bytes.getD (offset + 2) 0)
    (bytes.getD (offset + 3) 0)).toInt

/-- A fixed field is read as a length and, from the same offset on, so many bytes. -/
structure FixedReadable (bytes : List UInt8) (offset : Nat) : Prop where
  inside : offset + 4 ≤ bytes.length
  length : 0 ≤ intAt bytes offset
  fits : offset + intAt bytes offset ≤ bytes.length

theorem byteAt_eq (bytes : List UInt8) (offset distance : Nat) :
    AxerDecoder.byteAt { bytes, offset := offset } distance =
      if offset + distance < bytes.length then .ok (bytes.getD (offset + distance) 0)
      else .error (.indexOutOfBounds (offset + distance)) := by
  have position : ((offset : Int) + distance).toNat = offset + distance := by omega
  simp only [AxerDecoder.byteAt, position]
  by_cases inside : offset + distance < bytes.length
  · rw [if_pos inside, if_pos ⟨by omega, by omega⟩]
  · rw [if_neg inside, if_neg (by omega)]

theorem readInt_toInt {bytes : List UInt8} {offset : Nat} {word : BitVec 32} :
    AxerDecoder.readInt { bytes, offset := offset } = .ok word ↔
      offset + 4 ≤ bytes.length ∧ word = wordOf (bytes.getD offset 0) (bytes.getD (offset + 1) 0)
        (bytes.getD (offset + 2) 0) (bytes.getD (offset + 3) 0) := by
  simp only [AxerDecoder.readInt, byteAt_eq]
  by_cases inside : offset + 4 ≤ bytes.length
  · rw [if_pos (by omega), if_pos (by omega), if_pos (by omega), if_pos (by omega)]
    simp only [ok_bind, pure_eq_ok, Except.ok.injEq, inside, true_and, Nat.add_zero]
    exact eq_comm
  · have outside : ¬ offset + 3 < bytes.length := by omega
    rw [if_neg outside]
    simp only [inside, false_and, iff_false]
    intro read
    simp only [bind_eq_ok] at read
    obtain ⟨a, -, b, -, c, -, d, impossible, -⟩ := read
    cases impossible

theorem valueAt_fixed {bytes : List UInt8} {name : String} {offset : Nat} :
    (∃ value, valueAt bytes { name, offset, type := .fixed } = .ok value) ↔ FixedReadable bytes offset := by
  simp only [valueAt, readConstValue, newByteArray, AxerDecoder.readFixed, bind_eq_ok, pure_eq_ok]
  constructor
  · intro found
    obtain ⟨value, word, read, ⟨⟩, sized, content, copied, same⟩ := found
    obtain ⟨inside, rfl⟩ := readInt_toInt.mp read
    split at copied
    · next fits => exact ⟨inside, fits.1, fits.2.2⟩
    · cases copied
  · intro readable
    have length := readable.length
    have fits := readable.fits
    rw [intAt] at length fits
    exact ⟨_, _, readInt_toInt.mpr ⟨readable.inside, rfl⟩, (), if_neg (by omega), _,
      if_pos ⟨length, by omega, fits⟩, rfl⟩

section

variable {axer : AxerSchema} {leaves : List (String × AvroSchema)} {record : Record}

theorem mem_entriesOf {entry : ConstEntry} : entry ∈ entriesOf leaves ↔
    ∃ field offset, (field, offset) ∈ placed 4 (constsOf leaves) ∧
      entry = { name := field.name, offset, type := field.type } := by
  rw [entriesOf, List.mem_map]
  constructor
  · intro ⟨⟨field, offset⟩, member, same⟩
    exact ⟨field, offset, member, same.symm⟩
  · intro ⟨field, offset, member, same⟩
    exact ⟨⟨field, offset⟩, member, same.symm⟩

theorem mem_placed {start : Nat} {consts : List ConstField} {field : ConstField} (member : field ∈ consts) :
    ∃ offset, (field, offset) ∈ placed start consts := by
  rw [← map_fst_placed start consts] at member
  obtain ⟨⟨given, offset⟩, among, rfl⟩ := List.mem_map.mp member
  exact ⟨offset, among⟩

theorem placed_mem {start : Nat} {consts : List ConstField} {field : ConstField} {offset : Nat}
    (member : (field, offset) ∈ placed start consts) : field ∈ consts := by
  rw [← map_fst_placed start consts]
  exact List.mem_map.mpr ⟨_, member, rfl⟩

theorem valueAt_placed (writable : Writable record leaves) {field : ConstField} {offset : Nat}
    (member : (field, offset) ∈ placed 4 (constsOf leaves)) (notFixed : field.type ≠ .fixed) :
    valueAt (encoding record leaves) { name := field.name, offset, type := field.type } =
      .ok (record.get field.name) := by
  have stands := placed_stands writable.consts (@encoding_consts _ record) field offset member
  exact readConstValue_ok (writable.consts field (placed_mem member)) notFixed stands

/-- Every constant field has bytes to be read. -/
theorem valueAt_entries (writable : Writable record leaves)
    (fixed : ∀ field offset, (field, offset) ∈ placed 4 (constsOf leaves) → field.type = .fixed →
      FixedReadable (encoding record leaves) offset) :
    ∀ entry ∈ entriesOf leaves, ∃ value, valueAt (encoding record leaves) entry = .ok value := by
  intro entry member
  obtain ⟨⟨name, type, width⟩, offset, among, rfl⟩ := mem_entriesOf.mp member
  by_cases isFixed : type = .fixed
  · subst isFixed
    exact valueAt_fixed.mpr (fixed _ offset among rfl)
  · exact ⟨_, valueAt_placed writable among isFixed⟩

theorem Describes.sameType (describes : Describes axer leaves) {field other : ConstField}
    (one : field ∈ constsOf leaves) (two : other ∈ constsOf leaves) (same : field.name = other.name) :
    field.type = other.type := by
  have first := describes.constType field one
  rw [same, describes.constType other two] at first
  simpa using first.symm

theorem varsOf_notConst {name : String} {type : ConstType} : (name, .const type) ∉ varsOf leaves := by
  intro member
  obtain ⟨⟨key, schema⟩, -, found⟩ := List.mem_filterMap.mp member
  cases schema with
  | array elementType =>
      simp only [varOf] at found
      split at found <;> simp at found
  | _ => simp [varOf] at found

theorem Describes.notVar (describes : Describes axer leaves) {field : ConstField} (member : field ∈ constsOf leaves) :
    field.name ∉ (varsOf leaves).map Prod.fst := by
  intro named
  obtain ⟨⟨name, type⟩, among, same⟩ := List.mem_map.mp named
  have asConst := describes.constType field member
  have asVar := describes.varType name type among
  change name = field.name at same
  rw [same, asConst] at asVar
  cases asVar
  exact varsOf_notConst among

variable {malformed : List UInt8 → String} {schema : RecordSchema}

/-- What a record must have to be written and read back. -/
structure Readable (record : Record) (schema : RecordSchema) : Prop where
  writable : Writable record schema.leaves
  consts : ∀ field ∈ constsOf schema.leaves, field.name ∈ schema.fields.toList.map Prod.fst
  vars : ∀ field ∈ varsOf schema.leaves, field.1 ∈ schema.fields.toList.map Prod.fst
  fixed : ∀ field offset, (field, offset) ∈ placed 4 (constsOf schema.leaves) → field.type = .fixed →
    FixedReadable (encoding record schema.leaves) offset

theorem Record.names_new (schema : RecordSchema) : (Record.new schema).names = schema.fields.toList.map Prod.fst := by
  rw [Record.names, Record.new, List.map_map]
  rfl

/-- At every name there is what the bytes have for it. -/
def ReadBack (schema : RecordSchema) (record result : Record) : Prop :=
  ∀ wanted, result.get wanted =
    if wanted ∈ (varsOf schema.leaves).map Prod.fst then fieldBack (record.get wanted)
    else (((entriesOf schema.leaves).reverse.find? fun entry => entry.name = wanted).map
      (valueOf (encoding record schema.leaves))).getD .null

theorem roundTrip_reads (got : getAxerSchema schema = .ok axer) (readable : Readable record schema) :
    ∃ result, roundTrip malformed schema record = .ok result ∧ result.names = schema.fields.toList.map Prod.fst ∧
      ReadBack schema record result := by
  have describes := getAxerSchema_describes got
  have writable := readable.writable
  obtain ⟨result, read, names, values⟩ := @read_ok malformed axer schema.leaves record schema (entriesOf schema.leaves)
    describes writable
    (by
      intro entry member
      obtain ⟨field, offset, among, rfl⟩ := mem_entriesOf.mp member
      rw [Record.names_new]
      exact readable.consts field (placed_mem among))
    (valueAt_entries writable readable.fixed)
    (by
      intro field member
      rw [Record.names_new]
      exact readable.vars field member)
  refine ⟨result, ?_, names.trans (Record.names_new schema), values⟩
  rw [roundTrip, got, ok_bind, writeRecord_ok describes writable, ok_bind, configuredReader_ok describes, ok_bind, read]

/-- Every field but the fixed ones comes back. -/
theorem roundTrip_ok (got : getAxerSchema schema = .ok axer) (readable : Readable record schema) :
    ∃ result, roundTrip malformed schema record = .ok result ∧ result.names = schema.fields.toList.map Prod.fst ∧
      (∀ field ∈ varsOf schema.leaves, result.get field.1 = fieldBack (record.get field.1)) ∧
      ∀ field ∈ constsOf schema.leaves, field.type ≠ .fixed → result.get field.name = record.get field.name := by
  have describes := getAxerSchema_describes got
  have writable := readable.writable
  obtain ⟨result, done, names, values⟩ := @roundTrip_reads axer record malformed schema got readable
  refine ⟨result, done, names, ?_, ?_⟩
  · intro field member
    rw [values field.1, if_pos (List.mem_map.mpr ⟨field, member, rfl⟩)]
  · intro field member notFixed
    rw [values field.name, if_neg (describes.notVar member)]
    cases found : (entriesOf schema.leaves).reverse.find? fun entry => entry.name = field.name with
    | none =>
        obtain ⟨offset, among⟩ := @mem_placed 4 _ field member
        have absent := List.find?_eq_none.mp found { name := field.name, offset, type := field.type }
          (List.mem_reverse.mpr (mem_entriesOf.mpr ⟨field, offset, among, rfl⟩))
        simp at absent
    | some entry =>
        have named := List.find?_some found
        obtain ⟨other, offset, among, rfl⟩ := mem_entriesOf.mp (List.mem_reverse.mp (List.mem_of_find?_eq_some found))
        simp only [decide_eq_true_eq] at named
        have sameType := describes.sameType member (placed_mem among) named.symm
        have value := valueAt_placed writable among (by rwa [← sameType])
        simp only [Option.map_some, Option.getD_some]
        rw [valueAt_valueOf value, named]

end

/-- The types of the fields of a flat record. -/
def AvroSchema.Flat : AvroSchema → Prop
  | .boolean | .int | .long | .float | .double | .string | .bytes => True
  | _ => False

/-- Fields that are no records are the leaves. -/
theorem Fields.leaves_top {fields : Fields} (flat : ∀ field ∈ fields.toList, field.2.Leaf) :
    fields.leaves "" = fields.toList := by
  cases fields with
  | nil => rfl
  | cons name schema rest =>
      have first : schema.leaves ("" ++ name) = [(name, schema)] := by
        have one : schema.Leaf := flat (name, schema) (by simp [Fields.toList])
        cases schema with
        | record title fields => exact one.elim
        | _ => simp [AvroSchema.leaves]
      have later : rest.leaves "" = rest.toList :=
        Fields.leaves_top fun field member => flat field (by simp [Fields.toList, member])
      rw [Fields.leaves, first, later]
      rfl

theorem AvroSchema.Flat.leaf {schema : AvroSchema} (flat : schema.Flat) : schema.Leaf := by
  cases schema <;> first | exact flat.elim | trivial

theorem Fields.leaves_flat {fields : Fields} (flat : ∀ field ∈ fields.toList, field.2.Flat) :
    fields.leaves "" = fields.toList :=
  Fields.leaves_top fun field member => (flat field member).leaf

theorem Fields.flat_supported {fields : Fields} (flat : ∀ field ∈ fields.toList, field.2.Flat) : fields.Supported := by
  cases fields with
  | nil => trivial
  | cons name schema rest =>
      have one : schema.Flat := flat (name, schema) (by simp [Fields.toList])
      refine ⟨?_, Fields.flat_supported fun field member => flat field (by simp [Fields.toList, member])⟩
      cases schema <;> first | exact one.elim | trivial

section

variable {axer : AxerSchema} {schema : RecordSchema} {record : Record}

theorem flat_leaf (flat : ∀ field ∈ schema.fields.toList, field.2.Flat) {leaf : String × AvroSchema}
    (member : leaf ∈ schema.leaves) : leaf ∈ schema.fields.toList := by
  rwa [RecordSchema.leaves, Fields.leaves_flat flat] at member

theorem flat_readable (flat : ∀ field ∈ schema.fields.toList, field.2.Flat) (of : RecordOf schema record)
    (small : encodedSize (constValues record schema.leaves) (varValues record schema.leaves) < 2 ^ 31) :
    Readable record schema := by
  have consts : ∀ field ∈ constsOf schema.leaves, field.name ∈ schema.fields.toList.map Prod.fst := by
    intro field member
    obtain ⟨leaf, among, found⟩ := List.mem_filterMap.mp member
    exact List.mem_map.mpr ⟨leaf, flat_leaf flat among, (constOf_name found).symm⟩
  have vars : ∀ field ∈ varsOf schema.leaves, field.1 ∈ schema.fields.toList.map Prod.fst := by
    intro field member
    obtain ⟨leaf, among, found⟩ := List.mem_filterMap.mp member
    exact List.mem_map.mpr ⟨leaf, flat_leaf flat among, (varOf_name found).symm⟩
  refine ⟨supported_writable (Fields.flat_supported flat) of consts vars ?_ small, consts, vars, ?_⟩
  · intro ⟨name, type⟩ member
    have one := flat _ member
    cases type <;> first | exact one.elim | trivial
  · intro field offset member isFixed
    obtain ⟨⟨name, type⟩, among, found⟩ := List.mem_filterMap.mp (placed_mem member)
    have one := flat _ (flat_leaf flat among)
    cases type <;> cases found <;> first | exact one.elim | cases isFixed

theorem flat_back {result : Record} (flat : ∀ field ∈ schema.fields.toList, field.2.Flat) (of : RecordOf schema record)
    (vars : ∀ field ∈ varsOf schema.leaves, result.get field.1 = fieldBack (record.get field.1))
    (consts : ∀ field ∈ constsOf schema.leaves, field.type ≠ .fixed → result.get field.name = record.get field.name) :
    ∀ field ∈ schema.fields.toList, result.get field.1 = fieldBack (record.get field.1) := by
  intro ⟨name, type⟩ member
  have one := flat _ member
  have typed := of.typed name type member
  have leaf : (name, type) ∈ schema.leaves := by rwa [RecordSchema.leaves, Fields.leaves_flat flat]
  have asConst : ∀ kind width, constOf (name, type) = some ⟨name, kind, width⟩ → kind ≠ .fixed →
      result.get name = record.get name := fun kind width found notFixed =>
    consts ⟨name, kind, width⟩ (List.mem_filterMap.mpr ⟨_, leaf, found⟩) notFixed
  cases type with
  | string => exact vars (name, .string) (List.mem_filterMap.mpr ⟨_, leaf, rfl⟩)
  | bytes => exact vars (name, .bytes) (List.mem_filterMap.mpr ⟨_, leaf, rfl⟩)
  | boolean | int | long | float | double =>
      have same := asConst _ _ rfl (by simp)
      simp only [same]
      cases value : record.get name <;> rw [value] at typed <;> first | exact typed.elim | rfl
  | _ => exact one.elim

end

def titleSchema : RecordSchema :=
  { name := "Title", fields := .cons "count" .int (.cons "title" .string .nil), distinct := by decide,
    plain := by decide }

def titleRecord : Record := { values := [("count", .int 7), ("title", .string "SCADS")] }

theorem isOk_exists {given : Except AxerException AxerSchema} (isOk : given.isOk = true) :
    ∃ axer, given = .ok axer := by
  cases given with
  | ok axer => exact ⟨axer, rfl⟩
  | error failure => cases isOk

theorem titleSchema_ok : ∃ axer, getAxerSchema titleSchema = .ok axer := isOk_exists (by decide +kernel)

theorem titleRecord_of : RecordOf titleSchema titleRecord := by
  refine ⟨rfl, ?_⟩
  intro name type member
  have fields : (name, type) = ("count", .int) ∨ (name, type) = ("title", .string) := by
    simpa [titleSchema, Fields.toList] using member
  cases fields with
  | inl same =>
      cases same
      exact True.intro
  | inr same =>
      cases same
      exact True.intro

end Scads.Axer
