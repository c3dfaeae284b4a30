import Scads.Axer.Decoding
import Scads.Data.Programs

namespace Scads.Axer

open Scads.Data
open Scads.Comm (ok_bind error_bind pure_eq_ok bind_eq_ok)
open AxerDatumReader (putNext readConstEntry constEntry pushEntry setAxerSchema)

/-! # Reading a whole record

The constant entries that the reader has are read in their order, whatever schema they
come from, and then the variable fields of its schema.
-/

/-- The decoder is one of these bytes, with its base at their start. -/
def Over (bytes : List UInt8) (dec : AxerDecoder) : Prop := dec.bytes = bytes ∧ dec.recBase = 0

section

variable {malformed : List UInt8 → String} {bytes : List UInt8} {dec next : AxerDecoder} {items : List Value}
  {value : Value}

theorem fillConstArray_over {type : ConstType} {skipAmt count : Nat} (ofBytes : Over bytes dec)
    (filled : fillConstArray type skipAmt count dec = .ok (items, next)) : Over bytes next := by
  induction count generalizing dec items with
  | zero =>
      cases filled
      exact ofBytes
  | succ count ih =>
      simp only [fillConstArray, bind_eq_ok] at filled
      obtain ⟨first, -, ⟨rest, last⟩, rested, same⟩ := filled
      cases same
      exact @ih { dec with offset := dec.offset + skipAmt } rest ofBytes rested

theorem fillVarArray_over {reader : AxerDecoder → Except AxerException Value} {finalByte itemLenOff : Int} {count : Nat}
    (ofBytes : Over bytes dec) (filled : fillVarArray reader finalByte count itemLenOff dec = .ok (items, next)) :
    Over bytes next := by
  induction count generalizing dec items itemLenOff with
  | zero =>
      cases filled
      exact ofBytes
  | succ count ih =>
      simp only [fillVarArray, bind_eq_ok] at filled
      obtain ⟨sp, -, ending, -, first, -, ⟨rest, last⟩, rested, same⟩ := filled
      cases same
      have moved : Over bytes { dec with offset := sp.toInt, varLen := int32 (ending - sp.toInt) } := ofBytes
      exact ih moved rested

theorem readVarArray_over {reader : AxerDecoder → Except AxerException Value} {numBytes : Int}
    (ofBytes : Over bytes dec) (read : readVarArray reader numBytes dec = .ok (items, next)) : Over bytes next := by
  simp only [readVarArray, bind_eq_ok] at read
  obtain ⟨len, -, -, -, filled⟩ := read
  have moved : Over bytes { dec with offset := dec.offset + 4 } := ofBytes
  exact fillVarArray_over moved filled

theorem readArray_over {elementType : AxerType} {numBytes : Int} (ofBytes : Over bytes dec)
    (read : readArray malformed elementType numBytes dec = .ok (items, next)) : Over bytes next := by
  cases elementType with
  | const type =>
      by_cases fixed : type = .fixed
      · subst fixed
        cases read
      · rw [readArray_const fixed] at read
        obtain ⟨-, -, filled⟩ := bind_eq_ok.mp read
        exact fillConstArray_over ofBytes filled
  | string => exact readVarArray_over ofBytes read
  | bytes => exact readVarArray_over ofBytes read
  | array elementType => cases read
  | null =>
      simp only [readArray, bind_eq_ok] at read
      obtain ⟨len, -, -, -, same⟩ := read
      cases same
      exact ofBytes

theorem readVarValue_over {type : AxerType} (ofBytes : Over bytes dec)
    (read : readVarValue malformed type dec = .ok (value, next)) : Over bytes next := by
  cases type with
  | const type => cases read
  | string =>
      simp only [readVarValue, bind_eq_ok] at read
      obtain ⟨content, -, same⟩ := read
      cases same
      exact ofBytes
  | bytes =>
      simp only [readVarValue, bind_eq_ok] at read
      obtain ⟨content, -, same⟩ := read
      cases same
      exact ofBytes
  | array elementType =>
      simp only [readVarValue, bind_eq_ok] at read
      obtain ⟨⟨elements, last⟩, taken, same⟩ := read
      cases same
      exact readArray_over ofBytes taken
  | null => cases read

theorem setOffsetVar_over {name : String} {schema : AxerSchema} (ofBytes : Over bytes dec)
    (set : dec.setOffsetVar name schema = .ok next) : Over bytes next := by
  rw [AxerDecoder.setOffsetVar] at set
  obtain ⟨vpos, -, set⟩ := bind_eq_ok.mp set
  split at set
  · cases set
  · simp only [bind_eq_ok] at set
    obtain ⟨sp, -, ending, -, same⟩ := set
    cases same
    exact ofBytes

theorem readField_over {field : String} {schema : AxerSchema} (ofBytes : Over bytes dec)
    (read : readField malformed schema field dec = .ok (value, next)) : Over bytes next := by
  rw [readField] at read
  obtain ⟨type, -, read⟩ := bind_eq_ok.mp read
  split at read
  · cases read
  · simp only [readConst, bind_eq_ok] at read
    obtain ⟨offset, -, constant, -, same⟩ := read
    cases same
    exact ofBytes
  · cases read
    exact ofBytes
  · rw [readVar] at read
    obtain ⟨moved, set, read⟩ := bind_eq_ok.mp read
    exact readVarValue_over (setOffsetVar_over ofBytes set) read

end

/-- What the reader finds for an entry in these bytes. -/
def valueAt (bytes : List UInt8) (entry : ConstEntry) : Except AxerException Value :=
  readConstValue entry.type { bytes, offset := entry.offset }

theorem readConstValue_eq (type : ConstType) (dec : AxerDecoder) :
    readConstValue type dec = readConstValue type { bytes := dec.bytes, offset := dec.offset } := by
  cases type <;> rfl

theorem readConstEntry_eq {bytes : List UInt8} {dec : AxerDecoder} (ofBytes : Over bytes dec) (entry : ConstEntry) :
    readConstEntry entry dec = (do return (← valueAt bytes entry, dec.setOffset entry.offset)) := by
  rw [readConstEntry, readConstValue_eq, valueAt]
  simp only [AxerDecoder.setOffset, ofBytes.1, ofBytes.2, Int.add_zero]

theorem over_setOffset {bytes : List UInt8} {dec : AxerDecoder} (ofBytes : Over bytes dec) (offset : Int) :
    Over bytes (dec.setOffset offset) := ofBytes

/-- The entries that a schema gives the reader. -/
def entriesOf (leaves : List (String × AvroSchema)) : List ConstEntry :=
  (placed 4 (constsOf leaves)).map fun field => { name := field.1.name, offset := field.2, type := field.1.type }

theorem map_fst_placed (start : Nat) (consts : List ConstField) : (placed start consts).map Prod.fst = consts := by
  induction consts generalizing start with
  | nil => rfl
  | cons field rest ih => simp [placed, ih]

section

variable {axer : AxerSchema} {leaves : List (String × AvroSchema)} {reader : AxerDatumReader}

theorem constEntry_ok (describes : Describes axer leaves) {field : ConstField} {offset : Nat}
    (member : (field, offset) ∈ placed 4 (constsOf leaves)) :
    constEntry axer field.name = .ok { name := field.name, offset, type := field.type } := by
  have among : field ∈ constsOf leaves := by
    rw [← map_fst_placed 4 (constsOf leaves)]
    exact List.mem_map.mpr ⟨_, member, rfl⟩
  rw [constEntry, describes.getOffset field offset member, ok_bind, describes.constType field among]
  rfl

theorem pushEntry_ok {name : String} {entry : ConstEntry} (given : constEntry axer name = .ok entry) :
    pushEntry axer name reader = .ok () { reader with constList := entry :: reader.constList } := by
  rw [pushEntry, bind_ok]
  exact ⟨entry, reader, ofExcept_ok.mpr ⟨given, rfl⟩, rfl⟩

theorem pushEntries_ok {fields : List (ConstField × Nat)}
    (entries : ∀ field ∈ fields, constEntry axer field.1.name =
      .ok { name := field.1.name, offset := field.2, type := field.1.type }) :
    (fields.map fun field => field.1.name).forM (pushEntry axer) reader =
      .ok () { reader with constList :=
        (fields.map fun field =>
          { name := field.1.name, offset := field.2, type := field.1.type : ConstEntry }).reverse ++
          reader.constList } := by
  induction fields generalizing reader with
  | nil => rfl
  | cons field rest ih =>
      have first := @pushEntry_ok axer reader _ _ (entries field (by simp))
      have later := @ih { reader with constList :=
        { name := field.1.name, offset := field.2, type := field.1.type } :: reader.constList }
        fun other member => entries other (by simp [member])
      rw [List.map_cons, forM_cons_ok]
      refine ⟨_, first, ?_⟩
      rw [later]
      simp

/-- The entries that the reader had are turned around, and those of the schema come
behind them. -/
theorem setAxerSchema_ok (describes : Describes axer leaves) :
    setAxerSchema axer reader =
      .ok () { reader with schema := some axer, constList := reader.constList.reverse ++ entriesOf leaves } := by
  have names : axer.constFields = (placed 4 (constsOf leaves)).map fun field => field.1.name := by
    rw [describes.constFields]
    nth_rewrite 1 [← map_fst_placed 4 (constsOf leaves)]
    rw [List.map_map]
    rfl
  have pushed := @pushEntries_ok axer { reader with schema := some axer } (placed 4 (constsOf leaves))
    fun field member => constEntry_ok describes member
  rw [← names] at pushed
  rw [setAxerSchema, bind_ok]
  refine ⟨(), { reader with schema := some axer }, rfl, ?_⟩
  rw [bind_ok]
  refine ⟨(), _, pushed, ?_⟩
  change EStateM.Result.ok () _ = _
  simp only [List.reverse_append, List.reverse_reverse]
  rfl

end

theorem Record.get_new (schema : RecordSchema) (name : String) : (Record.new schema).get name = .null := by
  rw [Record.get, Record.new]
  generalize schema.fields.toList = fields
  induction fields with
  | nil => rfl
  | cons field rest ih =>
      rw [List.map_cons, List.lookup_cons]
      split
      · rfl
      · exact ih

/-- The value for an entry, where there is one. -/
def valueOf (bytes : List UInt8) (entry : ConstEntry) : Value :=
  match valueAt bytes entry with
  | .ok value => value
  | .error _ => .null

theorem valueAt_valueOf {bytes : List UInt8} {entry : ConstEntry} {value : Value}
    (found : valueAt bytes entry = .ok value) : valueOf bytes entry = value := by
  rw [valueOf, found]

section

variable {malformed : List UInt8 → String} {axer : AxerSchema} {leaves : List (String × AvroSchema)} {record : Record}
  {schema : RecordSchema} {entries : List ConstEntry}

theorem readField_var {dec : AxerDecoder} {name : String} {type : AxerType} (describes : Describes axer leaves)
    (writable : Writable record leaves) (ofBytes : Over (encoding record leaves) dec)
    (member : (name, type) ∈ varsOf leaves) :
    ∃ next, readField malformed axer name dec = .ok (fieldBack (record.get name), next) ∧
      Over (encoding record leaves) next := by
  obtain ⟨position, inside, same⟩ := List.getElem_of_mem member
  have found : (varsOf leaves)[position]? = some (name, type) := List.getElem?_eq_some_iff.mpr ⟨inside, same⟩
  obtain ⟨sp, set, stands, small⟩ := setOffsetVar_ok describes writable ofBytes.1 found
  have of := writable.vars name type member
  obtain ⟨next, value⟩ := @readVarValue_ok malformed
    { dec with offset := sp, varLen := (varBody (type, record.get name) sp).length } sp type (record.get name) of rfl
    stands rfl small
  have read : readField malformed axer name dec = .ok (fieldBack (record.get name), next) := by
    rw [readField, describes.varType name type member, ok_bind]
    cases type with
    | const type => exact of.elim
    | null => exact of.elim
    | _ =>
        simp only [readVar]
        rw [set, ok_bind, value]
  exact ⟨next, read, readField_over ofBytes read⟩

/-- A read in which every entry has a place in the record and bytes to be read. -/
theorem read_ok (describes : Describes axer leaves) (writable : Writable record leaves)
    (named : ∀ entry ∈ entries, entry.name ∈ (Record.new schema).names)
    (readable : ∀ entry ∈ entries, ∃ value, valueAt (encoding record leaves) entry = .ok value)
    (vars : ∀ field ∈ varsOf leaves, field.1 ∈ (Record.new schema).names) :
    ∃ result, AxerDatumReader.read malformed { schema := some axer, expected := some schema, constList := entries } none
        { bytes := encoding record leaves } = .ok result ∧
      result.names = (Record.new schema).names ∧
      ∀ wanted, result.get wanted =
        if wanted ∈ (varsOf leaves).map Prod.fst then fieldBack (record.get wanted)
        else ((entries.reverse.find? fun entry => entry.name = wanted).map
          (valueOf (encoding record leaves))).getD .null := by
  have start : Over (encoding record leaves) { bytes := encoding record leaves } := ⟨rfl, rfl⟩
  obtain ⟨middle, moved, consts, ofBytes, names, values⟩ := @putNext_all _ ConstEntry.name readConstEntry
    (Over (encoding record leaves)) (valueOf (encoding record leaves)) entries (Record.new schema) _
    (by
      intro entry member dec ofBytes
      obtain ⟨value, found⟩ := readable entry member
      refine ⟨dec.setOffset entry.offset, ?_, over_setOffset ofBytes _⟩
      rw [readConstEntry_eq ofBytes, found, valueAt_valueOf found]
      rfl)
    named start
  obtain ⟨result, last, rest, -, sameNames, results⟩ := @putNext_all _ id (readField malformed axer)
    (Over (encoding record leaves)) (fun name => fieldBack (record.get name)) axer.varFields middle moved
    (by
      intro name member dec ofBytes
      rw [describes.varFields] at member
      obtain ⟨⟨key, type⟩, among, rfl⟩ := List.mem_map.mp member
      exact readField_var describes writable ofBytes among)
    (by
      intro name member
      rw [describes.varFields] at member
      obtain ⟨field, among, rfl⟩ := List.mem_map.mp member
      rw [names]
      exact vars field among)
    ofBytes
  refine ⟨result, ?_, sameNames.trans names, ?_⟩
  · simp only [AxerDatumReader.read, AxerDatumReader.target, ok_bind, consts, rest, pure_eq_ok]
  · intro wanted
    rw [results, values, Record.get_new, describes.varFields]
    by_cases isVar : wanted ∈ (varsOf leaves).map Prod.fst
    · have found : (((varsOf leaves).map Prod.fst).reverse.find? fun name => id name = wanted) = some wanted := by
        cases search : ((varsOf leaves).map Prod.fst).reverse.find? fun name => id name = wanted with
        | none =>
            have absent := List.find?_eq_none.mp search wanted (by simpa using isVar)
            simp at absent
        | some name =>
            have same := List.find?_some search
            simp only [id, decide_eq_true_eq] at same
            rw [same]
      rw [found, if_pos isVar]
      rfl
    · have absent : (((varsOf leaves).map Prod.fst).reverse.find? fun name => id name = wanted) = none := by
        refine List.find?_eq_none.mpr fun name member => ?_
        simp only [id, decide_eq_true_eq]
        intro same
        subst same
        exact isVar (by simpa using member)
      rw [absent, if_neg isVar]
      rfl

/-- What a read that returned has found. -/
theorem read_returned {result : Record} {bytes : List UInt8} (describes : Describes axer leaves)
    (read : AxerDatumReader.read malformed { schema := some axer, expected := some schema, constList := entries } none
      { bytes } = .ok result) :
    (∀ entry ∈ entries, entry.name ∈ (Record.new schema).names ∧ ∃ value, valueAt bytes entry = .ok value) ∧
      ∀ field ∈ varsOf leaves, field.1 ∈ (Record.new schema).names := by
  simp only [AxerDatumReader.read, AxerDatumReader.target, ok_bind, bind_eq_ok] at read
  obtain ⟨⟨middle, moved⟩, consts, final, rest, -⟩ := read
  have start : Over bytes { bytes } := ⟨rfl, rfl⟩
  have kept : ∀ entry ∈ entries, ∀ dec value next, Over bytes dec → readConstEntry entry dec = .ok (value, next) →
      Over bytes next := by
    intro entry member dec value next ofBytes taken
    rw [readConstEntry_eq ofBytes] at taken
    obtain ⟨given, -, same⟩ := bind_eq_ok.mp taken
    cases same
    exact over_setOffset ofBytes _
  refine ⟨fun entry member => ⟨putNext_names consts entry member, ?_⟩, ?_⟩
  · obtain ⟨dec, value, next, ofBytes, taken⟩ := putNext_reads kept start consts entry member
    rw [readConstEntry_eq ofBytes] at taken
    obtain ⟨given, found, -⟩ := bind_eq_ok.mp taken
    exact ⟨given, found⟩
  · intro field member
    have named := putNext_names rest field.1
      (by rw [describes.varFields]; exact List.mem_map.mpr ⟨field, member, rfl⟩)
    rwa [id, putNext_keeps consts] at named

end

end Scads.Axer
