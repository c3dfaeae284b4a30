import Scads.Axer.AxerDatumWriter

namespace Scads.Axer

open Scads.Data
open Scads.Comm (ok_bind error_bind pure_eq_ok bind_eq_ok)

/-! # Reading records -/

structure AxerDecoder where
  bytes : List UInt8
  recBase : Int := 0
  offset : Int := 0
  varLen : Int := 0
deriving DecidableEq, Repr

namespace AxerDecoder

def setOffset (dec : AxerDecoder) (offset : Int) : AxerDecoder := { dec with offset := offset + dec.recBase }

def byteAt (dec : AxerDecoder) (distance : Nat) : Except AxerException UInt8 :=
  let index := dec.offset + distance
  if 0 ≤ index ∧ index < dec.bytes.length then .ok (dec.bytes.getD index.toNat 0)
  else .error (.indexOutOfBounds index)

def readBoolean (dec : AxerDecoder) : Except AxerException Bool := do return (← dec.byteAt 0) == 1

def readInt (dec : AxerDecoder) : Except AxerException (BitVec 32) := do
  return wordOf (← dec.byteAt 0) (← dec.byteAt 1) (← dec.byteAt 2) (← dec.byteAt 3)

def readLong (dec : AxerDecoder) : Except AxerException (BitVec 64) := do
  return longOf (← dec.byteAt 0) (← dec.byteAt 1) (← dec.byteAt 2) (← dec.byteAt 3) (← dec.byteAt 4)
    (← dec.byteAt 5) (← dec.byteAt 6) (← dec.byteAt 7)

def readFloat (dec : AxerDecoder) : Except AxerException (BitVec 32) := dec.readInt

def readDouble (dec : AxerDecoder) : Except AxerException (BitVec 64) := dec.readLong

/-- `Array.copy` of so many bytes from the offset on. -/
def readFixed (dec : AxerDecoder) (length : Int) : Except AxerException (List UInt8) :=
  if 0 ≤ length ∧ 0 ≤ dec.offset ∧ dec.offset + length ≤ dec.bytes.length then
    .ok ((dec.bytes.drop dec.offset.toNat).take length.toNat)
  else .error (.indexOutOfBounds dec.offset)

/-- The bytes of the `Utf8` that is read. -/
def readString (dec : AxerDecoder) : Except AxerException (List UInt8) := dec.readFixed dec.varLen

def readBytes (dec : AxerDecoder) : Except AxerException (List UInt8) :=
  if dec.varLen < 0 then .error .illegalArgument else dec.readFixed dec.varLen

def setOffsetVar (dec : AxerDecoder) (name : String) (schema : AxerSchema) : Except AxerException AxerDecoder := do
  let vpos ← schema.getVarPosition name
  if vpos < 0 then
    .error (.exception ("Field name is not a variable length field in this schema: " ++ name))
  else
    let entry := { dec with offset := schema.constOffset + vpos * 4 }
    let sp ← entry.readInt
    let next := { dec with offset := if vpos = (schema.varFields.length : Int) - 1 then 0 else entry.offset + 4 }
    let ending ← next.readInt
    return { dec with offset := sp.toInt, varLen := int32 (ending.toInt - sp.toInt) }

def readArrayStart (dec : AxerDecoder) : Int := dec.varLen

end AxerDecoder

def newByteArray (size : Int) : Except AxerException Unit :=
  if size < 0 then .error (.negativeArraySize size) else .ok ()

/-- The readers of constant fields.  The one of a fixed field takes its length from
the bytes themselves. -/
def readConstValue (type : ConstType) (dec : AxerDecoder) : Except AxerException Value :=
  match type with
  | .boolean => do return .boolean (← dec.readBoolean)
  | .int => do return .int (← dec.readInt)
  | .float => do return .float (← dec.readFloat)
  | .long => do return .long (← dec.readLong)
  | .double => do return .double (← dec.readDouble)
  | .fixed => do
      let len := (← dec.readInt).toInt
      newByteArray len
      return .bytes (← dec.readFixed len)

/-- `Utf8.toString`.  What Java makes of malformed bytes is left open. -/
def utf8ToString (malformed : List UInt8 → String) (bytes : List UInt8) : String :=
  (String.fromUTF8? ⟨bytes.toArray⟩).getD (malformed bytes)

/-- `ConstArrayReader.fillArray`. -/
def fillConstArray (type : ConstType) (skipAmt : Nat) :
    Nat → AxerDecoder → Except AxerException (List Value × AxerDecoder)
  | 0, dec => .ok ([], dec)
  | count + 1, dec => do
      let value ← readConstValue type dec
      let (rest, dec) ← fillConstArray type skipAmt count { dec with offset := dec.offset + skipAmt }
      return (value :: rest, dec)

/-- Where an item of a table ends: at the offset of the next one, or at the last byte. -/
def itemEnd (finalByte : Int) (later : Nat) (entry : AxerDecoder) : Except AxerException Int :=
  if later = 0 then .ok finalByte
  else do return (← AxerDecoder.readInt { entry with offset := entry.offset + 4 }).toInt

/-- `VarArrayReader.fillArray`. -/
def fillVarArray (reader : AxerDecoder → Except AxerException Value) (finalByte : Int) :
    Nat → Int → AxerDecoder → Except AxerException (List Value × AxerDecoder)
  | 0, _, dec => .ok ([], dec)
  | count + 1, itemLenOff, dec => do
      let entry := { dec with offset := itemLenOff }
      let sp ← entry.readInt
      let ending ← itemEnd finalByte count entry
      let item := { dec with offset := sp.toInt, varLen := int32 (ending - sp.toInt) }
      let value ← reader item
      let (rest, dec) ← fillVarArray reader finalByte count (itemLenOff + 4) item
      return (value :: rest, dec)

section

variable (malformed : List UInt8 → String)

def readElementString (dec : AxerDecoder) : Except AxerException Value := do
  return .string (utf8ToString malformed (← dec.readString))

def readElementBytes (dec : AxerDecoder) : Except AxerException Value := do return .buffer (← dec.readBytes)

/-- The count and the table of an array of variable elements. -/
def readVarArray (reader : AxerDecoder → Except AxerException Value) (numBytes : Int) (dec : AxerDecoder) :
    Except AxerException (List Value × AxerDecoder) := do
  let finalByte := dec.offset + numBytes
  let len := (← dec.readInt).toInt
  let dec := { dec with offset := dec.offset + 4 }
  newByteArray len
  fillVarArray reader finalByte len.toNat dec.offset dec

/-- `readerForType` and the array that it fills. -/
def readArray (elementType : AxerType) (numBytes : Int) (dec : AxerDecoder) :
    Except AxerException (List Value × AxerDecoder) :=
  match elementType with
  | .const .fixed => .error (.exception "Hrmm, fixed in array")
  | .const type => do
      let skipAmt := numBytesForType type 0
      let length := numBytes.tdiv skipAmt
      newByteArray length
      fillConstArray type skipAmt length.toNat dec
  | .string => readVarArray (readElementString malformed) numBytes dec
  | .bytes => readVarArray readElementBytes numBytes dec
  | .array _ => .error (.exception "Array of array.... hrmm")
  | .null => do
      let len := (← dec.readInt).toInt
      newByteArray len
      return (List.replicate len.toNat .null, dec)

def readVarValue (type : AxerType) (dec : AxerDecoder) : Except AxerException (Value × AxerDecoder) :=
  match type with
  | .string => do return (.utf8 (← dec.readString), dec)
  | .bytes => do return (.buffer (← dec.readBytes), dec)
  | .array elementType => do
      let (items, dec) ← readArray malformed elementType dec.readArrayStart dec
      return (.array items, dec)
  | _ => .error .matchError

def readVar (schema : AxerSchema) (field : String) (type : AxerType) (dec : AxerDecoder) :
    Except AxerException (Value × AxerDecoder) := do
  readVarValue malformed type (← dec.setOffsetVar field schema)

def readConst (schema : AxerSchema) (field : String) (type : ConstType) (dec : AxerDecoder) :
    Except AxerException (Value × AxerDecoder) := do
  let dec := dec.setOffset (← schema.getOffset field)
  return (← readConstValue type dec, dec)

def readField (schema : AxerSchema) (field : String) (dec : AxerDecoder) :
    Except AxerException (Value × AxerDecoder) := do
  match ← schema.getType field with
  | none => .error .matchError
  | some (.const type) => readConst schema field type dec
  | some .null => return (.null, dec)
  | some type => readVar malformed schema field type dec

end

structure ConstEntry where
  name : String
  offset : Int
  type : ConstType
deriving DecidableEq, Repr

structure AxerDatumReader where
  schema : Option AxerSchema := none
  expected : Option RecordSchema := none
  constList : List ConstEntry := []

namespace AxerDatumReader

/-- `setSchema` with an Avro schema. -/
def setAvroSchema (avroSchema : RecordSchema) : EStateM AxerException AxerDatumReader Unit := do
  modify fun reader => { reader with expected := some avroSchema }
  let schema ← ofExcept (getAxerSchema avroSchema)
  modify fun reader => { reader with schema := some schema }

def constEntry (as : AxerSchema) (name : String) : Except AxerException ConstEntry := do
  return { name, offset := ← as.getOffset name, type := ← AxerDatumWriter.asConstType (← as.getType name) }

def pushEntry (as : AxerSchema) (name : String) : EStateM AxerException AxerDatumReader Unit := do
  let entry ← ofExcept (constEntry as name)
  modify fun reader => { reader with constList := entry :: reader.constList }

/-- `setSchema` with an Axer schema. -/
def setAxerSchema (as : AxerSchema) : EStateM AxerException AxerDatumReader Unit := do
  modify fun reader => { reader with schema := some as }
  as.constFields.forM (pushEntry as)
  modify fun reader => { reader with constList := reader.constList.reverse }

def setExpected (avroSchema : RecordSchema) : EStateM AxerException AxerDatumReader Unit :=
  modify fun reader => { reader with expected := some avroSchema }

def readConstEntry (entry : ConstEntry) (dec : AxerDecoder) : Except AxerException (Value × AxerDecoder) := do
  let dec := dec.setOffset entry.offset
  return (← readConstValue entry.type dec, dec)

/-- Reads one field and puts it into the record. -/
def putNext {ε : Type} (name : ε → String)
    (read : ε → AxerDecoder → Except AxerException (Value × AxerDecoder)) (state : Record × AxerDecoder) (entry : ε) :
    Except AxerException (Record × AxerDecoder) := do
  let (value, dec) ← read entry state.2
  return (← state.1.put (name entry) value, dec)

/-- The record that `read` fills. -/
def target (reader : AxerDatumReader) (reuse : Option Record) : Except AxerException Record :=
  match reuse, reader.expected with
  | some record, _ => .ok record
  | none, some expected => .ok (Record.new expected)
  | none, none => .error (.exception "Not a record schema: null")

def read (malformed : List UInt8 → String) (reader : AxerDatumReader) (reuse : Option Record) (dec : AxerDecoder) :
    Except AxerException Record := do
  let ret ← reader.target reuse
  let state ← reader.constList.foldlM (putNext ConstEntry.name readConstEntry) (ret, dec)
  match reader.schema with
  | none => .error .nullPointer
  | some schema => do
      let final ← schema.varFields.foldlM (putNext id (readField malformed schema)) state
      return final.1

end AxerDatumReader

end Scads.Axer
