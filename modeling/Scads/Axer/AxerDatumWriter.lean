import Scads.Axer.Layout
import Scads.Data.OffsetTables

namespace Scads.Axer

open Scads.Data
open Scads.Comm (ok_bind error_bind pure_eq_ok bind_eq_ok)

/-! # Writing records -/

/-- An object in a field of a record.  Floats and doubles are their bits. -/
inductive Value where
  | null
  | boolean (value : Bool)
  | int (value : BitVec 32)
  | long (value : BitVec 64)
  | float (bits : BitVec 32)
  | double (bits : BitVec 64)
  | string (text : String)
  | utf8 (content : List UInt8)
  | bytes (content : List UInt8)
  | buffer (content : List UInt8)
  | array (items : List Value)
  | record

/-- A `GenericData.Record`: the fields of its schema with their values. -/
structure Record where
  values : List (String × Value)

namespace Record

def new (schema : RecordSchema) : Record :=
  { values := schema.fields.toList.map fun field => (field.1, .null) }

def get (record : Record) (name : String) : Value := (record.values.lookup name).getD .null

def put (record : Record) (name : String) (value : Value) : Except AxerException Record :=
  if name ∈ record.values.map Prod.fst then
    .ok { values := record.values.map fun field => if field.1 = name then (name, value) else field }
  else .error (.noSuchField name)

end Record

namespace Value

def asBoolean : Value → Except AxerException Bool
  | .boolean value => .ok value
  | .null => .ok false
  | _ => .error .classCast

def asInt : Value → Except AxerException (BitVec 32)
  | .int value => .ok value
  | .null => .ok 0
  | _ => .error .classCast

def asLong : Value → Except AxerException (BitVec 64)
  | .long value => .ok value
  | .null => .ok 0
  | _ => .error .classCast

def asFloat : Value → Except AxerException (BitVec 32)
  | .float bits => .ok bits
  | .null => .ok 0
  | _ => .error .classCast

def asDouble : Value → Except AxerException (BitVec 64)
  | .double bits => .ok bits
  | .null => .ok 0
  | _ => .error .classCast

/-- The cast to a reference lets `null` through, and the encoder fails at it. -/
def asString : Value → Except AxerException String
  | .string text => .ok text
  | .null => .error .nullPointer
  | _ => .error .classCast

def asBytes : Value → Except AxerException (List UInt8)
  | .bytes content => .ok content
  | .null => .error .nullPointer
  | _ => .error .classCast

def asArray : Value → Except AxerException (List Value)
  | .array items => .ok items
  | .null => .error .nullPointer
  | _ => .error .classCast

end Value

namespace AxerEncoder

def reserve (buffer : List UInt8) (amount : Int) : List UInt8 := buffer ++ List.replicate amount.toNat 0

def writeBoolean (buffer : List UInt8) (value : Bool) : List UInt8 := buffer ++ [if value then 1 else 0]

def writeInt (buffer : List UInt8) (value : BitVec 32) : List UInt8 := buffer ++ wordBytes value

def writeIntInto (buffer : List UInt8) (value : BitVec 32) (offset : Nat) : Except AxerException (List UInt8) :=
  if offset + 4 ≤ buffer.length then
    .ok (buffer.take offset ++ wordBytes value ++ buffer.drop (offset + 4))
  else .error (.indexOutOfBounds offset)

def writeLong (buffer : List UInt8) (value : BitVec 64) : List UInt8 := buffer ++ longBytes value

def writeFloat (buffer : List UInt8) (bits : BitVec 32) : List UInt8 := writeInt buffer bits

def writeDouble (buffer : List UInt8) (bits : BitVec 64) : List UInt8 := writeLong buffer bits

def writeBytes (buffer bytes : List UInt8) : List UInt8 := buffer ++ bytes

def writeFixed (buffer bytes : List UInt8) : List UInt8 := writeBytes buffer bytes

def utf8Bytes (text : String) : List UInt8 := text.toByteArray.data.toList

def writeString (buffer : List UInt8) (text : String) : List UInt8 := writeBytes buffer (utf8Bytes text)

end AxerEncoder

namespace AxerDatumWriter

open AxerEncoder

def asConstType : Option AxerType → Except AxerException ConstType
  | some (.const type) => .ok type
  | some _ => .error .classCast
  | none => .error .matchError

/-- The casts and writes of the constant fields. -/
def writeConst (type : ConstType) (value : Value) (out : List UInt8) : Except AxerException (List UInt8) :=
  match type with
  | .boolean => do return writeBoolean out (← value.asBoolean)
  | .int => do return writeInt out (← value.asInt)
  | .float => do return writeFloat out (← value.asFloat)
  | .long => do return writeLong out (← value.asLong)
  | .double => do return writeDouble out (← value.asDouble)
  | .fixed => do return writeFixed out (← value.asBytes)

/-- `writerForType` at a constant type, which has the writer of longs for doubles. -/
def constWriterForType (type : ConstType) (value : Value) (out : List UInt8) : Except AxerException (List UInt8) :=
  match type with
  | .double => do return writeLong out (← value.asLong)
  | other => writeConst other value out

/-- Writes items one after the other and their offsets into the table at `place`. -/
def writeItems {α : Type} (writer : α → List UInt8 → Except AxerException (List UInt8)) :
    List α → List UInt8 → Nat → Except AxerException (List UInt8)
  | [], out, _ => .ok out
  | item :: rest, out, place => do
      let sp := out.length
      let out ← writer item out
      let out ← writeIntInto out (BitVec.ofNat 32 sp) place
      writeItems writer rest out (place + 4)

/-- The part of `writeArray` for elements of variable length. -/
def writeOffsets (writer : Value → List UInt8 → Except AxerException (List UInt8)) (a : List Value)
    (out : List UInt8) : Except AxerException (List UInt8) :=
  let out := writeInt out (BitVec.ofNat 32 a.length)
  let itemLenOff := out.length
  writeItems writer a (reserve out (int32 (a.length * 4))) itemLenOff

def writeArray : AxerType → List Value → List UInt8 → Except AxerException (List UInt8)
  | .null, a, out => .ok (writeInt out (BitVec.ofNat 32 a.length))
  | .const type, a, out => a.foldlM (fun out elem => constWriterForType type elem out) out
  | .string, a, out => writeOffsets (fun elem out => do return writeString out (← elem.asString)) a out
  | .bytes, a, out => writeOffsets (fun elem out => do return writeBytes out (← elem.asBytes)) a out
  | .array elementType, a, out =>
      writeOffsets (fun elem out => do writeArray elementType (← elem.asArray) out) a out

/-- The casts and writes of the variable fields. -/
def writeVar (type : Option AxerType) (value : Value) (out : List UInt8) : Except AxerException (List UInt8) :=
  match type with
  | some .string => do return writeString out (← value.asString)
  | some .bytes => do return writeBytes out (← value.asBytes)
  | some (.array elementType) => do writeArray elementType (← value.asArray) out
  | some _ => .error .classCast
  | none => .error .matchError

def writeConstField (schema : AxerSchema) (record : Record) (out : List UInt8) (name : String) :
    Except AxerException (List UInt8) := do
  let type ← asConstType (← schema.getType name)
  writeConst type (record.get name) out

def writeVarField (schema : AxerSchema) (record : Record) (name : String) (out : List UInt8) :
    Except AxerException (List UInt8) := do
  writeVar (← schema.getType name) (record.get name) out

def writeRecord (schema : AxerSchema) (record : Record) (out : List UInt8) : Except AxerException (List UInt8) := do
  let out ← schema.constFields.foldlM (writeConstField schema record) (reserve out 4)
  let varLenOff := out.length
  let out ← writeItems (writeVarField schema record) schema.varFields
    (reserve out (int32 (schema.varFields.length * 4))) varLenOff
  writeIntInto out (BitVec.ofNat 32 out.length) 0

end AxerDatumWriter

end Scads.Axer
