import Scads.Comm.Messages
import Scads.Data.SlotTables
import Scads.Data.Words

namespace Scads.Axer

open Scads.Data
open Scads.Comm (ok_bind error_bind pure_eq_ok bind_eq_ok)

/-! # Axer schemas

An Axer schema sorts the fields of an Avro record schema into those of constant and
those of variable length, and finds a field's offset, position and type in tables
that are addressed by the hash of its name.
-/

inductive AxerException where
  | collision (message : String)
  | indexOutOfBounds (index : Int)
  | matchError
  | classCast
  | nullPointer
  | negativeArraySize (size : Int)
  | illegalArgument
  | noSuchField (name : String)
  | exception (message : String)
deriving DecidableEq, Repr

mutual

/-- An Avro schema, as far as Axer looks at it. -/
inductive AvroSchema where
  | boolean
  | int
  | long
  | float
  | double
  | null
  | string
  | bytes
  | fixed (size : Nat)
  | array (elementType : AvroSchema)
  | record (name : String) (fields : Fields)
  | enumeration
  | map
  | union

inductive Fields where
  | nil
  | cons (name : String) (schema : AvroSchema) (rest : Fields)

end

def Fields.toList : Fields → List (String × AvroSchema)
  | .nil => []
  | .cons name schema rest => (name, schema) :: rest.toList

def Fields.ofList : List (String × AvroSchema) → Fields
  | [] => .nil
  | (name, schema) :: rest => .cons name schema (.ofList rest)

theorem Fields.toList_ofList (fields : List (String × AvroSchema)) : (Fields.ofList fields).toList = fields := by
  induction fields with
  | nil => rfl
  | cons field rest ih =>
      obtain ⟨name, schema⟩ := field
      simp [ofList, toList, ih]

/-- A record schema, which Avro builds only with distinct field names and without
dots in them. -/
structure RecordSchema where
  name : String
  fields : Fields
  distinct : (fields.toList.map Prod.fst).Nodup
  plain : ∀ name ∈ fields.toList.map Prod.fst, '.' ∉ name.toList

inductive ConstType where
  | boolean
  | int
  | float
  | long
  | double
  | fixed
deriving DecidableEq, Repr

inductive AxerType where
  | const (type : ConstType)
  | string
  | bytes
  | array (elementType : AxerType)
  | null
deriving DecidableEq, Repr

def numBytesForType (type : ConstType) (fs : Nat) : Nat :=
  match type with
  | .boolean => 1
  | .int => 4
  | .float => 4
  | .long => 8
  | .double => 8
  | .fixed => fs

def utf16 (char : Char) : List Nat :=
  if char.toNat < 0x10000 then [char.toNat]
  else [0xD800 + (char.toNat - 0x10000) / 0x400, 0xDC00 + (char.toNat - 0x10000) % 0x400]

/-- `String.hashCode`. -/
def hashCode (text : String) : Int :=
  (text.toList.flatMap utf16).foldl (fun hash (unit : Nat) => int32 (31 * hash + unit)) 0

/-- `scala.math.abs` of a 32-bit integer. -/
def abs (value : Int) : Int := if value < 0 then int32 (-value) else value

def slotOf (size : Nat) (key : String) : Int := (abs (hashCode key)).tmod size

abbrev AxerIntTable := SlotTable Int

abbrev AxerRefTable := SlotTable (Option AxerType)

section

variable {α : Type} [DecidableEq α]

def putKey (message : Int → String) (table : SlotTable α) (key : String) (value : α) :
    Except AxerException (SlotTable α) :=
  let slot := slotOf table.vals.length key
  match table.put slot value with
  | .ok next => .ok next
  | .error .outside => .error (.indexOutOfBounds slot)
  | .error .occupied => .error (.collision (message slot))

def getKey (table : SlotTable α) (key : String) : Except AxerException α :=
  let slot := slotOf table.vals.length key
  match table.get slot with
  | .ok value => .ok value
  | .error _ => .error (.indexOutOfBounds slot)

end

def AxerIntTable.put (table : AxerIntTable) (key : String) (value : Int) : Except AxerException AxerIntTable :=
  putKey (fun _ => "Collision!") table key value

def AxerRefTable.put (table : AxerRefTable) (key : String) (value : AxerType) : Except AxerException AxerRefTable :=
  putKey (fun slot => "Collision for: " ++ toString slot) table key (some value)

structure SchemaBuilder where
  constNames : List String := []
  constOffsetMap : AxerIntTable := .new 443 (-1)
  typeMap : AxerRefTable := .new 701 none
  constOffset : Nat := 4
  varNames : List String := []
  numVars : Nat := 0
  varNumMap : AxerIntTable := .new 443 (-1)

namespace SchemaBuilder

def addConst (builder : SchemaBuilder) (name : String) (type : ConstType) (fs : Nat) :
    Except AxerException SchemaBuilder := do
  let constOffsetMap ← AxerIntTable.put builder.constOffsetMap name builder.constOffset
  let typeMap ← AxerRefTable.put builder.typeMap name (.const type)
  return { builder with
    constNames := builder.constNames ++ [name]
    constOffsetMap
    typeMap
    constOffset := builder.constOffset + numBytesForType type fs }

def addVar (builder : SchemaBuilder) (name : String) (type : AxerType) : Except AxerException SchemaBuilder := do
  let varNumMap ← AxerIntTable.put builder.varNumMap name builder.numVars
  let typeMap ← AxerRefTable.put builder.typeMap name type
  return { builder with
    varNames := builder.varNames ++ [name]
    varNumMap
    typeMap
    numVars := builder.numVars + 1 }

def addBoolean (builder : SchemaBuilder) (name : String) := builder.addConst name .boolean 0

def addInt (builder : SchemaBuilder) (name : String) := builder.addConst name .int 0

def addFloat (builder : SchemaBuilder) (name : String) := builder.addConst name .float 0

def addLong (builder : SchemaBuilder) (name : String) := builder.addConst name .long 0

def addDouble (builder : SchemaBuilder) (name : String) := builder.addConst name .double 0

def addFixed (builder : SchemaBuilder) (name : String) (fs : Nat) := builder.addConst name .fixed fs

def addBytes (builder : SchemaBuilder) (name : String) := builder.addVar name .bytes

def addString (builder : SchemaBuilder) (name : String) := builder.addVar name .string

def addArray (builder : SchemaBuilder) (name : String) (elementType : AxerType) :=
  builder.addVar name (.array elementType)

def addNull (builder : SchemaBuilder) (name : String) : Except AxerException SchemaBuilder := do
  let typeMap ← AxerRefTable.put builder.typeMap name .null
  return { builder with typeMap }

end SchemaBuilder

structure AxerSchema where
  name : String
  constFields : List String
  varFields : List String
  constOffsetMap : AxerIntTable
  typeMap : AxerRefTable
  varNumMap : AxerIntTable
  constOffset : Nat

namespace AxerSchema

def getType (schema : AxerSchema) (name : String) : Except AxerException (Option AxerType) :=
  getKey schema.typeMap name

def getOffset (schema : AxerSchema) (name : String) : Except AxerException Int :=
  getKey schema.constOffsetMap name

def getVarPosition (schema : AxerSchema) (name : String) : Except AxerException Int :=
  getKey schema.varNumMap name

end AxerSchema

def SchemaBuilder.result (builder : SchemaBuilder) (name : String) : AxerSchema :=
  { name
    constFields := builder.constNames
    varFields := builder.varNames
    constOffsetMap := builder.constOffsetMap
    typeMap := builder.typeMap
    varNumMap := builder.varNumMap
    constOffset := builder.constOffset }

def avroToAxerType : AvroSchema → Except AxerException AxerType
  | .boolean => .ok (.const .boolean)
  | .int => .ok (.const .int)
  | .float => .ok (.const .float)
  | .long => .ok (.const .long)
  | .double => .ok (.const .double)
  | .fixed _ => .ok (.const .fixed)
  | .null => .ok .null
  | .string => .ok .string
  | .bytes => .ok .bytes
  | .array elementType => do return .array (← avroToAxerType elementType)
  | .record _ _ => .error (.exception "Hrmm, what to do here")
  | .enumeration => .error .matchError
  | .map => .error .matchError
  | .union => .error .matchError

mutual

/-- The body of the loop of `addToSchema`. -/
def addField : AvroSchema → SchemaBuilder → String → Except AxerException SchemaBuilder
  | .boolean, builder, name => builder.addBoolean name
  | .int, builder, name => builder.addInt name
  | .float, builder, name => builder.addFloat name
  | .long, builder, name => builder.addLong name
  | .double, builder, name => builder.addDouble name
  | .fixed size, builder, name => builder.addFixed name size
  | .null, builder, name => builder.addNull name
  | .string, builder, name => builder.addString name
  | .bytes, builder, name => builder.addBytes name
  | .array elementType, builder, name => do builder.addArray name (← avroToAxerType elementType)
  | .record _ fields, builder, name => addToSchema fields builder (name ++ ".")
  | .enumeration, _, _ => .error .matchError
  | .map, _, _ => .error .matchError
  | .union, _, _ => .error .matchError

def addToSchema : Fields → SchemaBuilder → String → Except AxerException SchemaBuilder
  | .nil, builder, _ => .ok builder
  | .cons name schema rest, builder, pre => do
      let builder ← addField schema builder (pre ++ name)
      addToSchema rest builder pre

end

def getAxerSchema (schema : RecordSchema) : Except AxerException AxerSchema := do
  let builder ← addToSchema schema.fields {} ""
  return builder.result schema.name

mutual

/-- The fields that a schema comes down to, under their full names. -/
def AvroSchema.leaves : AvroSchema → String → List (String × AvroSchema)
  | .record _ fields, name => fields.leaves (name ++ ".")
  | schema, name => [(name, schema)]

def Fields.leaves : Fields → String → List (String × AvroSchema)
  | .nil, _ => []
  | .cons name schema rest, pre => schema.leaves (pre ++ name) ++ rest.leaves pre

end

def addLeaf (builder : SchemaBuilder) (leaf : String × AvroSchema) : Except AxerException SchemaBuilder :=
  addField leaf.2 builder leaf.1

mutual

theorem addField_eq (schema : AvroSchema) (builder : SchemaBuilder) (name : String) :
    addField schema builder name = (schema.leaves name).foldlM addLeaf builder := by
  cases schema with
  | record title fields => rw [addField, AvroSchema.leaves, addToSchema_eq]
  | _ => simp only [AvroSchema.leaves, addLeaf, List.foldlM_cons, List.foldlM_nil, bind_pure]

theorem addToSchema_eq (fields : Fields) (builder : SchemaBuilder) (pre : String) :
    addToSchema fields builder pre = (fields.leaves pre).foldlM addLeaf builder := by
  cases fields with
  | nil => rfl
  | cons name schema rest =>
      rw [addToSchema, Fields.leaves, List.foldlM_append, addField_eq]
      congr 1
      funext next
      exact addToSchema_eq rest next pre

end

end Scads.Axer
