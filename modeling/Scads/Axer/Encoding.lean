import Scads.Axer.AxerDatumWriter

namespace Scads.Axer

open Scads.Data
open Scads.Comm (ok_bind error_bind pure_eq_ok bind_eq_ok)

/-! # The bytes of a record

The total length, the constant fields one after the other, the offsets of the variable
fields and then their bytes.  An array of strings or byte arrays has the same form
again, with its count in the place of the length.
-/

/-- The value can stand in a field of the type. -/
def OfType : AvroSchema → Value → Prop
  | .boolean, .boolean _ => True
  | .int, .int _ => True
  | .long, .long _ => True
  | .float, .float _ => True
  | .double, .double _ => True
  | .null, .null => True
  | .string, .string _ => True
  | .bytes, .bytes _ => True
  | .fixed size, .bytes content => content.length = size
  | .array elementType, .array items => items.length < 2 ^ 31 ∧ ∀ item ∈ items, OfType elementType item
  | .record _ _, .record => True
  | _, _ => False

def ConstOf (type : ConstType) (width : Nat) (value : Value) : Prop :=
  match type, value with
  | .boolean, .boolean _ => width = 1
  | .int, .int _ => width = 4
  | .float, .float _ => width = 4
  | .long, .long _ => width = 8
  | .double, .double _ => width = 8
  | .fixed, .bytes content => width = content.length
  | _, _ => False

/-- The elements that the writer takes for an array of the type: no doubles, for which
it has the wrong writer. -/
def ItemsOf (elementType : AxerType) (items : List Value) : Prop :=
  match elementType with
  | .const .double => items = []
  | .const type => type ≠ .fixed ∧ ∀ item ∈ items, ConstOf type (numBytesForType type 0) item
  | .null => ∀ item ∈ items, item = .null
  | .string => ∀ item ∈ items, ∃ text, item = .string text
  | .bytes => ∀ item ∈ items, ∃ content, item = .bytes content
  | .array _ => False

def VarOf (type : AxerType) (value : Value) : Prop :=
  match type, value with
  | .string, .string _ => True
  | .bytes, .bytes _ => True
  | .array elementType, .array items => items.length < 2 ^ 31 ∧ ItemsOf elementType items
  | _, _ => False

def constBytes : Value → List UInt8
  | .boolean value => [if value then 1 else 0]
  | .int value => wordBytes value
  | .float bits => wordBytes bits
  | .long value => longBytes value
  | .double bits => longBytes bits
  | .bytes content => content
  | _ => []

def itemBytes (value : Value) (_ : Nat) : List UInt8 :=
  match value with
  | .string text => AxerEncoder.utf8Bytes text
  | .bytes content => content
  | _ => []

/-- Items behind their count and their offsets. -/
def listBody (items : List Value) (start : Nat) : List UInt8 :=
  let first := start + 4 + 4 * items.length
  wordBytes (BitVec.ofNat 32 items.length) ++ offsetTable (starts itemBytes items first) ++
    bodies itemBytes items first

def arrayBody (elementType : AxerType) (items : List Value) (start : Nat) : List UInt8 :=
  match elementType with
  | .null => wordBytes (BitVec.ofNat 32 items.length)
  | .const _ => items.flatMap constBytes
  | _ => listBody items start

def varBody (field : AxerType × Value) (start : Nat) : List UInt8 :=
  match field with
  | (.array elementType, .array items) => arrayBody elementType items start
  | (_, value) => itemBytes value start

def constPart (consts : List Value) : List UInt8 := consts.flatMap constBytes

/-- Where the first variable field starts. -/
def varStart (consts : List Value) (vars : List (AxerType × Value)) : Nat :=
  4 + (constPart consts).length + 4 * vars.length

def varPart (consts : List Value) (vars : List (AxerType × Value)) : List UInt8 :=
  bodies varBody vars (varStart consts vars)

/-- The number of bytes of a record. -/
def encodedSize (consts : List Value) (vars : List (AxerType × Value)) : Nat :=
  varStart consts vars + (varPart consts vars).length

def layout (consts : List Value) (vars : List (AxerType × Value)) : List UInt8 :=
  wordBytes (BitVec.ofNat 32 (encodedSize consts vars)) ++ constPart consts ++
    offsetTable (starts varBody vars (varStart consts vars)) ++ varPart consts vars

namespace AxerDatumWriter

open AxerEncoder

theorem writeConst_ok {type : ConstType} {width : Nat} {value : Value} (of : ConstOf type width value)
    (out : List UInt8) : writeConst type value out = .ok (out ++ constBytes value) := by
  cases type with
  | boolean => cases value with
    | boolean value => rfl
    | _ => exact of.elim
  | int => cases value with
    | int value => rfl
    | _ => exact of.elim
  | float => cases value with
    | float bits => rfl
    | _ => exact of.elim
  | long => cases value with
    | long value => rfl
    | _ => exact of.elim
  | double => cases value with
    | double bits => rfl
    | _ => exact of.elim
  | fixed => cases value with
    | bytes content => rfl
    | _ => exact of.elim

theorem writeIntInto_ok {front old rest : List UInt8} {value : BitVec 32} (room : old.length = 4) :
    writeIntInto (front ++ old ++ rest) value front.length = .ok (front ++ wordBytes value ++ rest) := by
  have long : front.length + 4 ≤ (front ++ old ++ rest).length := by
    simp only [List.length_append]
    omega
  have taken : (front ++ old ++ rest).take front.length = front := by
    rw [List.append_assoc, List.take_left' rfl]
  have dropped : (front ++ old ++ rest).drop (front.length + 4) = rest := by
    rw [List.drop_left' (by rw [List.length_append, room])]
  rw [writeIntInto, if_pos long, taken, dropped]

/-- Writing items fills their part of the table and adds their bytes. -/
theorem writeItems_ok {α : Type} {writer : α → List UInt8 → Except AxerException (List UInt8)}
    {body : α → Nat → List UInt8} {items : List α} {front table written : List UInt8} {place : Nat}
    (writes : ∀ item ∈ items, ∀ out, (out.length + (body item out.length).length) < 2 ^ 31 →
      writer item out = .ok (out ++ body item out.length))
    (isPlace : place = front.length) (room : table.length = 4 * items.length)
    (small : (front ++ table ++ written).length +
      (bodies body items (front ++ table ++ written).length).length < 2 ^ 31) :
    writeItems writer items (front ++ table ++ written) place =
      .ok (front ++ offsetTable (starts body items (front ++ table ++ written).length) ++ written ++
        bodies body items (front ++ table ++ written).length) := by
  induction items generalizing front table written place with
  | nil =>
      have none : table = [] := List.eq_nil_of_length_eq_zero (by simpa using room)
      simp [writeItems, starts, bodies, none, offsetTable]
  | cons item rest ih =>
      rw [List.length_cons] at room
      obtain ⟨sp, isStart⟩ : ∃ sp, sp = (front ++ table ++ written).length := ⟨_, rfl⟩
      rw [← isStart] at small ⊢
      have added := writes item (by simp) (front ++ table ++ written)
      rw [← isStart] at added
      simp only [bodies, starts, List.length_append] at small ⊢
      have cut : front ++ table ++ written ++ body item sp =
          front ++ table.take 4 ++ (table.drop 4 ++ written ++ body item sp) := by
        simp only [List.append_assoc]
        rw [← List.append_assoc (table.take 4), List.take_append_drop]
      have patched := @writeIntInto_ok front (table.take 4) (table.drop 4 ++ written ++ body item sp)
        (BitVec.ofNat 32 sp) (by rw [List.length_take]; omega)
      have next : (front ++ wordBytes (BitVec.ofNat 32 sp) ++ table.drop 4 ++ (written ++ body item sp)).length =
          sp + (body item sp).length := by
        rw [isStart]
        simp only [List.length_append, length_wordBytes, List.length_drop]
        omega
      have remaining := @ih (front ++ wordBytes (BitVec.ofNat 32 sp)) (table.drop 4) (written ++ body item sp)
        (place + 4) (fun other member => writes other (by simp [member]))
        (by simp only [List.length_append, length_wordBytes, isPlace]) (by rw [List.length_drop]; omega)
        (by rw [next]; omega)
      rw [next] at remaining
      rw [writeItems, added (by omega), ok_bind, ← isStart, cut, isPlace, patched, ok_bind, ← isPlace]
      have same : front ++ wordBytes (BitVec.ofNat 32 sp) ++ (table.drop 4 ++ written ++ body item sp) =
          front ++ wordBytes (BitVec.ofNat 32 sp) ++ table.drop 4 ++ (written ++ body item sp) := by
        simp only [List.append_assoc]
      rw [same, remaining]
      simp only [offsetTable, List.flatMap_cons, List.append_assoc]

theorem foldlM_writes {α : Type} {writer : List UInt8 → α → Except AxerException (List UInt8)}
    {body : α → List UInt8} {items : List α} (writes : ∀ item ∈ items, ∀ out, writer out item = .ok (out ++ body item))
    (out : List UInt8) : items.foldlM writer out = .ok (out ++ items.flatMap body) := by
  induction items generalizing out with
  | nil => simp
  | cons item rest ih =>
      rw [List.foldlM_cons, writes item (by simp), ok_bind, ih fun other member => writes other (by simp [member])]
      simp

theorem constWriterForType_ok {type : ConstType} {width : Nat} {value : Value} (notDouble : type ≠ .double)
    (of : ConstOf type width value) (out : List UInt8) :
    constWriterForType type value out = .ok (out ++ constBytes value) := by
  cases type with
  | double => exact (notDouble rfl).elim
  | _ => exact writeConst_ok of out

theorem reserve_ok {out : List UInt8} {count : Nat} (small : 4 * count < 2 ^ 31) :
    reserve out (int32 (count * 4)) = out ++ List.replicate (4 * count) 0 := by
  have wide : int32 ((count : Int) * 4) = (4 * count : Nat) := by
    rw [int32_of_range (by omega) (by omega)]
    omega
  rw [reserve, wide, Int.toNat_natCast]

theorem writeOffsets_ok {writer : Value → List UInt8 → Except AxerException (List UInt8)} {items : List Value}
    {out : List UInt8} (writes : ∀ item ∈ items, ∀ out, writer item out = .ok (out ++ itemBytes item out.length))
    (small : out.length + (listBody items out.length).length < 2 ^ 31) :
    writeOffsets writer items out = .ok (out ++ listBody items out.length) := by
  have first : (out ++ wordBytes (BitVec.ofNat 32 items.length) ++ List.replicate (4 * items.length) 0 ++ []).length =
      out.length + 4 + 4 * items.length := by
    simp only [List.length_append, length_wordBytes, List.length_replicate, List.length_nil]
    omega
  simp only [listBody, List.length_append, length_wordBytes, length_offsetTable, length_starts] at small
  have written := @writeItems_ok _ writer itemBytes items (out ++ wordBytes (BitVec.ofNat 32 items.length))
    (List.replicate (4 * items.length) 0) [] (out ++ wordBytes (BitVec.ofNat 32 items.length)).length
    (fun item member out _ => writes item member out) rfl (by simp) (by rw [first]; omega)
  rw [first] at written
  simp only [writeOffsets, writeInt]
  rw [reserve_ok (by omega)]
  simp only [List.append_nil] at written
  rw [written]
  simp only [listBody, List.append_assoc]

theorem writeArray_ok {elementType : AxerType} {items : List Value} {out : List UInt8}
    (of : ItemsOf elementType items) (small : out.length + (arrayBody elementType items out.length).length < 2 ^ 31) :
    writeArray elementType items out = .ok (out ++ arrayBody elementType items out.length) := by
  cases elementType with
  | null => rfl
  | const type =>
      cases type with
      | double =>
          simp only [ItemsOf] at of
          subst of
          simp [writeArray, arrayBody]
      | fixed => exact (of.1 rfl).elim
      | _ =>
          refine foldlM_writes ?_ out
          intro item member out
          exact constWriterForType_ok (by simp) (of.2 item member) out
  | string =>
      refine writeOffsets_ok ?_ small
      intro item member out
      obtain ⟨text, rfl⟩ := of item member
      rfl
  | bytes =>
      refine writeOffsets_ok ?_ small
      intro item member out
      obtain ⟨content, rfl⟩ := of item member
      rfl
  | array elementType => exact of.elim

theorem writeVar_ok {type : AxerType} {value : Value} {out : List UInt8} (of : VarOf type value)
    (small : out.length + (varBody (type, value) out.length).length < 2 ^ 31) :
    writeVar (some type) value out = .ok (out ++ varBody (type, value) out.length) := by
  cases type with
  | string => cases value with
    | string text => rfl
    | _ => exact of.elim
  | bytes => cases value with
    | bytes content => rfl
    | _ => exact of.elim
  | array elementType => cases value with
    | array items => exact writeArray_ok of.2 small
    | _ => exact of.elim
  | const type => exact of.elim
  | null => exact of.elim

theorem writeItems_map {α β : Type} {writer : α → List UInt8 → Except AxerException (List UInt8)} (of : β → α)
    (items : List β) (out : List UInt8) (place : Nat) :
    writeItems writer (items.map of) out place = writeItems (fun item => writer (of item)) items out place := by
  induction items generalizing out place with
  | nil => rfl
  | cons item rest ih => simp only [List.map_cons, writeItems, ih]

end AxerDatumWriter

/-- The values of the constant fields, in the order in which they are written. -/
def constValues (record : Record) (leaves : List (String × AvroSchema)) : List Value :=
  (constsOf leaves).map fun field => record.get field.name

def varValues (record : Record) (leaves : List (String × AvroSchema)) : List (AxerType × Value) :=
  (varsOf leaves).map fun field => (field.2, record.get field.1)

/-- The record has values that the writer can write. -/
structure Writable (record : Record) (leaves : List (String × AvroSchema)) : Prop where
  consts : ∀ field ∈ constsOf leaves, ConstOf field.type field.width (record.get field.name)
  vars : ∀ name type, (name, type) ∈ varsOf leaves → VarOf type (record.get name)
  small : encodedSize (constValues record leaves) (varValues record leaves) < 2 ^ 31

/-- The bytes of a record of the schema. -/
def encoding (record : Record) (leaves : List (String × AvroSchema)) : List UInt8 :=
  layout (constValues record leaves) (varValues record leaves)

section

open AxerDatumWriter AxerEncoder

variable {axer : AxerSchema} {leaves : List (String × AvroSchema)} {record : Record}

theorem writeConsts_ok (describes : Describes axer leaves) (writable : Writable record leaves) (out : List UInt8) :
    axer.constFields.foldlM (writeConstField axer record) out = .ok (out ++ constPart (constValues record leaves)) := by
  rw [describes.constFields, List.foldlM_map, constPart, constValues, List.flatMap_map]
  refine foldlM_writes ?_ _
  intro field member out
  rw [writeConstField, describes.constType field member, ok_bind, asConstType, ok_bind]
  exact writeConst_ok (writable.consts field member) out

theorem length_varValues : (varValues record leaves).length = (varsOf leaves).length := by
  simp [varValues]

theorem writeVars_ok (describes : Describes axer leaves) (writable : Writable record leaves) {front : List UInt8}
    (isFront : front.length = 4 + (constPart (constValues record leaves)).length) :
    writeItems (writeVarField axer record) axer.varFields
        (front ++ List.replicate (4 * (varsOf leaves).length) 0) front.length =
      .ok (front ++ offsetTable (starts varBody (varValues record leaves)
        (varStart (constValues record leaves) (varValues record leaves))) ++
          varPart (constValues record leaves) (varValues record leaves)) := by
  have start : (front ++ List.replicate (4 * (varsOf leaves).length) 0 ++ []).length =
      varStart (constValues record leaves) (varValues record leaves) := by
    simp only [List.length_append, List.length_replicate, List.length_nil, varStart, isFront, length_varValues]
    omega
  have sameBodies : ∀ start, bodies (fun field => varBody (field.2, record.get field.1)) (varsOf leaves) start =
      bodies varBody (varValues record leaves) start := fun start => (bodies_map _ _ start).symm
  have sameStarts : ∀ start, starts (fun field => varBody (field.2, record.get field.1)) (varsOf leaves) start =
      starts varBody (varValues record leaves) start := fun start => (starts_map _ _ start).symm
  have written := @writeItems_ok _ (fun field => writeVarField axer record field.1)
    (fun field => varBody (field.2, record.get field.1)) (varsOf leaves) front
    (List.replicate (4 * (varsOf leaves).length) 0) [] front.length
    (by
      intro field member out fits
      rw [writeVarField, describes.varType field.1 field.2 member, ok_bind]
      exact writeVar_ok (writable.vars field.1 field.2 member) fits)
    rfl (by simp) (by rw [start, sameBodies]; exact writable.small)
  rw [start, sameBodies, sameStarts, List.append_nil, List.append_nil] at written
  rw [describes.varFields, writeItems_map, written, varPart]

/-- The writer writes the bytes of the record. -/
theorem writeRecord_ok (describes : Describes axer leaves) (writable : Writable record leaves) :
    writeRecord axer record [] = .ok (encoding record leaves) := by
  have small := writable.small
  have fewer : 4 * (varsOf leaves).length < 2 ^ 31 := by
    rw [encodedSize, varStart, length_varValues] at small
    omega
  have frontLength : (reserve [] 4 ++ constPart (constValues record leaves)).length =
      4 + (constPart (constValues record leaves)).length := by
    rw [List.length_append]
    rfl
  have count : axer.varFields.length = (varsOf leaves).length := by
    rw [describes.varFields, List.length_map]
  rw [writeRecord, writeConsts_ok describes writable, ok_bind, count, reserve_ok fewer]
  simp only [writeVars_ok describes writable frontLength, ok_bind]
  obtain ⟨rest, isRest⟩ : ∃ rest, rest = constPart (constValues record leaves) ++
      offsetTable (starts varBody (varValues record leaves)
        (varStart (constValues record leaves) (varValues record leaves))) ++
          varPart (constValues record leaves) (varValues record leaves) := ⟨_, rfl⟩
  have split : reserve [] 4 ++ constPart (constValues record leaves) ++
      offsetTable (starts varBody (varValues record leaves)
        (varStart (constValues record leaves) (varValues record leaves))) ++
          varPart (constValues record leaves) (varValues record leaves) = [] ++ List.replicate 4 0 ++ rest := by
    rw [isRest]
    simp only [List.append_assoc]
    rfl
  have total : ([] ++ List.replicate 4 0 ++ rest).length =
      encodedSize (constValues record leaves) (varValues record leaves) := by
    rw [isRest]
    simp only [List.length_append, List.length_replicate, length_offsetTable, length_starts, encodedSize, varStart,
      List.length_nil]
    omega
  rw [split, total]
  have patched := @writeIntInto_ok [] (List.replicate 4 0) rest
    (BitVec.ofNat 32 (encodedSize (constValues record leaves) (varValues record leaves))) (by simp)
  rw [List.length_nil] at patched
  rw [patched, encoding, layout, isRest]
  simp only [List.append_assoc, List.nil_append]

end

end Scads.Axer
