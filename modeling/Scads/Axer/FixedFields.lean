import Scads.Axer.ArrayRoundTrips
import Scads.Axer.Configuration

namespace Scads.Axer

open Scads.Data
open Scads.Comm (ok_bind pure_eq_ok bind_eq_ok)

/-! # Fixed fields

The writer stores the bytes of a fixed field without a length, and the reader looks
for a length in front of them.
-/

/-- The types of the fields of a record without arrays and without records in it. -/
def AvroSchema.Plain : AvroSchema → Prop
  | .boolean | .int | .long | .float | .double | .null | .string | .bytes | .fixed _ => True
  | _ => False

theorem AvroSchema.Plain.leaf {schema : AvroSchema} (isPlain : schema.Plain) : schema.Leaf := by
  cases schema <;> first | exact isPlain.elim | trivial

/-- The int at the place of a fixed field is its size. -/
def SizeStands (bytes : List UInt8) (field : ConstField) (offset : Nat) : Prop :=
  offset + 4 ≤ bytes.length ∧ intAt bytes offset = field.width

section

variable {bytes content : List UInt8} {name : String} {offset : Nat}

/-- So many bytes are read as the int at the place says. -/
theorem valueAt_readable (readable : FixedReadable bytes offset) :
    valueAt bytes { name, offset, type := .fixed } =
      .ok (.bytes ((bytes.drop offset).take (intAt bytes offset).toNat)) := by
  have length := readable.length
  have fits := readable.fits
  have read : AxerDecoder.readInt { bytes, offset := offset } = .ok (wordOf (bytes.getD offset 0)
      (bytes.getD (offset + 1) 0) (bytes.getD (offset + 2) 0) (bytes.getD (offset + 3) 0)) :=
    readInt_toInt.mpr ⟨readable.inside, rfl⟩
  rw [intAt] at length fits
  rw [valueAt]
  simp only [readConstValue, read, ok_bind]
  rw [newByteArray, if_neg (by omega), ok_bind, AxerDecoder.readFixed,
    if_pos ⟨length, Int.natCast_nonneg _, fits⟩]
  rfl

/-- The bytes come back where they seem to start with their number. -/
theorem valueAt_content (stands : Stands bytes offset content) :
    valueAt bytes { name, offset, type := .fixed } = .ok (.bytes content) ↔
      offset + 4 ≤ bytes.length ∧ intAt bytes offset = content.length := by
  obtain ⟨front, rest, whole, place⟩ := stands
  have start : offset = front.length := by omega
  have behind : bytes.drop offset = content ++ rest := by
    rw [whole, start, List.append_assoc, List.drop_left]
  have size : bytes.length = front.length + content.length + rest.length := by
    rw [whole, List.length_append, List.length_append]
  constructor
  · intro found
    have readable : FixedReadable bytes offset := valueAt_fixed.mp ⟨_, found⟩
    have taken := (valueAt_readable readable).symm.trans found
    rw [behind] at taken
    have same : (content ++ rest).take (intAt bytes offset).toNat = content := by
      injection taken with value
      injection value
    have counted := congrArg List.length same
    rw [List.length_take, List.length_append] at counted
    have fits := readable.fits
    have length := readable.length
    exact ⟨readable.inside, by omega⟩
  · intro sized
    have readable : FixedReadable bytes offset := ⟨sized.1, by omega, by omega⟩
    rw [valueAt_readable readable, behind, sized.2, Int.toNat_natCast, List.take_left]

end

section

variable {axer : AxerSchema} {schema : RecordSchema} {record : Record} {field : ConstField} {offset : Nat}

theorem plain_leaves (isPlain : ∀ field ∈ schema.fields.toList, field.2.Plain) :
    schema.leaves = schema.fields.toList :=
  Fields.leaves_top fun field member => (isPlain field member).leaf

/-- The sizes of all fixed fields stand at their places. -/
def SizesStand (schema : RecordSchema) (record : Record) : Prop :=
  ∀ field offset, (field, offset) ∈ placed 4 (constsOf schema.leaves) → field.type = .fixed →
    SizeStands (encoding record schema.leaves) field offset

theorem content_of_const (writable : Writable record schema.leaves)
    (member : (field, offset) ∈ placed 4 (constsOf schema.leaves)) (isFixed : field.type = .fixed) :
    ∃ content, record.get field.name = .bytes content ∧ field.width = content.length ∧
      Stands (encoding record schema.leaves) offset content := by
  have stands := placed_stands writable.consts (@encoding_consts _ record) field offset member
  have of := writable.consts field (placed_mem member)
  rw [isFixed] at of
  cases value : record.get field.name with
  | bytes content =>
      rw [value] at of stands
      exact ⟨content, rfl, of, stands⟩
  | _ =>
      rw [value] at of
      exact of.elim

theorem plain_noDoubles (isPlain : ∀ field ∈ schema.fields.toList, field.2.Plain) :
    ∀ field ∈ schema.fields.toList, NoDoubles field.2 (record.get field.1) := by
  intro field member
  obtain ⟨name, type⟩ := field
  have one := isPlain _ member
  cases type <;> first | exact one.elim | trivial

theorem SizesStand.returns (sizes : SizesStand schema record)
    (isPlain : ∀ field ∈ schema.fields.toList, field.2.Plain)
    (usual : ∀ field ∈ schema.fields.toList, hashCode field.1 ≠ minHash)
    (writable : Writable record schema.leaves) : ArraysReturn schema record := by
  have same := plain_leaves isPlain
  refine ⟨fun leaf member => usual leaf (same ▸ member), plain_noDoubles isPlain,
    fun leaf member _ => same ▸ member, ?_⟩
  intro field offset member isFixed
  obtain ⟨content, -, width, stands⟩ := content_of_const writable member isFixed
  obtain ⟨inside, size⟩ := sizes field offset member isFixed
  rw [width] at size
  exact valueAt_fixed.mp ⟨_, (@valueAt_content _ _ field.name _ stands).mpr ⟨inside, size⟩⟩

end

end Scads.Axer
