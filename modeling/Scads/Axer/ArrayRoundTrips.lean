import Scads.Axer.RoundTrips

namespace Scads.Axer

open Scads.Data
open Scads.Comm (ok_bind error_bind pure_eq_ok bind_eq_ok)
open AxerDatumWriter (writeRecord writeItems writeVarField writeVar writeArray constWriterForType)

/-! # Arrays in records

The writer has the wrong writer for arrays of doubles, names of nested fields have no
place in the record that is read, and a fixed field is read by a length that was not
written.
-/

section

variable {axer : AxerSchema} {schema : RecordSchema} {record result : Record} {bytes : List UInt8}

/-- What it takes for the arrays of a record to come back. -/
structure ArraysReturn (schema : RecordSchema) (record : Record) : Prop where
  usual : ∀ leaf ∈ schema.leaves, hashCode leaf.1 ≠ minHash
  noDoubles : ∀ field ∈ schema.fields.toList, NoDoubles field.2 (record.get field.1)
  top : ∀ leaf ∈ schema.leaves, leaf.2 ≠ .null → leaf ∈ schema.fields.toList
  fixed : ∀ field offset, (field, offset) ∈ placed 4 (constsOf schema.leaves) → field.type = .fixed →
    FixedReadable (encoding record schema.leaves) offset

theorem ArraysReturn.readable (returns : ArraysReturn schema record) (supported : schema.fields.Supported)
    (of : RecordOf schema record)
    (small : encodedSize (constValues record schema.leaves) (varValues record schema.leaves) < 2 ^ 31) :
    Readable record schema := by
  have consts : ∀ field ∈ constsOf schema.leaves, field.name ∈ schema.fields.toList.map Prod.fst := by
    intro field member
    obtain ⟨leaf, among, found⟩ := List.mem_filterMap.mp member
    refine List.mem_map.mpr ⟨leaf, returns.top leaf among ?_, (constOf_name found).symm⟩
    intro isNull
    simp [constOf, isNull] at found
  have vars : ∀ field ∈ varsOf schema.leaves, field.1 ∈ schema.fields.toList.map Prod.fst := by
    intro field member
    obtain ⟨leaf, among, found⟩ := List.mem_filterMap.mp member
    refine List.mem_map.mpr ⟨leaf, returns.top leaf among ?_, (varOf_name found).symm⟩
    intro isNull
    simp [varOf, isNull] at found
  exact ⟨supported_writable supported of consts vars returns.noDoubles small, consts, vars, returns.fixed⟩

end

end Scads.Axer
