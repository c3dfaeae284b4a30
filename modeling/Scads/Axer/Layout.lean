import Scads.Axer.AxerSchema
import Mathlib.Algebra.GroupWithZero.Nat
import Mathlib.Data.List.Induction

namespace Scads.Axer

open Scads.Data
open Scads.Comm (ok_bind error_bind pure_eq_ok bind_eq_ok)

/-! # Where the fields of a record lie

The tables of a schema that was built without a collision say of every field of
constant length its offset behind the constant fields before it, of every field of
variable length its number among these, and of both their types.
-/

/-- The hash whose absolute value is no 32-bit integer. -/
def minHash : Int := -2 ^ 31

theorem slotOf_outside {key : String} (least : hashCode key = minHash) :
    slotOf 443 key < 0 ∧ slotOf 701 key < 0 := by
  rw [slotOf, slotOf, least]
  decide

/-- Building goes on, or it reports a collision. -/
def GoesOn {α : Type} (result : Except AxerException α) : Prop :=
  (∃ value, result = .ok value) ∨ ∃ message, result = .error (.collision message)

theorem GoesOn.bind {α β : Type} {first : Except AxerException α} {next : α → Except AxerException β}
    (goes : GoesOn first) (rest : ∀ value, first = .ok value → GoesOn (next value)) : GoesOn (first >>= next) := by
  cases goes with
  | inl returned =>
      obtain ⟨value, returned⟩ := returned
      rw [returned, ok_bind]
      exact rest value returned
  | inr collided =>
      obtain ⟨message, collided⟩ := collided
      exact .inr ⟨message, by rw [collided, error_bind]⟩

section

variable {α : Type} {message : Int → String} {table next : SlotTable α} {key other : String} {value stored : α}

/-- The table finds this value under the key. -/
def StoresKey (table : SlotTable α) (key : String) (value : α) : Prop :=
  table.Stores (slotOf table.vals.length key) value

theorem StoresKey.getKey (stores : StoresKey table key value) : getKey table key = .ok value := by
  delta Axer.getKey
  dsimp only
  rw [stores.found]

variable [DecidableEq α]

theorem putKey_ok (done : putKey message table key value = .ok next) :
    table.put (slotOf table.vals.length key) value = .ok next := by
  delta putKey at done
  dsimp only at done
  split at done
  · next placed =>
      cases done
      exact placed
  · cases done
  · cases done

theorem putKey_stores (done : putKey message table key value = .ok next) (filled : value ≠ table.empty) :
    StoresKey next key value := by
  rw [StoresKey, SlotTable.put_length (putKey_ok done)]
  exact SlotTable.put_stores (putKey_ok done) filled

/-- A table keeps its size and its mark of empty slots. -/
theorem putKey_table {size : Nat} {empty : α} (is : table.vals.length = size ∧ table.empty = empty)
    (done : putKey message table key value = .ok next) : next.vals.length = size ∧ next.empty = empty :=
  ⟨(SlotTable.put_length (putKey_ok done)).trans is.1, (SlotTable.put_empty (putKey_ok done)).trans is.2⟩

theorem StoresKey.put (stores : StoresKey table other stored)
    (done : putKey message table key value = .ok next) : StoresKey next other stored := by
  rw [StoresKey, SlotTable.put_length (putKey_ok done)]
  exact SlotTable.Stores.put stores (putKey_ok done)

/-- The key with the least hash is outside of the tables that a schema has. -/
theorem putKey_usual (done : putKey message table key value = .ok next)
    (size : table.vals.length = 443 ∨ table.vals.length = 701) : hashCode key ≠ minHash := by
  intro least
  have placed := putKey_ok done
  have outside := slotOf_outside least
  cases size with
  | inl size =>
      rw [size, SlotTable.put_outside outside.1] at placed
      cases placed
  | inr size =>
      rw [size, SlotTable.put_outside outside.2] at placed
      cases placed

end

structure ConstField where
  name : String
  type : ConstType
  width : Nat
deriving DecidableEq, Repr

def constOf (leaf : String × AvroSchema) : Option ConstField :=
  match leaf.2 with
  | .boolean => some ⟨leaf.1, .boolean, 1⟩
  | .int => some ⟨leaf.1, .int, 4⟩
  | .float => some ⟨leaf.1, .float, 4⟩
  | .long => some ⟨leaf.1, .long, 8⟩
  | .double => some ⟨leaf.1, .double, 8⟩
  | .fixed size => some ⟨leaf.1, .fixed, size⟩
  | _ => none

def varOf (leaf : String × AvroSchema) : Option (String × AxerType) :=
  match leaf.2 with
  | .string => some (leaf.1, .string)
  | .bytes => some (leaf.1, .bytes)
  | .array elementType =>
      match avroToAxerType elementType with
      | .ok type => some (leaf.1, .array type)
      | .error _ => none
  | _ => none

def constsOf (leaves : List (String × AvroSchema)) : List ConstField := leaves.filterMap constOf

def varsOf (leaves : List (String × AvroSchema)) : List (String × AxerType) := leaves.filterMap varOf

def totalWidth (consts : List ConstField) : Nat := (consts.map ConstField.width).sum

/-- The constant fields with their offsets. -/
def placed : Nat → List ConstField → List (ConstField × Nat)
  | _, [] => []
  | start, field :: rest => (field, start) :: placed (start + field.width) rest

theorem placed_append (start : Nat) (first second : List ConstField) :
    placed start (first ++ second) = placed start first ++ placed (start + totalWidth first) second := by
  induction first generalizing start with
  | nil => simp [placed, totalWidth]
  | cons field rest ih => simp [placed, ih, totalWidth, Nat.add_assoc]

/-- The builder after these fields. -/
structure Built (builder : SchemaBuilder) (leaves : List (String × AvroSchema)) : Prop where
  constNames : builder.constNames = (constsOf leaves).map ConstField.name
  constOffset : builder.constOffset = 4 + totalWidth (constsOf leaves)
  varNames : builder.varNames = (varsOf leaves).map Prod.fst
  numVars : builder.numVars = (varsOf leaves).length
  offsets : ∀ field offset, (field, offset) ∈ placed 4 (constsOf leaves) →
    StoresKey builder.constOffsetMap field.name offset
  constTypes : ∀ field ∈ constsOf leaves, StoresKey builder.typeMap field.name (some (.const field.type))
  positions : ∀ (position : Nat) name type, (varsOf leaves)[position]? = some (name, type) →
    StoresKey builder.varNumMap name position
  varTypes : ∀ name type, (name, type) ∈ varsOf leaves → StoresKey builder.typeMap name (some type)
  usual : ∀ leaf ∈ leaves, hashCode leaf.1 ≠ minHash
  offsetTable : builder.constOffsetMap.vals.length = 443 ∧ builder.constOffsetMap.empty = -1
  typeTable : builder.typeMap.vals.length = 701 ∧ builder.typeMap.empty = none
  varTable : builder.varNumMap.vals.length = 443 ∧ builder.varNumMap.empty = -1

theorem built_empty : Built {} [] := by
  refine ⟨rfl, rfl, rfl, rfl, ?_, ?_, ?_, ?_, ?_, ⟨List.length_replicate, rfl⟩, ⟨List.length_replicate, rfl⟩,
    ⟨List.length_replicate, rfl⟩⟩
  · simp [constsOf, placed]
  · simp [constsOf]
  · simp [varsOf]
  · simp [varsOf]
  · simp

section

variable {builder next : SchemaBuilder} {done : List (String × AvroSchema)} {leaf : String × AvroSchema}

theorem constsOf_snoc : constsOf (done ++ [leaf]) = constsOf done ++ (constOf leaf).toList := by
  simp only [constsOf, List.filterMap_append, List.filterMap_cons, List.filterMap_nil]
  cases constOf leaf with
  | none => rfl
  | some field => rfl

theorem varsOf_snoc : varsOf (done ++ [leaf]) = varsOf done ++ (varOf leaf).toList := by
  simp only [varsOf, List.filterMap_append, List.filterMap_cons, List.filterMap_nil]
  cases varOf leaf with
  | none => rfl
  | some field => rfl

theorem constsOf_snoc_none (notConst : constOf leaf = none) : constsOf (done ++ [leaf]) = constsOf done := by
  rw [constsOf_snoc, notConst, Option.toList_none, List.append_nil]

theorem varsOf_snoc_none (notVar : varOf leaf = none) : varsOf (done ++ [leaf]) = varsOf done := by
  rw [varsOf_snoc, notVar, Option.toList_none, List.append_nil]

theorem usual_snoc (usual : ∀ other ∈ done, hashCode other.1 ≠ minHash) (last : hashCode leaf.1 ≠ minHash) :
    ∀ other ∈ done ++ [leaf], hashCode other.1 ≠ minHash :=
  List.forall_mem_append.mpr ⟨usual, List.forall_mem_singleton.mpr last⟩

theorem addConst_built {type : ConstType} {fs : Nat} (built : Built builder done)
    (isConst : constOf leaf = some ⟨leaf.1, type, numBytesForType type fs⟩) (notVar : varOf leaf = none)
    (added : builder.addConst leaf.1 type fs = .ok next) : Built next (done ++ [leaf]) := by
  simp only [SchemaBuilder.addConst, bind_eq_ok] at added
  obtain ⟨offsets, putOffset, types, putType, same⟩ := added
  cases same
  have consts : constsOf (done ++ [leaf]) = constsOf done ++ [⟨leaf.1, type, numBytesForType type fs⟩] := by
    rw [constsOf_snoc, isConst]
    rfl
  have vars : varsOf (done ++ [leaf]) = varsOf done := varsOf_snoc_none notVar
  have width : totalWidth (constsOf (done ++ [leaf])) =
      totalWidth (constsOf done) + numBytesForType type fs := by
    simp [consts, totalWidth]
  constructor
  case constNames => simp [consts, built.constNames]
  case constOffset => simp only [width, built.constOffset, Nat.add_assoc]
  case varNames => rw [vars]; exact built.varNames
  case numVars => rw [vars]; exact built.numVars
  case offsets =>
    intro field offset member
    rw [consts, placed_append, ← built.constOffset] at member
    cases List.mem_append.mp member with
    | inl old => exact (built.offsets field offset old).put putOffset
    | inr new =>
        simp only [placed, List.mem_singleton, Prod.mk.injEq] at new
        obtain ⟨rfl, rfl⟩ := new
        refine putKey_stores putOffset ?_
        rw [built.offsetTable.2]
        omega
  case constTypes =>
    intro field member
    rw [consts] at member
    cases List.mem_append.mp member with
    | inl old => exact (built.constTypes field old).put putType
    | inr new =>
        cases List.mem_singleton.mp new
        exact putKey_stores putType (by rw [built.typeTable.2]; simp)
  case positions =>
    intro position name kind found
    rw [vars] at found
    exact built.positions position name kind found
  case varTypes =>
    intro name kind member
    rw [vars] at member
    exact (built.varTypes name kind member).put putType
  case usual => exact usual_snoc built.usual (putKey_usual putOffset (.inl built.offsetTable.1))
  case offsetTable => exact putKey_table built.offsetTable putOffset
  case typeTable => exact putKey_table built.typeTable putType
  case varTable => exact built.varTable

theorem addVar_built {type : AxerType} (built : Built builder done) (notConst : constOf leaf = none)
    (isVar : varOf leaf = some (leaf.1, type)) (added : builder.addVar leaf.1 type = .ok next) :
    Built next (done ++ [leaf]) := by
  simp only [SchemaBuilder.addVar, bind_eq_ok] at added
  obtain ⟨numbers, putNumber, types, putType, same⟩ := added
  cases same
  have consts : constsOf (done ++ [leaf]) = constsOf done := constsOf_snoc_none notConst
  have vars : varsOf (done ++ [leaf]) = varsOf done ++ [(leaf.1, type)] := by
    rw [varsOf_snoc, isVar]
    rfl
  constructor
  case constNames => rw [consts]; exact built.constNames
  case constOffset => rw [consts]; exact built.constOffset
  case varNames => simp [vars, built.varNames]
  case numVars => simp [vars, built.numVars]
  case offsets =>
    intro field offset member
    rw [consts] at member
    exact built.offsets field offset member
  case constTypes =>
    intro field member
    rw [consts] at member
    exact (built.constTypes field member).put putType
  case positions =>
    intro position name kind found
    rw [vars] at found
    by_cases old : position < (varsOf done).length
    · rw [List.getElem?_append_left old] at found
      exact (built.positions position name kind found).put putNumber
    · rw [List.getElem?_append_right (by omega)] at found
      obtain ⟨last, same⟩ := List.getElem?_eq_some_iff.mp found
      rw [List.length_singleton] at last
      have isLast : position = builder.numVars := by
        rw [built.numVars]
        omega
      have named : name = leaf.1 := by
        have zero : position - (varsOf done).length = 0 := by omega
        simp only [zero, List.getElem_cons_zero] at same
        exact (congrArg Prod.fst same).symm
      rw [isLast, named]
      refine putKey_stores putNumber ?_
      rw [built.varTable.2]
      omega
  case varTypes =>
    intro name kind member
    rw [vars] at member
    cases List.mem_append.mp member with
    | inl old => exact (built.varTypes name kind old).put putType
    | inr new =>
        cases List.mem_singleton.mp new
        exact putKey_stores putType (by rw [built.typeTable.2]; simp)
  case usual => exact usual_snoc built.usual (putKey_usual putNumber (.inl built.varTable.1))
  case offsetTable => exact built.offsetTable
  case typeTable => exact putKey_table built.typeTable putType
  case varTable => exact putKey_table built.varTable putNumber

theorem addNull_built (built : Built builder done) (notConst : constOf leaf = none) (notVar : varOf leaf = none)
    (added : builder.addNull leaf.1 = .ok next) : Built next (done ++ [leaf]) := by
  simp only [SchemaBuilder.addNull, bind_eq_ok] at added
  obtain ⟨types, putType, same⟩ := added
  cases same
  have consts : constsOf (done ++ [leaf]) = constsOf done := constsOf_snoc_none notConst
  have vars : varsOf (done ++ [leaf]) = varsOf done := varsOf_snoc_none notVar
  constructor
  case constNames => rw [consts]; exact built.constNames
  case constOffset => rw [consts]; exact built.constOffset
  case varNames => rw [vars]; exact built.varNames
  case numVars => rw [vars]; exact built.numVars
  case offsets => rw [consts]; exact built.offsets
  case constTypes =>
    intro field member
    rw [consts] at member
    exact (built.constTypes field member).put putType
  case positions => rw [vars]; exact built.positions
  case varTypes =>
    intro name kind member
    rw [vars] at member
    exact (built.varTypes name kind member).put putType
  case usual => exact usual_snoc built.usual (putKey_usual putType (.inr built.typeTable.1))
  case offsetTable => exact built.offsetTable
  case typeTable => exact putKey_table built.typeTable putType
  case varTable => exact built.varTable

/-- A schema that is not nested. -/
def AvroSchema.Leaf : AvroSchema → Prop
  | .record _ _ => False
  | _ => True

theorem addLeaf_built (built : Built builder done) (flat : leaf.2.Leaf) (added : addLeaf builder leaf = .ok next) :
    Built next (done ++ [leaf]) := by
  obtain ⟨name, schema⟩ := leaf
  cases schema with
  | boolean => exact addConst_built built rfl rfl added
  | int => exact addConst_built built rfl rfl added
  | long => exact addConst_built built rfl rfl added
  | float => exact addConst_built built rfl rfl added
  | double => exact addConst_built built rfl rfl added
  | null => exact addNull_built built rfl rfl added
  | string => exact addVar_built built rfl rfl added
  | bytes => exact addVar_built built rfl rfl added
  | fixed size => exact addConst_built built rfl rfl added
  | array elementType =>
      obtain ⟨type, found, added⟩ := bind_eq_ok.mp added
      exact addVar_built built rfl (by simp [varOf, found]) added
  | record title fields => exact flat.elim
  | enumeration => cases added
  | map => cases added
  | union => cases added

theorem foldlM_built {leaves : List (String × AvroSchema)} (built : Built builder done)
    (flat : ∀ leaf ∈ leaves, leaf.2.Leaf) (added : leaves.foldlM addLeaf builder = .ok next) :
    Built next (done ++ leaves) := by
  induction leaves generalizing builder done with
  | nil =>
      cases added
      simpa using built
  | cons leaf rest ih =>
      rw [List.foldlM_cons] at added
      obtain ⟨middle, one, added⟩ := bind_eq_ok.mp added
      have more := ih (addLeaf_built built (flat leaf (by simp)) one)
        (fun other member => flat other (by simp [member])) added
      simpa using more

end

mutual

theorem AvroSchema.leaves_leaf (schema : AvroSchema) (name : String) :
    ∀ leaf ∈ schema.leaves name, leaf.2.Leaf := by
  cases schema with
  | record title fields =>
      rw [AvroSchema.leaves]
      exact Fields.leaves_leaf fields _
  | _ =>
      intro leaf member
      simp only [AvroSchema.leaves, List.mem_singleton] at member
      subst member
      trivial

theorem Fields.leaves_leaf (fields : Fields) (pre : String) : ∀ leaf ∈ fields.leaves pre, leaf.2.Leaf := by
  cases fields with
  | nil => simp [Fields.leaves]
  | cons name schema rest =>
      intro leaf member
      rw [Fields.leaves] at member
      cases List.mem_append.mp member with
      | inl first => exact AvroSchema.leaves_leaf schema _ leaf first
      | inr later => exact Fields.leaves_leaf rest pre leaf later

end

/-- The types that an array's elements may have. -/
def AvroSchema.Element : AvroSchema → Prop
  | .boolean | .int | .long | .float | .double | .null | .string | .bytes => True
  | _ => False

mutual

/-- The schemas that Axer has types for. -/
def AvroSchema.Supported : AvroSchema → Prop
  | .array elementType => elementType.Element
  | .record _ fields => fields.Supported
  | .enumeration => False
  | .map => False
  | .union => False
  | _ => True

def Fields.Supported : Fields → Prop
  | .nil => True
  | .cons _ schema rest => schema.Supported ∧ rest.Supported

end

mutual

theorem AvroSchema.leaves_supported {schema : AvroSchema} (supported : schema.Supported) (name : String) :
    ∀ leaf ∈ schema.leaves name, leaf.2.Supported := by
  cases schema with
  | record title fields =>
      rw [AvroSchema.Supported] at supported
      rw [AvroSchema.leaves]
      exact Fields.leaves_supported supported _
  | _ =>
      intro leaf member
      simp only [AvroSchema.leaves, List.mem_singleton] at member
      subst member
      exact supported

theorem Fields.leaves_supported {fields : Fields} (supported : fields.Supported) (pre : String) :
    ∀ leaf ∈ fields.leaves pre, leaf.2.Supported := by
  cases fields with
  | nil => simp [Fields.leaves]
  | cons name schema rest =>
      intro leaf member
      rw [Fields.Supported] at supported
      rw [Fields.leaves] at member
      cases List.mem_append.mp member with
      | inl first => exact AvroSchema.leaves_supported supported.1 _ leaf first
      | inr later => exact Fields.leaves_supported supported.2 pre leaf later

end

section

variable {builder : SchemaBuilder} {done leaves : List (String × AvroSchema)} {leaf : String × AvroSchema}

end

/-- What a schema's tables say about its fields. -/
structure Describes (axer : AxerSchema) (leaves : List (String × AvroSchema)) : Prop where
  constFields : axer.constFields = (constsOf leaves).map ConstField.name
  constOffset : axer.constOffset = 4 + totalWidth (constsOf leaves)
  varFields : axer.varFields = (varsOf leaves).map Prod.fst
  getOffset : ∀ field offset, (field, offset) ∈ placed 4 (constsOf leaves) →
    axer.getOffset field.name = .ok (offset : Int)
  constType : ∀ field ∈ constsOf leaves, axer.getType field.name = .ok (some (.const field.type))
  getVarPosition : ∀ (position : Nat) name type, (varsOf leaves)[position]? = some (name, type) →
    axer.getVarPosition name = .ok (position : Int)
  varType : ∀ name type, (name, type) ∈ varsOf leaves → axer.getType name = .ok (some type)

section

variable {schema : RecordSchema}

/-- The fields that the schema has in the end. -/
def RecordSchema.leaves (schema : RecordSchema) : List (String × AvroSchema) := schema.fields.leaves ""

theorem getAxerSchema_built {axer : AxerSchema} (got : getAxerSchema schema = .ok axer) :
    ∃ builder, axer = builder.result schema.name ∧ Built builder schema.leaves := by
  simp only [getAxerSchema, bind_eq_ok] at got
  obtain ⟨builder, added, same⟩ := got
  cases same
  rw [addToSchema_eq] at added
  have built := foldlM_built built_empty (Fields.leaves_leaf schema.fields "") added
  exact ⟨builder, rfl, by simpa [RecordSchema.leaves] using built⟩

theorem getAxerSchema_describes {axer : AxerSchema} (got : getAxerSchema schema = .ok axer) :
    Describes axer schema.leaves := by
  obtain ⟨builder, rfl, built⟩ := getAxerSchema_built got
  exact {
    constFields := built.constNames
    constOffset := built.constOffset
    varFields := built.varNames
    getOffset := fun field offset member => (built.offsets field offset member).getKey
    constType := fun field member => (built.constTypes field member).getKey
    getVarPosition := fun position name type found => (built.positions position name type found).getKey
    varType := fun name type member => (built.varTypes name type member).getKey }

end

end Scads.Axer
