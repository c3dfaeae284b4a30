import Scads.Comm.Messages
import Scads.Data.Comparator
import Scads.Data.FloatBits

namespace Scads.Client

open Scads.Data Scads.Comm

/-! # Ranges of a key prefix

`getRange` fills the fields that a prefix leaves open with the least and with the
greatest values of their types.
-/

mutual

/-- The schema of a key field.  `bytes` stands for the types that cannot be filled. -/
inductive FieldSchema where
  | boolean
  | int
  | long
  | float
  | double
  | string
  | bytes
  | record (fields : RecordSchema)

inductive RecordSchema where
  | nil
  | cons (field : FieldSchema) (fields : RecordSchema)

end

mutual

inductive KeyDatum : FieldSchema → Type where
  | boolean (value : Bool) : KeyDatum .boolean
  | int (value : Int32) : KeyDatum .int
  | long (value : Int64) : KeyDatum .long
  | float (value : BitVec 32) : KeyDatum .float
  | double (value : BitVec 64) : KeyDatum .double
  | string (value : List UInt8) : KeyDatum .string
  | bytes (value : List UInt8) : KeyDatum .bytes
  | record {fields : RecordSchema} (value : RecordData fields) : KeyDatum (.record fields)

inductive RecordData : RecordSchema → Type where
  | nil : RecordData .nil
  | cons {field : FieldSchema} {fields : RecordSchema} (value : KeyDatum field) (rest : RecordData fields) :
      RecordData (.cons field fields)

end

/-- Unsigned bytes. -/
def compareBytesUnsigned : List UInt8 → List UInt8 → Int
  | [], [] => 0
  | [], _ :: _ => -1
  | _ :: _, [] => 1
  | left :: lefts, right :: rights =>
      if left = right then compareBytesUnsigned lefts rights else if left < right then -1 else 1

theorem compareBytesUnsigned_self (bytes : List UInt8) : compareBytesUnsigned bytes bytes = 0 := by
  induction bytes with
  | nil => rfl
  | cons byte rest ih => rw [compareBytesUnsigned, if_pos rfl, ih]

/-- A result that is not zero decides. -/
def orElse (first rest : Int) : Int := if first = 0 then rest else first

mutual

/-- The order of Avro. -/
def compareData : {schema : FieldSchema} → KeyDatum schema → KeyDatum schema → Int
  | _, .boolean left, .boolean right => if left = right then 0 else if left then 1 else -1
  | _, .int left, .int right => (Comparator.threeWay Int).compare left.toInt right.toInt
  | _, .long left, .long right => (Comparator.threeWay Int).compare left.toInt right.toInt
  | _, .float left, .float right => compareFloats 0x7f800000#32 left right
  | _, .double left, .double right => compareFloats 0x7ff0000000000000#64 left right
  | _, .string left, .string right => compareBytesUnsigned left right
  | _, .bytes left, .bytes right => compareBytesUnsigned left right
  | _, .record left, .record right => compareRecords left right

def compareRecords : {fields : RecordSchema} → RecordData fields → RecordData fields → Int
  | _, .nil, .nil => 0
  | _, .cons left lefts, .cons right rights => orElse (compareData left right) (compareRecords lefts rights)

end

/-- The values that `minVal` or `maxVal` has for the types. -/
structure Sentinels where
  boolean : Bool
  double : BitVec 64
  float : BitVec 32
  int : Int32
  long : Int64
  string : List UInt8

mutual

def fillVal (sentinels : Sentinels) : (schema : FieldSchema) → Except Failure (KeyDatum schema)
  | .boolean => .ok (.boolean sentinels.boolean)
  | .double => .ok (.double sentinels.double)
  | .float => .ok (.float sentinels.float)
  | .int => .ok (.int sentinels.int)
  | .long => .ok (.long sentinels.long)
  | .string => .ok (.string sentinels.string)
  | .record fields => do return .record (← fillNew sentinels fields)
  | .bytes => .error (.runtime
      "Invalid key type in partial key getRange. BYTES not supported for inquality queries.")

/-- `fillOutKey` of a new record. -/
def fillNew (sentinels : Sentinels) : (fields : RecordSchema) → Except Failure (RecordData fields)
  | .nil => .ok .nil
  | .cons field fields => do return .cons (← fillVal sentinels field) (← fillNew sentinels fields)

end

def maxString : List UInt8 := List.replicate 20 127

/-- `MIN_VALUE` of a floating-point type is its least positive number. -/
def minSentinels : Sentinels := ⟨false, 1#64, 1#32, Int32.minValue, Int64.minValue, []⟩

def maxSentinels : Sentinels :=
  ⟨true, 0x7fefffffffffffff#64, 0x7f7fffff#32, Int32.maxValue, Int64.maxValue, maxString⟩

def minVal : (schema : FieldSchema) → Except Failure (KeyDatum schema) := fillVal minSentinels

def maxVal : (schema : FieldSchema) → Except Failure (KeyDatum schema) := fillVal maxSentinels

/-- A key of which some fields are `null`. -/
inductive KeyPrefix : RecordSchema → Type where
  | nil : KeyPrefix .nil
  | cons {field : FieldSchema} {fields : RecordSchema} (value : Option (KeyDatum field)) (rest : KeyPrefix fields) :
      KeyPrefix (.cons field fields)

def newRecord : (fields : RecordSchema) → KeyPrefix fields
  | .nil => .nil
  | .cons _ fields => .cons none (newRecord fields)

/-- The value of a field of the prefix, or that of `fillFunc`. -/
def filledField (fillFunc : (schema : FieldSchema) → Except Failure (KeyDatum schema)) {field : FieldSchema} :
    Option (KeyDatum field) → Except Failure (KeyDatum field)
  | none => fillFunc field
  | some value => .ok value

def fillOutKey (fillFunc : (schema : FieldSchema) → Except Failure (KeyDatum schema)) :
    {fields : RecordSchema} → KeyPrefix fields → Except Failure (RecordData fields)
  | _, .nil => .ok .nil
  | _, .cons value rest => do return .cons (← filledField fillFunc value) (← fillOutKey fillFunc rest)

theorem fillNew_eq (sentinels : Sentinels) (fields : RecordSchema) :
    fillNew sentinels fields = fillOutKey (fillVal sentinels) (newRecord fields) := by
  match fields with
  | .nil => rfl
  | .cons field fields =>
      rw [fillNew, newRecord, fillOutKey, fillNew_eq sentinels fields]
      rfl

/-- The fields of a record are filled like those of the key. -/
theorem fillVal_record (sentinels : Sentinels) (fields : RecordSchema) :
    fillVal sentinels (.record fields) =
      fillOutKey (fillVal sentinels) (newRecord fields) >>= fun filled => .ok (.record filled) := by
  rw [fillVal, fillNew_eq]
  rfl

mutual

/-- The types that can be filled. -/
def FieldSchema.Supported : FieldSchema → Bool
  | .boolean | .int | .long | .float | .double | .string => true
  | .bytes => false
  | .record fields => fields.Supported

def RecordSchema.Supported : RecordSchema → Bool
  | .nil => true
  | .cons field fields => field.Supported && fields.Supported

end

mutual

/-- The types whose sentinels are bounds. -/
def FieldSchema.Bounded : FieldSchema → Bool
  | .boolean | .int | .long => true
  | .float | .double | .string | .bytes => false
  | .record fields => fields.Bounded

def RecordSchema.Bounded : RecordSchema → Bool
  | .nil => true
  | .cons field fields => field.Bounded && fields.Bounded

end

def sentinels (upper : Bool) : Sentinels := if upper then maxSentinels else minSentinels

/-- The comparison of a value with the end of a range on this side of it. -/
def beyondData (upper : Bool) {schema : FieldSchema} (bound value : KeyDatum schema) : Int :=
  if upper then compareData value bound else compareData bound value

def beyondRecords (upper : Bool) {fields : RecordSchema} (bound value : RecordData fields) : Int :=
  if upper then compareRecords value bound else compareRecords bound value

variable {upper : Bool} {schema field : FieldSchema} {fields : RecordSchema}

theorem beyondRecords_cons (bound value : KeyDatum field) (bounds values : RecordData fields) :
    beyondRecords upper (.cons bound bounds) (.cons value values) =
      orElse (beyondData upper bound value) (beyondRecords upper bounds values) := by
  cases upper <;> rfl

theorem beyondData_record (bound value : RecordData fields) :
    beyondData upper (.record bound) (.record value) = beyondRecords upper bound value := by
  cases upper <;> rfl

theorem orElse_nonpos {first rest : Int} (here : first ≤ 0) (there : rest ≤ 0) : orElse first rest ≤ 0 := by
  rw [orElse]
  split
  · exact there
  · exact here

theorem orElse_zero (rest : Int) : orElse 0 rest = rest := if_pos rfl

theorem orElse_pos {first : Int} (positive : 0 < first) (rest : Int) : 0 < orElse first rest := by
  rw [orElse, if_neg positive.ne']
  exact positive

theorem fillNew_cons {sentinels : Sentinels} {filled : RecordData (.cons field fields)} :
    fillNew sentinels (.cons field fields) = .ok filled ↔ ∃ value rest,
      fillVal sentinels field = .ok value ∧ fillNew sentinels fields = .ok rest ∧ filled = .cons value rest := by
  rw [fillNew, bind_eq_ok]
  constructor
  · intro found
    obtain ⟨value, here, others⟩ := found
    obtain ⟨rest, there, same⟩ := bind_eq_ok.mp others
    cases same
    exact ⟨value, rest, here, there, rfl⟩
  · intro found
    obtain ⟨value, rest, here, there, rfl⟩ := found
    exact ⟨value, here, bind_eq_ok.mpr ⟨rest, there, rfl⟩⟩

mutual

theorem fillVal_supported (sentinels : Sentinels) : (schema : FieldSchema) → schema.Supported = true →
    ∃ value, fillVal sentinels schema = .ok value
  | .boolean, _ | .int, _ | .long, _ | .float, _ | .double, _ | .string, _ => ⟨_, rfl⟩
  | .record fields, supported => by
      obtain ⟨value, filled⟩ := fillNew_supported sentinels fields supported
      exact ⟨.record value, by rw [fillVal, filled]; rfl⟩

theorem fillNew_supported (sentinels : Sentinels) : (fields : RecordSchema) → fields.Supported = true →
    ∃ value, fillNew sentinels fields = .ok value
  | .nil, _ => ⟨.nil, rfl⟩
  | .cons field fields, supported => by
      rw [RecordSchema.Supported, Bool.and_eq_true] at supported
      obtain ⟨value, here⟩ := fillVal_supported sentinels field supported.1
      obtain ⟨rest, there⟩ := fillNew_supported sentinels fields supported.2
      exact ⟨_, fillNew_cons.mpr ⟨value, rest, here, there, rfl⟩⟩

end

mutual

/-- What is not equal to itself has a number that is none. -/
theorem compareData_self : {schema : FieldSchema} → (value : KeyDatum schema) →
    compareData value value = 0 ∨ compareData value value = -1
  | _, .boolean value => .inl (if_pos rfl)
  | _, .int value => .inl ((Comparator.threeWay Int).zero_iff.mpr rfl)
  | _, .long value => .inl ((Comparator.threeWay Int).zero_iff.mpr rfl)
  | _, .float value => by
      rw [compareData, compareFloats_self]
      split <;> simp
  | _, .double value => by
      rw [compareData, compareFloats_self]
      split <;> simp
  | _, .string value => .inl (compareBytesUnsigned_self value)
  | _, .bytes value => .inl (compareBytesUnsigned_self value)
  | _, .record value => compareRecords_self value

theorem compareRecords_self : {fields : RecordSchema} → (value : RecordData fields) →
    compareRecords value value = 0 ∨ compareRecords value value = -1
  | _, .nil => .inl rfl
  | _, .cons value rest => by
      rw [compareRecords, orElse]
      split
      · exact compareRecords_self rest
      · rename_i differs
        exact .inr ((compareData_self value).resolve_left differs)

end

theorem beyondData_self (upper : Bool) (value : KeyDatum schema) :
    beyondData upper value value = compareData value value := by
  cases upper <;> rfl

theorem boolean_beyond (upper : Bool) :
    (value : KeyDatum .boolean) → beyondData upper (.boolean (sentinels upper).boolean) value ≤ 0
  | .boolean value => by
      cases upper <;> cases value <;> decide

theorem int_beyond (upper : Bool) : (value : KeyDatum .int) → beyondData upper (.int (sentinels upper).int) value ≤ 0
  | .int value => by
      cases upper with
      | false => exact (Comparator.threeWay Int).compare_nonpos.mpr (Int32.minValue_le_toInt value)
      | true => exact (Comparator.threeWay Int).compare_nonpos.mpr (Int32.toInt_le value)

theorem long_beyond (upper : Bool) :
    (value : KeyDatum .long) → beyondData upper (.long (sentinels upper).long) value ≤ 0
  | .long value => by
      cases upper with
      | false => exact (Comparator.threeWay Int).compare_nonpos.mpr (Int64.minValue_le_toInt value)
      | true => exact (Comparator.threeWay Int).compare_nonpos.mpr (Int64.toInt_le value)

mutual

/-- The sentinel of a bounded type is a bound. -/
theorem fillVal_bounded (upper : Bool) : {schema : FieldSchema} → {bound : KeyDatum schema} → schema.Bounded = true →
    fillVal (sentinels upper) schema = .ok bound →
      beyondData upper bound bound = 0 ∧ ∀ value, beyondData upper bound value ≤ 0
  | .boolean, bound, _, filled => by
      cases filled
      exact ⟨(beyondData_self upper _).trans (if_pos rfl), boolean_beyond upper⟩
  | .int, bound, _, filled => by
      cases filled
      exact ⟨(beyondData_self upper _).trans ((Comparator.threeWay Int).zero_iff.mpr rfl), int_beyond upper⟩
  | .long, bound, _, filled => by
      cases filled
      exact ⟨(beyondData_self upper _).trans ((Comparator.threeWay Int).zero_iff.mpr rfl), long_beyond upper⟩
  | .record fields, bound, bounded, filled => by
      obtain ⟨value, built, same⟩ := bind_eq_ok.mp filled
      cases same
      obtain ⟨equal, beyond⟩ := fillNew_bounded upper bounded built
      refine ⟨(beyondData_record value value).trans equal, fun other => ?_⟩
      cases other with
      | record other => exact (beyondData_record value other).trans_le (beyond other)

theorem fillNew_bounded (upper : Bool) : {fields : RecordSchema} → {bound : RecordData fields} → fields.Bounded = true →
    fillNew (sentinels upper) fields = .ok bound →
      beyondRecords upper bound bound = 0 ∧ ∀ value, beyondRecords upper bound value ≤ 0
  | .nil, bound, _, filled => by
      cases filled
      refine ⟨by cases upper <;> rfl, fun value => ?_⟩
      cases value
      cases upper <;> exact le_refl _
  | .cons field fields, bound, bounded, filled => by
      rw [RecordSchema.Bounded, Bool.and_eq_true] at bounded
      obtain ⟨value, rest, here, there, rfl⟩ := fillNew_cons.mp filled
      obtain ⟨equal, beyond⟩ := fillVal_bounded upper bounded.1 here
      obtain ⟨equals, beyonds⟩ := fillNew_bounded upper bounded.2 there
      refine ⟨?_, fun other => ?_⟩
      · rw [beyondRecords_cons, equal, equals]
        rfl
      · cases other with
        | cons other others =>
            rw [beyondRecords_cons]
            exact orElse_nonpos (beyond other) (beyonds others)

end

/-- On this side the sentinel of the type is no bound. -/
def Exceeded (upper : Bool) (schema : FieldSchema) : Prop :=
  ∃ bound value, fillVal (sentinels upper) schema = .ok bound ∧ 0 < beyondData upper bound value

mutual

theorem fillVal_exceeded : {schema : FieldSchema} → schema.Supported = true → schema.Bounded = false →
    ∃ upper, Exceeded upper schema
  -- zero is below the least positive number, and one more character goes beyond the greatest text
  | .float, _, _ => ⟨false, .float 1#32, .float 0#32, rfl, by decide⟩
  | .double, _, _ => ⟨false, .double 1#64, .double 0#64, rfl, by decide⟩
  | .string, _, _ => ⟨true, .string maxString, .string (maxString ++ [127]), rfl, by decide⟩
  | .record fields, supported, unbounded => by
      obtain ⟨upper, bound, value, filled, exceeds⟩ := fillNew_exceeded supported unbounded
      refine ⟨upper, .record bound, .record value, by rw [fillVal, filled]; rfl, ?_⟩
      rwa [beyondData_record]

theorem fillNew_exceeded : {fields : RecordSchema} → fields.Supported = true → fields.Bounded = false →
    ∃ upper bound value, fillNew (sentinels upper) fields = .ok bound ∧ 0 < beyondRecords upper bound value
  | .cons field fields, supported, unbounded => by
      rw [RecordSchema.Supported, Bool.and_eq_true] at supported
      rw [RecordSchema.Bounded, Bool.and_eq_false_iff] at unbounded
      cases here : field.Bounded with
      | false =>
          obtain ⟨upper, bound, value, filled, exceeds⟩ := fillVal_exceeded supported.1 here
          obtain ⟨rest, others⟩ := fillNew_supported (sentinels upper) fields supported.2
          refine ⟨upper, .cons bound rest, .cons value rest, fillNew_cons.mpr ⟨_, _, filled, others, rfl⟩, ?_⟩
          rw [beyondRecords_cons]
          exact orElse_pos exceeds _
      | true =>
          have later := unbounded.resolve_left (by rw [here]; exact Bool.noConfusion)
          obtain ⟨upper, bound, value, filled, exceeds⟩ := fillNew_exceeded supported.2 later
          obtain ⟨first, built⟩ := fillVal_supported (sentinels upper) field supported.1
          refine ⟨upper, .cons first bound, .cons first value, fillNew_cons.mpr ⟨_, _, built, filled, rfl⟩, ?_⟩
          rw [beyondRecords_cons, (fillVal_bounded upper here built).1, orElse_zero]
          exact exceeds

end

namespace KeyPrefix

/-- The key has the values of the prefix where that has any. -/
def Agrees : {fields : RecordSchema} → KeyPrefix fields → RecordData fields → Prop
  | _, .nil, .nil => True
  | _, .cons value rest, .cons given others => (∀ fixed ∈ value, given = fixed) ∧ rest.Agrees others

/-- The keys with this prefix lie between the two filled keys. -/
def Covers {fields : RecordSchema} (keyPrefix : KeyPrefix fields) : Prop :=
  ∃ low high, fillOutKey minVal keyPrefix = .ok low ∧ fillOutKey maxVal keyPrefix = .ok high ∧
    ∀ key, keyPrefix.Agrees key → compareRecords low key ≤ 0 ∧ compareRecords key high ≤ 0

end KeyPrefix

end Scads.Client
