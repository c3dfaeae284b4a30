import Mathlib.Data.Prod.Lex
import Scads.Client.Metadata
import Scads.Data.ArrayCopy
import Scads.Data.Comparator
import Scads.Data.Words
import Scads.Util.RangeTable

namespace Scads.Client.SimpleRecordMetadata

open Scads.Data Scads.Comm Scads.Util

/-! # Record versions in arrays

The methods on the arrays themselves, with their assertions and indices.
-/

def assertSized (value : Bytes) : Except Failure Unit :=
  if 16 ≤ value.length then .ok ()
  else .error (.assertion "assertion failed: value array is too small to be valid")

/-- A block of the array in a new one of its length. -/
def copyBlock (value : Bytes) (position length : Nat) : Bytes :=
  arraycopy value position (List.replicate length 0) 0 length

def extractMetadataAndRecordFromValue (value : Bytes) : Except Failure (Bytes × Bytes) := do
  assertSized value
  return (copyBlock value 0 16, copyBlock value 16 (value.length - 16))

def extractRecordFromValue (value : Bytes) : Except Failure Bytes := do
  assertSized value
  return copyBlock value 16 (value.length - 16)

def extractMetadataFromValue (value : Bytes) : Except Failure Bytes := do
  assertSized value
  return copyBlock value 0 16

/-- `ByteBuffer.allocate` refuses a capacity that is negative. -/
def createMetadata (currentTimeMillis clientID : Int64) (rec : Bytes) : Except Failure Bytes :=
  if int32 (rec.length + 16) < 0 then .error (.illegalArgument "null")
  else .ok (putLong currentTimeMillis ++ putLong clientID ++ rec)

/-- The loop of `compareMetadata` with so many bytes left. -/
def compareFrom (lhs rhs : Bytes) : Nat → Except Failure Int
  | 0 => .ok 0
  | count + 1 => do
      let left ← elementAt lhs (16 - (count + 1 : Nat))
      let right ← elementAt rhs (16 - (count + 1 : Nat))
      if left = right then compareFrom lhs rhs count
      -- bitwise comparison for unsigned bytes
      else if decide (left < right) ^^ (decide (left < 0) != decide (right < 0)) then return -1
      else return 1

def compareMetadata (lhs rhs : Bytes) : Except Failure Int := compareFrom lhs rhs 16

theorem copyBlock_eq (value : Bytes) (position length : Nat) :
    copyBlock value position length = (value.drop position).take length := by
  simp [copyBlock, arraycopy]

theorem assertSized_ok {value : Bytes} (sized : 16 ≤ value.length) : assertSized value = .ok () := if_pos sized

theorem extractRecordFromValue_eq (value : Value) :
    extractRecordFromValue value.bytes = .ok (Client.extractRecordFromValue value) := by
  rw [extractRecordFromValue, assertSized_ok value.sized, ok_bind, copyBlock_eq, List.take_of_length_le]
  · rfl
  · rw [List.length_drop]

theorem extractMetadataFromValue_eq (value : Value) :
    extractMetadataFromValue value.bytes = .ok (Client.extractMetadataFromValue value) := by
  rw [extractMetadataFromValue, assertSized_ok value.sized, ok_bind, copyBlock_eq]
  rfl

theorem extractMetadataAndRecordFromValue_eq (value : Value) :
    extractMetadataAndRecordFromValue value.bytes =
      .ok (Client.extractMetadataFromValue value, Client.extractRecordFromValue value) := by
  have metadata := extractMetadataFromValue_eq value
  have record := extractRecordFromValue_eq value
  rw [extractMetadataFromValue, assertSized_ok value.sized, ok_bind, pure_eq_ok] at metadata
  rw [extractRecordFromValue, assertSized_ok value.sized, ok_bind, pure_eq_ok] at record
  rw [extractMetadataAndRecordFromValue, assertSized_ok value.sized, ok_bind, Except.ok.inj metadata,
    Except.ok.inj record]
  rfl

theorem elementAt_ok {value : Bytes} {position : Nat} (inside : position < value.length) :
    elementAt value position = .ok value[position] := by
  rw [elementAt, if_neg (by omega), Int.toNat_natCast, List.getElem?_eq_getElem inside]

theorem metadata_drop {value : Bytes} (sized : 16 ≤ value.length) {position : Nat} (before : position < 16) :
    (value.take 16).drop position = value[position] :: (value.take 16).drop (position + 1) := by
  have inside : position < (value.take 16).length := by
    rw [List.length_take]
    omega
  rw [List.drop_eq_getElem_cons inside, List.getElem_take]

/-- The loop looks at the metadata bytes that are left. -/
theorem compareFrom_eq {lhs rhs : Bytes} (left : 16 ≤ lhs.length) (right : 16 ≤ rhs.length) {count : Nat}
    (few : count ≤ 16) : compareFrom lhs rhs count =
      .ok (compareBytes ((lhs.take 16).drop (16 - count)) ((rhs.take 16).drop (16 - count))) := by
  induction count with
  | zero =>
      rw [List.drop_eq_nil_of_le (by simp)]
      rfl
  | succ count ih =>
      have position : (16 : Int) - (count + 1 : Nat) = (16 - (count + 1) : Nat) := by omega
      have next : 16 - (count + 1) + 1 = 16 - count := by omega
      rw [compareFrom, position, elementAt_ok (by omega), ok_bind, elementAt_ok (by omega), ok_bind,
        metadata_drop left (by omega), metadata_drop right (by omega), next, compareBytes, ih (by omega)]
      split
      · rfl
      · split
        · rfl
        · rfl

theorem compareMetadata_value (left right : Value) :
    compareMetadata left.bytes right.bytes = .ok (Client.compareMetadata left right) :=
  compareFrom_eq left.sized right.sized (Nat.le_refl 16)

/-- When and by whom a value is written. -/
structure Version where
  time : Int64
  client : Int64
  time_nonneg : 0 ≤ time
  client_nonneg : 0 ≤ client

/-- First the time decides, then the client. -/
def Version.stamp (version : Version) : ℤ ×ₗ ℤ := toLex (version.time.toInt, version.client.toInt)

def Version.metadata (version : Version) : Bytes := putLong version.time ++ putLong version.client

/-- The value that is made of a record. -/
def Writes (version : Version) (rec value : Bytes) : Prop := createMetadata version.time version.client rec = .ok value

def Written (value : Bytes) : Prop := ∃ version rec, Writes version rec value

/-- The value on the left is found not to be newer. -/
def NotNewer (left right : Bytes) : Prop := ∃ compared, compareMetadata left right = .ok compared ∧ compared ≤ 0

variable {version other : Version} {rec otherRec value otherValue : Bytes}

theorem Writes.bytes (writes : Writes version rec value) :
    value = (Client.createMetadata version.time version.client rec).bytes := by
  rw [Writes, createMetadata] at writes
  split at writes
  · cases writes
  · cases writes
    rfl

theorem metadata_createMetadata (version : Version) (rec : Bytes) :
    Client.extractMetadataFromValue (Client.createMetadata version.time version.client rec) = version.metadata :=
  List.take_left' (by simp [putLong_length])

theorem toNat_of_nonneg {long : Int64} (nonneg : 0 ≤ long) : (long.toUInt64.toNat : Int) = long.toInt := by
  rw [Int64.toNat_toUInt64_of_le nonneg, Int64.cast_toNatClampNeg long nonneg]

/-- The order of the stamps is that of the metadata bytes as one number. -/
theorem stamp_lt (version other : Version) (rec otherRec : Bytes) :
    Client.version (Client.createMetadata version.time version.client rec) <
      Client.version (Client.createMetadata other.time other.client otherRec) ↔ version.stamp < other.stamp := by
  have time := toNat_of_nonneg version.time_nonneg
  have client := toNat_of_nonneg version.client_nonneg
  have otherTime := toNat_of_nonneg other.time_nonneg
  have otherClient := toNat_of_nonneg other.client_nonneg
  have small := version.client.toUInt64.toNat_lt
  have otherSmall := other.client.toUInt64.toNat_lt
  rw [version_createMetadata, version_createMetadata, Version.stamp, Version.stamp, Prod.Lex.toLex_lt_toLex]
  omega

theorem stamp_eq (version other : Version) (rec otherRec : Bytes) :
    Client.version (Client.createMetadata version.time version.client rec) =
      Client.version (Client.createMetadata other.time other.client otherRec) ↔ version.stamp = other.stamp := by
  have forth := stamp_lt version other rec otherRec
  have back := stamp_lt other version otherRec rec
  constructor
  · intro same
    exact le_antisymm (not_lt.mp fun less => (back.mpr less).ne same.symm)
      (not_lt.mp fun less => (forth.mpr less).ne same)
  · intro same
    exact le_antisymm (not_lt.mp fun less => (back.mp less).ne same.symm)
      (not_lt.mp fun less => (forth.mp less).ne same)

/-- Only the stamps are compared. -/
theorem compareMetadata_written (writes : Writes version rec value) (others : Writes other otherRec otherValue) :
    compareMetadata value otherValue = .ok ((Comparator.threeWay (ℤ ×ₗ ℤ)).compare version.stamp other.stamp) := by
  have less := stamp_lt version other rec otherRec
  have same := stamp_eq version other rec otherRec
  rw [writes.bytes, others.bytes, compareMetadata_value, compareMetadata_eq, Comparator.threeWay]
  simp only [less, same]
  by_cases below : version.stamp < other.stamp
  · rw [if_pos below, if_neg below.ne, if_pos below]
  · rw [if_neg below]
    by_cases equal : version.stamp = other.stamp
    · rw [if_pos equal, if_pos equal]
    · rw [if_neg equal, if_neg equal, if_neg below]

theorem notNewer_iff (writes : Writes version rec value) (others : Writes other otherRec otherValue) :
    NotNewer value otherValue ↔ version.stamp ≤ other.stamp := by
  rw [NotNewer, compareMetadata_written writes others]
  constructor
  · intro found
    obtain ⟨compared, same, low⟩ := found
    cases same
    exact (Comparator.compare_nonpos _).mp low
  · intro low
    exact ⟨_, rfl, (Comparator.compare_nonpos _).mpr low⟩

theorem extracts_written (writes : Writes version rec value) :
    extractRecordFromValue value = .ok rec ∧ extractMetadataFromValue value = .ok version.metadata ∧
      extractMetadataAndRecordFromValue value = .ok (version.metadata, rec) := by
  rw [writes.bytes, extractRecordFromValue_eq, extractMetadataFromValue_eq, extractMetadataAndRecordFromValue_eq,
    metadata_createMetadata, extractRecordFromValue_createMetadata]
  exact ⟨rfl, rfl, rfl⟩

/-- What is put together is taken apart again, and values are compared by time and then
by client, whatever the records are. -/
theorem record_versions :
    (∀ version rec, rec.length + 16 < 2 ^ 31 → ∃ value, Writes version rec value) ∧
    (∀ version rec value, Writes version rec value →
      extractRecordFromValue value = .ok rec ∧ extractMetadataFromValue value = .ok version.metadata ∧
        extractMetadataAndRecordFromValue value = .ok (version.metadata, rec)) ∧
    (∀ version rec value other otherRec otherValue, Writes version rec value → Writes other otherRec otherValue →
      compareMetadata value otherValue = .ok
        (if version.stamp = other.stamp then 0 else if version.stamp < other.stamp then -1 else 1)) ∧
    (∀ value, Written value → NotNewer value value) ∧
    (∀ first second third, Written first → Written second → Written third →
      NotNewer first second → NotNewer second third → NotNewer first third) ∧
    ∀ first second, Written first → Written second → NotNewer first second ∨ NotNewer second first := by
  refine ⟨fun version rec short => ?_, fun _ _ _ writes => extracts_written writes,
    fun _ _ _ _ _ _ writes others => compareMetadata_written writes others, ?_, ?_, ?_⟩
  · refine ⟨putLong version.time ++ putLong version.client ++ rec, ?_⟩
    rw [Writes, createMetadata, int32_of_range (by omega) (by omega), if_neg (by omega)]
  · intro value written
    obtain ⟨version, rec, writes⟩ := written
    exact (notNewer_iff writes writes).mpr le_rfl
  · intro first second third made again once firstSecond secondThird
    obtain ⟨version, rec, writes⟩ := made
    obtain ⟨middle, middleRec, middleWrites⟩ := again
    obtain ⟨last, lastRec, lastWrites⟩ := once
    exact (notNewer_iff writes lastWrites).mpr (((notNewer_iff writes middleWrites).mp firstSecond).trans
      ((notNewer_iff middleWrites lastWrites).mp secondThird))
  · intro first second made again
    obtain ⟨version, rec, writes⟩ := made
    obtain ⟨other, otherRec, others⟩ := again
    rw [notNewer_iff writes others, notNewer_iff others writes]
    exact le_total _ _

/-- The same time and another client. -/
theorem later_client_is_newer : ∃ value other,
    createMetadata 128 3 [1] = .ok value ∧ createMetadata 128 200 [2] = .ok other ∧
      extractRecordFromValue value = .ok [1] ∧ compareMetadata value other = .ok (-1) := by
  let older : Version := ⟨128, 3, by decide, by decide⟩
  let newer : Version := ⟨128, 200, by decide, by decide⟩
  obtain ⟨written, extracts, compares, -⟩ := record_versions
  obtain ⟨value, writes⟩ := written older [1] (by decide)
  obtain ⟨other, others⟩ := written newer [2] (by decide)
  refine ⟨value, other, writes, others, (extracts older [1] value writes).1, ?_⟩
  rw [compares older [1] value newer [2] other writes others]
  decide

end Scads.Client.SimpleRecordMetadata
