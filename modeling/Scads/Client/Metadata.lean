import Mathlib.Order.Lattice
import Mathlib.Tactic.Ring

namespace Scads.Client

/-! # Record versions

A client stores a record behind sixteen bytes of metadata: the time of the write
and the id of the writing client, both as big-endian longs.  Versions are
compared on these bytes only.
-/

abbrev Bytes := List Int8

/-- A value as it is stored for a record.  Every writer goes through
`createMetadata`, so the sixteen metadata bytes are always there and the
length assertions of the readers cannot fail. -/
structure Value where
  bytes : Bytes
  sized : 16 ≤ bytes.length
deriving DecidableEq, Repr

/-- `ByteBuffer.putLong`: the eight bytes of a long, most significant first. -/
def putLong (value : Int64) : Bytes :=
  (List.range 8).map fun index =>
    (UInt8.ofNat (value.toUInt64.toNat / 256 ^ (7 - index) % 256)).toInt8

@[simp] theorem putLong_length (value : Int64) : (putLong value).length = 8 := by
  simp [putLong]

def createMetadata (currentTimeMillis clientID : Int64) (rec : Bytes) : Value where
  bytes := putLong currentTimeMillis ++ putLong clientID ++ rec
  sized := by
    simp only [List.length_append, putLong_length]
    omega

def extractMetadataFromValue (value : Value) : Bytes := value.bytes.take 16

def extractRecordFromValue (value : Value) : Bytes := value.bytes.drop 16

@[simp] theorem extractRecordFromValue_createMetadata (time client : Int64) (rec : Bytes) :
    extractRecordFromValue (createMetadata time client rec) = rec := by
  simp [extractRecordFromValue, createMetadata, List.drop_append]

/-- The loop of `compareMetadata` on the bytes it has still to look at. -/
def compareBytes : Bytes → Bytes → Int
  | left :: lefts, right :: rights =>
      if left = right then compareBytes lefts rights
      -- bitwise comparison for unsigned bytes
      else if (decide (left < right) ^^ (decide (left < 0) != decide (right < 0))) then -1
      else 1
  | _, _ => 0

def compareMetadata (left right : Value) : Int :=
  compareBytes (extractMetadataFromValue left) (extractMetadataFromValue right)

/-- Bytes read as one unsigned big-endian number. -/
def unsigned : Bytes → Nat
  | [] => 0
  | byte :: rest => byte.toUInt8.toNat * 256 ^ rest.length + unsigned rest

/-- The version of a value: its metadata bytes as one number. -/
def version (value : Value) : Nat := unsigned (extractMetadataFromValue value)

theorem unsigned_lt (bytes : Bytes) : unsigned bytes < 256 ^ bytes.length := by
  induction bytes with
  | nil => simp [unsigned]
  | cons byte rest ih =>
      have small : byte.toUInt8.toNat ≤ 255 := by have := byte.toUInt8.toNat_lt; omega
      have head := Nat.mul_le_mul_right (256 ^ rest.length) small
      simp only [unsigned, List.length_cons, Nat.pow_succ]
      omega

/-- The signed test with its sign correction is the unsigned comparison. -/
theorem unsignedTest (left right : Int8) :
    (decide (left < right) ^^ (decide (left < 0) != decide (right < 0))) =
      decide (left.toUInt8.toNat < right.toUInt8.toNat) := by
  have signed : decide (left < right) = left.toBitVec.slt right.toBitVec := by
    simp [Int8.lt_iff_toBitVec_slt]
  have negative (byte : Int8) : decide (byte < 0) = byte.toBitVec.msb := by
    simp [Int8.lt_iff_toBitVec_slt, BitVec.slt_zero_eq_msb]
  rw [signed, negative, negative, BitVec.slt_eq_ult]
  rw [Bool.xor_comm, ← Bool.xor_assoc]
  simp only [Bool.xor_self, Bool.false_xor, BitVec.ult]
  rfl

theorem unsigned_cons_lt {left right : Int8} {lefts rights : Bytes}
    (width : lefts.length = rights.length) (below : left.toUInt8.toNat < right.toUInt8.toNat) :
    unsigned (left :: lefts) < unsigned (right :: rights) := by
  have tail := unsigned_lt lefts
  have step := Nat.mul_le_mul_right (256 ^ rights.length) (Nat.succ_le_of_lt below)
  simp only [unsigned, width] at *
  rw [Nat.succ_mul] at step
  omega

theorem compareBytes_eq {lefts rights : Bytes} (width : lefts.length = rights.length) :
    compareBytes lefts rights =
      if unsigned lefts < unsigned rights then -1
      else if unsigned lefts = unsigned rights then 0 else 1 := by
  induction lefts generalizing rights with
  | nil =>
      have empty : rights = [] := List.length_eq_zero_iff.mp width.symm
      simp [empty, compareBytes, unsigned]
  | cons left lefts ih =>
      cases rights with
      | nil => simp at width
      | cons right rights =>
          have tailWidth : lefts.length = rights.length := by simpa using width
          by_cases same : left = right
          · subst right
            simp [compareBytes, ih tailWidth, unsigned, tailWidth]
          · rw [compareBytes, if_neg same, unsignedTest]
            have different : left.toUInt8.toNat ≠ right.toUInt8.toNat := by
              intro equal
              exact same (Int8.toBitVec.inj (congrArg UInt8.toBitVec (UInt8.toNat_inj.mp equal)))
            rcases Nat.lt_or_gt_of_ne different with below | above
            · have less := unsigned_cons_lt tailWidth below
              simp [below, less]
            · have more := unsigned_cons_lt tailWidth.symm above
              have notBelow : ¬ left.toUInt8.toNat < right.toUInt8.toNat := by omega
              rw [decide_eq_false notBelow, if_neg Bool.false_ne_true, if_neg (by omega), if_neg (by omega)]

/-- `compareMetadata` is the three-way comparison of versions. -/
theorem compareMetadata_eq (left right : Value) :
    compareMetadata left right =
      if version left < version right then -1 else if version left = version right then 0 else 1 :=
  compareBytes_eq (by
    have leftSized := left.sized
    have rightSized := right.sized
    simp only [extractMetadataFromValue, List.length_take]
    omega)

theorem compareMetadata_neg {left right : Value} :
    compareMetadata left right < 0 ↔ version left < version right := by
  rw [compareMetadata_eq]
  split
  · simp [*]
  · split <;> simp [*]

theorem compareMetadata_zero {left right : Value} :
    compareMetadata left right = 0 ↔ version left = version right := by
  rw [compareMetadata_eq]
  split
  · simp
    omega
  · split <;> simp [*]

theorem compareMetadata_pos {left right : Value} :
    0 < compareMetadata left right ↔ version right < version left := by
  rw [compareMetadata_eq]
  split
  · simp
    omega
  · split
    · simp
      omega
    · simp
      omega

theorem unsigned_append (front back : Bytes) :
    unsigned (front ++ back) = unsigned front * 256 ^ back.length + unsigned back := by
  induction front with
  | nil => simp [unsigned]
  | cons byte rest ih =>
      rw [List.cons_append, unsigned, ih, unsigned, List.length_append, Nat.pow_add]
      ring

/-- The last digits of a number in base 256, the most significant first. -/
theorem unsigned_places (number count : Nat) :
    unsigned ((List.range count).reverse.map fun place => (UInt8.ofNat (number / 256 ^ place % 256)).toInt8) =
      number % 256 ^ count := by
  induction count with
  | zero =>
      rw [Nat.pow_zero, Nat.mod_one]
      rfl
  | succ count ih =>
      have byte : (UInt8.ofNat (number / 256 ^ count % 256)).toInt8.toUInt8.toNat = number / 256 ^ count % 256 := by
        simp
      rw [List.range_succ, List.reverse_append, List.reverse_singleton, List.singleton_append, List.map_cons,
        unsigned, byte, ih, List.length_map, List.length_reverse, List.length_range, Nat.mod_pow_succ, Nat.add_comm,
        Nat.mul_comm]

theorem unsigned_putLong (value : Int64) : unsigned (putLong value) = value.toUInt64.toNat := by
  have digits : putLong value = (List.range 8).reverse.map fun place =>
      (UInt8.ofNat (value.toUInt64.toNat / 256 ^ place % 256)).toInt8 := rfl
  rw [digits, unsigned_places]
  exact Nat.mod_eq_of_lt value.toUInt64.toNat_lt

theorem version_createMetadata (time client : Int64) (rec : Bytes) :
    version (createMetadata time client rec) =
      time.toUInt64.toNat * 2 ^ 64 + client.toUInt64.toNat := by
  have metadata : extractMetadataFromValue (createMetadata time client rec) =
      putLong time ++ putLong client := by
    rw [extractMetadataFromValue, createMetadata]
    exact List.take_left' (by simp)
  rw [version, metadata, unsigned_append, unsigned_putLong, unsigned_putLong, putLong_length]
  norm_num

end Scads.Client
