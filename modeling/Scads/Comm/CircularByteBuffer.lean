import Scads.Comm.Messages
import Scads.Data.Rings
import Scads.Data.Words

namespace Scads.Comm.Nio

open Scads.Data

/-! # The circular buffer of a channel -/

inductive NioException where
  | illegalArgument (message : String)
  | negativeArraySize (size : Int)
  | indexOutOfBounds
  | arithmetic
  | bufferOverflow
  | invalidMessageSize (size : Int)
  | processing (message : String)
deriving DecidableEq, Repr

def newArray (size : Int) : Except NioException (List UInt8) :=
  if size < 0 then .error (.negativeArraySize size) else .ok (List.replicate size.toNat 0)

/-- `System.arraycopy`, with its check of the bounds. -/
def arraycopy (src : List UInt8) (srcPos : Int) (dest : List UInt8) (destPos length : Int) :
    Except NioException (List UInt8) :=
  if 0 ≤ srcPos ∧ 0 ≤ destPos ∧ 0 ≤ length ∧ srcPos + length ≤ src.length ∧ destPos + length ≤ dest.length then
    .ok (Data.arraycopy src srcPos.toNat dest destPos.toNat length.toNat)
  else .error .indexOutOfBounds

def remainder (dividend divisor : Int) : Except NioException Int :=
  if divisor = 0 then .error .arithmetic else .ok (dividend.tmod divisor)

structure CircularByteBuffer where
  bytes : List UInt8
  head : Int
  size : Int
deriving DecidableEq, Repr

namespace CircularByteBuffer

def new (initialSize : Int) : Except NioException CircularByteBuffer := do
  let bytes ← newArray initialSize
  return { bytes, head := 0, size := 0 }

def bytesRemaining (buffer : CircularByteBuffer) : Int := int32 (buffer.bytes.length - buffer.size)

def isEmpty (buffer : CircularByteBuffer) : Bool := buffer.size == 0

/-- The two block copies that `append` and `consumeBytes` make from `head` on. -/
def copyOut (buffer : CircularByteBuffer) (dest : List UInt8) (length : Int) :
    Except NioException (List UInt8) :=
  if int32 (buffer.head + length) < int32 (buffer.bytes.length + 1) then
    arraycopy buffer.bytes buffer.head dest 0 length
  else do
    let dest ← arraycopy buffer.bytes buffer.head dest 0 (buffer.bytes.length - buffer.head)
    arraycopy buffer.bytes 0 dest (buffer.bytes.length - buffer.head)
      (length - (buffer.bytes.length - buffer.head))

def expand (buffer : CircularByteBuffer) (more : Int) : Except NioException CircularByteBuffer := do
  let newSize := max (int32 (buffer.bytes.length * 2)) (int32 (int32 (buffer.size + more) * 2))
  let newBytes ← newArray newSize
  let bytes ← buffer.copyOut newBytes buffer.size
  return { buffer with bytes, head := 0 }

/-- The two block copies of `append`, behind the newest byte and from the front of
the array. -/
def copyIn (buffer : CircularByteBuffer) (toAppend : List UInt8) : Except NioException (List UInt8) := do
  let tailStart ← remainder (int32 (buffer.head + buffer.size)) buffer.bytes.length
  let toCopy := min (toAppend.length : Int) (buffer.bytes.length - tailStart)
  let bytes ← arraycopy toAppend 0 buffer.bytes tailStart toCopy
  if toCopy < toAppend.length then
    arraycopy toAppend toCopy bytes 0 (toAppend.length - toCopy)
  else
    return bytes

def append (buffer : CircularByteBuffer) (toAppend : List UInt8) : Except NioException CircularByteBuffer := do
  let roomy ← if buffer.bytesRemaining < toAppend.length then buffer.expand toAppend.length else .ok buffer
  let bytes ← roomy.copyIn toAppend
  return { roomy with bytes, size := int32 (roomy.size + toAppend.length) }

def consumeBytes (buffer : CircularByteBuffer) (length : Int) :
    Except NioException (List UInt8 × CircularByteBuffer) :=
  if length > buffer.size then
    .error (.illegalArgument "Cannot consume more bytes than there are")
  else if length < 0 then
    .error (.illegalArgument "Cannot consume negative bytes")
  else do
    let rtn ← newArray length
    if length = 0 then
      return (rtn, buffer)
    else
      let rtn ← buffer.copyOut rtn length
      let head ← remainder (int32 (buffer.head + length)) buffer.bytes.length
      return (rtn, { buffer with head, size := buffer.size - length })

def consumeInt (buffer : CircularByteBuffer) : Except NioException (BitVec 32 × CircularByteBuffer) := do
  match ← buffer.consumeBytes 4 with
  | ([a, b, c, d], buffer) => return (wordOf a b c d, buffer)
  | _ => .error .indexOutOfBounds

/-- The buffer holds these bytes, the oldest first.  The sum of `head` and `size` is below `2 ^ 31` as long as three
times the bytes are: the array is at most twice as long as the bytes that it was made for. -/
structure Holds (buffer : CircularByteBuffer) (contents : List UInt8) : Prop where
  positive : 0 ≤ buffer.head
  inside : buffer.head < buffer.bytes.length
  size : buffer.size = contents.length
  fits : contents.length ≤ buffer.bytes.length
  few : 3 * contents.length < 2 ^ 31
  small : 3 * buffer.bytes.length < 2 ^ 32
  same : held buffer.bytes buffer.head.toNat contents.length = contents

variable {buffer : CircularByteBuffer} {contents : List UInt8}

theorem new_holds {initialSize : Int} (positive : 0 < initialSize) (small : initialSize ≤ 2 ^ 30) :
    ∃ buffer, new initialSize = .ok buffer ∧ buffer.Holds [] := by
  refine ⟨{ bytes := List.replicate initialSize.toNat 0, head := 0, size := 0 }, ?_, ?_⟩
  · simp [new, newArray, Int.not_lt.mpr (Int.le_of_lt positive)]
  · have length : (List.replicate initialSize.toNat (0 : UInt8)).length = initialSize.toNat := by simp
    exact ⟨Int.le_refl 0, by rw [length]; simp only; omega, rfl, by simp, by decide, by rw [length]; omega,
      by simp [held]⟩

theorem arraycopy_ok {src dest : List UInt8} {srcPos destPos length : Nat}
    (source : srcPos + length ≤ src.length) (target : destPos + length ≤ dest.length) :
    arraycopy src srcPos dest destPos length = .ok (Data.arraycopy src srcPos dest destPos length) := by
  rw [arraycopy, if_pos (by omega)]
  rfl

/-- Copying out gives the oldest bytes and leaves the rest of the target. -/
theorem copyOut_ok (holds : buffer.Holds contents) {dest : List UInt8} {length : Nat}
    (short : length ≤ contents.length) (room : length ≤ dest.length) :
    buffer.copyOut dest length = .ok (contents.take length ++ dest.drop length) := by
  obtain ⟨head, isHead⟩ := Int.eq_ofNat_of_zero_le holds.positive
  obtain ⟨-, inside, -, fits, few, small, same⟩ := holds
  rw [isHead] at inside same
  rw [Int.toNat_natCast] at same
  rw [copyOut, isHead, int32_of_range (by omega) (by omega), int32_of_range (by omega) (by omega)]
  split
  · next straight =>
      have read := @arraycopy_ok buffer.bytes dest head 0 length (by omega) (by omega)
      rw [Int.natCast_zero] at read
      rw [read, arraycopy_held_straight dest short (by omega), same]
  · next wrapped =>
      have first := @arraycopy_ok buffer.bytes dest head 0 (buffer.bytes.length - head) (by omega) (by omega)
      have between : (buffer.bytes.length : Int) - head = (buffer.bytes.length - head : Nat) := by omega
      have rest : (length : Int) - (buffer.bytes.length - head : Nat) =
          (length - (buffer.bytes.length - head) : Nat) := by omega
      have second := @arraycopy_ok buffer.bytes (Data.arraycopy buffer.bytes head dest 0 (buffer.bytes.length - head))
        0 (buffer.bytes.length - head) (length - (buffer.bytes.length - head)) (by omega)
        (by rw [length_arraycopy (by omega) (by omega)]; omega)
      rw [Int.natCast_zero] at first second
      rw [between, rest, first, ok_bind, second,
        arraycopy_held_wrapped dest (by omega) short fits (by omega), same]

/-- A larger array takes the bytes over from its front. -/
theorem expand_holds (holds : buffer.Holds contents) {more : Nat} (few : 3 * (contents.length + more) < 2 ^ 31)
    (full : buffer.bytes.length < contents.length + more) :
    ∃ larger, buffer.expand more = .ok larger ∧ larger.Holds contents ∧
      contents.length + more ≤ larger.bytes.length := by
  have sum : int32 (buffer.size + more) = (contents.length + more : Nat) := by
    rw [holds.size, int32_of_range (by omega) (by omega)]
    omega
  have doubled : int32 ((contents.length + more : Nat) * 2) = (2 * (contents.length + more) : Nat) := by
    rw [int32_of_range (by omega) (by omega)]
    omega
  have old : int32 (buffer.bytes.length * 2) = (2 * buffer.bytes.length : Nat) := by
    rw [int32_of_range (by omega) (by omega)]
    omega
  have newSize : max (int32 (buffer.bytes.length * 2)) (int32 (int32 (buffer.size + more) * 2)) =
      (2 * (contents.length + more) : Nat) := by
    rw [sum, doubled, old]
    omega
  have allocated : newArray (2 * (contents.length + more) : Nat) =
      .ok (List.replicate (2 * (contents.length + more)) 0) := by
    rw [newArray, if_neg (by omega), Int.toNat_natCast]
  have copied := copyOut_ok holds (Nat.le_refl contents.length)
    (show contents.length ≤ (List.replicate (2 * (contents.length + more)) (0 : UInt8)).length by
      rw [List.length_replicate]; omega)
  rw [← holds.size, List.take_length] at copied
  let unset := (List.replicate (2 * (contents.length + more)) (0 : UInt8)).drop contents.length
  have length : (contents ++ unset).length = 2 * (contents.length + more) := by
    simp only [unset, List.length_append, List.length_drop, List.length_replicate]
    omega
  refine ⟨{ buffer with bytes := contents ++ unset, head := 0 }, ?_,
    ⟨Int.le_refl 0, ?_, holds.size, ?_, holds.few, ?_, ?_⟩, ?_⟩
  · rw [expand, newSize, allocated, ok_bind, copied, ok_bind]
    rfl
  · simp only [length]
    omega
  · rw [length]
    omega
  · rw [length]
    omega
  · rw [Int.toNat_zero, held_zero, List.take_left']
    rfl
  · rw [length]
    omega

/-- The bytes after the newest one, written in at most two block copies. -/
theorem append_within (holds : buffer.Holds contents) {more : List UInt8}
    (few : 3 * (contents.length + more.length) < 2 ^ 31)
    (room : contents.length + more.length ≤ buffer.bytes.length) :
    ∃ next, buffer.append more = .ok next ∧ next.Holds (contents ++ more) := by
  obtain ⟨head, isHead⟩ := Int.eq_ofNat_of_zero_le holds.positive
  obtain ⟨-, inside, size, fits, -, small, same⟩ := holds
  rw [isHead] at inside same
  rw [Int.toNat_natCast] at same
  have remaining : ¬ buffer.bytesRemaining < more.length := by
    rw [bytesRemaining, size, int32_of_range (by omega) (by omega)]
    omega
  let tail := (head + contents.length) % buffer.bytes.length
  have below : tail < buffer.bytes.length := Nat.mod_lt _ (by omega)
  have tailStart : remainder (int32 (buffer.head + buffer.size)) buffer.bytes.length = .ok tail := by
    rw [remainder, if_neg (by omega), isHead, size, int32_of_range (by omega) (by omega), ← Int.natCast_add,
      ← Int.ofNat_tmod]
  let first := min more.length (buffer.bytes.length - tail)
  have toCopy : min (more.length : Int) (buffer.bytes.length - tail) = first := by
    omega
  have start := @arraycopy_ok more buffer.bytes 0 tail first (by omega) (by omega)
  let once := Data.arraycopy more 0 buffer.bytes tail first
  have onceLength : once.length = buffer.bytes.length := length_arraycopy (by omega) (by omega)
  let twice := Data.arraycopy more first once 0 (more.length - first)
  have twiceLength : twice.length = buffer.bytes.length := by
    rw [length_arraycopy (by omega) (by omega), onceLength]
  have rest : (if (first : Int) < more.length then
      arraycopy more first once 0 (more.length - first) else .ok once) = .ok twice := by
    split
    · have copied := @arraycopy_ok more once first 0 (more.length - first) (by omega) (by omega)
      rw [Int.natCast_zero, Int.natCast_sub (by omega)] at copied
      exact copied
    · have all : more.length - first = 0 := by omega
      simp [twice, all, Data.arraycopy]
  have sum : int32 (buffer.size + more.length) = (contents ++ more).length := by
    rw [size, int32_of_range (by omega) (by omega), List.length_append]
    omega
  rw [Int.natCast_zero] at start
  refine ⟨{ buffer with bytes := twice, size := (contents ++ more).length }, ?_, ?_, ?_, rfl, ?_, ?_, ?_, ?_⟩
  · have copied : buffer.copyIn more = .ok twice := by
      rw [copyIn, tailStart, ok_bind]
      simp only [toCopy]
      rw [start, ok_bind]
      exact rest
    rw [append, if_neg remaining, ok_bind]
    simp only [copied, ok_bind, sum, pure_eq_ok]
  · simp only [isHead]
    omega
  · simp only [isHead, twiceLength]
    omega
  · simp only [twiceLength, List.length_append]
    omega
  · rw [List.length_append]
    omega
  · simp only [twiceLength]
    omega
  · simp only [isHead, Int.toNat_natCast, List.length_append]
    rw [held_write (by omega) room rfl rfl, same]

/-- Appending adds the bytes behind those held, in the array or in a larger one. -/
theorem append_holds (holds : buffer.Holds contents) {more : List UInt8}
    (few : 3 * (contents.length + more.length) < 2 ^ 31) :
    ∃ next, buffer.append more = .ok next ∧ next.Holds (contents ++ more) := by
  by_cases room : contents.length + more.length ≤ buffer.bytes.length
  · exact append_within holds few room
  · obtain ⟨larger, expanded, taken, enough⟩ := expand_holds holds few (by omega)
    obtain ⟨next, appended, added⟩ := append_within taken few enough
    refine ⟨next, ?_, added⟩
    have full : buffer.bytesRemaining < more.length := by
      have bounds := holds.small
      have fits := holds.fits
      rw [bytesRemaining, holds.size, int32_of_range (by omega) (by omega)]
      omega
    have remaining : ¬ larger.bytesRemaining < more.length := by
      have bounds := taken.small
      rw [bytesRemaining, taken.size, int32_of_range (by omega) (by omega)]
      omega
    rw [append, if_neg remaining, ok_bind] at appended
    rw [append, if_pos full, expanded, ok_bind]
    exact appended

/-- The oldest bytes are consumed. -/
theorem consumeBytes_holds (holds : buffer.Holds contents) {length : Nat} (short : length ≤ contents.length) :
    ∃ next, buffer.consumeBytes length = .ok (contents.take length, next) ∧ next.Holds (contents.drop length) := by
  have inside := holds.inside
  have fits := holds.fits
  have few := holds.few
  have small := holds.small
  have enough : ¬ (length : Int) > buffer.size := by
    rw [holds.size]
    omega
  have allocated : newArray length = .ok (List.replicate length 0) := by
    rw [newArray, if_neg (by omega), Int.toNat_natCast]
  rw [consumeBytes, if_neg enough, if_neg (by omega), allocated, ok_bind]
  by_cases none : length = 0
  · subst none
    exact ⟨buffer, rfl, holds⟩
  · obtain ⟨head, isHead⟩ := Int.eq_ofNat_of_zero_le holds.positive
    have copied := copyOut_ok holds short (show length ≤ (List.replicate length (0 : UInt8)).length by simp)
    rw [List.drop_eq_nil_of_le (by simp), List.append_nil] at copied
    have moved : remainder (int32 (buffer.head + length)) buffer.bytes.length =
        .ok ((head + length) % buffer.bytes.length : Nat) := by
      rw [remainder, if_neg (by omega), isHead, int32_of_range (by omega) (by omega), ← Int.natCast_add,
        ← Int.ofNat_tmod]
    have below : (head + length) % buffer.bytes.length < buffer.bytes.length := Nat.mod_lt _ (by omega)
    refine ⟨{ buffer with head := ((head + length) % buffer.bytes.length : Nat), size := buffer.size - length },
      ?_, Int.natCast_nonneg _, Int.ofNat_lt.mpr below, ?_, ?_, ?_, small, ?_⟩
    · rw [if_neg (by omega), copied, ok_bind, moved]
      rfl
    · simp only [holds.size, List.length_drop]
      omega
    · simp only [List.length_drop]
      omega
    · simp only [List.length_drop]
      omega
    · have same := holds.same
      rw [isHead, Int.toNat_natCast] at same
      simp only [Int.toNat_natCast, List.length_drop]
      rw [held_advance (by omega) short fits, same]

/-- Four bytes are consumed as one big-endian word. -/
theorem consumeInt_holds {word : BitVec 32} {rest : List UInt8} (holds : buffer.Holds (wordBytes word ++ rest)) :
    ∃ next, buffer.consumeInt = .ok (word, next) ∧ next.Holds rest := by
  obtain ⟨next, consumed, left⟩ := consumeBytes_holds holds (show 4 ≤ (wordBytes word ++ rest).length by simp)
  refine ⟨next, ?_, left⟩
  have consumed : buffer.consumeBytes 4 = .ok (wordBytes word, next) := consumed
  rw [consumeInt, consumed, ok_bind]
  simp [wordBytes, wordOf_wordBytes]

end CircularByteBuffer

end Scads.Comm.Nio
