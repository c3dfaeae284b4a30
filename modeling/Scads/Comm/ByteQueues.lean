import Scads.Comm.CircularByteBuffer
import Scads.Data.Transcripts

namespace Scads.Comm.Nio

open Scads.Data

/-! # The circular buffer as a queue of bytes -/

inductive BufferCall where
  | append (toAppend : List UInt8)
  | consumeBytes (length : Int)
  | consumeInt

inductive BufferAnswer where
  | done
  | bytes (consumed : List UInt8)
  | word (consumed : BitVec 32)
deriving DecidableEq

/-- What a call answers or throws. -/
abbrev BufferOutcome := Except NioException BufferAnswer

/-- The outcome of a call and the buffer after it.  A call that throws has assigned nothing. -/
def CircularByteBuffer.perform (buffer : CircularByteBuffer) : BufferCall → BufferOutcome × CircularByteBuffer
  | .append toAppend =>
      match buffer.append toAppend with
      | .ok next => (.ok .done, next)
      | .error exception => (.error exception, buffer)
  | .consumeBytes length =>
      match buffer.consumeBytes length with
      | .ok (consumed, next) => (.ok (.bytes consumed), next)
      | .error exception => (.error exception, buffer)
  | .consumeInt =>
      match buffer.consumeInt with
      | .ok (consumed, next) => (.ok (.word consumed), next)
      | .error exception => (.error exception, buffer)

def bigEndian (bytes : List UInt8) : Nat := bytes.foldl (fun number byte => number * 256 + byte.toNat) 0

def tooMany : NioException := .illegalArgument "Cannot consume more bytes than there are"

def negative : NioException := .illegalArgument "Cannot consume negative bytes"

/-- The same calls on the bytes themselves, the oldest first. -/
def performOnQueue (contents : List UInt8) : BufferCall → BufferOutcome × List UInt8
  | .append toAppend => (.ok .done, contents ++ toAppend)
  | .consumeBytes length =>
      if contents.length < length then (.error tooMany, contents)
      else if length < 0 then (.error negative, contents)
      else (.ok (.bytes (contents.take length.toNat)), contents.drop length.toNat)
  | .consumeInt =>
      if contents.length < 4 then (.error tooMany, contents)
      else (.ok (.word (BitVec.ofNat 32 (bigEndian (contents.take 4)))), contents.drop 4)

theorem toNat_lane (byte : UInt8) {shift : Nat} (inside : shift + 8 ≤ 32) :
    (widen 32 byte <<< shift).toNat = byte.toNat <<< shift := by
  have small : byte.toNat < 2 ^ 8 := byte.toNat_lt
  have shifted : byte.toNat * 2 ^ shift < 2 ^ 8 * 2 ^ shift := Nat.mul_lt_mul_of_pos_right small (Nat.two_pow_pos shift)
  have below : 2 ^ 8 * 2 ^ shift ≤ 2 ^ 32 := by
    rw [← Nat.pow_add]
    exact Nat.pow_le_pow_right (by omega) (by omega)
  have same : (widen 32 byte).toNat = byte.toNat := by
    rw [widen, BitVec.toNat_setWidth]
    exact Nat.mod_eq_of_lt (Nat.lt_trans small (by decide))
  rw [BitVec.toNat_shiftLeft, same, Nat.shiftLeft_eq, Nat.mod_eq_of_lt (by omega)]

/-- Joining bits below those of a lane adds them. -/
theorem or_lane {low shift : Nat} (high : Nat) (below : low < 2 ^ shift) :
    high <<< shift ||| low = high * 2 ^ shift + low := by
  rw [← Nat.shiftLeft_add_eq_or_of_lt below, Nat.shiftLeft_eq]

theorem wordOf_bigEndian (a b c d : UInt8) : wordOf a b c d = BitVec.ofNat 32 (bigEndian [a, b, c, d]) := by
  have first := a.toNat_lt
  have second := b.toNat_lt
  have third := c.toNat_lt
  have fourth := d.toNat_lt
  have last : (widen 32 d).toNat = d.toNat := by
    have lane := @toNat_lane d 0 (by omega)
    simpa using lane
  apply BitVec.eq_of_toNat_eq
  rw [wordOf, BitVec.or_assoc, BitVec.or_assoc, BitVec.toNat_or, BitVec.toNat_or, BitVec.toNat_or,
    toNat_lane a (by omega), toNat_lane b (by omega), toNat_lane c (by omega), last,
    or_lane c.toNat (by omega), or_lane b.toNat (by omega), or_lane a.toNat (by omega), BitVec.toNat_ofNat]
  simp only [bigEndian, List.foldl_cons, List.foldl_nil]
  omega

namespace CircularByteBuffer

variable {buffer : CircularByteBuffer} {contents : List UInt8}

theorem exists_four (enough : 4 ≤ contents.length) : ∃ a b c d rest, contents = a :: b :: c :: d :: rest := by
  obtain ⟨a, contents, rfl⟩ := List.exists_cons_of_length_pos (show 0 < contents.length by omega)
  rw [List.length_cons] at enough
  obtain ⟨b, contents, rfl⟩ := List.exists_cons_of_length_pos (show 0 < contents.length by omega)
  rw [List.length_cons] at enough
  obtain ⟨c, contents, rfl⟩ := List.exists_cons_of_length_pos (show 0 < contents.length by omega)
  rw [List.length_cons] at enough
  obtain ⟨d, rest, rfl⟩ := List.exists_cons_of_length_pos (show 0 < contents.length by omega)
  exact ⟨a, b, c, d, rest, rfl⟩

theorem append_queued (holds : buffer.Holds contents) {more : List UInt8}
    (few : (contents ++ more).length ≤ 2 ^ 29) :
    (buffer.perform (.append more)).1 = .ok .done ∧ (buffer.perform (.append more)).2.Holds (contents ++ more) := by
  rw [List.length_append] at few
  obtain ⟨next, appended, added⟩ := append_holds holds (show 3 * (contents.length + more.length) < 2 ^ 31 by omega)
  rw [perform, appended]
  exact ⟨rfl, added⟩

theorem consumeBytes_refused (holds : buffer.Holds contents) {length : Int} (long : contents.length < length) :
    buffer.consumeBytes length = .error tooMany := by
  rw [consumeBytes, if_pos (by rw [holds.size]; exact long)]
  rfl

theorem consumeBytes_negative (holds : buffer.Holds contents) {length : Int} (below : length < 0) :
    buffer.consumeBytes length = .error negative := by
  have short : ¬ length > buffer.size := by
    rw [holds.size]
    omega
  rw [consumeBytes, if_neg short, if_pos below]
  rfl

theorem consumeBytes_queued (holds : buffer.Holds contents) (length : Int) :
    (buffer.perform (.consumeBytes length)).1 = (performOnQueue contents (.consumeBytes length)).1 ∧
      (buffer.perform (.consumeBytes length)).2.Holds (performOnQueue contents (.consumeBytes length)).2 := by
  rw [perform, performOnQueue]
  by_cases long : contents.length < length
  · rw [if_pos long, consumeBytes_refused holds long]
    exact ⟨rfl, holds⟩
  · rw [if_neg long]
    by_cases below : length < 0
    · rw [if_pos below, consumeBytes_negative holds below]
      exact ⟨rfl, holds⟩
    · obtain ⟨count, rfl⟩ := Int.eq_ofNat_of_zero_le (Int.not_lt.mp below)
      obtain ⟨next, consumed, left⟩ := consumeBytes_holds holds (show count ≤ contents.length by omega)
      rw [if_neg below, consumed]
      exact ⟨rfl, left⟩

theorem consumeInt_queued (holds : buffer.Holds contents) :
    (buffer.perform .consumeInt).1 = (performOnQueue contents .consumeInt).1 ∧
      (buffer.perform .consumeInt).2.Holds (performOnQueue contents .consumeInt).2 := by
  rw [perform, performOnQueue]
  by_cases few : contents.length < 4
  · have refused := consumeBytes_refused holds (show (contents.length : Int) < 4 by omega)
    rw [if_pos few, consumeInt, refused]
    exact ⟨rfl, holds⟩
  · obtain ⟨a, b, c, d, rest, rfl⟩ := exists_four (Nat.not_lt.mp few)
    obtain ⟨next, consumed, left⟩ := consumeBytes_holds holds (show 4 ≤ (a :: b :: c :: d :: rest).length by simp)
    have four : buffer.consumeBytes 4 = .ok ([a, b, c, d], next) := consumed
    rw [if_neg few, consumeInt, four, ok_bind]
    refine ⟨?_, left⟩
    change Except.ok (BufferAnswer.word (wordOf a b c d)) = Except.ok (BufferAnswer.word _)
    rw [wordOf_bigEndian]
    rfl

/-- Every call answers as on the queue and leaves what the queue holds. -/
theorem perform_queued (call : BufferCall) (holds : buffer.Holds contents)
    (few : (performOnQueue contents call).2.length ≤ 2 ^ 29) :
    (buffer.perform call).1 = (performOnQueue contents call).1 ∧
      (buffer.perform call).2.Holds (performOnQueue contents call).2 := by
  cases call with
  | append toAppend => exact append_queued holds few
  | consumeBytes length => exact consumeBytes_queued holds length
  | consumeInt => exact consumeInt_queued holds

/-- However appends and reads follow each other, the buffer is a queue of bytes. -/
theorem buffer_is_queue {initialSize : Int} (positive : 1 ≤ initialSize) (small : initialSize ≤ 2 ^ 29)
    {calls : List BufferCall}
    (few : Throughout performOnQueue (fun contents : List UInt8 => contents.length ≤ 2 ^ 29) [] calls) :
    ∃ buffer, new initialSize = .ok buffer ∧
      (transcript perform buffer calls).1 = (transcript performOnQueue [] calls).1 ∧
      (transcript perform buffer calls).2.size = (transcript performOnQueue [] calls).2.length := by
  obtain ⟨buffer, made, empty⟩ := new_holds positive (show initialSize ≤ 2 ^ 30 by omega)
  obtain ⟨same, held⟩ := transcript_simulates (fun call => perform_queued call) empty few
  exact ⟨buffer, made, same, held.size⟩

/-- The bytes wrap around the end of the array before it grows, and two calls are refused. -/
def wrappingCalls : List BufferCall :=
  [.append [1, 2, 3], .consumeBytes 2, .append [4, 5], .append [6, 7], .consumeInt, .consumeBytes 2, .consumeBytes (-1)]

theorem wrapping_calls_queued : ∃ buffer, new 4 = .ok buffer ∧
    (transcript perform buffer wrappingCalls).1 = [.ok .done, .ok (.bytes [1, 2]), .ok .done, .ok .done,
      .ok (.word 0x03040506#32), .error tooMany, .error negative] ∧
    (transcript perform buffer wrappingCalls).2.size = 1 := by
  have few : Throughout performOnQueue (fun contents : List UInt8 => contents.length ≤ 2 ^ 29) [] wrappingCalls := by
    simp [wrappingCalls, Throughout, performOnQueue]
  obtain ⟨buffer, made, same, size⟩ := buffer_is_queue (show 1 ≤ (4 : Int) by decide) (by decide) few
  exact ⟨buffer, made, same.trans (by decide), size⟩

end CircularByteBuffer

end Scads.Comm.Nio
