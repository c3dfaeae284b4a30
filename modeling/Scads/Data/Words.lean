import Mathlib.Algebra.Group.Nat.Defs
import Mathlib.Algebra.Group.Int.Defs

namespace Scads.Data

/-! Machine words.

Signed 32-bit integers are integers taken around the range.  A word that is stored
goes byte by byte, the most significant byte first.
-/

def int32 (value : Int) : Int := value.bmod (2 ^ 32)

theorem int32_of_range {value : Int} (low : -2 ^ 31 ≤ value) (high : value < 2 ^ 31) : int32 value = value := by
  rw [int32, Int.bmod_def]
  split
  · omega
  · omega

theorem int32_natCast {count : Nat} (small : count < 2 ^ 31) : int32 count = count := by
  apply int32_of_range
  · omega
  · omega

/-- The low byte. -/
def byteOf {width : Nat} (word : BitVec width) : UInt8 := ⟨word.setWidth 8⟩

def widen (width : Nat) (byte : UInt8) : BitVec width := byte.toBitVec.setWidth width

theorem getLsbD_lane {width : Nat} (word : BitVec width) {shift bit : Nat} (below : bit < width) :
    (widen width (byteOf (word >>> shift)) <<< shift).getLsbD bit =
      (decide (shift ≤ bit ∧ bit < shift + 8) && word.getLsbD bit) := by
  simp only [widen, byteOf, BitVec.getLsbD_shiftLeft, BitVec.getLsbD_setWidth, BitVec.getLsbD_ushiftRight]
  by_cases inside : shift ≤ bit ∧ bit < shift + 8
  · have back : shift + (bit - shift) = bit := by omega
    have first : bit - shift < width := by omega
    have second : bit - shift < 8 := by omega
    have third : ¬ bit < shift := by omega
    simp [inside, back, first, second, third, below]
  · have outside : bit < shift ∨ ¬ bit - shift < 8 := by omega
    cases outside with
    | inl before => simp [inside, before]
    | inr after => simp [inside, after]

theorem getLsbD_low {width : Nat} (word : BitVec width) {bit : Nat} (below : bit < width) :
    (widen width (byteOf word)).getLsbD bit = (decide (bit < 8) && word.getLsbD bit) := by
  have lane := @getLsbD_lane width word 0 bit below
  simpa using lane

def wordBytes (word : BitVec 32) : List UInt8 :=
  [byteOf (word >>> 24), byteOf (word >>> 16), byteOf (word >>> 8), byteOf word]

def wordOf (a b c d : UInt8) : BitVec 32 :=
  widen 32 a <<< 24 ||| widen 32 b <<< 16 ||| widen 32 c <<< 8 ||| widen 32 d

@[simp] theorem length_wordBytes (word : BitVec 32) : (wordBytes word).length = 4 := rfl

theorem wordOf_wordBytes (word : BitVec 32) :
    wordOf (byteOf (word >>> 24)) (byteOf (word >>> 16)) (byteOf (word >>> 8)) (byteOf word) = word := by
  apply BitVec.eq_of_getLsbD_eq
  intro bit below
  simp only [wordOf, BitVec.getLsbD_or, getLsbD_lane word below, getLsbD_low word below]
  cases word.getLsbD bit with
  | false => simp
  | true =>
      simp only [Bool.and_true, ← Bool.decide_or, decide_eq_true_eq]
      omega

theorem toInt_ofNat_word {count : Nat} (small : count < 2 ^ 31) : (BitVec.ofNat 32 count).toInt = count := by
  rw [BitVec.toInt_ofNat', Int.bmod_def]
  split
  · omega
  · omega

def longBytes (word : BitVec 64) : List UInt8 :=
  [byteOf (word >>> 56), byteOf (word >>> 48), byteOf (word >>> 40), byteOf (word >>> 32),
    byteOf (word >>> 24), byteOf (word >>> 16), byteOf (word >>> 8), byteOf word]

def longOf (a b c d e f g h : UInt8) : BitVec 64 :=
  widen 64 a <<< 56 ||| widen 64 b <<< 48 ||| widen 64 c <<< 40 ||| widen 64 d <<< 32 |||
    widen 64 e <<< 24 ||| widen 64 f <<< 16 ||| widen 64 g <<< 8 ||| widen 64 h

@[simp] theorem length_longBytes (word : BitVec 64) : (longBytes word).length = 8 := rfl

theorem longOf_longBytes (word : BitVec 64) :
    longOf (byteOf (word >>> 56)) (byteOf (word >>> 48)) (byteOf (word >>> 40)) (byteOf (word >>> 32))
      (byteOf (word >>> 24)) (byteOf (word >>> 16)) (byteOf (word >>> 8)) (byteOf word) = word := by
  apply BitVec.eq_of_getLsbD_eq
  intro bit below
  simp only [longOf, BitVec.getLsbD_or, getLsbD_lane word below, getLsbD_low word below]
  cases word.getLsbD bit with
  | false => simp
  | true =>
      simp only [Bool.and_true, ← Bool.decide_or, decide_eq_true_eq]
      omega

/-- A byte as a lane of a word. -/
def laneBit (byte : UInt8) (shift bit : Nat) : Bool := decide (shift ≤ bit) && byte.toBitVec.getLsbD (bit - shift)

theorem getLsbD_widen_shift (byte : UInt8) {width shift bit : Nat} (below : bit < width) :
    (widen width byte <<< shift).getLsbD bit = laneBit byte shift bit := by
  have inside : bit - shift < width := by omega
  simp only [laneBit, widen, BitVec.getLsbD_shiftLeft, BitVec.getLsbD_setWidth, below, inside, decide_true,
    Bool.true_and]
  by_cases after : shift ≤ bit
  · simp [after]
  · simp [after, show bit < shift by omega]

theorem getLsbD_widen (byte : UInt8) {width bit : Nat} (below : bit < width) :
    (widen width byte).getLsbD bit = laneBit byte 0 bit := by
  have shifted := @getLsbD_widen_shift byte width 0 bit below
  simpa using shifted

theorem laneBit_same (byte : UInt8) (shift bit : Nat) :
    laneBit byte shift (shift + bit) = byte.toBitVec.getLsbD bit := by
  simp [laneBit]

theorem laneBit_other (byte : UInt8) {shift other bit : Nat} (below : bit < 8)
    (apart : other + 8 ≤ shift ∨ shift + 8 ≤ other) : laneBit byte other (shift + bit) = false := by
  rw [laneBit]
  cases apart with
  | inl before => rw [BitVec.getLsbD_of_ge _ _ (by omega), Bool.and_false]
  | inr after =>
      have not : ¬ other ≤ shift + bit := by omega
      simp [not]

theorem byteOf_lane {width : Nat} {word : BitVec width} {byte : UInt8} (shift : Nat)
    (bits : ∀ bit, bit < 8 → word.getLsbD (shift + bit) = byte.toBitVec.getLsbD bit) :
      byteOf (word >>> shift) = byte := by
  apply UInt8.eq_of_toBitVec_eq
  apply BitVec.eq_of_getLsbD_eq
  intro bit below
  rw [byteOf, BitVec.getLsbD_setWidth, BitVec.getLsbD_ushiftRight, bits bit below]
  simp [below]

theorem byteOf_low {width : Nat} {word : BitVec width} {byte : UInt8}
    (bits : ∀ bit, bit < 8 → word.getLsbD (0 + bit) = byte.toBitVec.getLsbD bit) : byteOf word = byte := by
  have lane := byteOf_lane 0 bits
  simpa using lane

theorem wordBytes_wordOf (a b c d : UInt8) : wordBytes (wordOf a b c d) = [a, b, c, d] := by
  have lanes : ∀ bit, bit < 32 → (wordOf a b c d).getLsbD bit =
      (laneBit a 24 bit || laneBit b 16 bit || laneBit c 8 bit || laneBit d 0 bit) := by
    intro bit below
    simp only [wordOf, BitVec.getLsbD_or, getLsbD_widen_shift _ below, getLsbD_widen _ below]
  simp only [wordBytes, List.cons.injEq, and_true]
  refine ⟨byteOf_lane 24 ?_, byteOf_lane 16 ?_, byteOf_lane 8 ?_, byteOf_low ?_⟩
  all_goals
    intro bit below
    rw [lanes _ (by omega)]
    simp (disch := omega) only [laneBit_other, laneBit_same, Bool.or_false, Bool.false_or]

theorem longBytes_longOf (a b c d e f g h : UInt8) :
    longBytes (longOf a b c d e f g h) = [a, b, c, d, e, f, g, h] := by
  have lanes : ∀ bit, bit < 64 → (longOf a b c d e f g h).getLsbD bit =
      (laneBit a 56 bit || laneBit b 48 bit || laneBit c 40 bit || laneBit d 32 bit || laneBit e 24 bit ||
        laneBit f 16 bit || laneBit g 8 bit || laneBit h 0 bit) := by
    intro bit below
    simp only [longOf, BitVec.getLsbD_or, getLsbD_widen_shift _ below, getLsbD_widen _ below]
  simp only [longBytes, List.cons.injEq, and_true]
  refine ⟨byteOf_lane 56 ?_, byteOf_lane 48 ?_, byteOf_lane 40 ?_, byteOf_lane 32 ?_, byteOf_lane 24 ?_,
    byteOf_lane 16 ?_, byteOf_lane 8 ?_, byteOf_low ?_⟩
  all_goals
    intro bit below
    rw [lanes _ (by omega)]
    simp (disch := omega) only [laneBit_other, laneBit_same, Bool.or_false, Bool.false_or]

end Scads.Data
