import Mathlib.Algebra.Group.Nat.Defs
import Mathlib.Algebra.Order.Ring.Int

namespace Scads.Data

/-! # Floating-point numbers as bits

The bits below the sign are in the order of the absolute values.  Those above the
bits of the infinity are no numbers.
-/

variable {width : Nat} {infinity bits left right : BitVec width}

def magnitude (bits : BitVec width) : Int := (bits.toNat % 2 ^ (width - 1) : Nat)

/-- A number in the order of the values.  The two zeros are equal. -/
def byValue (bits : BitVec width) : Int := if bits.msb then -magnitude bits else magnitude bits

def isNaN (infinity bits : BitVec width) : Bool := decide (magnitude infinity < magnitude bits)

def isFinite (infinity bits : BitVec width) : Bool := decide (magnitude bits < magnitude infinity)

/-- `f1 < f2`. -/
def lessFloats (infinity left right : BitVec width) : Bool :=
  !isNaN infinity left && !isNaN infinity right && decide (byValue left < byValue right)

theorem lessFloats_iff (leftFinite : isFinite infinity left = true) (rightFinite : isFinite infinity right = true) :
    lessFloats infinity left right = true ↔ byValue left < byValue right := by
  simp only [isFinite, decide_eq_true_iff] at leftFinite rightFinite
  simp only [lessFloats, isNaN, Bool.and_eq_true, Bool.not_eq_true', decide_eq_false_iff_not, decide_eq_true_iff,
    not_lt, leftFinite.le, rightFinite.le, true_and]

/-- `f1 == f2 ? 0 : (f1 > f2 ? 1 : -1)`, where what is no number is neither equal nor greater. -/
def compareFloats (infinity left right : BitVec width) : Int :=
  if isNaN infinity left || isNaN infinity right then -1
  else if byValue left = byValue right then 0
  else if byValue right < byValue left then 1
  else -1

theorem compareFloats_self : compareFloats infinity bits bits = if isNaN infinity bits then -1 else 0 := by
  rw [compareFloats, Bool.or_self]
  split
  · rfl
  · rw [if_pos rfl]

end Scads.Data
