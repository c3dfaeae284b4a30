import Mathlib.Data.List.Infix

namespace Scads.Data

/-! Arrays edited by block copies, as lists.

`arraycopy` moves a block of one array over a block of another.  The indices are
inside both arrays wherever it is used.
-/

def arraycopy (src : List α) (srcPos : Nat) (dest : List α) (destPos length : Nat) : List α :=
  dest.take destPos ++ (src.drop srcPos).take length ++ dest.drop (destPos + length)

/-- Copies the front of an array to the front of a new one. -/
theorem arraycopy_front (front rest : List α) (more : Nat) (unset : α) :
    arraycopy (front ++ rest) 0 (List.replicate (front.length + more) unset) 0 front.length =
      front ++ List.replicate more unset := by
  simp [arraycopy]

/-- Copies the back of an array to the part of a new one that is still unset. -/
theorem arraycopy_back (skipped block front : List α) (unset : α) :
    arraycopy (skipped ++ block) skipped.length (front ++ List.replicate block.length unset) front.length
      block.length = front ++ block := by
  simp [arraycopy]

end Scads.Data
