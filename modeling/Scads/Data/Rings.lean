import Scads.Data.ArrayCopy

namespace Scads.Data

/-! Rings of cells.

A queue is held in an array from `head` on, around the end of the array to its
front.  It is read and written by at most two block copies.
-/

section

variable {α : Type} {cells : List α} {head count : Nat}

/-- The elements, the oldest first. -/
def held (cells : List α) (head count : Nat) : List α :=
  (cells.drop head ++ cells.take head).take count

theorem length_held (inside : head ≤ cells.length) (fits : count ≤ cells.length) :
    (held cells head count).length = count := by
  simp only [held, List.length_take, List.length_append, List.length_drop]
  omega

theorem getElem?_held {position : Nat} (inside : head ≤ cells.length) (fits : count ≤ cells.length)
    (before : position < count) :
    (held cells head count)[position]? =
      if head + position < cells.length then cells[head + position]? else cells[head + position - cells.length]? := by
  rw [held, List.getElem?_take_of_lt before, List.getElem?_append]
  simp only [List.length_drop]
  split
  · rw [if_pos (by omega), List.getElem?_drop]
  · rw [if_neg (by omega), List.getElem?_take_of_lt (by omega)]
    congr 1
    omega

theorem getElem?_arraycopy {src dest : List α} {srcPos destPos length : Nat} (position : Nat)
    (source : srcPos + length ≤ src.length) (target : destPos + length ≤ dest.length) :
    (arraycopy src srcPos dest destPos length)[position]? =
      if destPos ≤ position ∧ position < destPos + length then src[srcPos + (position - destPos)]?
      else dest[position]? := by
  rw [arraycopy, List.append_assoc, List.getElem?_append]
  simp only [List.length_take]
  by_cases front : position < destPos
  · rw [if_pos (by omega), if_neg (by omega), List.getElem?_take_of_lt front]
  · rw [if_neg (by omega), List.getElem?_append]
    simp only [List.length_take, List.length_drop]
    by_cases block : position < destPos + length
    · rw [if_pos (by omega), if_pos (by omega), List.getElem?_take_of_lt (by omega), List.getElem?_drop]
      congr 1
      omega
    · rw [if_neg (by omega), if_neg (by omega), List.getElem?_drop]
      congr 1
      omega

theorem length_arraycopy {src dest : List α} {srcPos destPos length : Nat}
    (source : srcPos + length ≤ src.length) (target : destPos + length ≤ dest.length) :
    (arraycopy src srcPos dest destPos length).length = dest.length := by
  simp only [arraycopy, List.length_append, List.length_take, List.length_drop]
  omega

/-- What is read in one block. -/
theorem take_held_straight {length : Nat} (short : length ≤ count)
    (straight : head + length ≤ cells.length) :
    (held cells head count).take length = (cells.drop head).take length := by
  rw [held, List.take_take, Nat.min_eq_left short, List.take_append_of_le_length]
  simp only [List.length_drop]
  omega

/-- What is read in two blocks, to the end of the array and from its front. -/
theorem take_held_wrapped {length : Nat} (inside : head ≤ cells.length) (short : length ≤ count)
    (fits : count ≤ cells.length) (wrapped : cells.length ≤ head + length) :
    (held cells head count).take length =
      cells.drop head ++ cells.take (length - (cells.length - head)) := by
  rw [held, List.take_take, Nat.min_eq_left short, List.take_append, List.take_of_length_le, List.take_take]
  · simp only [List.length_drop]
    congr 2
    omega
  · simp only [List.length_drop]
    omega

/-- Copying to the front of an array in one block. -/
theorem arraycopy_held_straight {length : Nat} (dest : List α) (short : length ≤ count)
    (straight : head + length ≤ cells.length) :
    arraycopy cells head dest 0 length = (held cells head count).take length ++ dest.drop length := by
  rw [take_held_straight short straight, arraycopy]
  simp

/-- Copying to the front of an array in two blocks. -/
theorem arraycopy_held_wrapped {length : Nat} (dest : List α) (inside : head ≤ cells.length)
    (short : length ≤ count) (fits : count ≤ cells.length) (wrapped : cells.length ≤ head + length) :
    arraycopy cells 0 (arraycopy cells head dest 0 (cells.length - head)) (cells.length - head)
      (length - (cells.length - head)) = (held cells head count).take length ++ dest.drop length := by
  have first : arraycopy cells head dest 0 (cells.length - head) =
      cells.drop head ++ dest.drop (cells.length - head) := by
    have all : (cells.drop head).take (cells.length - head) = cells.drop head :=
      List.take_of_length_le (by simp)
    simp [arraycopy, all]
  have whole : length = cells.length - head + (length - (cells.length - head)) := by omega
  rw [take_held_wrapped inside short fits wrapped, first, arraycopy, List.take_left' (by simp),
    ← List.drop_drop, List.drop_left' (by simp), List.drop_drop, ← whole, List.drop_zero]

/-- Moving the head drops the oldest elements. -/
theorem held_advance {length : Nat} (inside : head < cells.length) (short : length ≤ count)
    (fits : count ≤ cells.length) :
    held cells ((head + length) % cells.length) (count - length) = (held cells head count).drop length := by
  have around : (head + length) % cells.length =
      if head + length < cells.length then head + length else head + length - cells.length := by
    split
    · exact Nat.mod_eq_of_lt (by omega)
    · rw [Nat.mod_eq_sub_mod (by omega), Nat.mod_eq_of_lt (by omega)]
  have next : (head + length) % cells.length < cells.length := Nat.mod_lt _ (by omega)
  apply List.ext_getElem?
  intro position
  rw [List.getElem?_drop]
  by_cases before : position < count - length
  · rw [getElem?_held (by omega) (by omega) before, getElem?_held (by omega) fits (by omega), around]
    split
    · split
      · rw [if_pos (by omega), Nat.add_assoc]
      · rw [if_neg (by omega), Nat.add_assoc]
    · rw [if_pos (by omega), if_neg (by omega)]
      congr 1
      omega
  · rw [List.getElem?_eq_none, List.getElem?_eq_none]
    · rw [length_held (by omega) (by omega)]
      omega
    · rw [length_held (by omega) (by omega)]
      omega

/-- Writing after the newest element, to the end of the array and then from its
front, adds elements. -/
theorem held_write {more : List α} (inside : head < cells.length)
    (fits : count + more.length ≤ cells.length) {tail first : Nat}
    (isTail : tail = (head + count) % cells.length) (isFirst : first = min more.length (cells.length - tail)) :
    held (arraycopy more first (arraycopy more 0 cells tail first) 0 (more.length - first)) head
      (count + more.length) = held cells head count ++ more := by
  have around : tail = if head + count < cells.length then head + count else head + count - cells.length := by
    rw [isTail]
    split
    · exact Nat.mod_eq_of_lt (by omega)
    · rw [Nat.mod_eq_sub_mod (by omega), Nat.mod_eq_of_lt (by omega)]
  have below : tail < cells.length := by
    rw [isTail]
    exact Nat.mod_lt _ (by omega)
  have firstLength : (arraycopy more 0 cells tail first).length = cells.length :=
    length_arraycopy (by omega) (by omega)
  have whole : (arraycopy more first (arraycopy more 0 cells tail first) 0 (more.length - first)).length =
      cells.length := by
    rw [length_arraycopy (by omega) (by omega), firstLength]
  have size := length_held (Nat.le_of_lt inside) (show count ≤ cells.length by omega)
  apply List.ext_getElem?
  intro position
  by_cases before : position < count + more.length
  · rw [getElem?_held (by omega) (by omega) before, whole, List.getElem?_append, size]
    rw [getElem?_arraycopy _ (by omega) (by omega), getElem?_arraycopy _ (by omega) (by omega)]
    rw [getElem?_arraycopy _ (by omega) (by omega), getElem?_arraycopy _ (by omega) (by omega)]
    by_cases old : position < count
    · rw [if_pos old, getElem?_held (by omega) (by omega) old]
      split at around
      · split
        · rw [if_neg (by omega), if_neg (by omega)]
        · rw [if_neg (by omega), if_neg (by omega)]
      · split
        · rw [if_neg (by omega), if_neg (by omega)]
        · rw [if_neg (by omega), if_neg (by omega)]
    · rw [if_neg old]
      split at around
      · split
        · rw [if_neg (by omega), if_pos (by omega)]
          congr 1
          omega
        · rw [if_pos (by omega)]
          congr 1
          omega
      · rw [if_neg (by omega), if_neg (by omega), if_pos (by omega)]
        congr 1
        omega
  · rw [List.getElem?_eq_none, List.getElem?_eq_none]
    · rw [List.length_append, size]
      omega
    · rw [length_held (by omega) (by omega)]
      omega

/-- A queue that starts at the front of the array is its front. -/
theorem held_zero : held cells 0 count = cells.take count := by
  simp [held]

end

end Scads.Data
