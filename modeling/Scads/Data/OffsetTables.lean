import Mathlib.Data.List.Infix
import Scads.Data.Words

namespace Scads.Data

/-! Items of different lengths behind a table of their offsets.

The table has a word for every item, the place where the item starts.  An item ends
where the next one starts, and the last one ends with the bytes.
-/

section

variable {α : Type} {body : α → Nat → List UInt8}

/-- The items one after the other, from `start` on. -/
def bodies (body : α → Nat → List UInt8) : List α → Nat → List UInt8
  | [], _ => []
  | item :: rest, start => body item start ++ bodies body rest (start + (body item start).length)

/-- Where the items start. -/
def starts (body : α → Nat → List UInt8) : List α → Nat → List Nat
  | [], _ => []
  | item :: rest, start => start :: starts body rest (start + (body item start).length)

theorem bodies_map {β : Type} (of : β → α) (items : List β) (start : Nat) :
    bodies body (items.map of) start = bodies (fun item => body (of item)) items start := by
  induction items generalizing start with
  | nil => rfl
  | cons item rest ih => simp [bodies, ih]

theorem starts_map {β : Type} (of : β → α) (items : List β) (start : Nat) :
    starts body (items.map of) start = starts (fun item => body (of item)) items start := by
  induction items generalizing start with
  | nil => rfl
  | cons item rest ih => simp [starts, ih]

def offsetTable (offsets : List Nat) : List UInt8 := offsets.flatMap fun offset => wordBytes (BitVec.ofNat 32 offset)

@[simp] theorem length_offsetTable (offsets : List Nat) : (offsetTable offsets).length = 4 * offsets.length := by
  induction offsets with
  | nil => rfl
  | cons offset rest ih =>
      simp only [offsetTable, List.flatMap_cons, List.length_append, length_wordBytes, List.length_cons] at ih ⊢
      omega

@[simp] theorem length_starts (items : List α) (start : Nat) : (starts body items start).length = items.length := by
  induction items generalizing start with
  | nil => rfl
  | cons item rest ih => simp [starts, ih]

/-- The place where an item of the table starts, with the item there. -/
theorem starts_getElem? {items : List α} {start position : Nat} {item : α} (found : items[position]? = some item) :
    ∃ before after, (starts body items start)[position]? = some (start + before.length) ∧
      bodies body items start = before ++ body item (start + before.length) ++ after ∧
      ((starts body items start)[position + 1]?).getD (start + (bodies body items start).length) =
        start + before.length + (body item (start + before.length)).length := by
  induction items generalizing start position with
  | nil => simp at found
  | cons first rest ih =>
      cases position with
      | zero =>
          simp only [List.getElem?_cons_zero, Option.some.injEq] at found
          subst found
          refine ⟨[], bodies body rest (start + (body first start).length), by simp [starts], by simp [bodies], ?_⟩
          cases rest with
          | nil => simp [starts, bodies]
          | cons second others => simp [starts]
      | succ position =>
          rw [List.getElem?_cons_succ] at found
          obtain ⟨before, after, place, split, ending⟩ := @ih (start + (body first start).length) position found
          refine ⟨body first start ++ before, after, ?_, ?_, ?_⟩
          · simp only [starts, List.getElem?_cons_succ, place, List.length_append, Nat.add_assoc]
          · simp only [bodies, split, List.append_assoc, List.length_append, Nat.add_assoc]
          · simp only [starts, List.getElem?_cons_succ, bodies, List.length_append] at ending ⊢
            rw [← Nat.add_assoc start, ← Nat.add_assoc start]
            exact ending

/-- A word of the table. -/
theorem offsetTable_split {offsets : List Nat} {position offset : Nat} (found : offsets[position]? = some offset) :
    ∃ after, offsetTable offsets =
      offsetTable (offsets.take position) ++ wordBytes (BitVec.ofNat 32 offset) ++ after := by
  obtain ⟨inside, same⟩ := List.getElem?_eq_some_iff.mp found
  have split := (List.take_append_drop position offsets).symm
  rw [List.drop_eq_getElem_cons inside, same] at split
  refine ⟨offsetTable (offsets.drop (position + 1)), ?_⟩
  have mapped := congrArg offsetTable split
  simp only [offsetTable, List.flatMap_append, List.flatMap_cons, List.append_assoc] at mapped ⊢
  exact mapped

end

end Scads.Data
