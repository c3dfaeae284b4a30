import Mathlib.Order.Lattice

namespace Scads.Data

/-! Comparators in the three-way integer convention.

A comparator is only used together with the linear order it agrees with, so a
client may reason with `<` and `=` while the program it models calls `compare`.
-/

/-- A three-way comparison that agrees with the linear order of its type. -/
structure Comparator (α : Type u) [LinearOrder α] where
  compare : α → α → Int
  neg_iff : ∀ {left right}, compare left right < 0 ↔ left < right
  zero_iff : ∀ {left right}, compare left right = 0 ↔ left = right

namespace Comparator

variable [LinearOrder α] (comparator : Comparator α) {left right : α}

@[simp] theorem compare_neg : comparator.compare left right < 0 ↔ left < right :=
  comparator.neg_iff

@[simp] theorem compare_zero : comparator.compare left right = 0 ↔ left = right :=
  comparator.zero_iff

@[simp] theorem compare_nonpos : comparator.compare left right ≤ 0 ↔ left ≤ right := by
  rw [Int.le_iff_lt_or_eq, comparator.neg_iff, comparator.zero_iff, le_iff_lt_or_eq]

@[simp] theorem compare_nonneg : 0 ≤ comparator.compare left right ↔ right ≤ left := by
  rw [← not_lt, comparator.neg_iff, not_lt]

@[simp] theorem compare_pos : 0 < comparator.compare left right ↔ right < left := by
  rw [← not_le, comparator.compare_nonpos, not_le]

/-- The comparison `if a == b then 0 else if a < b then -1 else 1`. -/
def threeWay (α : Type u) [LinearOrder α] : Comparator α where
  compare left right := if left = right then 0 else if left < right then -1 else 1
  neg_iff := by
    intro left right
    by_cases same : left = right
    · simp [same]
    · by_cases below : left < right <;> simp [same, below]
  zero_iff := by
    intro left right
    by_cases same : left = right
    · simp [same]
    · by_cases below : left < right <;> simp [same, below]

end Comparator

/-- The comparison orders these values as the linear order of the type does. -/
def AgreesOn [LinearOrder α] (used : α → Prop) (compare : α → α → Int) : Prop :=
  ∀ ⦃left right⦄, used left → used right →
    (compare left right < 0 ↔ left < right) ∧ (compare left right = 0 ↔ left = right)

/-- The comparison orders all values as the linear order does. -/
def Agrees [LinearOrder α] (compare : α → α → Int) : Prop :=
  AgreesOn (fun _ => True) compare

def Agrees.comparator [LinearOrder α] {compare : α → α → Int} (agrees : Agrees compare) : Comparator α where
  compare := compare
  neg_iff := (agrees trivial trivial).1
  zero_iff := (agrees trivial trivial).2

theorem Comparator.agrees [LinearOrder α] (comparator : Comparator α) : Agrees comparator.compare :=
  fun _ _ _ _ => ⟨comparator.neg_iff, comparator.zero_iff⟩

/-- On these values the comparison is a total preorder. -/
structure PreordersOn {α : Type*} (used : α → Prop) (compare : α → α → Int) : Prop where
  flips : ∀ {left right}, used left → used right → (compare left right < 0 ↔ 0 < compare right left)
  trans : ∀ {first second third}, used first → used second → used third →
    compare first second ≤ 0 → compare second third ≤ 0 → compare first third ≤ 0

section

variable {α : Type*} {used : α → Prop} {compare : α → α → Int} (preorders : PreordersOn used compare)
  {first second third : α}

include preorders

theorem PreordersOn.not_neg (here : used first) (there : used second) :
    ¬ compare first second < 0 ↔ compare second first ≤ 0 := by
  rw [preorders.flips here there, not_lt]

theorem PreordersOn.total (here : used first) (there : used second) :
    compare first second ≤ 0 ∨ compare second first ≤ 0 := by
  have turned := preorders.not_neg here there
  omega

theorem PreordersOn.refl (here : used first) : compare first first ≤ 0 := (preorders.total here here).elim id id

theorem PreordersOn.lt_of_le_of_lt (here : used first) (there : used second) (beyond : used third)
    (least : compare first second ≤ 0) (less : compare second third < 0) : compare first third < 0 := by
  by_contra back
  have turned := preorders.trans beyond here there ((preorders.not_neg here beyond).mp back) least
  exact absurd less ((preorders.not_neg there beyond).mpr turned)

theorem PreordersOn.lt_of_lt_of_le (here : used first) (there : used second) (beyond : used third)
    (less : compare first second < 0) (least : compare second third ≤ 0) : compare first third < 0 := by
  by_contra back
  have turned := preorders.trans there beyond here least ((preorders.not_neg here beyond).mp back)
  exact absurd less ((preorders.not_neg here there).mpr turned)

end

/-- Values that are compared by a key of theirs. -/
theorem PreordersOn.of_key {β : Type*} [LinearOrder β] {α : Type*} {used : α → Prop} {compare : α → α → Int}
    (key : α → β)
    (agrees : ∀ {left right}, used left → used right →
      (compare left right < 0 ↔ key left < key right) ∧ (compare left right = 0 ↔ key left = key right)) :
    PreordersOn used compare where
  flips := by
    intro left right leftUsed rightUsed
    obtain ⟨below, same⟩ := agrees leftUsed rightUsed
    obtain ⟨above, equal⟩ := agrees rightUsed leftUsed
    rw [below, ← Int.not_le, Int.le_iff_lt_or_eq, above, equal, ← le_iff_lt_or_eq, not_le]
  trans := by
    intro first second third firstUsed secondUsed thirdUsed
    have le : ∀ {left right}, used left → used right → (compare left right ≤ 0 ↔ key left ≤ key right) := by
      intro left right leftUsed rightUsed
      obtain ⟨below, same⟩ := agrees leftUsed rightUsed
      rw [Int.le_iff_lt_or_eq, below, same, le_iff_lt_or_eq]
    rw [le firstUsed secondUsed, le secondUsed thirdUsed, le firstUsed thirdUsed]
    exact le_trans

/-- A comparison that is asked where the one before it finds no difference. -/
theorem PreordersOn.next {α : Type*} {used : α → Prop} {compare other : α → α → Int}
    (first : PreordersOn used compare) (second : PreordersOn used other) :
    PreordersOn used fun left right => if compare left right ≠ 0 then compare left right else other left right where
  flips := by
    intro left right leftUsed rightUsed
    have there := first.flips leftUsed rightUsed
    have back := first.flips rightUsed leftUsed
    have rest := second.flips leftUsed rightUsed
    split_ifs <;> omega
  trans := by
    intro a b c aUsed bUsed cUsed
    have ab := first.flips aUsed bUsed
    have ba := first.flips bUsed aUsed
    have bc := first.flips bUsed cUsed
    have cb := first.flips cUsed bUsed
    have ac := first.flips aUsed cUsed
    have ca := first.flips cUsed aUsed
    have abc := first.trans aUsed bUsed cUsed
    have bca := first.trans bUsed cUsed aUsed
    have cab := first.trans cUsed aUsed bUsed
    have cba := first.trans cUsed bUsed aUsed
    have rest := second.trans aUsed bUsed cUsed
    split_ifs <;> omega

/-- On these values a comparison that may fail gives the results of one that is a total preorder. -/
structure PreordersBy {ε α : Type*} (used : α → Prop) (compare : α → α → Except ε Int) (comparison : α → α → Int) :
    Prop where
  compared : ∀ {left right}, used left → used right → compare left right = .ok (comparison left right)
  preorders : PreordersOn used comparison

end Scads.Data
