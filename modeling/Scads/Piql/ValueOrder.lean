import Mathlib.Data.List.Lex
import Mathlib.Data.Prod.Lex
import Scads.Data.Comparator
import Scads.Piql.KeyOrder

namespace Scads.Piql

open Scads.Data

/-! # The order of the values

`compareAny` compares values of one kind.  Texts of both representations are of one
kind, and stand in the order of their UTF-16 code units.
-/

theorem compareUnits_neg (left right : List Nat) : compareUnits left right < 0 ↔ left < right := by
  induction left generalizing right with
  | nil => cases right <;> simp [compareUnits]; omega
  | cons unit left ih =>
      cases right with
      | nil => simp [compareUnits]; omega
      | cons other right =>
          rw [compareUnits, List.cons_lt_cons_iff]
          split
          · rename_i same
            simp [same, ih]
          · rename_i different
            simp only [different, false_and, or_false]
            omega

theorem compareUnits_zero (left right : List Nat) : compareUnits left right = 0 ↔ left = right := by
  induction left generalizing right with
  | nil => cases right <;> simp [compareUnits]; omega
  | cons unit left ih =>
      cases right with
      | nil => simp [compareUnits]; omega
      | cons other right =>
          rw [compareUnits, List.cons.injEq]
          split
          · rename_i same
            simp [same, ih]
          · rename_i different
            simp only [different, false_and, iff_false]
            omega

/-- A surrogate is no character, so the code units of a text can be told apart. -/
theorem utf16_append_inj {first second : Char} {left right : List Nat}
    (same : utf16 first ++ left = utf16 second ++ right) : first = second ∧ left = right := by
  have valid (char : Char) : char.toNat < 0xD800 ∨ 0xDFFF < char.toNat ∧ char.toNat < 0x110000 := char.valid
  have firstValid := valid first
  have secondValid := valid second
  rw [← Char.toNat_inj]
  unfold utf16 at same
  split at same <;> split at same <;> simp only [List.cons_append, List.nil_append, List.cons.injEq] at same
  · exact same
  · omega
  · omega
  · refine ⟨?_, same.2.2⟩
    omega

theorem units_inj {left right : List Char} (same : left.flatMap utf16 = right.flatMap utf16) : left = right := by
  induction left generalizing right with
  | nil =>
      cases right with
      | nil => rfl
      | cons char right =>
          rw [List.flatMap_cons] at same
          unfold utf16 at same
          split at same <;> cases same
  | cons char left ih =>
      cases right with
      | nil =>
          rw [List.flatMap_cons] at same
          unfold utf16 at same
          split at same <;> cases same
      | cons other right =>
          rw [List.flatMap_cons, List.flatMap_cons] at same
          obtain ⟨rfl, rest⟩ := utf16_append_inj same
          rw [ih rest]

def units (text : String) : List Nat := text.toList.flatMap utf16

theorem units_injective : Function.Injective units :=
  fun _ _ same => String.toList_injective (units_inj same)

theorem compareTexts_neg (left right : String) : compareTexts left right < 0 ↔ units left < units right :=
  compareUnits_neg _ _

theorem compareTexts_zero (left right : String) : compareTexts left right = 0 ↔ left = right :=
  (compareUnits_zero _ _).trans units_injective.eq_iff

inductive Kind where
  | int
  | text
  | boolean
deriving DecidableEq

namespace Datum

/-- The kinds of values that queries compare. -/
def kind : Datum → Option Kind
  | .int _ => some .int
  | .utf8 _ | .string _ => some .text
  | .boolean _ => some .boolean
  | .seq _ | .null | .other _ => none

/-- The natural order of the values of one kind. -/
def Below : Datum → Datum → Prop
  | .int left, .int right => left.toInt < right.toInt
  | .utf8 left, .utf8 right | .utf8 left, .string right | .string left, .utf8 right | .string left, .string right =>
      units left < units right
  | .boolean left, .boolean right => left = false ∧ right = true
  | _, _ => False

/-- Where a value stands among those of its kind. -/
def place : Datum → Int ×ₗ List Nat
  | .int value => toLex (value.toInt, [])
  | .utf8 text | .string text => toLex (0, units text)
  | .boolean value => toLex (if value then 1 else 0, [])
  | .seq _ | .null | .other _ => toLex (0, [])

variable {left right : Datum} {kind : Kind}

theorem below_iff_place (leftKind : left.kind = some kind) (rightKind : right.kind = some kind) :
    left.Below right ↔ left.place < right.place := by
  cases left <;> cases leftKind <;> cases right <;> cases rightKind
  all_goals simp only [Below, place, Prod.Lex.toLex_lt_toLex]
  all_goals simp
  rename_i left right
  cases left <;> cases right <;> simp

theorem kind_of_below (below : left.Below right) : ∃ kind, left.kind = some kind ∧ right.kind = some kind := by
  cases left <;> cases right <;> first | exact ⟨_, rfl, rfl⟩ | cases below

theorem below_irrefl (datum : Datum) : ¬ datum.Below datum := by
  intro below
  obtain ⟨kind, isKind, -⟩ := kind_of_below below
  exact lt_irrefl _ ((below_iff_place isKind isKind).mp below)

theorem below_trans (first second third : Datum) (lower : first.Below second) (higher : second.Below third) :
    first.Below third := by
  obtain ⟨kind, firstKind, secondKind⟩ := kind_of_below lower
  obtain ⟨other, same, thirdKind⟩ := kind_of_below higher
  cases secondKind.symm.trans same
  rw [below_iff_place firstKind thirdKind]
  exact lt_trans ((below_iff_place firstKind secondKind).mp lower) ((below_iff_place secondKind thirdKind).mp higher)

theorem stored_eq_iff_place (leftKind : left.kind = some kind) (rightKind : right.kind = some kind) :
    left.stored = right.stored ↔ left.place = right.place := by
  cases left <;> cases leftKind <;> cases right <;> cases rightKind
  all_goals simp only [stored, place, EmbeddingLike.apply_eq_iff_eq, Prod.mk.injEq]
  all_goals simp [units_injective.eq_iff, Int32.toInt_inj]
  rename_i left right
  cases left <;> cases right <;> simp

end Datum

/-- `compareAny` tells how the values stand to each other. -/
def Tells (left right : Datum) : Prop :=
  ∃ comparison, compareAny left right = .ok comparison ∧
    (comparison < 0 ↔ left.Below right) ∧ (comparison = 0 ↔ left.stored = right.stored)

/-- On the values in use, `compareAny` is the natural order of each kind. -/
def OrdersValues (used : Datum → Prop) : Prop :=
  ∀ ⦃left right : Datum⦄ ⦃kind : Kind⦄, used left → used right →
    left.kind = some kind → right.kind = some kind → Tells left right

/-- The attribute has values in use in all the rows, and they are of one kind. -/
def Column (used : Datum → Prop) (ctx : Context) (rows : Tuple → Prop) (attr : Value) : Prop :=
  ∃ kind, ∀ row, rows row → ∃ datum,
    bindValue ctx attr (some row) = .ok datum ∧ used datum ∧ datum.kind = some kind

/-- Rows of the values in use are compared by a total preorder, whatever the attributes. -/
def OrdersTuples (used : Datum → Prop) : Prop :=
  ∀ (ctx : Context) (rows : Tuple → Prop) (attributes : List Value),
    (∀ attr ∈ attributes, Column used ctx rows attr) →
      ∃ comparison, PreordersBy rows (fun left right => compareTuples ctx left right attributes) comparison

/-- No text is a `String`, no truth value is `false`, and no two integers are too far apart. -/
structure Comparables (used : Datum → Prop) : Prop where
  utf8 : ∀ text, ¬ used (.string text)
  noFalse : ¬ used (.boolean false)
  near : ∀ left right, used (.int left) → used (.int right) → left.toInt - right.toInt < 2 ^ 31

theorem tells_int {left right : Int32} : Tells (.int left) (.int right) ↔
    -2 ^ 31 ≤ left.toInt - right.toInt ∧ left.toInt - right.toInt < 2 ^ 31 := by
  have leftLow := left.le_toInt
  have leftHigh := left.toInt_lt
  have rightLow := right.le_toInt
  have rightHigh := right.toInt_lt
  have inOrder : Datum.Below (.int left) (.int right) ↔ left.toInt < right.toInt := Iff.rfl
  have same : (Datum.int left).stored = (Datum.int right).stored ↔ left.toInt = right.toInt := by
    rw [Int32.toInt_inj]
    exact ⟨fun same => Datum.int.inj same, congrArg Datum.int⟩
  have difference := Int32.toInt_sub left right
  constructor
  · intro found
    obtain ⟨comparison, compared, below, equal⟩ := found
    cases compared
    rw [inOrder, difference] at below
    rw [Int.bmod_def] at below
    split at below <;> omega
  · intro ⟨low, high⟩
    have exactly : (left - right).toInt = left.toInt - right.toInt := by
      rw [difference, Int.bmod_eq_of_le (by omega) (by omega)]
    refine ⟨_, rfl, ?_, ?_⟩
    · rw [inOrder, exactly]
      omega
    · rw [same, exactly]
      omega

theorem tells_text {left right : Datum} {l r : String} (compared : compareAny left right = .ok (compareTexts l r))
    (below : left.Below right ↔ units l < units r) (same : left.stored = right.stored ↔ l = r) : Tells left right :=
  ⟨_, compared, (compareTexts_neg l r).trans below.symm, (compareTexts_zero l r).trans same.symm⟩

variable {used : Datum → Prop}

theorem Comparables.orders (comparables : Comparables used) : OrdersValues used := by
  intro left right kind leftUsed rightUsed leftKind rightKind
  cases left <;> cases leftKind <;> cases right <;> cases rightKind
  case int.refl.int.refl left right =>
    have there := comparables.near left right leftUsed rightUsed
    have back := comparables.near right left rightUsed leftUsed
    exact tells_int.mpr (by omega)
  case utf8.refl.utf8.refl left right => exact tells_text rfl Iff.rfl (by simp [Datum.stored])
  case boolean.refl.boolean.refl left right =>
    cases left with
    | false => exact absurd leftUsed comparables.noFalse
    | true =>
        cases right with
        | false => exact absurd rightUsed comparables.noFalse
        | true => exact ⟨0, rfl, by simp [Datum.Below], by simp⟩
  case utf8.refl.string.refl text => exact absurd rightUsed (comparables.utf8 text)
  case string.refl.utf8.refl text _ => exact absurd leftUsed (comparables.utf8 text)
  case string.refl.string.refl text _ => exact absurd leftUsed (comparables.utf8 text)

theorem OrdersValues.comparables (orders : OrdersValues used) : Comparables used where
  utf8 := by
    intro text isUsed
    obtain ⟨comparison, compared, -⟩ := orders isUsed isUsed rfl rfl
    cases compared
  noFalse := by
    intro isUsed
    obtain ⟨comparison, compared, -⟩ := orders isUsed isUsed rfl rfl
    cases compared
  near := fun left right leftUsed rightUsed => (tells_int.mp (orders leftUsed rightUsed rfl rfl)).2

/-- The result of a comparison that does not fail. -/
def resultOf (comparison : Except QueryFailure Int) : Int :=
  match comparison with
  | .ok result => result
  | .error _ => 0

theorem OrdersValues.column (orders : OrdersValues used) {ctx : Context} {rows : Tuple → Prop} {attr : Value}
    (column : Column used ctx rows attr) :
    PreordersBy rows
      (fun left right => do compareAny (← bindValue ctx attr (some left)) (← bindValue ctx attr (some right)))
      (fun left right => resultOf do
        compareAny (← bindValue ctx attr (some left)) (← bindValue ctx attr (some right))) := by
  obtain ⟨kind, reads⟩ := column
  constructor
  · intro left right leftRow rightRow
    obtain ⟨first, firstRead, firstUsed, firstKind⟩ := reads left leftRow
    obtain ⟨second, secondRead, secondUsed, secondKind⟩ := reads right rightRow
    obtain ⟨comparison, compared, -⟩ := orders firstUsed secondUsed firstKind secondKind
    have read : (do compareAny (← bindValue ctx attr (some left)) (← bindValue ctx attr (some right))) =
        .ok comparison := by
      rw [firstRead, secondRead]
      exact compared
    rw [read]
    rfl
  · refine PreordersOn.of_key (fun row =>
      match bindValue ctx attr (some row) with
      | .ok datum => datum.place
      | .error _ => toLex (0, [])) fun {left right} leftRow rightRow => ?_
    obtain ⟨first, firstRead, firstUsed, firstKind⟩ := reads left leftRow
    obtain ⟨second, secondRead, secondUsed, secondKind⟩ := reads right rightRow
    obtain ⟨comparison, compared, below, same⟩ := orders firstUsed secondUsed firstKind secondKind
    have result : (resultOf do
        compareAny (← bindValue ctx attr (some left)) (← bindValue ctx attr (some right))) = comparison := by
      rw [firstRead, secondRead]
      change resultOf (compareAny first second) = comparison
      rw [compared]
      rfl
    rw [result, firstRead, secondRead, below, same]
    exact ⟨Datum.below_iff_place firstKind secondKind, Datum.stored_eq_iff_place firstKind secondKind⟩

/-- The comparison of one attribute, and of the others where it finds no difference. -/
theorem compareTuples_cons (ctx : Context) (left right : Tuple) (attr : Value) (attributes : List Value) :
    compareTuples ctx left right (attr :: attributes) =
      ((do compareAny (← bindValue ctx attr (some left)) (← bindValue ctx attr (some right))) >>= fun comparison =>
        if comparison ≠ 0 then .ok comparison else compareTuples ctx left right attributes) := by
  rw [compareTuples]
  cases bindValue ctx attr (some left) with
  | error failure => rfl
  | ok first => cases bindValue ctx attr (some right) <;> rfl

theorem OrdersValues.tuples (orders : OrdersValues used) : OrdersTuples used := by
  intro ctx rows attributes columns
  induction attributes with
  | nil => exact ⟨fun _ _ => 0, fun _ _ => rfl, fun _ _ => by simp, fun _ _ _ _ _ => le_refl _⟩
  | cons attr attributes ih =>
      obtain ⟨comparison, compared, preorders⟩ := ih fun other member => columns other (by simp [member])
      obtain ⟨first, firstCompared, firstPreorders⟩ :
          ∃ first, PreordersBy rows
            (fun left right => do compareAny (← bindValue ctx attr (some left)) (← bindValue ctx attr (some right)))
            first := ⟨_, orders.column (columns attr (by simp))⟩
      refine ⟨_, fun {left right} leftRow rightRow => ?_, firstPreorders.next preorders⟩
      have later : compareTuples ctx left right attributes = .ok (comparison left right) := compared leftRow rightRow
      have here := firstCompared leftRow rightRow
      rw [compareTuples_cons, here]
      change (if _ then Except.ok _ else compareTuples ctx left right attributes) = _
      rw [later]
      split <;> rfl

/-- The values are compared by their natural order, and the rows by a total preorder,
exactly when the values are comparable. -/
theorem values_in_order_iff (used : Datum → Prop) : OrdersValues used ∧ OrdersTuples used ↔ Comparables used := by
  constructor
  · exact fun orders => orders.1.comparables
  · exact fun comparables => ⟨comparables.orders, comparables.orders.tuples⟩

/-- The difference of two integers wraps, and `false` is not compared with itself. -/
theorem values_out_of_order :
    compareAny (.int 2147483647) (.int (-1)) = .ok (-2147483648) ∧
      compareAny (.boolean false) (.boolean false) = .error .matchError ∧
      compareAny (.string "a") (.string "b") = .error .matchError ∧
      ¬ (OrdersValues (fun datum => datum.kind ≠ none) ∧ OrdersTuples fun datum => datum.kind ≠ none) := by
  refine ⟨by decide, rfl, rfl, fun ⟨orders, _⟩ => ?_⟩
  have far : Tells (.int 2147483647) (.int (-1)) := orders nofun nofun rfl rfl
  exact absurd (tells_int.mp far).2 (by decide)

end Scads.Piql
