import Mathlib.Data.List.Basic

namespace Scads.Avro

/-! # Comparing schemas

Schemas refer to each other, and a record schema may refer to itself.  What a schema
has is a `Node` over the schemas that it refers to.
-/

inductive SchemaType where
  | record | enum | array | map | union | fixed | string | bytes | int | long | float | double | boolean | null
deriving DecidableEq, Repr

structure Field (V : Type) where
  name : String
  schema : V
deriving DecidableEq, Repr

/-- The types without further parts. -/
inductive Primitive where
  | string | bytes | int | long | float | double | boolean | null
deriving DecidableEq, Repr

inductive Node (V : Type) where
  | record (name : String) (fields : List (Field V))
  | enum (name : String) (enumSymbols : List String)
  | array (elementType : V)
  | map (valueType : V)
  | union (types : List V)
  | fixed (name : String) (fixedSize : Int)
  | primitive (type : Primitive)
deriving DecidableEq, Repr

def Primitive.getType : Primitive → SchemaType
  | .string => .string
  | .bytes => .bytes
  | .int => .int
  | .long => .long
  | .float => .float
  | .double => .double
  | .boolean => .boolean
  | .null => .null

theorem Primitive.getType_ne {primitive : Primitive} {type : SchemaType}
    (parts : type ∈ [SchemaType.record, .enum, .array, .map, .union, .fixed]) : primitive.getType ≠ type := by
  intro same
  rw [← same] at parts
  cases primitive <;> exact absurd parts (by decide)

def Node.getType {V : Type} : Node V → SchemaType
  | .record .. => .record
  | .enum .. => .enum
  | .array _ => .array
  | .map _ => .map
  | .union _ => .union
  | .fixed .. => .fixed
  | .primitive type => type.getType

namespace SchemaCompare

variable {V : Type}

/-- `foreach` with a `return false` for the first pair that is not equal. -/
def foreachEqual (typesEqual : V → V → Option Bool) : List (V × V) → Option Bool
  | [] => some true
  | (first, second) :: rest => do
      if ← typesEqual first second then foreachEqual typesEqual rest else return false

/-- The comparison with so many calls of itself inside each other; `none` where they do not suffice. -/
def typesEqual (schemas : V → Node V) : Nat → V → V → Option Bool
  | 0, _, _ => none
  | depth + 1, s1, s2 =>
      if (schemas s1).getType ≠ (schemas s2).getType then some false
      else
        match schemas s1, schemas s2 with
        | .record _ f1, .record _ f2 =>
            if f1.length ≠ f2.length then some false
            else
              foreachEqual (typesEqual schemas depth)
                ((f1.zip f2).map fun fields => (fields.1.schema, fields.2.schema))
        | .union types1, .union types2 => foreachEqual (typesEqual schemas depth) (types1.zip types2)
        | .enum _ symbols1, .enum _ symbols2 =>
            some ((symbols1.zip symbols2).all fun symbols => symbols.1 = symbols.2)
        | .array elementType1, .array elementType2 => typesEqual schemas depth elementType1 elementType2
        | .map valueType1, .map valueType2 => typesEqual schemas depth valueType1 valueType2
        | .fixed _ size1, .fixed _ size2 => some (size1 = size2)
        | _, _ => some true

/-- A comparison ends with this result. -/
def Compares (schemas : V → Node V) (s1 s2 : V) (result : Bool) : Prop :=
  ∃ depth, typesEqual schemas depth s1 s2 = some result

/-- The schemas that a schema refers to, in their order. -/
def children : Node V → List V
  | .record _ fields => fields.map Field.schema
  | .array elementType => [elementType]
  | .map valueType => [valueType]
  | .union types => types
  | .enum .. | .fixed .. | .primitive _ => []

/-- What is compared of two schemas before the schemas that they refer to. -/
def alike : Node V → Node V → Bool
  | .record _ f1, .record _ f2 => f1.length = f2.length
  | .enum _ symbols1, .enum _ symbols2 => (symbols1.zip symbols2).all fun symbols => symbols.1 = symbols.2
  | .fixed _ size1, .fixed _ size2 => size1 = size2
  | node1, node2 => node1.getType = node2.getType

/-- The pairs of schemas that are compared for two schemas. -/
def opposite (schemas : V → Node V) (s1 s2 : V) : List (V × V) := (children (schemas s1)).zip (children (schemas s2))

theorem foreachEqual_single (compare : V → V → Option Bool) (first second : V) :
    foreachEqual compare [(first, second)] = compare first second := by
  rw [foreachEqual]
  cases compare first second with
  | none => rfl
  | some equal => cases equal <;> rfl

theorem getType_of_alike {node1 node2 : Node V} (equal : alike node1 node2 = true) :
    node1.getType = node2.getType := by
  cases node1 <;> cases node2
  case record.record | enum.enum | fixed.fixed => rfl
  all_goals exact of_decide_eq_true equal

theorem typesEqual_succ (schemas : V → Node V) (depth : Nat) (s1 s2 : V) :
    typesEqual schemas (depth + 1) s1 s2 =
      if alike (schemas s1) (schemas s2) then
        foreachEqual (typesEqual schemas depth) (opposite schemas s1 s2)
      else some false := by
  rw [typesEqual, opposite]
  by_cases type : (schemas s1).getType = (schemas s2).getType
  · rw [if_neg (not_not.mpr type)]
    revert type
    cases schemas s1 <;> cases schemas s2 <;> intro type
    case record.record name1 f1 name2 f2 =>
      simp only [alike, decide_eq_true_eq, children, List.zip_map, ite_not]
      rfl
    case array.array first second | map.map first second =>
      exact (foreachEqual_single _ first second).symm
    case union.union => rfl
    case enum.enum name1 symbols1 name2 symbols2 =>
      simp only [alike, children, List.zip_nil_left, foreachEqual]
      cases (symbols1.zip symbols2).all fun symbols => decide (symbols.1 = symbols.2) <;> rfl
    case fixed.fixed name1 size1 name2 size2 =>
      simp only [alike, children, List.zip_nil_left, foreachEqual]
      cases decide (size1 = size2) <;> rfl
    case primitive.primitive type1 type2 => exact (if_pos (decide_eq_true type)).symm
    -- nodes of two kinds, whose types are not the same
    all_goals
      first
      | cases type
      | exact (Primitive.getType_ne (by simp [Node.getType]) type).elim
      | exact (Primitive.getType_ne (by simp [Node.getType]) type.symm).elim
  · rw [if_pos type, if_neg fun equal => type (getType_of_alike equal)]

section

variable {schemas : V → Node V} {compare deeper : V → V → Option Bool} {pairs : List (V × V)} {depth : Nat} {s1 s2 : V}
  {result : Bool}

/-- What ends with fewer calls ends with more of them. -/
theorem foreachEqual_mono (more : ∀ first second equal, compare first second = some equal →
      deeper first second = some equal) (ended : foreachEqual compare pairs = some result) :
    foreachEqual deeper pairs = some result := by
  induction pairs with
  | nil => exact ended
  | cons pair rest ih =>
      obtain ⟨first, second⟩ := pair
      obtain ⟨equal, compared, ended⟩ := Option.bind_eq_some_iff.mp ended
      rw [foreachEqual, more first second equal compared]
      cases equal with
      | false => exact ended
      | true => exact ih ended

theorem typesEqual_mono (ended : typesEqual schemas depth s1 s2 = some result) {more : Nat} (enough : depth ≤ more) :
    typesEqual schemas more s1 s2 = some result := by
  induction depth generalizing s1 s2 result more with
  | zero => cases ended
  | succ depth ih =>
      cases more with
      | zero => omega
      | succ more =>
          rw [typesEqual_succ] at ended ⊢
          split at ended
          · rename_i equal
            rw [if_pos equal]
            exact foreachEqual_mono (fun _ _ _ compared => ih compared (Nat.le_of_succ_le_succ enough)) ended
          · rename_i differs
            rw [if_neg differs]
            exact ended

theorem Compares.unique {other : Bool} (first : Compares schemas s1 s2 result) (second : Compares schemas s1 s2 other) :
    result = other := by
  obtain ⟨depth, ended⟩ := first
  obtain ⟨more, endedAgain⟩ := second
  have here := typesEqual_mono ended (Nat.le_max_left depth more)
  have there := typesEqual_mono endedAgain (Nat.le_max_right depth more)
  exact Option.some.inj (here.symm.trans there)

/-- Every pair compares equal. -/
theorem foreachEqual_true_iff :
    foreachEqual compare pairs = some true ↔ ∀ pair ∈ pairs, compare pair.1 pair.2 = some true := by
  induction pairs with
  | nil => exact ⟨fun _ => List.forall_mem_nil _, fun _ => rfl⟩
  | cons pair rest ih =>
      obtain ⟨first, second⟩ := pair
      rw [List.forall_mem_cons, ← ih, foreachEqual]
      cases compare first second with
      | none =>
          constructor
          · intro ended
            cases ended
          · intro both
            cases both.1
      | some equal =>
          cases equal with
          | false =>
              constructor
              · intro ended
                cases ended
              · intro both
                cases both.1
          | true => exact ⟨fun ended => ⟨rfl, ended⟩, fun both => both.2⟩

/-- The schemas agree in all that is compared of them. -/
inductive Agrees (schemas : V → Node V) : V → V → Prop where
  | intro {s1 s2 : V} (equal : alike (schemas s1) (schemas s2) = true)
      (below : ∀ pair ∈ opposite schemas s1 s2, Agrees schemas pair.1 pair.2) : Agrees schemas s1 s2

theorem exists_depth (pairs : List (V × V)) (ends : ∀ pair ∈ pairs, Compares schemas pair.1 pair.2 true) :
    ∃ depth, ∀ pair ∈ pairs, typesEqual schemas depth pair.1 pair.2 = some true := by
  induction pairs with
  | nil => exact ⟨0, List.forall_mem_nil _⟩
  | cons pair rest ih =>
      obtain ⟨here, later⟩ := List.forall_mem_cons.mp ends
      obtain ⟨depth, ended⟩ := here
      obtain ⟨more, all⟩ := ih later
      refine ⟨max depth more, List.forall_mem_cons.mpr ⟨typesEqual_mono ended (Nat.le_max_left ..), ?_⟩⟩
      exact fun pair member => typesEqual_mono (all pair member) (Nat.le_max_right ..)

theorem compares_true_iff : Compares schemas s1 s2 true ↔ Agrees schemas s1 s2 := by
  constructor
  · intro compares
    obtain ⟨depth, ended⟩ := compares
    induction depth generalizing s1 s2 with
    | zero => cases ended
    | succ depth ih =>
        rw [typesEqual_succ] at ended
        split at ended
        · rename_i equal
          exact ⟨equal, fun pair member => ih (foreachEqual_true_iff.mp ended pair member)⟩
        · cases ended
  · intro agrees
    induction agrees with
    | intro equal below ih =>
        obtain ⟨depth, ended⟩ := exists_depth _ ih
        refine ⟨depth + 1, ?_⟩
        rw [typesEqual_succ, if_pos equal]
        exact foreachEqual_true_iff.mpr ended

/-- The comparison of the first pair comes to compare the second one: all pairs before it agree. -/
def Opens (schemas : V → Node V) (above below : V × V) : Prop :=
  alike (schemas above.1) (schemas above.2) = true ∧
    ∃ before after, opposite schemas above.1 above.2 = before ++ below :: after ∧
      ∀ pair ∈ before, Agrees schemas pair.1 pair.2

theorem opens_of_ended (ended : typesEqual schemas (depth + 1) s1 s2 = some result) {below : V × V}
    (opens : Opens schemas (s1, s2) below) : ∃ result, typesEqual schemas depth below.1 below.2 = some result := by
  obtain ⟨equal, before, after, same, agree⟩ := opens
  rw [typesEqual_succ, if_pos equal, same] at ended
  clear same
  induction before with
  | nil =>
      obtain ⟨equal, compared, -⟩ := Option.bind_eq_some_iff.mp ended
      exact ⟨equal, compared⟩
  | cons pair before ih =>
      obtain ⟨here, later⟩ := List.forall_mem_cons.mp agree
      obtain ⟨equal, compared, ended⟩ := Option.bind_eq_some_iff.mp ended
      have agreed := Compares.unique ⟨depth, compared⟩ (compares_true_iff.mpr here)
      rw [agreed] at ended
      exact ih ended later

/-- Pairs of which each ends where it is compared end together. -/
theorem foreachEqual_ends {before after : List (V × V)} (agree : ∀ pair ∈ before, Agrees schemas pair.1 pair.2)
    (ends : ∀ early pair late, before ++ after = early ++ pair :: late →
      (∀ other ∈ early, Agrees schemas other.1 other.2) → ∃ result, Compares schemas pair.1 pair.2 result) :
    ∃ depth result, foreachEqual (typesEqual schemas depth) after = some result := by
  induction after generalizing before with
  | nil => exact ⟨0, true, rfl⟩
  | cons pair after ih =>
      obtain ⟨equal, depth, compared⟩ := ends before pair after rfl agree
      cases equal with
      | false =>
          refine ⟨depth, false, ?_⟩
          rw [foreachEqual, compared]
          rfl
      | true =>
          have agreeing : ∀ other ∈ before ++ [pair], Agrees schemas other.1 other.2 :=
            List.forall_mem_append.mpr ⟨agree, List.forall_mem_singleton.mpr (compares_true_iff.mp ⟨depth, compared⟩)⟩
          obtain ⟨more, result, ended⟩ := ih agreeing fun early other late same =>
            ends early other late (by rw [← same, List.append_assoc]; rfl)
          refine ⟨max depth more, result, ?_⟩
          rw [foreachEqual, typesEqual_mono compared (Nat.le_max_left ..)]
          exact foreachEqual_mono (fun _ _ _ here => typesEqual_mono here (Nat.le_max_right ..)) ended

/-- A comparison ends if there is no endless chain of comparisons inside each other. -/
theorem ends_iff : (∃ result, Compares schemas s1 s2 result) ↔
    Acc (fun below above => Opens schemas above below) (s1, s2) := by
  constructor
  · intro ends
    obtain ⟨result, depth, ended⟩ := ends
    induction depth generalizing s1 s2 result with
    | zero => cases ended
    | succ depth ih =>
        refine ⟨_, fun below opens => ?_⟩
        obtain ⟨result, ended⟩ := opens_of_ended ended opens
        exact ih result ended
  · intro ends
    generalize both : (s1, s2) = pair at ends
    induction ends generalizing s1 s2 with
    | intro pair _ ih =>
        subst both
        by_cases equal : alike (schemas s1) (schemas s2) = true
        · obtain ⟨depth, result, ended⟩ :=
            @foreachEqual_ends _ schemas [] (opposite schemas s1 s2) (List.forall_mem_nil _)
              fun early below late same agree => ih below ⟨equal, early, late, same, agree⟩ rfl
          refine ⟨result, depth + 1, ?_⟩
          rw [typesEqual_succ, if_pos equal]
          exact ended
        · refine ⟨false, 1, ?_⟩
          rw [typesEqual_succ, if_neg equal]

end

end SchemaCompare

end Scads.Avro
