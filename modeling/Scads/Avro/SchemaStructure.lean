import Mathlib.Data.Set.Basic
import Scads.Avro.SchemaCompare

namespace Scads.Avro.SchemaCompare

/-! # The structure of schemas

A position in a schema is a path through the schemas that it refers to.  Two schemas
have the same structure if they have the same outline at every position.
-/

/-- What a schema has at one position, without names. -/
inductive Outline where
  | record (fields : Nat)
  | enum (enumSymbols : List String)
  | array
  | map
  | union (types : Nat)
  | fixed (fixedSize : Int)
  | primitive (type : Primitive)
deriving DecidableEq, Repr

variable {V : Type}

def outline : Node V → Outline
  | .record _ fields => .record fields.length
  | .enum _ symbols => .enum symbols
  | .array _ => .array
  | .map _ => .map
  | .union types => .union types.length
  | .fixed _ size => .fixed size
  | .primitive type => .primitive type

/-- The schema at a position. -/
def descend (schemas : V → Node V) : List Nat → V → Option V
  | [], schema => some schema
  | index :: position, schema => (children (schemas schema))[index]?.bind (descend schemas position)

def SameStructure (schemas : V → Node V) (s1 s2 : V) : Prop :=
  ∀ position, (descend schemas position s1).map (fun schema => outline (schemas schema)) =
    (descend schemas position s2).map (fun schema => outline (schemas schema))

/-- The schemas are alike at every position that they both have. -/
def Overlap (schemas : V → Node V) (s1 s2 : V) : Prop :=
  ∀ position first second, descend schemas position s1 = some first → descend schemas position s2 = some second →
    alike (schemas first) (schemas second) = true

/-- No schema is referred to from within itself. -/
def NonRecursive (schemas : V → Node V) (schema : V) : Prop :=
  Acc (fun below above => below ∈ children (schemas above)) schema

section

variable {schemas : V → Node V} {s1 s2 s3 : V}

theorem alike_of_outline {node1 node2 : Node V} (same : outline node1 = outline node2) : alike node1 node2 = true := by
  cases node1 <;> cases node2 <;> simp only [outline, reduceCtorEq] at same
  case record.record => exact decide_eq_true (Outline.record.inj same)
  case enum.enum name1 symbols1 name2 symbols2 =>
    rw [← Outline.enum.inj same]
    refine List.all_eq_true.mpr fun symbols member => decide_eq_true ?_
    rw [List.zip, List.zipWith_self] at member
    obtain ⟨symbol, -, rfl⟩ := List.mem_map.mp member
    rfl
  case array.array | map.map | union.union => rfl
  case fixed.fixed => exact decide_eq_true (Outline.fixed.inj same)
  case primitive.primitive => exact decide_eq_true (congrArg Primitive.getType (Outline.primitive.inj same))

theorem SameStructure.overlap (same : SameStructure schemas s1 s2) : Overlap schemas s1 s2 := by
  intro position first second isFirst isSecond
  have here := same position
  rw [isFirst, isSecond] at here
  exact alike_of_outline (Option.some.inj here)

theorem Agrees.overlap (agrees : Agrees schemas s1 s2) : Overlap schemas s1 s2 := by
  intro position
  induction position generalizing s1 s2 with
  | nil =>
      intro first second isFirst isSecond
      cases isFirst
      cases isSecond
      cases agrees with
      | intro equal below => exact equal
  | cons index position ih =>
      intro first second isFirst isSecond
      obtain ⟨child, isChild, isFirst⟩ := Option.bind_eq_some_iff.mp isFirst
      obtain ⟨other, isOther, isSecond⟩ := Option.bind_eq_some_iff.mp isSecond
      cases agrees with
      | intro equal below =>
          have member : (child, other) ∈ opposite schemas s1 s2 := by
            refine List.mem_iff_getElem?.mpr ⟨index, ?_⟩
            rw [opposite, List.getElem?_zip_eq_some]
            exact ⟨isChild, isOther⟩
          exact ih (below _ member) first second isFirst isSecond

/-- Schemas that overlap agree, as one of them has an end at every position. -/
theorem Overlap.agrees (nonRecursive : NonRecursive schemas s1) (overlap : Overlap schemas s1 s2) :
    Agrees schemas s1 s2 := by
  induction nonRecursive generalizing s2 with
  | intro s1 _ ih =>
      refine ⟨overlap [] s1 s2 rfl rfl, fun pair member => ?_⟩
      obtain ⟨index, here⟩ := List.mem_iff_getElem?.mp member
      rw [opposite, List.getElem?_zip_eq_some] at here
      refine ih pair.1 (List.mem_of_getElem? here.1) fun position first second isFirst isSecond => ?_
      refine overlap (index :: position) first second ?_ ?_
      · rw [descend, here.1]
        exact isFirst
      · rw [descend, here.2]
        exact isSecond

theorem compares_iff_overlap (nonRecursive : NonRecursive schemas s1) :
    Compares schemas s1 s2 true ↔ Overlap schemas s1 s2 :=
  compares_true_iff.trans ⟨Agrees.overlap, fun overlap => overlap.agrees nonRecursive⟩

end

/-- Among these schemas, `typesEqual` always answers, is an equivalence relation, and tells which of them have the
same structure. -/
structure ComparesStructure (schemas : V → Node V) (among : Set V) : Prop where
  answers : ∀ s1 ∈ among, ∀ s2 ∈ among, ∃ result, Compares schemas s1 s2 result
  equivalence : Equivalence fun s1 s2 : among => Compares schemas s1 s2 true
  structured : ∀ s1 ∈ among, ∀ s2 ∈ among, Compares schemas s1 s2 true ↔ SameStructure schemas s1 s2

theorem ends_of_nonRecursive {schemas : V → Node V} {s1 : V} (nonRecursive : NonRecursive schemas s1) (s2 : V) :
    ∃ result, Compares schemas s1 s2 result := by
  refine ends_iff.mpr ?_
  induction nonRecursive generalizing s2 with
  | intro s1 _ ih =>
      refine ⟨_, fun below opens => ?_⟩
      obtain ⟨-, before, after, same, -⟩ := opens
      have member : below ∈ opposite schemas s1 s2 := same ▸ List.mem_append_right _ List.mem_cons_self
      exact ih below.1 (List.of_mem_zip member).1 below.2

/-- The comparison is one of structures where no two schemas differ only in further branches of unions and further
symbols of enums. -/
theorem typesEqual_compares_structure (schemas : V → Node V) (among : Set V)
    (nonRecursive : ∀ schema ∈ among, NonRecursive schemas schema) :
    ComparesStructure schemas among ↔
      ∀ s1 ∈ among, ∀ s2 ∈ among, Overlap schemas s1 s2 → SameStructure schemas s1 s2 := by
  constructor
  · intro compares s1 first s2 second overlap
    exact (compares.structured s1 first s2 second).mp ((compares_iff_overlap (nonRecursive s1 first)).mpr overlap)
  · intro structured
    have compares_iff (s1 : V) (first : s1 ∈ among) (s2 : V) (second : s2 ∈ among) :
        Compares schemas s1 s2 true ↔ SameStructure schemas s1 s2 :=
      (compares_iff_overlap (nonRecursive s1 first)).trans
        ⟨structured s1 first s2 second, fun same => same.overlap⟩
    refine ⟨fun s1 first s2 _ => ends_of_nonRecursive (nonRecursive s1 first) s2, ⟨?_, ?_, ?_⟩, compares_iff⟩
    · exact fun s1 => (compares_iff s1 s1.2 s1 s1.2).mpr fun _ => rfl
    · intro s1 s2 equal
      have same := (compares_iff s1 s1.2 s2 s2.2).mp equal
      exact (compares_iff s2 s2.2 s1 s1.2).mpr fun position => (same position).symm
    · intro s1 s2 s3 first second
      have here := (compares_iff s1 s1.2 s2 s2.2).mp first
      have there := (compares_iff s2 s2.2 s3 s3.2).mp second
      exact (compares_iff s1 s1.2 s3 s3.2).mpr fun position => (here position).trans (there position)

theorem sameStructure_of_children {schemas : V → Node V} {s1 s2 : V}
    (same : outline (schemas s1) = outline (schemas s2)) (below : children (schemas s1) = children (schemas s2)) :
    SameStructure schemas s1 s2 := by
  intro position
  cases position with
  | nil => exact congrArg some same
  | cons index position => rw [descend, descend, below]

theorem nonRecursive_of_lt {count : Nat} {schemas : Fin count → Node (Fin count)}
    (earlier : ∀ schema, ∀ child ∈ children (schemas schema), child < schema) (schema : Fin count) :
    NonRecursive schemas schema :=
  Subrelation.accessible (fun {child schema} member => earlier schema child member) ((measure Fin.val).wf.apply schema)

/-- Two records with an integer, under different names, and an array of the first one. -/
def renamedSchemas : Fin 4 → Node (Fin 4)
  | 0 => .primitive .int
  | 1 => .record "aaa" [⟨"fefee", 0⟩]
  | 2 => .record "xxx" [⟨"ifee", 0⟩]
  | 3 => .array 1

theorem renamed_schemas_compared : ComparesStructure renamedSchemas Set.univ := by
  refine (typesEqual_compares_structure renamedSchemas Set.univ fun schema _ => ?_).mpr fun s1 _ s2 _ overlap => ?_
  · exact nonRecursive_of_lt (by decide) schema
  · have equal : ∀ s1 s2, alike (renamedSchemas s1) (renamedSchemas s2) = true →
        outline (renamedSchemas s1) = outline (renamedSchemas s2) ∧
          children (renamedSchemas s1) = children (renamedSchemas s2) := by decide
    obtain ⟨same, below⟩ := equal s1 s2 (overlap [] s1 s2 rfl rfl)
    exact sameStructure_of_children same below

/-- Unions of one and of two types, and enums of one and of two symbols. -/
def longerSchemas : Fin 8 → Node (Fin 8)
  | 0 => .primitive .int
  | 1 => .primitive .string
  | 2 => .primitive .long
  | 3 => .union [0]
  | 4 => .union [0, 1]
  | 5 => .union [0, 2]
  | 6 => .enum "Suit" ["SPADES"]
  | 7 => .enum "Suit" ["SPADES", "HEARTS"]

/-- `zip` ends with the shorter list, so the further types and symbols are not compared. -/
theorem longer_schemas_equal :
    (∀ schema, NonRecursive longerSchemas schema) ∧
      Compares longerSchemas 4 3 true ∧ ¬ SameStructure longerSchemas 4 3 ∧
      Compares longerSchemas 6 7 true ∧ ¬ SameStructure longerSchemas 6 7 ∧
      Compares longerSchemas 3 5 true ∧ ¬ Compares longerSchemas 4 5 true ∧
      ¬ ComparesStructure longerSchemas Set.univ := by
  have first : Compares longerSchemas 4 3 true := ⟨2, by decide⟩
  have second : Compares longerSchemas 3 5 true := ⟨2, by decide⟩
  have apart : ¬ Compares longerSchemas 4 5 true := by
    intro compares
    exact absurd (compares.unique ⟨2, by decide⟩) (by decide : true ≠ false)
  refine ⟨nonRecursive_of_lt (by decide), first, fun same => ?_, ⟨1, by decide⟩, fun same => ?_, second, apart,
    fun compares => ?_⟩
  · exact absurd (same []) (by decide)
  · exact absurd (same []) (by decide)
  · exact apart (compares.equivalence.trans (x := ⟨4, trivial⟩) (y := ⟨3, trivial⟩) (z := ⟨5, trivial⟩) first second)

end Scads.Avro.SchemaCompare
