import Mathlib.Data.Finite.Prod
import Scads.Avro.SchemaCompare
import Scads.Data.Descents

namespace Scads.Avro.SchemaCompare

open Scads.Data

/-! # Recursive schemas

The comparison keeps no record of the pairs that it is comparing, so it does not end
where it comes to one of them again.
-/

variable {V : Type}

/-- A comparison of finitely many schemas ends if it comes to no pair while it is comparing this pair. -/
theorem comparison_ends_iff [Finite V] (schemas : V → Node V) (s1 s2 : V) :
    (∃ result, Compares schemas s1 s2 result) ↔
      ∀ pair, Relation.ReflTransGen (Opens schemas) (s1, s2) pair → ¬ Relation.TransGen (Opens schemas) pair pair :=
  ends_iff.trans (ends_iff_acyclic _)

/-- Lists of integers (0) and lists of strings (4): each item has a value and the next item, if any. -/
def listSchemas : Fin 7 → Node (Fin 7)
  | 0 => .record "IntList" [⟨"value", 1⟩, ⟨"next", 2⟩]
  | 1 => .primitive .int
  | 2 => .union [3, 0]
  | 3 => .primitive .null
  | 4 => .record "StringList" [⟨"value", 5⟩, ⟨"next", 6⟩]
  | 5 => .primitive .string
  | 6 => .union [3, 4]

theorem values_disagree : ¬ Agrees listSchemas 1 5 := by
  intro agrees
  cases agrees with
  | intro equal below => exact absurd equal (by decide)

/-- Two lists of different values are told apart before their rests are compared. -/
theorem lists_told_apart : ∃ result, Compares listSchemas 0 4 result := by
  have values (below : Fin 7 × Fin 7) : ¬ Opens listSchemas (1, 5) below := by
    intro opens
    exact absurd opens.1 (by decide)
  have lists (below : Fin 7 × Fin 7) (opens : Opens listSchemas (0, 4) below) : below = (1, 5) := by
    obtain ⟨-, before, after, same, agree⟩ := opens
    change [((1 : Fin 7), (5 : Fin 7)), (2, 6)] = _ at same
    cases before with
    | nil => exact (List.cons.inj same).1.symm
    | cons pair before =>
        have first := (List.cons.inj same).1
        rw [← first] at agree
        exact (values_disagree (agree _ List.mem_cons_self)).elim
  refine (comparison_ends_iff listSchemas 0 4).mpr fun pair reached => ?_
  have start : pair = (0, 4) ∨ pair = (1, 5) := by
    induction reached with
    | refl => exact .inl rfl
    | tail _ opens ih =>
        obtain rfl | rfl := ih
        · exact .inr (lists _ opens)
        · exact (values _ opens).elim
  intro again
  obtain ⟨next, opens, later⟩ := Relation.TransGen.head'_iff.mp again
  obtain rfl | rfl := start
  · obtain rfl := lists _ opens
    obtain same | ⟨third, opens, -⟩ := later.cases_head
    · exact absurd same (by decide)
    · exact values _ opens
  · exact values _ opens

/-- The comparison of a list with itself comes back to it through the union of its second field. -/
theorem list_never_compared : ¬ ∃ result, Compares listSchemas 0 0 result := by
  have agrees : Agrees listSchemas 1 1 := ⟨by decide, List.forall_mem_nil _⟩
  have nothing : Agrees listSchemas 3 3 := ⟨by decide, List.forall_mem_nil _⟩
  have next : Opens listSchemas (0, 0) (2, 2) := ⟨by decide, [(1, 1)], [], rfl, List.forall_mem_singleton.mpr agrees⟩
  have back : Opens listSchemas (2, 2) (0, 0) := ⟨by decide, [(3, 3)], [], rfl, List.forall_mem_singleton.mpr nothing⟩
  intro compared
  have acyclic := (ends_iff_acyclic _).mp (ends_iff.mp compared)
  exact acyclic _ .refl ((Relation.TransGen.single next).tail back)

end Scads.Avro.SchemaCompare
