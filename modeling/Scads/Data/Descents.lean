import Mathlib.Data.Fintype.EquivFin
import Mathlib.Data.Fintype.Card
import Mathlib.Logic.Relation

namespace Scads.Data

/-! # Descents

A descent goes from an item to items below it.  Every descent from an item ends if
no item that it comes to is below itself.
-/

variable {α : Type} {descends : α → α → Prop}

theorem not_below_self {item : α} (ends : Acc (fun below above => descends above below) item) :
    ¬ descends item item := by
  induction ends with
  | intro item _ ih => exact fun below => ih item below below

theorem ends_below {start item : α} (ends : Acc (fun below above => descends above below) start)
    (reached : Relation.ReflTransGen descends start item) : Acc (fun below above => descends above below) item := by
  induction reached with
  | refl => exact ends
  | tail _ below ih => exact ih.inv below

/-- Among finitely many items, the descents from one of them end if none of them comes back. -/
theorem ends_iff_acyclic [Finite α] (start : α) : Acc (fun below above => descends above below) start ↔
    ∀ item, Relation.ReflTransGen descends start item → ¬ Relation.TransGen descends item item := by
  constructor
  · intro ends item reached again
    have closed : Acc (fun below above => Relation.TransGen descends above below) item := by
      have transitive := (ends_below ends reached).transGen
      refine Subrelation.accessible (fun {below above} deeper => ?_) transitive
      exact Relation.transGen_swap.mp deeper
    exact not_below_self closed again
  · intro acyclic
    let Reached := { item // Relation.ReflTransGen descends start item }
    let deeper : Reached → Reached → Prop := fun below above => Relation.TransGen descends above.1 below.1
    have : Finite Reached := Subtype.finite
    have : IsTrans Reached deeper := ⟨fun _ _ _ first second => second.trans first⟩
    have : Std.Irrefl deeper := ⟨fun item => acyclic item.1 item.2⟩
    have wellFounded : WellFounded deeper := Finite.wellFounded_of_trans_of_irrefl deeper
    have all (item : Reached) : Acc (fun below above => descends above below) item.1 := by
      induction item using wellFounded.induction with
      | _ item ih => exact ⟨_, fun below here => ih ⟨below, item.2.tail here⟩ (.single here)⟩
    exact all ⟨start, .refl⟩

end Scads.Data
