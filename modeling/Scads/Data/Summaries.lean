import Mathlib.Algebra.Order.Group.Multiset

namespace Scads.Data

/-! # Summaries of parts of a collection

A collection is cut into parts, every part is folded into a partial result, and the
partial results are folded in the order in which they come.  What both folds keep to
is given by two relations between a result and the values that went into it.
-/

variable {α : Type u} {β : Type v} {γ : Type w}

structure Summarizes (init : β) (step : β → α → β) (start : γ) (combine : γ → β → γ)
    (partly : β → Multiset α → Prop) (wholly : γ → Multiset α → Prop) : Prop where
  init : partly init 0
  step : ∀ {result values} value, partly result values → partly (step result value) (values + {value})
  start : wholly start 0
  combine : ∀ {total values result more}, wholly total values → partly result more →
    wholly (combine total result) (values + more)

namespace Summarizes

variable {init : β} {step : β → α → β} {start : γ} {combine : γ → β → γ}
  {partly : β → Multiset α → Prop} {wholly : γ → Multiset α → Prop}
  (summarizes : Summarizes init step start combine partly wholly)

include summarizes

theorem foldl_from {result : β} {before : Multiset α} (holds : partly result before) (values : List α) :
    partly (values.foldl step result) (before + values) := by
  induction values generalizing result before with
  | nil =>
      rw [Multiset.coe_nil, add_zero]
      exact holds
  | cons value rest ih =>
      have taken := ih (summarizes.step value holds)
      rw [add_assoc, Multiset.singleton_add, Multiset.cons_coe] at taken
      exact taken

theorem foldl (values : List α) : partly (values.foldl step init) values := by
  have folded := summarizes.foldl_from summarizes.init values
  rwa [zero_add] at folded

theorem combined_from {total : γ} {before : Multiset α} (holds : wholly total before) (parts : List (List α)) :
    wholly ((parts.map (List.foldl step init)).foldl combine total) (before + parts.flatten) := by
  induction parts generalizing total before with
  | nil =>
      rw [List.flatten_nil, Multiset.coe_nil, add_zero]
      exact holds
  | cons part rest ih =>
      have taken := ih (summarizes.combine holds (summarizes.foldl part))
      rw [add_assoc, Multiset.coe_add] at taken
      exact taken

/-- The partial results may come in any order. -/
theorem combined {parts reordered : List (List α)} (arrival : reordered.Perm parts) :
    wholly ((reordered.map (List.foldl step init)).foldl combine start) parts.flatten := by
  have folded := summarizes.combined_from summarizes.start reordered
  rwa [zero_add, Multiset.coe_eq_coe.mpr arrival.flatten] at folded

end Summarizes

end Scads.Data
