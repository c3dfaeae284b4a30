import Mathlib.Data.List.Induction
import Mathlib.Data.List.TakeWhile

namespace Scads.Data

/-! Predicates that hold on an initial part of a list and nowhere after it. -/

section

variable {α : Type u} {holds : α → Bool} {values : List α}

def PrefixClosed (holds : α → Bool) (values : List α) : Prop :=
  values.Pairwise fun earlier later => holds later → holds earlier

theorem PrefixClosed.takeWhile (closed : PrefixClosed holds values) :
    values.takeWhile holds = values.filter holds := by
  induction values with
  | nil => rfl
  | cons first rest ih =>
      obtain ⟨head, tail⟩ := List.pairwise_cons.mp closed
      by_cases early : holds first
      · rw [List.takeWhile_cons_of_pos early, List.filter_cons_of_pos early, ih tail]
      · rw [List.takeWhile_cons_of_neg early, List.filter_cons_of_neg early]
        exact (List.filter_eq_nil_iff.mpr fun later member after => early (head later member after)).symm

theorem PrefixClosed.dropWhile (closed : PrefixClosed holds values) :
    values.dropWhile holds = values.filter fun value => !holds value := by
  induction values with
  | nil => rfl
  | cons first rest ih =>
      obtain ⟨head, tail⟩ := List.pairwise_cons.mp closed
      by_cases early : holds first
      · rw [List.dropWhile_cons_of_pos early, List.filter_cons_of_neg (by simp [early]), ih tail]
      · rw [List.dropWhile_cons_of_neg early, List.filter_cons_of_pos (by simp [early])]
        congr 1
        refine (List.filter_eq_self.mpr fun later member => ?_).symm
        simpa using fun after => early (head later member after)

theorem PrefixClosed.drop_takeWhile (closed : PrefixClosed holds values) (count : Nat) :
    (values.drop count).takeWhile holds = (values.takeWhile holds).drop count := by
  induction values generalizing count with
  | nil => simp
  | cons first rest ih =>
      obtain ⟨head, tail⟩ := List.pairwise_cons.mp closed
      cases count with
      | zero => rfl
      | succ count =>
          by_cases early : holds first
          · rw [List.takeWhile_cons_of_pos early, List.drop_succ_cons, List.drop_succ_cons, ih tail]
          · have none : rest.takeWhile holds = [] := by
              rw [PrefixClosed.takeWhile tail]
              exact List.filter_eq_nil_iff.mpr fun later member after => early (head later member after)
            rw [List.takeWhile_cons_of_neg early, List.drop_succ_cons, ih tail, none]
            simp

end

theorem snoc_prefix_iff {α : Type u} {before values : List α} {value last : α} :
    before ++ [value] <+: values ++ [last] ↔ (before = values ∧ value = last) ∨ before ++ [value] <+: values := by
  rw [List.prefix_concat_iff]
  refine or_congr_left ⟨fun same => ?_, fun same => by rw [same.1, same.2]⟩
  obtain ⟨rfl, one⟩ := List.append_inj' same rfl
  exact ⟨rfl, List.singleton_inj.mp one⟩

/-- What is right after every beginning of a list, where each value that is taken well
keeps a state up, and is taken well exactly if the result is right again. -/
theorem beginnings_iff {α : Type u} {state right : List α → Prop} {good : List α → α → Prop} (start : state [])
    (empty : right [])
    (kept : ∀ {before value}, state before → good before value → state (before ++ [value]))
    (exact_when : ∀ {before value}, state before → (right (before ++ [value]) ↔ good before value))
    (values : List α) :
    (∀ first, first <+: values → right first) ↔
      ∀ before value, before ++ [value] <+: values → good before value := by
  have both : (∀ first, first <+: values → right first) →
      state values ∧ ∀ before value, before ++ [value] <+: values → good before value := by
    induction values using List.reverseRecOn with
    | nil =>
        exact fun _ => ⟨start, fun before value among =>
          absurd (List.prefix_nil.mp among) (List.append_ne_nil_of_right_ne_nil _ (List.cons_ne_nil _ _))⟩
    | append_singleton rest last ih =>
        intro all
        obtain ⟨held, taken⟩ := ih fun first among => all first (among.trans (List.prefix_append _ _))
        have here := (exact_when held).mp (all _ List.prefix_rfl)
        refine ⟨kept held here, fun before value among => ?_⟩
        cases snoc_prefix_iff.mp among with
        | inl whole => rwa [whole.1, whole.2]
        | inr earlier => exact taken before value earlier
  constructor
  · exact fun all => (both all).2
  · intro taken first among
    have reached : ∀ first, first <+: values → state first ∧ right first := by
      intro first
      induction first using List.reverseRecOn with
      | nil => exact fun _ => ⟨start, empty⟩
      | append_singleton rest last ih =>
          intro among
          have held := (ih ((List.prefix_append _ _).trans among)).1
          have here := taken rest last among
          exact ⟨kept held here, (exact_when held).mpr here⟩
    exact (reached first among).2

end Scads.Data
