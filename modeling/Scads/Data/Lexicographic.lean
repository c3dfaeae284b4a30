import Mathlib.Data.List.Forall2
import Mathlib.Data.List.Infix

namespace Scads.Data

/-! # Orders by several keys

Two rows are compared by a list of keys, of which the first that differs decides.
-/

section

variable {α κ : Type*} {before : α → α → Prop} {left right third : κ → α} {keys : List κ}

/-- The first of the keys in which the rows differ puts them in order. -/
def LexLe (before : α → α → Prop) (left right : κ → α) : List κ → Prop
  | [] => True
  | key :: keys => before (left key) (right key) ∨ left key = right key ∧ LexLe before left right keys

theorem lexLe_of_agree (agree : ∀ key ∈ keys, left key = right key) : LexLe before left right keys := by
  induction keys with
  | nil => trivial
  | cons key keys ih => exact .inr ⟨agree key (by simp), ih fun key member => agree key (by simp [member])⟩

theorem lexLe_refl (row : κ → α) (keys : List κ) : LexLe before row row keys := lexLe_of_agree fun _ _ => rfl

theorem LexLe.trans (transitive : ∀ a b c, before a b → before b c → before a c)
    (first : LexLe before left right keys) (second : LexLe before right third keys) :
    LexLe before left third keys := by
  induction keys with
  | nil => trivial
  | cons key keys ih =>
      obtain lower | ⟨same, first⟩ := first
      · obtain lower' | ⟨same, -⟩ := second
        · exact .inl (transitive _ _ _ lower lower')
        · exact .inl (same ▸ lower)
      · obtain lower | ⟨same', second⟩ := second
        · exact .inl (same ▸ lower)
        · exact .inr ⟨same.trans same', ih first second⟩

theorem lexLe_flip : LexLe (fun a b => before b a) left right keys ↔ LexLe before right left keys := by
  induction keys with
  | nil => exact Iff.rfl
  | cons key keys ih =>
      rw [LexLe, LexLe, ih]
      exact or_congr_right (and_congr_left' eq_comm)

theorem LexLe.of_prefix {shorter : List κ} (ordered : LexLe before left right keys) (contained : shorter <+: keys) :
    LexLe before left right shorter := by
  obtain ⟨rest, rfl⟩ := contained
  induction shorter with
  | nil => trivial
  | cons key shorter ih => exact ordered.imp_right fun ⟨same, later⟩ => ⟨same, ih later⟩

/-- Keys in which the rows agree decide nothing. -/
theorem LexLe.drop_agreed {agreed : List κ} (irreflexive : ∀ a, ¬ before a a)
    (ordered : LexLe before left right (agreed ++ keys)) (agree : ∀ key ∈ agreed, left key = right key) :
    LexLe before left right keys := by
  induction agreed with
  | nil => exact ordered
  | cons key agreed ih =>
      obtain lower | ⟨-, later⟩ := ordered
      · rw [agree key (by simp)] at lower
        exact absurd lower (irreflexive _)
      · exact ih later fun key member => agree key (by simp [member])

/-- Rows that have the same values in other keys are in the same order. -/
theorem LexLe.congr {ι : Type*} {left' right' : ι → α} {others : List ι} (ordered : LexLe before left right keys)
    (same : List.Forall₂ (fun key other => left key = left' other ∧ right key = right' other) keys others) :
    LexLe before left' right' others := by
  induction same with
  | nil => trivial
  | cons here rest ih =>
      obtain lower | ⟨equal, later⟩ := ordered
      · rw [here.1, here.2] at lower
        exact .inl lower
      · exact .inr ⟨here.1.symm.trans (equal.trans here.2), ih later⟩

theorem lexLe_map {ι : Type*} {rename : ι → κ} {names : List ι} : LexLe before left right (names.map rename) ↔
    LexLe before (fun name => left (rename name)) (fun name => right (rename name)) names := by
  induction names with
  | nil => exact Iff.rfl
  | cons name names ih =>
      rw [List.map_cons, LexLe, LexLe, ih]

theorem lexLe_append {agreed : List κ} (agree : ∀ key ∈ agreed, left key = right key)
    (ordered : LexLe before left right keys) : LexLe before left right (agreed ++ keys) := by
  induction agreed with
  | nil => exact ordered
  | cons key agreed ih => exact .inr ⟨agree key (by simp), ih fun key member => agree key (by simp [member])⟩

/-- Distinct keys that are not the first of others part from them somewhere. -/
theorem exists_parting {others : List κ} (distinct : keys.Nodup) (within : keys ⊆ others)
    (parts : ¬ keys <+: others) :
    ∃ shared key rest other behind, keys = shared ++ key :: rest ∧ others = shared ++ other :: behind ∧
      key ≠ other ∧ key ∈ behind := by
  induction keys generalizing others with
  | nil => exact absurd (List.nil_prefix) parts
  | cons key keys ih =>
      obtain ⟨new, distinct⟩ := List.nodup_cons.mp distinct
      cases others with
      | nil => exact absurd (within List.mem_cons_self) List.not_mem_nil
      | cons other others =>
          by_cases same : key = other
          · subst same
            have later : ¬ keys <+: others := fun contained => parts (List.cons_prefix_cons.mpr ⟨rfl, contained⟩)
            have inside : keys ⊆ others := by
              intro found member
              obtain rfl | there := List.mem_cons.mp (within (List.mem_cons_of_mem _ member))
              · exact absurd member new
              · exact there
            obtain ⟨shared, first, rest, second, behind, rfl, rfl, differ, found⟩ := ih distinct inside later
            exact ⟨key :: shared, first, rest, second, behind, rfl, rfl, differ, found⟩
          · have there := (List.mem_cons.mp (within List.mem_cons_self)).resolve_left same
            exact ⟨[], key, keys, other, others, rfl, rfl, same, there⟩

variable [DecidableEq κ]

/-- The keys that can decide: each of them once, and none in which the rows are known to agree. -/
def deciding : List κ → List κ → List κ
  | _, [] => []
  | agreed, key :: keys =>
      if key ∈ agreed then deciding agreed keys else key :: deciding (key :: agreed) keys

/-- Each of distinct new keys can decide. -/
theorem deciding_eq_self {agreed : List κ} (distinct : keys.Nodup) (new : ∀ key ∈ keys, key ∉ agreed) :
    deciding agreed keys = keys := by
  induction keys generalizing agreed with
  | nil => rfl
  | cons key keys ih =>
      obtain ⟨unlike, distinct⟩ := List.nodup_cons.mp distinct
      obtain ⟨first, rest⟩ := List.forall_mem_cons.mp new
      rw [deciding, if_neg first, ih distinct]
      intro other member known
      obtain rfl | known := List.mem_cons.mp known
      · exact unlike member
      · exact rest other member known

theorem LexLe.of_deciding {agreed : List κ} (ordered : LexLe before left right (deciding agreed keys))
    (agree : ∀ key ∈ agreed, left key = right key) : LexLe before left right keys := by
  induction keys generalizing agreed with
  | nil => trivial
  | cons key keys ih =>
      rw [deciding] at ordered
      split at ordered
      · rename_i known
        exact .inr ⟨agree key known, ih ordered agree⟩
      · refine ordered.imp_right fun ⟨same, later⟩ => ⟨same, ih later ?_⟩
        exact List.forall_mem_cons.mpr ⟨same, agree⟩

theorem LexLe.deciding {agreed : List κ} (irreflexive : ∀ a, ¬ before a a) (ordered : LexLe before left right keys)
    (agree : ∀ key ∈ agreed, left key = right key) : LexLe before left right (deciding agreed keys) := by
  induction keys generalizing agreed with
  | nil => trivial
  | cons key keys ih =>
      rw [Data.deciding]
      split
      · rename_i known
        obtain lower | ⟨-, later⟩ := ordered
        · rw [agree key known] at lower
          exact absurd lower (irreflexive _)
        · exact ih later agree
      · refine ordered.imp_right fun ⟨same, later⟩ => ⟨same, ih later ?_⟩
        exact List.forall_mem_cons.mpr ⟨same, agree⟩

theorem mem_deciding {agreed : List κ} {key : κ} (member : key ∈ deciding agreed keys) : key ∈ keys ∧ key ∉ agreed := by
  induction keys generalizing agreed with
  | nil => cases member
  | cons first keys ih =>
      rw [deciding] at member
      split at member
      · obtain ⟨there, new⟩ := ih member
        exact ⟨List.mem_cons_of_mem _ there, new⟩
      · rename_i new
        obtain rfl | later := List.mem_cons.mp member
        · exact ⟨List.mem_cons_self, new⟩
        · obtain ⟨there, unlike⟩ := ih later
          exact ⟨List.mem_cons_of_mem _ there, fun known => unlike (List.mem_cons_of_mem _ known)⟩

theorem nodup_deciding (agreed keys : List κ) : (deciding agreed keys).Nodup := by
  induction keys generalizing agreed with
  | nil => exact .nil
  | cons key keys ih =>
      rw [deciding]
      split
      · exact ih agreed
      · exact List.nodup_cons.mpr ⟨fun member => (mem_deciding member).2 List.mem_cons_self, ih _⟩

end

end Scads.Data
