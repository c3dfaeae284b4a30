import Scads.Client.BuiltinAggregates

namespace Scads.Client.BuiltinAggregates

open Scads.Data Scads.Comm Scads.Server

/-! # Maxima and minima

The folds of a maximum start from the least positive double, which no negative value
and no zero replaces.
-/

section

variable {D : Type} {usable : D → Prop} {rank : D → Int} {beats : D → D → Bool} {start : D}

/-- Among usable values and the start none ranks higher than the result, which is one of them. -/
def Best (usable : D → Prop) (rank : D → Int) (start result : D) (values : Multiset D) : Prop :=
  (∀ value ∈ values, usable value) →
    usable result ∧ rank start ≤ rank result ∧ (∀ value ∈ values, rank value ≤ rank result) ∧
      (result = start ∨ result ∈ values)

/-- A result that is the best of further values where it is not the start. -/
theorem keepBetter_best
    (ranked : ∀ {left right}, usable left → usable right → (beats left right = true ↔ rank right < rank left))
    {cur next : D} {values more : Multiset D} (best : Best usable rank start cur values)
    (further : (∀ value ∈ more, usable value) → usable next ∧ (∀ value ∈ more, rank value ≤ rank next) ∧
      (next = start ∨ next ∈ more)) : Best usable rank start (keepBetter beats cur next) (values + more) := by
  intro all
  obtain ⟨curUsable, least, high, held⟩ := best fun value member => all value (Multiset.mem_add.mpr (.inl member))
  obtain ⟨nextUsable, top, came⟩ := further fun value member => all value (Multiset.mem_add.mpr (.inr member))
  have order := ranked nextUsable curUsable
  rw [keepBetter]
  split
  · next won =>
      have above := order.mp won
      refine ⟨nextUsable, least.trans above.le, ?_, came.imp_right fun member => Multiset.mem_add.mpr (.inr member)⟩
      intro value member
      cases Multiset.mem_add.mp member with
      | inl old => exact (high value old).trans above.le
      | inr new => exact top value new
  · next lost =>
      have below := not_lt.mp fun above => lost (order.mpr above)
      refine ⟨curUsable, least, ?_, held.imp_right fun member => Multiset.mem_add.mpr (.inl member)⟩
      intro value member
      cases Multiset.mem_add.mp member with
      | inl old => exact high value old
      | inr new => exact (top value new).trans below

theorem best_summarizes
    (ranked : ∀ {left right}, usable left → usable right → (beats left right = true ↔ rank right < rank left))
    (startUsable : usable start) :
    Summarizes start (keepBetter beats) start (keepBetter beats) (Best usable rank start) (Best usable rank start) where
  init := fun _ => ⟨startUsable, le_rfl, fun value member => absurd member (Multiset.notMem_zero value), .inl rfl⟩
  step := by
    intro result values value best
    refine keepBetter_best ranked best fun all => ⟨all value (Multiset.mem_singleton_self value), ?_,
      .inr (Multiset.mem_singleton_self value)⟩
    intro other member
    rw [Multiset.mem_singleton.mp member]
  start := fun _ => ⟨startUsable, le_rfl, fun value member => absurd member (Multiset.notMem_zero value), .inl rfl⟩
  combine := by
    intro total values result more best further
    exact keepBetter_best ranked best fun all => ⟨(further all).1, (further all).2.2.1, (further all).2.2.2⟩

end

def IsMaximum (values : List (BitVec 64)) (result : BitVec 64) : Prop :=
  (∃ value ∈ values, byValue value = byValue result) ∧ ∀ value ∈ values, byValue value ≤ byValue result

def IsMinimum (values : List (BitVec 64)) (result : BitVec 64) : Prop :=
  (∃ value ∈ values, byValue value = byValue result) ∧ ∀ value ∈ values, byValue result ≤ byValue value

def FiniteDouble (value : BitVec 64) : Prop := isFinite infinity value = true

instance (value : BitVec 64) : Decidable (FiniteDouble value) := inferInstanceAs (Decidable (_ = _))

theorem byValue_le_maxValue {value : BitVec 64} (finite : FiniteDouble value) : byValue value ≤ byValue maxValue := by
  have below : magnitude value < magnitude infinity := of_decide_eq_true finite
  have top : byValue maxValue = magnitude infinity - 1 := by decide
  have sign : byValue value ≤ magnitude value := by
    rw [byValue]
    split
    · have positive : 0 ≤ magnitude value := Int.natCast_nonneg _
      omega
    · exact le_rfl
  omega

section

variable {K V G : Type} [DecidableEq G] {field : AggregateField V (BitVec 64)}
  {partitions arrived : List (List (K × V))}

theorem maximum_combined (arrival : arrived.Perm partitions) (nonempty : partitions.flatten ≠ [])
    (finite : ∀ record ∈ partitions.flatten, FiniteDouble (field.of record.2)) (group : Option G) :
    ∃ total, maxLocal.combined group (arrived.map (maxRemote field).folded) = .ok total ∧
      byValue minValue ≤ byValue total ∧
      (∀ value ∈ partitions.flatten.map fun record => field.of record.2, byValue value ≤ byValue total) ∧
      (total = minValue ∨ total ∈ partitions.flatten.map fun record => field.of record.2) := by
  have summarizes : Summarizes minValue (keepBetter greater) maxLocal.init maxLocal.foldFunction
      (Best FiniteDouble byValue minValue) (Best FiniteDouble byValue minValue) :=
    best_summarizes (fun left right => lessFloats_iff right left) (by decide : isFinite infinity minValue = true)
  obtain ⟨total, combined, best⟩ := combined_overField summarizes arrival nonempty group
  exact ⟨total, combined, (best (List.forall_mem_map.mpr finite)).2⟩

theorem minimum_combined (arrival : arrived.Perm partitions) (nonempty : partitions.flatten ≠ [])
    (finite : ∀ record ∈ partitions.flatten, FiniteDouble (field.of record.2)) (group : Option G) :
    ∃ least, minLocal.combined group (arrived.map (minRemote field).folded) = .ok least ∧
      IsMinimum (partitions.flatten.map fun record => field.of record.2) least := by
  have summarizes : Summarizes maxValue (keepBetter less) minLocal.init minLocal.foldFunction
      (Best FiniteDouble (fun value => -byValue value) maxValue)
      (Best FiniteDouble (fun value => -byValue value) maxValue) :=
    best_summarizes (fun left right => (lessFloats_iff left right).trans Int.neg_lt_neg_iff.symm)
      (by decide : isFinite infinity maxValue = true)
  obtain ⟨total, combined, best⟩ := combined_overField summarizes arrival nonempty group
  obtain ⟨_, _, low, held⟩ := best (List.forall_mem_map.mpr finite)
  have least : ∀ value ∈ partitions.flatten.map fun record => field.of record.2, byValue total ≤ byValue value :=
    fun value member => Int.neg_le_neg_iff.mp (low value member)
  refine ⟨total, combined, ?_, least⟩
  cases held with
  | inr member => exact ⟨total, member, rfl⟩
  | inl same =>
      -- nothing finite is greater than the start, so the values are all equal to it
      obtain ⟨record, member⟩ := List.exists_mem_of_ne_nil _ nonempty
      have among := List.mem_map_of_mem (f := fun record => field.of record.2) member
      refine ⟨_, among, le_antisymm ?_ (least _ among)⟩
      rw [same]
      exact byValue_le_maxValue (finite record member)

/-- The maximum is right if one of the values is positive, since the folds start from the
least positive number.  The minimum is always right. -/
theorem extremes_distribute_iff (arrival : arrived.Perm partitions) (nonempty : partitions.flatten ≠ [])
    (finite : ∀ record ∈ partitions.flatten, FiniteDouble (field.of record.2)) (group : Option G) :
    let values := partitions.flatten.map fun record => field.of record.2
    (∃ greatest least, maxLocal.combined group (arrived.map (maxRemote field).folded) = .ok greatest ∧
        IsMaximum values greatest ∧
        minLocal.combined group (arrived.map (minRemote field).folded) = .ok least ∧ IsMinimum values least) ↔
      ∃ value ∈ values, 0 < byValue value := by
  intro values
  obtain ⟨total, combined, above, high, held⟩ := maximum_combined arrival nonempty finite group
  obtain ⟨least, minimum, isMinimum⟩ := minimum_combined arrival nonempty finite group
  have one : byValue minValue = 1 := by decide
  constructor
  · intro found
    obtain ⟨greatest, _, same, isMaximum, _⟩ := found
    cases combined.symm.trans same
    obtain ⟨value, member, equal⟩ := isMaximum.1
    exact ⟨value, member, by omega⟩
  · intro found
    obtain ⟨value, member, positive⟩ := found
    refine ⟨total, least, combined, ⟨?_, high⟩, minimum, isMinimum⟩
    cases held with
    | inr among => exact ⟨total, among, rfl⟩
    | inl same =>
        have below := high value member
        rw [same] at below ⊢
        exact ⟨value, member, by omega⟩

end

/-- The second column of a row. -/
def temperatures : AggregateField (List (BitVec 64)) (BitVec 64) := ⟨1, fun row pos => row.getD pos.toNat 0⟩

/-- A frost of one degree and another day with two degrees. -/
theorem extremes_of_two_days :
    let frost : Nat × List (BitVec 64) := (1, [0, 0xbff0000000000000#64])
    let thaw : Nat × List (BitVec 64) := (2, [0, 0x4000000000000000#64])
    ∃ greatest least,
      maxLocal.combined (none : Option Nat) ([[thaw], [frost]].map (maxRemote temperatures).folded) = .ok greatest ∧
      IsMaximum ([[frost], [thaw]].flatten.map fun day => temperatures.of day.2) greatest ∧
      minLocal.combined (none : Option Nat) ([[thaw], [frost]].map (minRemote temperatures).folded) = .ok least ∧
      IsMinimum ([[frost], [thaw]].flatten.map fun day => temperatures.of day.2) least := by
  intro frost thaw
  exact (@extremes_distribute_iff _ _ _ _ temperatures [[frost], [thaw]] _ (List.Perm.swap _ _ _)
    (List.cons_ne_nil _ _) (by decide +kernel) none).mpr ⟨0x4000000000000000#64, by decide, by decide⟩

/-- The maximum of a frost of one degree is the least positive number. -/
theorem maximum_of_frost :
    let frost : Nat × List (BitVec 64) := (1, [0, 0xbff0000000000000#64])
    maxLocal.combined (none : Option Nat) ([[frost]].map (maxRemote temperatures).folded) = .ok minValue ∧
      ¬ IsMaximum ([[frost]].flatten.map fun day => temperatures.of day.2) minValue := by
  intro frost
  refine ⟨by decide +kernel, ?_⟩
  intro isMaximum
  obtain ⟨value, member, same⟩ := isMaximum.1
  rw [List.mem_singleton.mp member] at same
  exact absurd same (by decide)

end Scads.Client.BuiltinAggregates
