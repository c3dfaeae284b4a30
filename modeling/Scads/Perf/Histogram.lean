import Mathlib.Algebra.Group.Int.Defs
import Mathlib.Algebra.Group.Nat.Defs
import Mathlib.Data.List.Basic

namespace Scads.Perf

/-! # Histograms of response times

A histogram counts values by buckets of one size.  Values beyond the last bucket are
counted there, and negative ones apart.
-/

inductive HistogramException where
  | requirement
  | arithmetic
  | indexOutOfBounds
deriving DecidableEq, Repr

structure Histogram where
  bucketSize : Int32
  buckets : List Int64
  negative : Int32 := 0
deriving DecidableEq, Repr

/-- `buckets(index) += 1` -/
def increment (buckets : List Int64) (index : Int) : Except HistogramException (List Int64) :=
  if 0 ≤ index ∧ index < buckets.length then .ok (buckets.modify index.toNat (· + 1)) else .error .indexOutOfBounds

namespace Histogram

def apply (bucketSize bucketCount : Int32) : Histogram :=
  { bucketSize, buckets := List.replicate bucketCount.toInt.toNat 0 }

def plus (histogram left : Histogram) : Except HistogramException Histogram :=
  if histogram.bucketSize = left.bucketSize ∧ histogram.buckets.length = left.buckets.length then
    .ok ⟨histogram.bucketSize, List.zipWith (· + ·) histogram.buckets left.buckets,
      histogram.negative + left.negative⟩
  else .error .requirement

/-- The histogram that is returned, and the one that is left. -/
def reset (histogram : Histogram) : Histogram × Histogram :=
  ({ bucketSize := histogram.bucketSize, buckets := histogram.buckets },
    { histogram with buckets := List.replicate histogram.buckets.length 0 })

def add (histogram : Histogram) (value : Int64) : Except HistogramException Histogram := do
  if value < 0 then
    return { histogram with negative := histogram.negative + 1 }
  else if histogram.bucketSize = 0 then
    .error .arithmetic
  else
    let bucket := (value / histogram.bucketSize.toInt64).toInt32
    if bucket.toInt ≥ histogram.buckets.length then
      return { histogram with buckets := ← increment histogram.buckets (histogram.buckets.length - 1) }
    else
      return { histogram with buckets := ← increment histogram.buckets bucket.toInt }

/-- The values are added one by one. -/
def addAll (histogram : Histogram) (values : List Int64) : Except HistogramException Histogram :=
  values.foldlM add histogram

/-- The bucket that `add` increments, as the code computes it. -/
def indexOf (bucketSize : Int32) (bucketCount : Nat) (value : Int64) : Int :=
  let bucket := (value / bucketSize.toInt64).toInt32
  if bucket.toInt ≥ bucketCount then bucketCount - 1 else bucket.toInt

/-- The histogram that has counted values, where each of them has gone. -/
def counted (bucketSize : Int32) (bucketCount : Nat) (values : List Int64) : Histogram where
  bucketSize
  buckets := (List.range bucketCount).map fun bucket : Nat =>
    .ofNat (values.countP fun value => 0 ≤ value ∧ indexOf bucketSize bucketCount value = bucket)
  negative := .ofNat (values.countP (· < 0))

section

variable {bucketSize : Int32} {bucketCount : Nat} {values : List Int64} {value : Int64}

theorem length_counted : (counted bucketSize bucketCount values).buckets.length = bucketCount := by
  rw [counted, List.length_map, List.length_range]

theorem counted_nil : counted bucketSize bucketCount [] = ⟨bucketSize, List.replicate bucketCount 0, 0⟩ := by
  rw [counted, Histogram.mk.injEq]
  refine ⟨rfl, List.ext_getElem (by simp) fun index _ _ => ?_, rfl⟩
  rw [List.getElem_map, List.getElem_replicate]
  rfl

theorem indexOf_lt : indexOf bucketSize bucketCount value < bucketCount := by
  rw [indexOf]
  split
  · omega
  · omega

theorem counted_negative (negative : value < 0) : counted bucketSize bucketCount (values ++ [value]) =
    { counted bucketSize bucketCount values with
      negative := (counted bucketSize bucketCount values).negative + 1 } := by
  have apart : ¬ 0 ≤ value := Int64.not_le.mpr negative
  simp only [counted, List.countP_append, List.countP_singleton, apart, negative, false_and, decide_false, decide_true,
    Bool.false_eq_true, if_false, if_true, Nat.add_zero, Int32.ofNat_add]
  rfl

theorem increment_counted (positive : 0 ≤ value) (inside : 0 ≤ indexOf bucketSize bucketCount value) :
    increment (counted bucketSize bucketCount values).buckets (indexOf bucketSize bucketCount value) =
      .ok (counted bucketSize bucketCount (values ++ [value])).buckets := by
  rw [increment, if_pos ⟨inside, by rw [length_counted]; exact indexOf_lt⟩]
  refine congrArg Except.ok (List.ext_getElem (by simp [counted]) fun index inLeft _ => ?_)
  rw [List.getElem_modify]
  simp only [counted, List.getElem_map, List.getElem_range, List.countP_append, List.countP_singleton, positive,
    true_and, Int64.ofNat_add]
  by_cases here : (indexOf bucketSize bucketCount value).toNat = index
  · have same : indexOf bucketSize bucketCount value = index := by omega
    rw [if_pos here, if_pos (decide_eq_true same)]
    rfl
  · have apart : ¬ indexOf bucketSize bucketCount value = index := by omega
    rw [if_neg here, if_neg (by simpa using apart)]
    exact (Int64.add_zero _).symm

/-- A value is counted, or there is no bucket to count it in. -/
theorem add_counted (sized : bucketSize ≠ 0) : (counted bucketSize bucketCount values).add value =
    if value < 0 ∨ 0 ≤ indexOf bucketSize bucketCount value then
      .ok (counted bucketSize bucketCount (values ++ [value]))
    else .error .indexOutOfBounds := by
  rw [add]
  by_cases negative : value < 0
  · rw [if_pos negative, if_pos (.inl negative), counted_negative negative]
    rfl
  · have positive : 0 ≤ value := Int64.not_lt.mp negative
    have length := @length_counted bucketSize bucketCount values
    have unnegative : (counted bucketSize bucketCount values).negative =
        (counted bucketSize bucketCount (values ++ [value])).negative := by
      simp [counted, List.countP_append, negative]
    have incremented : (do
          return { counted bucketSize bucketCount values with
            buckets := ← increment (counted bucketSize bucketCount values).buckets
              (indexOf bucketSize bucketCount value) }) =
        if 0 ≤ indexOf bucketSize bucketCount value then
          Except.ok (counted bucketSize bucketCount (values ++ [value]))
        else .error .indexOutOfBounds := by
      by_cases inside : 0 ≤ indexOf bucketSize bucketCount value
      · rw [increment_counted positive inside, if_pos inside]
        change Except.ok (Histogram.mk _ _ (counted bucketSize bucketCount values).negative) = _
        rw [unnegative]
        rfl
      · rw [increment, if_neg fun both => inside both.1, if_neg inside]
        rfl
    rw [if_neg negative, if_neg (show (counted bucketSize bucketCount values).bucketSize ≠ 0 from sized)]
    simp only [negative, false_or]
    rw [← incremented, length]
    change (if (value / bucketSize.toInt64).toInt32.toInt ≥ bucketCount then _ else _) = _
    rw [indexOf]
    split
    · rfl
    · rfl

theorem addAll_counted (sized : bucketSize ≠ 0) {start : List Int64} {histogram : Histogram} :
    (counted bucketSize bucketCount start).addAll values = .ok histogram ↔
      (∀ value ∈ values, value < 0 ∨ 0 ≤ indexOf bucketSize bucketCount value) ∧
        histogram = counted bucketSize bucketCount (start ++ values) := by
  induction values generalizing start with
  | nil =>
      rw [addAll, List.foldlM_nil, List.append_nil]
      constructor
      · intro same
        cases same
        exact ⟨List.forall_mem_nil _, rfl⟩
      · intro both
        rw [both.2]
        rfl
  | cons value values ih =>
      rw [addAll, List.foldlM_cons, add_counted sized, List.forall_mem_cons]
      by_cases taken : value < 0 ∨ 0 ≤ indexOf bucketSize bucketCount value
      · rw [if_pos taken]
        change (counted bucketSize bucketCount (start ++ [value])).addAll values = _ ↔ _
        rw [ih, List.append_assoc]
        exact ⟨fun both => ⟨⟨taken, both.1⟩, both.2⟩, fun both => ⟨both.1.2, both.2⟩⟩
      · rw [if_neg taken]
        refine ⟨fun same => ?_, fun both => absurd both.1.1 taken⟩
        cases same

/-- Adding values to a fresh histogram counts them all, unless one has no bucket. -/
theorem addAll_apply (sized : bucketSize ≠ 0) {count : Int32} {histogram : Histogram} :
    (apply bucketSize count).addAll values = .ok histogram ↔
      (∀ value ∈ values, value < 0 ∨ 0 ≤ indexOf bucketSize count.toInt.toNat value) ∧
        histogram = counted bucketSize count.toInt.toNat values := by
  have fresh : apply bucketSize count = counted bucketSize count.toInt.toNat [] := counted_nil.symm
  rw [fresh, addAll_counted sized, List.nil_append]

theorem plus_counted (others : List Int64) :
    (counted bucketSize bucketCount values).plus (counted bucketSize bucketCount others) =
      .ok (counted bucketSize bucketCount (values ++ others)) := by
  rw [plus, if_pos ⟨rfl, by rw [length_counted, length_counted]⟩]
  refine congrArg Except.ok ?_
  simp only [counted, List.countP_append, Int32.ofNat_add, List.zipWith_map, List.zipWith_self, Int64.ofNat_add]

end

/-- The bucket of a value: its quotient by the bucket size, or the last one when that is too large. -/
def bucketOf (bucketSize : Int32) (bucketCount : Nat) (value : Int64) : Nat :=
  min (value.toInt / bucketSize.toInt).toNat (bucketCount - 1)

/-- Each bucket counts its values, and `negative` the negative ones. -/
structure Counts (bucketSize : Int32) (bucketCount : Nat) (values : List Int64) (histogram : Histogram) : Prop where
  sized : histogram.bucketSize = bucketSize
  length : histogram.buckets.length = bucketCount
  bucket : ∀ index (inside : index < histogram.buckets.length),
    histogram.buckets[index].toInt =
      values.countP fun value => 0 ≤ value ∧ bucketOf bucketSize bucketCount value = index
  negative : histogram.negative.toInt = values.countP (· < 0)

/-- Adding the values to a fresh histogram counts each of them, and a reset returns all counts and leaves a fresh
histogram. -/
def Collects (bucketSize bucketCount : Int32) (values : List Int64) : Prop :=
  ∃ histogram, (apply bucketSize bucketCount).addAll values = .ok histogram ∧
    Counts bucketSize bucketCount.toInt.toNat values histogram ∧
    histogram.reset = (histogram, apply bucketSize bucketCount)

/-- The sum of two histograms is the histogram of all values. -/
def Sums (bucketSize bucketCount : Int32) (values others : List Int64) : Prop :=
  ∃ first second both, (apply bucketSize bucketCount).addAll values = .ok first ∧
    (apply bucketSize bucketCount).addAll others = .ok second ∧
    (apply bucketSize bucketCount).addAll (values ++ others) = .ok both ∧ first.plus second = .ok both

/-- The quotient of a value fits into 32 bits, or what is left of it there still means the last bucket. -/
def Placed (bucketSize bucketCount : Int32) (value : Int64) : Prop :=
  value.toInt / bucketSize.toInt < 2 ^ 31 ∨
    bucketCount.toInt - 1 ≤ (value / bucketSize.toInt64).toInt32.toInt

instance (bucketSize bucketCount : Int32) (value : Int64) : Decidable (Placed bucketSize bucketCount value) :=
  inferInstanceAs (Decidable (_ ∨ _))

section

variable {bucketSize bucketCount : Int32} {values others : List Int64} {value : Int64}

theorem toInt_quotient (positive : 0 ≤ value) :
    (value / bucketSize.toInt64).toInt = value.toInt / bucketSize.toInt := by
  have nonnegative : 0 ≤ value.toInt := Int64.le_iff_toInt_le.mp positive
  have notLeast : value ≠ Int64.minValue := by
    intro least
    rw [least] at nonnegative
    exact absurd nonnegative (by decide)
  rw [Int64.toInt_div_of_ne_left _ _ notLeast, Int32.toInt_toInt64, Int.tdiv_eq_ediv_of_nonneg nonnegative]

theorem one_le_toInt {word : Int32} (positive : 1 ≤ word) : 1 ≤ word.toInt := Int32.le_iff_toInt_le.mp positive

theorem ne_zero_of_one_le {word : Int32} (positive : 1 ≤ word) : word ≠ 0 := by
  intro zero
  rw [zero] at positive
  exact absurd positive (by decide)

/-- A quotient that fits is the index or beyond the last one. -/
theorem indexOf_of_placed (sized : 1 ≤ bucketSize) (filled : 1 ≤ bucketCount) (positive : 0 ≤ value)
    (placed : Placed bucketSize bucketCount value) :
    indexOf bucketSize bucketCount.toInt.toNat value = bucketOf bucketSize bucketCount.toInt.toNat value := by
  have nonnegative : 0 ≤ value.toInt := Int64.le_iff_toInt_le.mp positive
  have quotient : 0 ≤ value.toInt / bucketSize.toInt :=
    Int.ediv_nonneg nonnegative (Int.le_trans (by decide) (one_le_toInt sized))
  have several := one_le_toInt filled
  have few := bucketCount.toInt_lt
  have cut := Int64.toInt_toInt32 (value / bucketSize.toInt64)
  rw [toInt_quotient positive] at cut
  rw [Placed] at placed
  rw [indexOf, bucketOf]
  by_cases fits : value.toInt / bucketSize.toInt < 2 ^ 31
  · rw [Int.bmod_eq_of_le (by omega) (by omega)] at cut
    rw [cut]
    split
    · omega
    · omega
  · have last := placed.resolve_left fits
    split
    · omega
    · omega

/-- A quotient that does not fit goes to another bucket than the last one, or to none. -/
theorem indexOf_of_not_placed (filled : 1 ≤ bucketCount) (unplaced : ¬ Placed bucketSize bucketCount value) :
    bucketOf bucketSize bucketCount.toInt.toNat value = bucketCount.toInt.toNat - 1 ∧
      indexOf bucketSize bucketCount.toInt.toNat value < bucketCount.toInt.toNat - 1 := by
  have several := one_le_toInt filled
  have few := bucketCount.toInt_lt
  rw [Placed, not_or] at unplaced
  obtain ⟨large, early⟩ := unplaced
  rw [indexOf, bucketOf]
  constructor
  · omega
  · split
    · omega
    · omega

/-- The histogram of values that all go to their buckets. -/
theorem counts_counted (sized : 1 ≤ bucketSize) (filled : 1 ≤ bucketCount) (short : values.length < 2 ^ 31)
    (placed : ∀ value ∈ values, 0 ≤ value → Placed bucketSize bucketCount value) :
    Counts bucketSize bucketCount.toInt.toNat values (counted bucketSize bucketCount.toInt.toNat values) := by
  refine ⟨rfl, length_counted, fun index inside => ?_, ?_⟩
  · have same : (values.countP fun value => 0 ≤ value ∧ indexOf bucketSize bucketCount.toInt.toNat value = index) =
        values.countP fun value => 0 ≤ value ∧ bucketOf bucketSize bucketCount.toInt.toNat value = index := by
      refine List.countP_congr fun value member => ?_
      simp only [decide_eq_true_eq]
      refine and_congr_right fun positive => ?_
      rw [indexOf_of_placed sized filled positive (placed value member positive), Int.natCast_inj]
    have few := @List.countP_le_length _
      (fun value => decide (0 ≤ value ∧ indexOf bucketSize bucketCount.toInt.toNat value = index)) values
    simp only [counted, List.getElem_map, List.getElem_range]
    rw [Int64.toInt_ofNat_of_lt (by omega), same]
  · have few := @List.countP_le_length _ (fun value : Int64 => decide (value < 0)) values
    exact Int32.toInt_ofNat_of_lt (by omega)

theorem collects_of_placed (sized : 1 ≤ bucketSize) (filled : 1 ≤ bucketCount) (short : values.length < 2 ^ 31)
    (placed : ∀ value ∈ values, 0 ≤ value ∧ Placed bucketSize bucketCount value) :
    Collects bucketSize bucketCount values := by
  have apart := ne_zero_of_one_le sized
  have none : values.countP (· < 0) = 0 :=
    List.countP_eq_zero.mpr fun value member => by simpa using (placed value member).1
  have negative : (counted bucketSize bucketCount.toInt.toNat values).negative = 0 := by
    change Int32.ofNat (values.countP (· < 0)) = 0
    rw [none]
    rfl
  refine ⟨_, (addAll_apply apart).mpr ⟨fun value member => .inr ?_, rfl⟩,
    counts_counted sized filled short fun value member _ => (placed value member).2, ?_⟩
  · rw [indexOf_of_placed sized filled (placed value member).1 (placed value member).2]
    exact Int.natCast_nonneg _
  · rw [reset, length_counted, negative]
    refine Prod.ext ?_ rfl
    rw [← negative]

/-- Counts that agree in the last bucket have every value in its own. -/
theorem placed_of_counts (sized : 1 ≤ bucketSize) (filled : 1 ≤ bucketCount) (short : values.length < 2 ^ 31)
    (counts : Counts bucketSize bucketCount.toInt.toNat values (counted bucketSize bucketCount.toInt.toNat values)) :
    ∀ value ∈ values, 0 ≤ value → Placed bucketSize bucketCount value := by
  let last := bucketCount.toInt.toNat - 1
  have several := one_le_toInt filled
  have inside : last < (counted bucketSize bucketCount.toInt.toNat values).buckets.length := by
    rw [length_counted]
    omega
  let gone : Int64 → Bool := fun value => 0 ≤ value ∧ indexOf bucketSize bucketCount.toInt.toNat value = last
  let meant : Int64 → Bool := fun value => 0 ≤ value ∧ bucketOf bucketSize bucketCount.toInt.toNat value = last
  have few : values.countP gone ≤ values.length := List.countP_le_length
  have equal : values.countP gone = values.countP meant := by
    have here := counts.bucket last inside
    simp only [counted, List.getElem_map, List.getElem_range] at here
    change (Int64.ofNat (values.countP gone)).toInt = (values.countP meant : Nat) at here
    rw [Int64.toInt_ofNat_of_lt (by omega)] at here
    exact Int.ofNat_inj.mp here
  have fewer : ∀ value, gone value = true → meant value = true := by
    intro value isGone
    simp only [gone, meant, decide_eq_true_eq] at isGone ⊢
    refine ⟨isGone.1, ?_⟩
    by_contra elsewhere
    have placed : Placed bucketSize bucketCount value := by
      by_contra unplaced
      exact elsewhere (indexOf_of_not_placed filled unplaced).1
    have same := indexOf_of_placed sized filled isGone.1 placed
    omega
  have sub : (values.filter gone).Sublist (values.filter meant) := List.monotone_filter_right values fewer
  have all := sub.eq_of_length (by rw [← List.countP_eq_length_filter, equal, List.countP_eq_length_filter])
  intro value member positive
  by_contra unplaced
  obtain ⟨isLast, early⟩ := indexOf_of_not_placed filled unplaced
  have isMeant : value ∈ values.filter meant :=
    List.mem_filter.mpr ⟨member, decide_eq_true ⟨positive, isLast⟩⟩
  rw [← all] at isMeant
  have isGone := of_decide_eq_true (List.mem_filter.mp isMeant).2
  omega

theorem placed_of_collects (sized : 1 ≤ bucketSize) (filled : 1 ≤ bucketCount) (short : values.length < 2 ^ 31)
    (collects : Collects bucketSize bucketCount values) :
    ∀ value ∈ values, 0 ≤ value ∧ Placed bucketSize bucketCount value := by
  obtain ⟨histogram, added, counts, emptied⟩ := collects
  have apart := ne_zero_of_one_le sized
  obtain ⟨-, rfl⟩ := (addAll_apply apart).mp added
  have negative : (counted bucketSize bucketCount.toInt.toNat values).negative = 0 :=
    (congrArg (fun pair => pair.1.negative) emptied).symm
  have none := counts.negative
  rw [negative] at none
  intro value member
  have positive : 0 ≤ value := by
    have unnegative := List.countP_eq_zero.mp (Int.ofNat_inj.mp none.symm) value member
    simpa using unnegative
  exact ⟨positive, placed_of_counts sized filled short counts value member positive⟩

/-- A histogram counts all values and gives them back at a reset where none is negative and no quotient is cut to
the index of another bucket. -/
theorem histogram_collects (sized : 1 ≤ bucketSize) (filled : 1 ≤ bucketCount) (short : values.length < 2 ^ 31)
    (shortOthers : others.length < 2 ^ 31) :
    (Collects bucketSize bucketCount values ∧ Collects bucketSize bucketCount others ∧
        Sums bucketSize bucketCount values others) ↔
      ∀ value ∈ values ++ others, 0 ≤ value ∧ Placed bucketSize bucketCount value := by
  have apart := ne_zero_of_one_le sized
  rw [List.forall_mem_append]
  constructor
  · intro all
    exact ⟨placed_of_collects sized filled short all.1, placed_of_collects sized filled shortOthers all.2.1⟩
  · intro placed
    have first := collects_of_placed sized filled short placed.1
    have second := collects_of_placed sized filled shortOthers placed.2
    refine ⟨first, second, ?_⟩
    obtain ⟨_, addedFirst, -⟩ := first
    obtain ⟨_, addedSecond, -⟩ := second
    have takenFirst := (addAll_apply apart).mp addedFirst
    have takenSecond := (addAll_apply apart).mp addedSecond
    have both := (addAll_apply apart).mpr ⟨List.forall_mem_append.mpr ⟨takenFirst.1, takenSecond.1⟩, rfl⟩
    refine ⟨_, _, _, addedFirst, addedSecond, both, ?_⟩
    rw [takenFirst.2, takenSecond.2]
    exact plus_counted others

theorem response_times_collected :
    Collects 10 3 [0, 25, 1000] ∧ Collects 10 3 [5, 42949673010] ∧
      Sums 10 3 [0, 25, 1000] [5, 42949673010] := by
  have placed : (([0, 25, 1000] ++ [5, 42949673010] : List Int64).all fun value =>
      decide (0 ≤ value ∧ Placed 10 3 value)) = true := by
    decide
  exact (histogram_collects (by decide) (by decide) (by decide) (by decide)).mpr fun value member =>
    of_decide_eq_true (List.all_eq_true.mp placed value member)

/-- The quotient of 2^31 is cut to a negative index, and a reset forgets `negative` and keeps it. -/
theorem values_lost :
    (apply 1 3).addAll [2147483648] = .error .indexOutOfBounds ∧ ¬ Collects 1 3 [2147483648] ∧
      (apply 1 3).addAll [4294967296] = .ok ⟨1, [1, 0, 0], 0⟩ ∧
      (apply 1 3).addAll [-1] = .ok ⟨1, [0, 0, 0], 1⟩ ∧
      (⟨1, [0, 0, 0], 1⟩ : Histogram).reset = (⟨1, [0, 0, 0], 0⟩, ⟨1, [0, 0, 0], 1⟩) ∧ ¬ Collects 1 3 [-1] := by
  have thrown : (apply 1 3).addAll [2147483648] = .error .indexOutOfBounds := by decide
  have added : (apply 1 3).addAll [-1] = .ok ⟨1, [0, 0, 0], 1⟩ := by decide
  refine ⟨thrown, ?_, by decide, added, by decide, ?_⟩
  · intro collects
    obtain ⟨histogram, collected, -⟩ := collects
    cases thrown.symm.trans collected
  · intro collects
    obtain ⟨histogram, collected, -, emptied⟩ := collects
    cases added.symm.trans collected
    exact absurd emptied (by decide)

end

end Histogram

end Scads.Perf
