import Mathlib.Algebra.BigOperators.Group.Multiset.Basic
import Mathlib.Tactic.FieldSimp
import Mathlib.Tactic.Ring
import Scads.Client.AggregatedRecords
import Scads.Data.FloatBits
import Scads.Data.Summaries
import Scads.Data.Words

namespace Scads.Client

open Scads.Data Scads.Comm Scads.Server

/-! # The built-in aggregates

A remote aggregate folds the records of a partition, and a local one the results of
the partitions.  Doubles are rational numbers with exact arithmetic where they are
added, and 64 bits where they are compared.
-/

structure CountAggContainer where
  curcount : Int
  curval : ℚ
deriving DecidableEq

namespace BuiltinAggregates

section

variable {K V D T : Type}

def avgFold (ag : CountAggContainer) (value : ℚ) : CountAggContainer :=
  let curcount := int32 (ag.curcount + 1)
  ⟨curcount, ag.curval + (value - ag.curval) / curcount⟩

def avgRemote (field : AggregateField V ℚ) : RemoteAggregate Int K V CountAggContainer :=
  overField field ⟨0, 0⟩ avgFold

/-- The bits of the doubles.  `MIN_VALUE` is the least positive one. -/
def infinity : BitVec 64 := 0x7ff0000000000000#64

def minValue : BitVec 64 := 1#64

def maxValue : BitVec 64 := 0x7fefffffffffffff#64

/-- The new value takes the place of a current one that it beats. -/
def keepBetter {α : Type} (beats : α → α → Bool) (cur next : α) : α := if beats next cur then next else cur

def greater (left right : BitVec 64) : Bool := lessFloats infinity right left

def less (left right : BitVec 64) : Bool := lessFloats infinity left right

def maxRemote (field : AggregateField V (BitVec 64)) : RemoteAggregate Int K V (BitVec 64) :=
  overField field minValue (keepBetter greater)

def minRemote (field : AggregateField V (BitVec 64)) : RemoteAggregate Int K V (BitVec 64) :=
  overField field maxValue (keepBetter less)

end

def maxLocal : LocalAggregate (BitVec 64) (BitVec 64) where
  init := minValue
  foldFunction := keepBetter greater
  finalize curval := curval

def minLocal : LocalAggregate (BitVec 64) (BitVec 64) where
  init := maxValue
  foldFunction := keepBetter less
  finalize curval := curval

def avgLocal : LocalAggregate CountAggContainer ℚ where
  init := ⟨0, 0⟩
  foldFunction cur next := ⟨int32 (cur.curcount + next.curcount), cur.curval + next.curval * next.curcount⟩
  finalize f := f.curval / f.curcount

end BuiltinAggregates

section

variable {G T R : Type} [DecidableEq G]

/-- The results of one group, added as they come and then finished. -/
def LocalAggregate.combined (aggregate : LocalAggregate T R) (group : Option G) (results : List T) :
    Except Failure R :=
  aggregate.finishForGroup (results.foldl (fun replies result => replies.addForGroup group result) {}) group

/-- The results that are there for a group. -/
def LocalResults.held (replies : LocalResults G T) : Option G → Option (List T)
  | none => replies.curBuilder
  | some group => replies.replyMap.lookup group

theorem LocalResults.addForGroup_held (replies : LocalResults G T) (group : Option G) (result : T) :
    (replies.addForGroup group result).held group = some ((replies.held group).getD [] ++ [result]) := by
  cases group with
  | none => rfl
  | some group => exact AList.lookup_insert _

theorem LocalResults.foldl_held (replies : LocalResults G T) (group : Option G) (result : T) (results : List T) :
    ((result :: results).foldl (fun replies result => replies.addForGroup group result) replies).held group =
      some ((replies.held group).getD [] ++ result :: results) := by
  induction results generalizing replies result with
  | nil => exact replies.addForGroup_held group result
  | cons next rest ih =>
      rw [List.foldl_cons, ih, replies.addForGroup_held, Option.getD_some, List.append_assoc]
      rfl

theorem LocalAggregate.finishForGroup_held (aggregate : LocalAggregate T R) {replies : LocalResults G T}
    {group : Option G} {results : List T} (held : replies.held group = some results) :
    aggregate.finishForGroup replies group =
      .ok (aggregate.finalize (results.foldl aggregate.foldFunction aggregate.init)) := by
  cases group with
  | none =>
      rw [LocalResults.held] at held
      simp only [finishForGroup, held]
  | some group =>
      rw [LocalResults.held] at held
      simp only [finishForGroup, held]

theorem LocalAggregate.combined_eq (aggregate : LocalAggregate T R) (group : Option G) {results : List T}
    (nonempty : results ≠ []) :
    aggregate.combined group results =
      .ok (aggregate.finalize (results.foldl aggregate.foldFunction aggregate.init)) := by
  obtain ⟨result, rest, rfl⟩ := List.exists_cons_of_ne_nil nonempty
  have held := LocalResults.foldl_held ({} : LocalResults G T) group result rest
  have empty : ({} : LocalResults G T).held group = none := by
    cases group with
    | none => rfl
    | some group => rfl
  rw [empty, Option.getD_none, List.nil_append] at held
  exact aggregate.finishForGroup_held held

end

namespace BuiltinAggregates

section

variable {K V D T R G : Type} [DecidableEq G] {field : AggregateField V D}

/-- The result of a local aggregate for the partitions of a collection, in any order. -/
theorem combined_overField {init : T} {fold : T → D → T} {aggregate : LocalAggregate T R}
    {partly wholly : T → Multiset D → Prop}
    (summarizes : Summarizes init fold aggregate.init aggregate.foldFunction partly wholly)
    {partitions arrived : List (List (K × V))} (arrival : arrived.Perm partitions)
    (nonempty : partitions.flatten ≠ []) (group : Option G) :
    ∃ total,
      aggregate.combined group (arrived.map (overField field init fold).folded) = .ok (aggregate.finalize total) ∧
      wholly total ((partitions.flatten.map fun record => field.of record.2 : List D) : Multiset D) := by
  have some_result : arrived.map (overField field init fold).folded ≠ [] := by
    intro none
    rw [List.map_eq_nil_iff] at none
    subst none
    exact nonempty (by rw [arrival.nil_eq.symm, List.flatten_nil])
  refine ⟨_, aggregate.combined_eq group some_result, ?_⟩
  have whole := summarizes.combined (arrival.map (List.map fun record => field.of record.2))
  rw [← List.map_flatten, List.map_map] at whole
  rw [List.map_congr_left fun records _ => overField_folded init fold records]
  exact whole

end

section

variable {K V G : Type} [DecidableEq G] {field : AggregateField V ℚ}

/-- As long as the values can be counted, a partial result is their number and their mean. -/
def Averages (ag : CountAggContainer) (values : Multiset ℚ) : Prop :=
  values.card < 2 ^ 31 → ag.curcount = values.card ∧ ag.curval * values.card = values.sum

/-- The local aggregate has the sum where a partial result has the mean. -/
def Totals (cur : CountAggContainer) (values : Multiset ℚ) : Prop :=
  values.card < 2 ^ 31 → cur.curcount = values.card ∧ cur.curval = values.sum

theorem avgFold_averages {ag : CountAggContainer} {values : Multiset ℚ} (value : ℚ) (averages : Averages ag values) :
    Averages (avgFold ag value) (values + {value}) := by
  intro few
  rw [Multiset.card_add, Multiset.card_singleton] at few ⊢
  obtain ⟨count, mean⟩ := averages (Nat.lt_of_succ_lt few)
  have next : int32 (ag.curcount + 1) = (values.card + 1 : Nat) := by
    rw [count]
    exact_mod_cast int32_natCast few
  have nonzero : ((values.card : ℚ) + 1) ≠ 0 := by positivity
  refine ⟨next, ?_⟩
  rw [avgFold, next, Multiset.sum_add, Multiset.sum_singleton, ← mean]
  push_cast
  field_simp
  ring

theorem avg_summarizes : Summarizes ⟨0, 0⟩ avgFold avgLocal.init avgLocal.foldFunction Averages Totals where
  init := fun _ => ⟨rfl, by simp⟩
  step := fun value averages => avgFold_averages value averages
  start := fun _ => ⟨rfl, rfl⟩
  combine := by
    intro total values result more totals averages few
    rw [Multiset.card_add] at few ⊢
    obtain ⟨count, sum⟩ := totals (by omega)
    obtain ⟨added, mean⟩ := averages (by omega)
    have joined : int32 (total.curcount + result.curcount) = (values.card + more.card : Nat) := by
      rw [count, added]
      exact_mod_cast int32_natCast few
    have weighted : total.curval + result.curval * result.curcount = (values + more).sum := by
      rw [Multiset.sum_add, sum, added, ← mean]
      push_cast
      rfl
    exact ⟨joined, weighted⟩

theorem sum_summarizes : Summarizes (0 : ℚ) (fun curval value => curval + value) sumLocal.init sumLocal.foldFunction
    (fun curval values => curval = values.sum) (fun curval values => curval = values.sum) where
  init := rfl
  step := by
    intro curval values value sum
    rw [sum, Multiset.sum_add, Multiset.sum_singleton]
  start := rfl
  combine := by
    intro total values curval more sum added
    rw [sum, added, Multiset.sum_add]
    rfl

/-- However the records are cut into partitions and in whatever order the replies come,
the average and the sum are those of all the values. -/
theorem average_and_sum_distribute {partitions arrived : List (List (K × V))} (arrival : arrived.Perm partitions)
    (nonempty : partitions.flatten ≠ []) (few : partitions.flatten.length < 2 ^ 31) (group : Option G) :
    let values := partitions.flatten.map fun record => field.of record.2
    avgLocal.combined group (arrived.map (avgRemote field).folded) = .ok (values.sum / values.length) ∧
      sumLocal.combined group (arrived.map (sumRemote field).folded) = .ok values.sum := by
  intro values
  constructor
  · obtain ⟨total, combined, totals⟩ := @combined_overField _ _ _ _ _ _ _ field _ _ _ _ _ avg_summarizes _ _
      arrival nonempty group
    rw [avgRemote, combined]
    obtain ⟨count, sum⟩ := totals (by rwa [Multiset.coe_card, List.length_map])
    change Except.ok (total.curval / total.curcount) = _
    rw [count, sum, Multiset.coe_card, Multiset.sum_coe]
    rfl
  · obtain ⟨total, combined, sum⟩ := @combined_overField _ _ _ _ _ _ _ field _ _ _ _ _ sum_summarizes _ _
      arrival nonempty group
    rw [sumRemote, combined, sum, Multiset.sum_coe]
    rfl

/-- The second column of a row. -/
def ratings : AggregateField (List ℚ) ℚ := ⟨1, fun row pos => row.getD pos.toNat 0⟩

theorem average_of_three_ratings :
    let arrived : List (List (Nat × List ℚ)) := [[(3, [0, 6])], [(1, [0, 1]), (2, [0, 2])]]
    avgLocal.combined (none : Option Nat) (arrived.map (avgRemote ratings).folded) = .ok 3 ∧
      sumLocal.combined (none : Option Nat) (arrived.map (sumRemote ratings).folded) = .ok 9 := by
  intro arrived
  have partitions : arrived.Perm [[(1, [0, 1]), (2, [0, 2])], [(3, [0, 6])]] := List.Perm.swap _ _ _
  obtain ⟨average, sum⟩ := @average_and_sum_distribute _ _ _ _ ratings _ _ partitions (by decide) (by decide)
    (none : Option Nat)
  refine ⟨average.trans ?_, sum.trans ?_⟩
  · norm_num [ratings, AggregateField.of]
  · norm_num [ratings, AggregateField.of]

end

end BuiltinAggregates

end Scads.Client
