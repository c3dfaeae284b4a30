import Mathlib.Algebra.GroupWithZero.Nat
import Mathlib.Algebra.Ring.Rat
import Mathlib.Data.List.AList
import Scads.Server.IterateOverRange

namespace Scads.Server

/-! # Aggregating the records of a partition

`BdbStorageManager.applyAggregate` goes over all records of the database, whatever
partition it is asked for.  Doubles are rational numbers here, with exact arithmetic.
-/

/-- `σ` has the variables of the aggregate, which it keeps from record to record. -/
structure RemoteAggregate (σ K V T : Type) where
  fresh : σ
  init : T
  applyAggregate : σ → T → K → V → T × σ
  stop : σ → Bool

structure GroupedAgg (B T : Type) where
  group : Option B
  groupVals : List T

/-- The key and the bytes of the group of a record. -/
structure Grouping (V G B : Type) where
  getGroupKey : V → G
  getGroupBytes : V → B

/-- The variables of `applyAggregate`. -/
structure Tally (σ G B T : Type) where
  states : List σ
  curAggVal : List T
  groupMap : AList fun _ : G => List T
  groupBytesMap : AList fun _ : G => B

section

variable {σ K V G B T : Type}

/-- One record for every aggregate, and whether all of them want to stop. -/
def applyEach (key : K) (value : V) :
    List (RemoteAggregate σ K V T) → List σ → List T → List T × List σ × Bool
  | aggregate :: aggregates, state :: states, curAggVal :: curAggVals =>
      let (result, state) := aggregate.applyAggregate state curAggVal key value
      let (results, states, stop) := applyEach key value aggregates states curAggVals
      (result :: results, state :: states, aggregate.stop state && stop)
  | _, states, curAggVals => (curAggVals, states, true)

variable [DecidableEq G]

/-- What the loop does with a record, and whether it breaks off after it. -/
def Tally.visit (filters : List (V → Bool)) (aggregates : List (RemoteAggregate σ K V T))
    (groups : Option (Grouping V G B)) (tally : Tally σ G B T) (key : K) (value : V) : Tally σ G B T × Bool :=
  if filters.all (· value) then
    match groups with
    | none =>
        let (curAggVal, states, stop) := applyEach key value aggregates tally.states tally.curAggVal
        ({ tally with curAggVal, states }, stop)
    | some grouping =>
        let groupKey := grouping.getGroupKey value
        let (started, groupBytesMap) :=
          match tally.groupMap.lookup groupKey with
          | some thing => (thing, tally.groupBytesMap)
          | none => (aggregates.map RemoteAggregate.init,
              tally.groupBytesMap.insert groupKey (grouping.getGroupBytes value))
        let (curAggVal, states, stop) := applyEach key value aggregates tally.states started
        ({ tally with states, groupMap := tally.groupMap.insert groupKey curAggVal, groupBytesMap }, stop)
  else (tally, false)

def Tally.visitAll (filters : List (V → Bool)) (aggregates : List (RemoteAggregate σ K V T))
    (groups : Option (Grouping V G B)) : List (K × V) → Tally σ G B T → Tally σ G B T
  | [], tally => tally
  | (key, value) :: rest, tally =>
      let (tally, stop) := tally.visit filters aggregates groups key value
      if stop then tally else tally.visitAll filters aggregates groups rest

/-- The records that are left when the loop breaks off. -/
def Tally.unseen (filters : List (V → Bool)) (aggregates : List (RemoteAggregate σ K V T))
    (groups : Option (Grouping V G B)) : List (K × V) → Tally σ G B T → Option (List (K × V))
  | [], _ => none
  | (key, value) :: rest, tally =>
      let (tally, stop) := tally.visit filters aggregates groups key value
      if stop then some rest else Tally.unseen filters aggregates groups rest tally

theorem Tally.visitAll_append {filters : List (V → Bool)} {aggregates : List (RemoteAggregate σ K V T)}
    {groups : Option (Grouping V G B)} {first : List (K × V)} {tally : Tally σ G B T}
    (whole : Tally.unseen filters aggregates groups first tally = none) (second : List (K × V)) :
    tally.visitAll filters aggregates groups (first ++ second) =
        (tally.visitAll filters aggregates groups first).visitAll filters aggregates groups second ∧
      Tally.unseen filters aggregates groups (first ++ second) tally =
        Tally.unseen filters aggregates groups second (tally.visitAll filters aggregates groups first) := by
  induction first generalizing tally with
  | nil => exact ⟨rfl, rfl⟩
  | cons record rest ih =>
      obtain ⟨key, value⟩ := record
      rw [unseen] at whole
      rw [List.cons_append, visitAll, unseen, visitAll]
      dsimp only at whole ⊢
      split at whole
      · cases whole
      · next going =>
          simp only [going]
          exact ih whole

theorem Tally.visitAll_singleton (filters : List (V → Bool)) (aggregates : List (RemoteAggregate σ K V T))
    (groups : Option (Grouping V G B)) (record : K × V) (tally : Tally σ G B T) :
    tally.visitAll filters aggregates groups [record] =
        (tally.visit filters aggregates groups record.1 record.2).1 ∧
      Tally.unseen filters aggregates groups [record] tally =
        if (tally.visit filters aggregates groups record.1 record.2).2 then some [] else none := by
  refine ⟨?_, rfl⟩
  rw [visitAll]
  dsimp only
  split
  · rfl
  · rfl

variable {W : Type} [LinearOrder K]

/-- The records that an aggregation looks at, as `parse` reads the stored values. -/
def Database.aggregated (database : Database K W) (parse : W → V) : List (K × V) :=
  (database.iterateOverRange none none none none true true).map fun entry => (entry.1, parse entry.2)

def Database.applyAggregate (database : Database K W) (parse : W → V) (groups : Option (Grouping V G B))
    (filters : List (V → Bool)) (aggregates : List (RemoteAggregate σ K V T)) : List (GroupedAgg B T) :=
  let tally : Tally σ G B T := ⟨aggregates.map RemoteAggregate.fresh, aggregates.map RemoteAggregate.init, ∅, ∅⟩
  let tally := tally.visitAll filters aggregates groups (database.aggregated parse)
  match groups with
  | none => [⟨none, tally.curAggVal⟩]
  | some _ => tally.groupMap.entries.map fun group => ⟨tally.groupBytesMap.lookup group.1, group.2⟩

end

section

variable {σ K V G B T W : Type} [DecidableEq G] [LinearOrder K]

/-- The result and the variables of an aggregate that gets one record after the other. -/
def RemoteAggregate.foldRecords (aggregate : RemoteAggregate σ K V T) (records : List (K × V)) (start : T × σ) :
    T × σ :=
  records.foldl (fun ag record => aggregate.applyAggregate ag.2 ag.1 record.1 record.2) start

def RemoteAggregate.folded (aggregate : RemoteAggregate σ K V T) (records : List (K × V)) : T :=
  (aggregate.foldRecords records (aggregate.init, aggregate.fresh)).1

/-- The field that an aggregate reads.  All values of a namespace have one schema, and
`toDouble` reads the value at a position. -/
structure AggregateField (V D : Type) where
  pos : Nat
  toDouble : V → Int → D

def AggregateField.of {D : Type} (field : AggregateField V D) (value : V) : D := field.toDouble value field.pos

/-- The aggregates that keep nothing but `pos`, which they update at the first record. -/
def overField {D : Type} (field : AggregateField V D) (init : T) (fold : T → D → T) : RemoteAggregate Int K V T where
  fresh := -1
  init := init
  applyAggregate pos ag _ value :=
    let pos : Int := if pos < 0 then field.pos else pos
    (fold ag (field.toDouble value pos), pos)
  stop _ := false

def sumRemote (field : AggregateField V ℚ) : RemoteAggregate Int K V ℚ :=
  overField field 0 fun curval value => curval + value

/-- An aggregation looks at every record of the database. -/
theorem Database.aggregated_eq (database : Database K W) (parse : W → V) :
    database.aggregated parse = database.entries.map fun entry => (entry.1, parse entry.2) := by
  rw [aggregated, iterateOverRange_visit, visit_eq, ahead_ascending]
  simp only [limited, Option.map_none, Option.all_none, if_true, Option.getD_none, Int.toNat_zero, List.drop_zero,
    List.filter_true]
  rw [List.takeWhile_eq_self_iff.mpr fun entry _ => rfl]

omit [LinearOrder K] in
theorem visitAll_folded {aggregate : RemoteAggregate σ K V T} (goes_on : ∀ state, aggregate.stop state = false)
    (records : List (K × V)) (ag : T × σ) :
    Tally.visitAll [] [aggregate] none records ⟨[ag.2], [ag.1], (∅ : AList fun _ : G => List T),
      (∅ : AList fun _ : G => B)⟩ =
      ⟨[(aggregate.foldRecords records ag).2], [(aggregate.foldRecords records ag).1], ∅, ∅⟩ := by
  induction records generalizing ag with
  | nil => rfl
  | cons record rest ih =>
      rw [Tally.visitAll, Tally.visit, List.all_nil, if_pos rfl]
      simp only [applyEach, goes_on, Bool.false_and, Bool.false_eq_true, if_false]
      exact ih (aggregate.applyAggregate ag.2 ag.1 record.1 record.2)

/-- An aggregation without groups and filters folds the records of the database. -/
theorem Database.applyAggregate_folded {aggregate : RemoteAggregate σ K V T}
    (goes_on : ∀ state, aggregate.stop state = false) (database : Database K W) (parse : W → V) :
    database.applyAggregate parse (none : Option (Grouping V G B)) [] [aggregate] =
      [⟨none, [aggregate.folded (database.entries.map fun entry => (entry.1, parse entry.2))]⟩] := by
  have folded := @visitAll_folded σ K V G B T _ aggregate goes_on (database.aggregated parse)
    (aggregate.init, aggregate.fresh)
  rw [Database.applyAggregate]
  simp only [List.map_cons, List.map_nil]
  rw [folded, database.aggregated_eq]
  rfl

section

variable {D : Type} {field : AggregateField V D}

omit [LinearOrder K] in
/-- Once the field is found every record is read at its position. -/
theorem overField_foldRecords (init : T) (fold : T → D → T) (records : List (K × V)) {start : T × Int}
    (found : start.2 < 0 ∨ start.2 = field.pos) :
    ((overField field init fold).foldRecords records start).1 =
      (records.map fun record => field.of record.2).foldl fold start.1 := by
  induction records generalizing start with
  | nil => rfl
  | cons record rest ih =>
      have pos : (if start.2 < 0 then (field.pos : Int) else start.2) = field.pos := by
        cases found with
        | inl unknown => rw [if_pos unknown]
        | inr known => rw [known, ite_self]
      have next : (overField field init fold).applyAggregate start.2 start.1 record.1 record.2 =
          (fold start.1 (field.of record.2), (field.pos : Int)) := by
        simp only [overField, pos, AggregateField.of]
      rw [RemoteAggregate.foldRecords, List.foldl_cons, next, List.map_cons, List.foldl_cons]
      exact ih (.inr rfl)

omit [LinearOrder K] in
theorem overField_folded (init : T) (fold : T → D → T) (records : List (K × V)) :
    (overField field init fold).folded records = (records.map fun record => field.of record.2).foldl fold init :=
  overField_foldRecords init fold records (.inl (by decide : (-1 : Int) < 0))

end

omit [LinearOrder K] in
theorem sumRemote_folded (field : AggregateField V ℚ) (records : List (K × V)) :
    (sumRemote field).folded records = (records.map fun record => field.of record.2).sum := by
  rw [sumRemote, overField_folded, List.sum_eq_foldl]

/-- A sum without groups and filters is over all records of the database. -/
theorem Database.applyAggregate_sum (database : Database K W) (parse : W → V) (field : AggregateField V ℚ) :
    database.applyAggregate parse (none : Option (Grouping V G B)) [] [sumRemote field] =
      [⟨none, [(database.entries.map fun entry => field.of (parse entry.2)).sum]⟩] := by
  rw [Database.applyAggregate_folded (fun _ => rfl), sumRemote_folded, List.map_map]
  rfl

end

end Scads.Server
