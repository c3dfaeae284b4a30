import Scads.Client.BuiltinAggregates
import Scads.Data.Prefix

namespace Scads.Client.BuiltinAggregates

open Scads.Data Scads.Comm Scads.Server

/-! # Averages of a sample

The count of a group is in its container, but the running mean, the position of the
field and the flag that stops the scan belong to the aggregate, whatever the group.
-/

/-- The variables of `SampleAvgRemote`, without the errors that nothing reads. -/
structure SampleState where
  pos : Int := -1
  Mk : ℚ := 0
  Mkp : ℚ := 0
  Sk : ℚ := 0
  Skp : ℚ := 0
  stop : Bool := false

section

variable {K V : Type} (field : AggregateField V ℚ)

def SampleState.welford (state : SampleState) (value : V) (curcount : Int) : SampleState :=
  if state.pos < 0 then
    let pos : Int := field.pos
    { state with pos, Mk := field.toDouble value pos, Mkp := field.toDouble value pos, Skp := 0 }
  else
    let x := field.toDouble value state.pos
    let Mk := state.Mkp + (x - state.Mkp) / curcount
    let Sk := state.Skp + (x - state.Mkp) * (x - Mk)
    { state with Mk, Sk, Mkp := Mk, Skp := Sk }

def sampleAvgRemote (limit : Int) (hard : Bool) : RemoteAggregate SampleState K V CountAggContainer where
  fresh := {}
  init := ⟨0, 0⟩
  applyAggregate state ag _ value :=
    let curcount := int32 (ag.curcount + 1)
    let state := if limit < curcount then { state with stop := true } else state
    if limit < curcount ∧ hard = true then (⟨curcount, ag.curval⟩, state)
    else
      let state := state.welford field value curcount
      (⟨curcount, state.Mk⟩, state)
  stop state := state.stop

end

def mean (values : List ℚ) : ℚ := values.sum / values.length

section

variable {K V G B : Type} [DecidableEq G] (field : AggregateField V ℚ) (grouping : Grouping V G B) (limit : Int)

def groupValues (group : G) (records : List (K × V)) : List ℚ :=
  (records.filter fun record => grouping.getGroupKey record.2 = group).map fun record => field.of record.2

/-- The tally at the start of `applyAggregate`. -/
def sampleStart : Tally SampleState G B CountAggContainer := ⟨[{}], [⟨0, 0⟩], ∅, ∅⟩

def sampleScan (records : List (K × V)) : Tally SampleState G B CountAggContainer :=
  sampleStart.visitAll [] [sampleAvgRemote field limit true] (some grouping) records

def sampleSeen (records : List (K × V)) : List (K × V) :=
  let left := Tally.unseen [] [sampleAvgRemote field limit true] (some grouping) records sampleStart
  records.take (records.length - (left.getD []).length)

/-- What the sample of a group should be. -/
def sampleOf (values : List ℚ) : Option (List CountAggContainer) :=
  if values = [] then none
  else some [⟨(values.take limit.toNat).length, mean (values.take limit.toNat)⟩]

/-- Every group has the number and the mean of its first values among the records that the
scan saw, and the scan saw all records or enough of every group. -/
structure GroupsAveraged (records : List (K × V)) : Prop where
  groups : ∀ group, (sampleScan field grouping limit records).groupMap.lookup group =
    sampleOf limit (groupValues field grouping group (sampleSeen field grouping limit records))
  finished : sampleSeen field grouping limit records = records ∨ ∀ record ∈ records,
    limit ≤ (groupValues field grouping (grouping.getGroupKey record.2)
      (sampleSeen field grouping limit records)).length

/-- The group of the record is not full yet, and the mean of its values so far, if there
are any, is that of the group of the record before. -/
structure Sampleable (before : List (K × V)) (record : K × V) : Prop where
  room : ((groupValues field grouping (grouping.getGroupKey record.2) before).length : Int) < limit
  same_mean : groupValues field grouping (grouping.getGroupKey record.2) before ≠ [] →
    ∀ last ∈ before.getLast?, mean (groupValues field grouping (grouping.getGroupKey last.2) before) =
      mean (groupValues field grouping (grouping.getGroupKey record.2) before)

end

/-- Welford's step gives the mean if it starts from the mean of the values before. -/
theorem welford_mean (values : List ℚ) (start value : ℚ) :
    start + (value - start) / (values.length + 1 : Nat) = mean (values ++ [value]) ↔
      (values ≠ [] → start = mean values) := by
  have positive : ((values.length + 1 : Nat) : ℚ) ≠ 0 := Nat.cast_ne_zero.mpr (Nat.succ_ne_zero _)
  rw [mean, List.sum_append, List.sum_singleton, List.length_append, List.length_singleton, eq_div_iff positive]
  have expanded : (start + (value - start) / (values.length + 1 : Nat)) * (values.length + 1 : Nat) =
      start * values.length + value := by
    rw [add_mul, div_mul_cancel₀ _ positive]
    push_cast
    ring
  rw [expanded, add_left_inj]
  cases values with
  | nil =>
      rw [List.length_nil, Nat.cast_zero, mul_zero, List.sum_nil]
      exact iff_of_true rfl fun nonempty => absurd rfl nonempty
  | cons first rest =>
      have nonzero : (((first :: rest).length : Nat) : ℚ) ≠ 0 := Nat.cast_ne_zero.mpr (Nat.succ_ne_zero _)
      rw [mean, eq_div_iff nonzero]
      exact ⟨fun same _ => same, fun same => same (List.cons_ne_nil _ _)⟩

theorem mean_singleton (value : ℚ) : mean [value] = value := by
  rw [mean, List.sum_singleton, List.length_singleton, Nat.cast_one, div_one]

section

variable {K V G B : Type} [DecidableEq G] {field : AggregateField V ℚ} {grouping : Grouping V G B} {limit : Int}
  {before records : List (K × V)} {record : K × V}

theorem groupValues_snoc (group : G) :
    groupValues field grouping group (before ++ [record]) = groupValues field grouping group before ++
      if grouping.getGroupKey record.2 = group then [field.of record.2] else [] := by
  rw [groupValues, groupValues, List.filter_append, List.map_append]
  by_cases same : grouping.getGroupKey record.2 = group
  · simp [same]
  · simp [same]

/-- What `applyAggregate` does with one record. -/
theorem visit_sample {tally : Tally SampleState G B CountAggContainer} {state : SampleState}
    {ag : CountAggContainer} {step : CountAggContainer × SampleState} (states : tally.states = [state])
    (held : (tally.groupMap.lookup (grouping.getGroupKey record.2)).getD [⟨0, 0⟩] = [ag])
    (taken : (sampleAvgRemote field limit true : RemoteAggregate SampleState K V CountAggContainer).applyAggregate
      state ag record.1 record.2 = step) :
    ∃ groupBytesMap, tally.visit [] [sampleAvgRemote field limit true] (some grouping) record.1 record.2 =
      (⟨[step.2], tally.curAggVal, tally.groupMap.insert (grouping.getGroupKey record.2) [step.1], groupBytesMap⟩,
        step.2.stop) := by
  subst taken
  rw [Tally.visit, List.all_nil, if_pos rfl]
  dsimp only
  rw [states]
  cases found : tally.groupMap.lookup (grouping.getGroupKey record.2) with
  | none =>
      rw [found] at held
      cases held
      exact ⟨_, congrArg (Prod.mk _) (Bool.and_true _)⟩
  | some values =>
      rw [found] at held
      cases held
      exact ⟨_, congrArg (Prod.mk _) (Bool.and_true _)⟩

/-- The scan took all records, nothing stopped it, and the running mean is that of the
group of the last record. -/
structure Scanned (field : AggregateField V ℚ) (grouping : Grouping V G B) (limit : Int)
    (records : List (K × V)) : Prop where
  whole : Tally.unseen [] [sampleAvgRemote field limit true] (some grouping) records sampleStart = none
  state : ∃ state, (sampleScan field grouping limit records).states = [state] ∧ state.stop = false ∧
    (records = [] ∧ state.pos < 0 ∨ state.pos = field.pos ∧ ∃ last ∈ records.getLast?,
      state.Mkp = mean (groupValues field grouping (grouping.getGroupKey last.2) records))
  groups : ∀ group, (sampleScan field grouping limit records).groupMap.lookup group =
    if groupValues field grouping group records = [] then none
    else some [⟨(groupValues field grouping group records).length, mean (groupValues field grouping group records)⟩]
  room : ∀ group, ((groupValues field grouping group records).length : Int) ≤ limit

theorem scanned_nil (positive : 1 ≤ limit) : Scanned field grouping limit ([] : List (K × V)) where
  whole := rfl
  state := ⟨{}, rfl, rfl, .inl ⟨rfl, by decide⟩⟩
  groups := fun _ => rfl
  room := fun _ => by
    change (0 : Int) ≤ limit
    omega

/-- The step that is taken with the next record. -/
def nextStep (field : AggregateField V ℚ) (grouping : Grouping V G B) (limit : Int) (before : List (K × V))
    (state : SampleState) (record : K × V) : CountAggContainer × SampleState :=
  let values := groupValues field grouping (grouping.getGroupKey record.2) before
  (sampleAvgRemote field limit true : RemoteAggregate SampleState K V CountAggContainer).applyAggregate state
    ⟨values.length, mean values⟩ record.1 record.2

theorem Scanned.next (scanned : Scanned field grouping limit before) (record : K × V) {state : SampleState}
    (states : (sampleScan field grouping limit before).states = [state]) :
    (sampleScan field grouping limit (before ++ [record])).states =
        [(nextStep field grouping limit before state record).2] ∧
      (sampleScan field grouping limit (before ++ [record])).groupMap =
        (sampleScan field grouping limit before).groupMap.insert (grouping.getGroupKey record.2)
          [(nextStep field grouping limit before state record).1] ∧
      Tally.unseen [] [sampleAvgRemote field limit true] (some grouping) (before ++ [record]) sampleStart =
        if (nextStep field grouping limit before state record).2.stop then some [] else none := by
  have appended := Tally.visitAll_append scanned.whole [record]
  rw [← sampleScan, ← sampleScan] at appended
  obtain ⟨all, left⟩ := appended
  have held : ((sampleScan field grouping limit before).groupMap.lookup (grouping.getGroupKey record.2)).getD
      [⟨0, 0⟩] = [⟨(groupValues field grouping (grouping.getGroupKey record.2) before).length,
        mean (groupValues field grouping (grouping.getGroupKey record.2) before)⟩] := by
    rw [scanned.groups]
    split
    · next none =>
        rw [none, mean, List.sum_nil, zero_div]
        rfl
    · rfl
  obtain ⟨one, rest⟩ := Tally.visitAll_singleton [] [sampleAvgRemote field limit true] (some grouping) record
    (sampleScan field grouping limit before)
  obtain ⟨step, taken⟩ : ∃ step, nextStep field grouping limit before state record = step := ⟨_, rfl⟩
  rw [taken]
  rw [nextStep] at taken
  obtain ⟨_, visited⟩ := visit_sample states held taken
  rw [all, one, left, rest, visited]
  exact ⟨rfl, rfl, rfl⟩

theorem nextStep_count (before : List (K × V)) (state : SampleState) (record : K × V) :
    (nextStep field grouping limit before state record).1.curcount =
      int32 ((groupValues field grouping (grouping.getGroupKey record.2) before).length + 1) := by
  rw [nextStep, sampleAvgRemote]
  dsimp only
  rw [apply_ite Prod.fst, apply_ite CountAggContainer.curcount, ite_self]

/-- A record of a group that is not full is averaged. -/
theorem nextStep_room {state : SampleState} (low : limit < 2 ^ 31)
    (room : ((groupValues field grouping (grouping.getGroupKey record.2) before).length : Int) < limit) :
    nextStep field grouping limit before state record =
      let next := state.welford field record.2
        ((groupValues field grouping (grouping.getGroupKey record.2) before).length + 1 : Nat)
      (⟨((groupValues field grouping (grouping.getGroupKey record.2) before).length + 1 : Nat), next.Mk⟩, next) := by
  have count : int32 ((groupValues field grouping (grouping.getGroupKey record.2) before).length + 1) =
      ((groupValues field grouping (grouping.getGroupKey record.2) before).length + 1 : Nat) := by
    exact_mod_cast int32_natCast (by omega)
  have within : ¬ limit < ((groupValues field grouping (grouping.getGroupKey record.2) before).length + 1 : Nat) := by
    omega
  rw [nextStep, sampleAvgRemote]
  dsimp only
  rw [count, if_neg within, if_neg fun beyond => within beyond.1]

theorem SampleState.welford_first {state : SampleState} (unknown : state.pos < 0) (value : V) (curcount : Int) :
    state.welford field value curcount =
      { state with pos := field.pos, Mk := field.of value, Mkp := field.of value, Skp := 0 } := by
  rw [welford, if_pos unknown]
  rfl

theorem SampleState.welford_later {state : SampleState} (known : state.pos = field.pos) (value : V) (curcount : Int) :
    (state.welford field value curcount).pos = field.pos ∧ (state.welford field value curcount).stop = state.stop ∧
      (state.welford field value curcount).Mkp = (state.welford field value curcount).Mk ∧
      (state.welford field value curcount).Mk = state.Mkp + (field.of value - state.Mkp) / curcount := by
  have found : ¬ state.pos < 0 := by
    rw [known]
    exact Int.not_lt.mpr (Int.natCast_nonneg _)
  rw [welford, if_neg found, known]
  exact ⟨rfl, rfl, rfl, rfl⟩

theorem int32_succ_ne {limit : Int} (positive : 1 ≤ limit) (low : limit < 2 ^ 31) : int32 (limit + 1) ≠ limit := by
  by_cases last : limit + 1 < 2 ^ 31
  · rw [int32_of_range (by omega) last]
    omega
  · have whole : limit = 2 ^ 31 - 1 := by omega
    rw [whole]
    decide

/-- A group that is not over the limit has all its values in the sample. -/
theorem sampleOf_room {values : List ℚ} (room : (values.length : Int) ≤ limit) :
    sampleOf limit values = if values = [] then none else some [⟨values.length, mean values⟩] := by
  rw [sampleOf, List.take_of_length_le (by omega)]

theorem sampleSeen_snoc (scanned : Scanned field grouping limit before) (record : K × V) :
    sampleSeen field grouping limit (before ++ [record]) = before ++ [record] := by
  obtain ⟨state, states, _⟩ := scanned.state
  obtain ⟨_, _, left⟩ := scanned.next record states
  rw [sampleSeen, left]
  split
  · exact List.take_length
  · exact List.take_length

theorem Scanned.lookup_eq (scanned : Scanned field grouping limit before) (group : G) :
    (sampleScan field grouping limit before).groupMap.lookup group =
      sampleOf limit (groupValues field grouping group before) := by
  rw [scanned.groups, sampleOf_room (scanned.room group)]

/-- Only the group of the next record can go wrong. -/
theorem groupsAveraged_snoc (scanned : Scanned field grouping limit before) (record : K × V) {state : SampleState}
    (states : (sampleScan field grouping limit before).states = [state]) :
    GroupsAveraged field grouping limit (before ++ [record]) ↔
      some [(nextStep field grouping limit before state record).1] = sampleOf limit
        (groupValues field grouping (grouping.getGroupKey record.2) before ++ [field.of record.2]) := by
  have seen := sampleSeen_snoc scanned record
  have inserted := (scanned.next record states).2.1
  constructor
  · intro averaged
    have here := averaged.groups (grouping.getGroupKey record.2)
    rwa [seen, inserted, AList.lookup_insert, groupValues_snoc, if_pos rfl] at here
  · intro same
    refine ⟨fun group => ?_, .inl seen⟩
    rw [seen, inserted, groupValues_snoc]
    split
    · next here =>
        subst here
        rw [AList.lookup_insert, same]
    · next other =>
        rw [AList.lookup_insert_ne fun here => other here.symm, scanned.lookup_eq, List.append_nil]

/-- The mean that the next record of a group with room gives. -/
theorem nextStep_mean (low : limit < 2 ^ 31) {state : SampleState}
    (kept : before = [] ∧ state.pos < 0 ∨ state.pos = field.pos ∧ ∃ last ∈ before.getLast?,
      state.Mkp = mean (groupValues field grouping (grouping.getGroupKey last.2) before))
    (room : ((groupValues field grouping (grouping.getGroupKey record.2) before).length : Int) < limit) :
    (nextStep field grouping limit before state record).1.curval =
        mean (groupValues field grouping (grouping.getGroupKey record.2) before ++ [field.of record.2]) ↔
      Sampleable field grouping limit before record := by
  rw [nextStep_room low room]
  dsimp only
  cases kept with
  | inl first =>
      obtain ⟨rfl, unknown⟩ := first
      rw [SampleState.welford_first unknown]
      exact iff_of_true (mean_singleton _).symm ⟨room, fun some_value => absurd rfl some_value⟩
  | inr later =>
      obtain ⟨known, last, final, running⟩ := later
      rw [(SampleState.welford_later known _ _).2.2.2, Int.cast_natCast, welford_mean, running]
      constructor
      · intro same
        refine ⟨room, fun some_value other also => ?_⟩
        cases Option.mem_unique also final
        exact same some_value
      · intro sampleable some_value
        exact sampleable.same_mean some_value last final

theorem groupsAveraged_iff_sampleable (positive : 1 ≤ limit) (low : limit < 2 ^ 31)
    (scanned : Scanned field grouping limit before) (record : K × V) :
    GroupsAveraged field grouping limit (before ++ [record]) ↔ Sampleable field grouping limit before record := by
  obtain ⟨state, states, _, kept⟩ := scanned.state
  rw [groupsAveraged_snoc scanned record states]
  by_cases room : ((groupValues field grouping (grouping.getGroupKey record.2) before).length : Int) < limit
  · rw [← nextStep_mean low kept room, sampleOf_room (by rw [List.length_append, List.length_singleton]; omega),
      if_neg (List.append_ne_nil_of_right_ne_nil _ (List.cons_ne_nil _ _)), Option.some.injEq, List.cons.injEq,
      and_iff_left rfl, nextStep_room low room, CountAggContainer.mk.injEq, List.length_append, List.length_singleton]
    exact and_iff_right rfl
  · refine iff_of_false ?_ fun sampleable => room sampleable.room
    have full : ((groupValues field grouping (grouping.getGroupKey record.2) before).length : Int) = limit :=
      le_antisymm (scanned.room _) (not_lt.mp room)
    rw [sampleOf, if_neg (List.append_ne_nil_of_right_ne_nil _ (List.cons_ne_nil _ _))]
    intro same
    have count := congrArg CountAggContainer.curcount (List.cons.inj (Option.some.inj same)).1
    rw [nextStep_count, full, List.length_take, List.length_append, List.length_singleton] at count
    have taken : ((min limit.toNat ((groupValues field grouping (grouping.getGroupKey record.2) before).length + 1) :
        Nat) : Int) = limit := by omega
    exact int32_succ_ne positive low (count.trans taken)

/-- A record that can be sampled leaves the mean of its group behind. -/
theorem nextStep_sampled (low : limit < 2 ^ 31) {state : SampleState} (going : state.stop = false)
    (kept : before = [] ∧ state.pos < 0 ∨ state.pos = field.pos ∧ ∃ last ∈ before.getLast?,
      state.Mkp = mean (groupValues field grouping (grouping.getGroupKey last.2) before))
    (sampleable : Sampleable field grouping limit before record) :
    ∃ next : SampleState, nextStep field grouping limit before state record =
        (⟨((groupValues field grouping (grouping.getGroupKey record.2) (before ++ [record])).length : Nat),
          mean (groupValues field grouping (grouping.getGroupKey record.2) (before ++ [record]))⟩, next) ∧
      next.stop = false ∧ next.pos = field.pos ∧
      next.Mkp = mean (groupValues field grouping (grouping.getGroupKey record.2) (before ++ [record])) := by
  have averaged := (nextStep_mean low kept sampleable.room).mpr sampleable
  rw [nextStep_room low sampleable.room] at averaged ⊢
  rw [groupValues_snoc, if_pos rfl, ← averaged, List.length_append, List.length_singleton]
  refine ⟨_, rfl, ?_⟩
  cases kept with
  | inl first =>
      rw [SampleState.welford_first first.2]
      exact ⟨going, rfl, rfl⟩
  | inr later =>
      obtain ⟨known, stopped, same, _⟩ := SampleState.welford_later later.1 record.2
        ((groupValues field grouping (grouping.getGroupKey record.2) before).length + 1 : Nat)
      exact ⟨stopped.trans going, known, same⟩

theorem scanned_snoc (low : limit < 2 ^ 31) (scanned : Scanned field grouping limit before)
    (sampleable : Sampleable field grouping limit before record) :
    Scanned field grouping limit (before ++ [record]) := by
  obtain ⟨state, states, going, kept⟩ := scanned.state
  obtain ⟨after, inserted, left⟩ := scanned.next record states
  obtain ⟨next, step, goes_on, found, running⟩ := nextStep_sampled low going kept sampleable
  rw [step] at after inserted left
  refine ⟨?_, ⟨next, after, goes_on, .inr ⟨found, record, List.getLast?_concat, running⟩⟩, fun group => ?_,
    fun group => ?_⟩
  · rw [left, goes_on]
    rfl
  · rw [inserted]
    by_cases here : grouping.getGroupKey record.2 = group
    · subst here
      have some_value : groupValues field grouping (grouping.getGroupKey record.2) (before ++ [record]) ≠ [] := by
        rw [groupValues_snoc, if_pos rfl]
        exact List.append_ne_nil_of_right_ne_nil _ (List.cons_ne_nil _ _)
      rw [AList.lookup_insert, if_neg some_value]
    · rw [AList.lookup_insert_ne fun same => here same.symm, scanned.groups, groupValues_snoc, if_neg here,
        List.append_nil]
  · rw [groupValues_snoc]
    split
    · next here =>
        subst here
        have room := sampleable.room
        rw [List.length_append, List.length_singleton]
        omega
    · rw [List.append_nil]
      exact scanned.room group

/-- After every number of records each group has its sample exactly if every record comes
while its group has room and follows a group of the same mean, a new group apart. -/
theorem groups_averaged_iff (positive : 1 ≤ limit) (low : limit < 2 ^ 31) (records : List (K × V)) :
    (∀ first, first <+: records → GroupsAveraged field grouping limit first) ↔
      ∀ before record, before ++ [record] <+: records → Sampleable field grouping limit before record :=
  beginnings_iff (scanned_nil positive) ⟨fun _ => rfl, .inl rfl⟩ (scanned_snoc low)
    (fun scanned => groupsAveraged_iff_sampleable positive low scanned _) records

/-- Groups that are not over the limit can be sampled one after the other. -/
theorem sampleable_of_contiguous
    (within : ∀ group, ((groupValues field grouping group records).length : Int) ≤ limit)
    (contiguous : ∀ before record, before ++ [record] <+: records →
      groupValues field grouping (grouping.getGroupKey record.2) before ≠ [] →
        ∀ last ∈ before.getLast?, grouping.getGroupKey last.2 = grouping.getGroupKey record.2)
    (before : List (K × V)) (record : K × V) (among : before ++ [record] <+: records) :
    Sampleable field grouping limit before record where
  room := by
    obtain ⟨rest, rfl⟩ := among
    have whole := within (grouping.getGroupKey record.2)
    rw [groupValues, List.filter_append, List.map_append, List.length_append, ← groupValues, groupValues_snoc,
      if_pos rfl, List.length_append, List.length_singleton] at whole
    omega
  same_mean := by
    intro some_value last final
    rw [contiguous before record among some_value last final]

end

/-- The name and the number of a row. -/
def byName : Grouping (Nat × ℚ) Nat Nat := ⟨Prod.fst, Prod.fst⟩

def numberField : AggregateField (Nat × ℚ) ℚ := ⟨1, fun row _ => row.2⟩

theorem contiguous_groups_averaged :
    GroupsAveraged numberField byName 2 [(1, (7, 1)), (2, (7, 3)), ((3 : Nat), (8, 5))] := by
  refine (groups_averaged_iff (by decide) (by decide) [(1, (7, 1)), (2, (7, 3)), ((3 : Nat), (8, 5))]).mpr ?_ _
    List.prefix_rfl
  intro before record among
  have earlier : (before = [(1, (7, 1)), (2, (7, 3))] ∧ record = (3, (8, 5))) ∨
      (before = [(1, (7, 1))] ∧ record = (2, (7, 3))) ∨ (before = [] ∧ record = (1, (7, 1))) := by
    cases (@snoc_prefix_iff _ before [(1, (7, 1)), (2, (7, 3))] record (3, (8, 5))).mp among with
    | inl here => exact .inl here
    | inr among =>
        cases (@snoc_prefix_iff _ before [(1, (7, 1))] record (2, (7, 3))).mp among with
        | inl here => exact .inr (.inl here)
        | inr among =>
            cases (@snoc_prefix_iff _ before [] record (1, (7, 1))).mp among with
            | inl here => exact .inr (.inr here)
            | inr among =>
                exact absurd (List.prefix_nil.mp among)
                  (List.append_ne_nil_of_right_ne_nil _ (List.cons_ne_nil _ _))
  obtain ⟨rfl, rfl⟩ | ⟨rfl, rfl⟩ | ⟨rfl, rfl⟩ := earlier
  · exact ⟨by decide, fun some_value => absurd rfl some_value⟩
  · exact ⟨by decide, fun _ last final => by cases final; rfl⟩
  · exact ⟨by decide, fun some_value => absurd rfl some_value⟩

/-- The second value of a group is averaged with that of the group in between. -/
theorem interleaved_groups_mixed :
    ¬ GroupsAveraged numberField byName 2 [(1, (7, 1)), (2, (8, 5)), ((3 : Nat), (7, 3))] := by
  intro averaged
  exact absurd (averaged.groups 7) (by decide +kernel)

end Scads.Client.BuiltinAggregates
