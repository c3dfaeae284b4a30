import Scads.Piql.ParallelExecutor
import Scads.Piql.SimpleRuns

namespace Scads.Piql

open Scads.Client Scads.Data

/-! # The merge join of the parallel executor

A full page stays the page of its tuple: it is put into the buffer again whenever
the buffer is used up.
-/

namespace ParallelExecutor

variable {ctx : Context} {store : Store} {ns : TupleProvider} {keyPrefix : KeyGenerator}
  {sortFields : List Value} {boundLimit : Int} {ascending : Bool} {data : ParallelData} {list : List Tuple}

/-- A source whose only page is not full: it has been put into the buffer or will be. -/
inductive Stands (boundLimit : Int) (data : ParallelData) : List Tuple → Prop where
  | filled (ended : data.pending = none) : Stands boundLimit data (data.buffer.drop data.bufferPos)
  | asked {tup : Tuple} {records : List Record} (pending : data.pending = some (tup, records))
      (short : records.length < boundLimit) (empty : data.buffer = []) (start : data.bufferPos = 0) :
      Stands boundLimit data (records.map fun r => tup ++ [r])

theorem refill_filled (ended : data.pending = none) : refill boundLimit data = data := by
  rw [refill, ended]

theorem reads : Reads (refill boundLimit) (fun data => data.buffer[data.bufferPos]?)
    (fun data => refill boundLimit { data with bufferPos := data.bufferPos + 1 }) (Stands boundLimit) where
  refresh := by
    intro data list stands
    cases stands with
    | filled ended =>
        rw [refill_filled ended, List.head?_drop]
        exact ⟨.filled ended, rfl⟩
    | @asked tup records pending short empty start =>
        have filled : refill boundLimit data =
            { pending := none, buffer := records.map fun r => tup ++ [r], bufferPos := 0 } := by
          rw [refill, pending]
          simp only [start, empty, List.length_nil, ↓reduceIte, fillBuffer, short, List.nil_append]
        rw [filled]
        exact ⟨.filled rfl, (List.head?_eq_getElem? ..).symm⟩
  advance := by
    intro data value rest stands isHead
    generalize same : value :: rest = list at stands
    cases stands with
    | filled ended =>
        obtain ⟨inBuffer, read⟩ := List.getElem?_eq_some_iff.mp isHead
        rw [List.drop_eq_getElem_cons inBuffer] at same
        cases same
        have same : refill boundLimit { data with bufferPos := data.bufferPos + 1 } =
            { data with bufferPos := data.bufferPos + 1 } := refill_filled ended
        rw [same]
        exact .filled ended
    | asked pending short empty start =>
        rw [empty] at isHead
        cases isHead

/-- What is read from a state whose sources stand for these lists. -/
theorem gather_settles {child : QueryIterator} {datas : List ParallelData} {lists : List (List Tuple)}
    {count : Nat} (stand : List.Forall₂ (Stands boundLimit) datas lists) (enough : total lists ≤ count) :
    Settles
      ((indexMergeJoin ctx store ns keyPrefix sortFields boundLimit ascending child).gather pure · (datas, none))
      (merge (goesBefore ctx sortFields ascending) count lists >>= Course.outcome) := by
  induction count using Nat.strongRecOn generalizing datas lists with
  | ind count ih =>
      have taken := reads.takeBest (goesBefore ctx sortFields ascending) stand
      have asked : mergeHasNext ctx sortFields boundLimit ascending (datas, none) =
          (getNext ctx sortFields boundLimit ascending datas >>= fun result =>
            .ok (result.1.isSome, result.2, result.1)) := rfl
      rw [getNext, taken] at asked
      rw [merge_of_total enough]
      cases chosen : contest (goesBefore ctx sortFields ascending) (lists.map List.head?) 0 none with
      | error failure =>
          rw [chosen] at asked
          exact Machine.gather_fails ((Settles.const _).congr fun _ => asked)
      | ok best =>
          rw [chosen] at asked
          cases best with
          | none => exact Machine.gather_ends ((Settles.const _).congr fun _ => asked)
          | some best =>
              have isHead := contest_head chosen
              have fewer := total_modify isHead
              have rest := ih (count - 1) (by omega) (reads.modify stand isHead) (by omega)
              dsimp only
              rw [show (Except.ok (Course.following best.2 _) >>= Course.outcome) = (Course.following best.2 _).outcome
                from rfl, Course.outcome_following]
              exact Machine.gather_more ((Settles.const _).congr fun _ => asked) (.const _) rest

/-- The page that was asked for is all that the store has for the tuple. -/
theorem prefetch_agree (ctx : Context) (store : Store) (ns : TupleProvider) (keyPrefix : KeyGenerator)
    (ascending : Bool) {childValue : Tuple}
    (short : ∀ key, bindKey ctx ns keyPrefix (some childValue) = .ok key →
      (store.matching ns key).length < boundLimit) :
    Agree (Stands boundLimit) (prefetch ctx store ns keyPrefix boundLimit ascending childValue)
      (joined ctx store ns keyPrefix ascending childValue) := by
  rw [prefetch, joined]
  cases bound : bindKey ctx ns keyPrefix (some childValue) with
  | error failure => exact .error failure
  | ok key =>
      have fits : (store.inOrder ns key ascending).length < boundLimit := by
        rw [Store.length_inOrder]
        exact short key bound
      have page : store.getRange ns key ascending 0 boundLimit = store.inOrder ns key ascending := by
        rw [Store.getRange, Int.toNat_zero, List.drop_zero, List.take_of_length_le (by omega)]
      refine .ok ?_
      rw [page]
      exact .asked rfl fits rfl rfl

/-- A source with a full page, which its buffer never comes to the end of. -/
structure Stuck (boundLimit : Int) (data : ParallelData) : Prop where
  within : data.bufferPos ≤ data.buffer.length
  full : ∃ tup records, data.pending = some (tup, records) ∧ boundLimit ≤ records.length

theorem Stuck.refill (positive : 1 ≤ boundLimit) (stuck : Stuck boundLimit data) :
    Stuck boundLimit (refill boundLimit data) ∧
      (ParallelExecutor.refill boundLimit data).bufferPos <
        (ParallelExecutor.refill boundLimit data).buffer.length := by
  obtain ⟨tup, records, pending, full⟩ := stuck.full
  have within := stuck.within
  rw [ParallelExecutor.refill, pending]
  dsimp only
  split
  · refine ⟨⟨?_, tup, records, ?_, full⟩, ?_⟩
    · simp only [fillBuffer, List.length_append]
      omega
    · simp only [fillBuffer, pending, if_neg (Int.not_lt.mpr full)]
    · simp only [fillBuffer, List.length_append, List.length_map]
      omega
  · exact ⟨stuck, by omega⟩

theorem Stuck.advance (positive : 1 ≤ boundLimit) (stuck : Stuck boundLimit data)
    (inBuffer : data.bufferPos < data.buffer.length) :
    Stuck boundLimit (ParallelExecutor.refill boundLimit { data with bufferPos := data.bufferPos + 1 }) := by
  have further : Stuck boundLimit { data with bufferPos := data.bufferPos + 1 } := ⟨inBuffer, stuck.full⟩
  exact (further.refill positive).1

/-- With a full page there is always a next tuple, unless a comparison fails. -/
theorem getNext_stuck (positive : 1 ≤ boundLimit) {datas after : List ParallelData} {nextTuple : Option Tuple}
    (stuck : ∃ data ∈ datas, Stuck boundLimit data)
    (next : getNext ctx sortFields boundLimit ascending datas = .ok (nextTuple, after)) :
    nextTuple ≠ none ∧ ∃ data ∈ after, Stuck boundLimit data := by
  obtain ⟨data, member, stuck⟩ := stuck
  obtain ⟨refilled, inBuffer⟩ := stuck.refill positive
  rw [getNext, takeBest, select_eq] at next
  cases chosen : contest (goesBefore ctx sortFields ascending)
      (datas.map fun data => (refill boundLimit data).buffer[(refill boundLimit data).bufferPos]?) 0 none with
  | error failure =>
      rw [chosen] at next
      cases next
  | ok best =>
      rw [chosen] at next
      cases best with
      | none =>
          obtain ⟨tuple, isHead⟩ : ∃ tuple,
              (refill boundLimit data).buffer[(refill boundLimit data).bufferPos]? = some tuple :=
            ⟨_, List.getElem?_eq_getElem inBuffer⟩
          exact absurd chosen (contest_ne_none (.inr ⟨tuple, List.mem_map.mpr ⟨data, member, isHead⟩⟩))
      | some best =>
          cases next
          refine ⟨Option.some_ne_none _, ?_⟩
          have kept : refill boundLimit data ∈ datas.map (refill boundLimit) := List.mem_map_of_mem member
          obtain ⟨place, there, read⟩ := List.mem_iff_getElem.mp kept
          by_cases same : best.1 = place
          · refine ⟨_, List.mem_iff_getElem?.mpr ⟨place, ?_⟩, refilled.advance positive inBuffer⟩
            rw [← same, List.getElem?_modify_eq]
            simp [same, List.getElem?_eq_getElem there, read]
          · refine ⟨_, List.mem_iff_getElem?.mpr ⟨place, ?_⟩, refilled⟩
            simp [List.getElem?_eq_getElem there, read, same]

theorem gather_ne_ok (positive : 1 ≤ boundLimit) {child : QueryIterator} {datas : List ParallelData}
    (stuck : ∃ data ∈ datas, Stuck boundLimit data) (rounds : Nat) (tuples : List Tuple) :
    (indexMergeJoin ctx store ns keyPrefix sortFields boundLimit ascending child).gather pure rounds
      (datas, none) ≠ .ok tuples := by
  induction rounds generalizing datas tuples with
  | zero => nofun
  | succ rounds ih =>
      intro ended
      change (mergeHasNext ctx sortFields boundLimit ascending (datas, none) >>= _) = _ at ended
      have asked : mergeHasNext ctx sortFields boundLimit ascending (datas, none) =
          (getNext ctx sortFields boundLimit ascending datas >>= fun result =>
            .ok (result.1.isSome, result.2, result.1)) := rfl
      cases next : getNext ctx sortFields boundLimit ascending datas with
      | error failure =>
          rw [asked, next] at ended
          cases ended
      | ok result =>
          obtain ⟨nextTuple, after⟩ := result
          obtain ⟨given, stuck⟩ := getNext_stuck positive stuck next
          obtain ⟨tuple, rfl⟩ := Option.ne_none_iff_exists'.mp given
          rw [asked, next] at ended
          change ((indexMergeJoin ctx store ns keyPrefix sortFields boundLimit ascending child).gather pure rounds
            (after, none) >>= fun tuples => .ok (tuple :: tuples)) = _ at ended
          cases rest : (indexMergeJoin ctx store ns keyPrefix sortFields boundLimit ascending child).gather pure
              rounds (after, none) with
          | error failure =>
              rw [rest] at ended
              cases ended
          | ok others => exact ih stuck others rest

theorem prefetch_stuck (positive : 1 ≤ boundLimit) {childValue : Tuple} {key : Key} {data : ParallelData}
    (bound : bindKey ctx ns keyPrefix (some childValue) = .ok key)
    (full : boundLimit ≤ (store.matching ns key).length)
    (fetched : prefetch ctx store ns keyPrefix boundLimit ascending childValue = .ok data) :
    Stuck boundLimit data := by
  rw [prefetch, bound] at fetched
  cases fetched
  refine ⟨Nat.le_refl _, childValue, _, rfl, ?_⟩
  rw [Store.getRange, List.length_take, Int.toNat_zero, List.drop_zero, Store.length_inOrder]
  omega

variable {childResult : List Tuple} {child child' : QueryIterator}

/-- The opened join holds what was asked for each tuple of the child. -/
theorem opened_settles (ctx : Context) (store : Store) (ns : TupleProvider) (keyPrefix : KeyGenerator)
    (sortFields : List Value) (boundLimit : Int) (ascending : Bool)
    (begins : child.Begins (.ok (.ofList childResult))) :
    Settles ((indexMergeJoin ctx store ns keyPrefix sortFields boundLimit ascending child).opened · ([], none)) (do
      return (← childResult.mapM (prefetch ctx store ns keyPrefix boundLimit ascending), none)) := by
  have gathered : Settles (fun rounds => do
      child.gather (prefetch ctx store ns keyPrefix boundLimit ascending) rounds
        (← child.opened rounds child.initial))
      (childResult.mapM (prefetch ctx store ns keyPrefix boundLimit ascending)) := by
    rw [← Course.gather_ofList]
    exact begins.gather _
  revert gathered
  generalize childResult.mapM (prefetch ctx store ns keyPrefix boundLimit ascending) = fetched
  intro gathered
  obtain ⟨enough, reached⟩ := gathered
  refine ⟨enough, fun rounds high => ?_⟩
  have here := reached rounds high
  dsimp only at here
  rw [← here]
  dsimp only [indexMergeJoin]
  cases child.opened rounds child.initial <;> rfl

end ParallelExecutor

section

open ParallelExecutor (prefetch_agree gather_settles opened_settles gather_ne_ok prefetch_stuck)

variable {ctx : Context} {store : Store} {ns : TupleProvider} {keyPrefix : KeyGenerator}
  {sortFields : List Value} {boundLimit : Int} {ascending : Bool} {childResult : List Tuple}
  {child child' : QueryIterator}

/-- Every tuple of the child has fewer matching records than a page holds. -/
def PagesNotFull (ctx : Context) (store : Store) (ns : TupleProvider) (keyPrefix : KeyGenerator)
    (boundLimit : Int) (childResult : List Tuple) : Prop :=
  ∀ childValue ∈ childResult, ∀ key, bindKey ctx ns keyPrefix (some childValue) = .ok key →
    (store.matching ns key).length < boundLimit

/-- What both joins come to. -/
def mergedTuples (ctx : Context) (store : Store) (ns : TupleProvider) (keyPrefix : KeyGenerator)
    (sortFields : List Value) (ascending : Bool) (childResult : List Tuple) : Except QueryFailure (List Tuple) := do
  let lists ← childResult.mapM (joined ctx store ns keyPrefix ascending)
  merge (goesBefore ctx sortFields ascending) (total lists) lists >>= Course.outcome

theorem simple_drains (positive : 1 ≤ boundLimit) (begins : child.Begins (.ok (.ofList childResult))) :
    Settles (SimpleExecutor.indexMergeJoin ctx store ns keyPrefix sortFields boundLimit ascending child).drain
      (mergedTuples ctx store ns keyPrefix sortFields ascending childResult) := by
  have opens := SimpleExecutor.indexMergeJoin_opens ctx store ns keyPrefix sortFields ascending positive begins
  change Machine.Opens _ ((Course.ofList childResult).gather _ >>= _) at opens
  rw [Course.gather_ofList] at opens
  refine opens.begins.drain.congr_outcome ?_
  rw [mergedTuples]
  cases childResult.mapM (joined ctx store ns keyPrefix ascending) <;> rfl

theorem parallel_drains (begins : child.Begins (.ok (.ofList childResult)))
    (notFull : PagesNotFull ctx store ns keyPrefix boundLimit childResult) :
    Settles (ParallelExecutor.indexMergeJoin ctx store ns keyPrefix sortFields boundLimit ascending child).drain
      (mergedTuples ctx store ns keyPrefix sortFields ascending childResult) := by
  have opened := opened_settles ctx store ns keyPrefix sortFields boundLimit ascending begins
  have agree := mapM_agree fun childValue member =>
    prefetch_agree ctx store ns keyPrefix ascending (notFull childValue member)
  rw [mergedTuples]
  revert opened agree
  generalize childResult.mapM (ParallelExecutor.prefetch ctx store ns keyPrefix boundLimit ascending) = datas
  generalize childResult.mapM (joined ctx store ns keyPrefix ascending) = lists
  intro opened agree
  cases agree with
  | error failure => exact opened.bind_error
  | ok stand => exact opened.bind (gather_settles stand (Nat.le_refl _))

theorem parallel_drains_ok (positive : 1 ≤ boundLimit) (begins : child.Begins (.ok (.ofList childResult)))
    {tuples : List Tuple} (drains : Settles
      (ParallelExecutor.indexMergeJoin ctx store ns keyPrefix sortFields boundLimit ascending child).drain
      (.ok tuples)) : PagesNotFull ctx store ns keyPrefix boundLimit childResult := by
  intro childValue member key bound
  refine Int.not_le.mp fun full => ?_
  obtain ⟨enough, drained⟩ := drains
  obtain ⟨needed, opened⟩ := opened_settles ctx store ns keyPrefix sortFields boundLimit ascending begins
  have here := opened (max enough needed) (Nat.le_max_right ..)
  have ended := drained (max enough needed) (Nat.le_max_left ..)
  change (Machine.opened _ (max enough needed) ([], none) >>= _) = _ at ended
  dsimp only at here
  rw [here] at ended
  cases fetched : childResult.mapM (ParallelExecutor.prefetch ctx store ns keyPrefix boundLimit ascending) with
  | error failure =>
      rw [fetched] at ended
      cases ended
  | ok datas =>
      rw [fetched] at ended
      obtain ⟨data, there, asked⟩ := mapM_mem fetched member
      exact gather_ne_ok positive ⟨data, there, prefetch_stuck positive bound full asked⟩ _ _ ended

/-- The two joins read the same tuples of a child.  The parallel one then ends with the tuples of the
simple one exactly if no page of it is full. -/
theorem parallel_merge_join_agrees_iff (positive : 1 ≤ boundLimit)
    (begins : child.Begins (.ok (.ofList childResult))) (begins' : child'.Begins (.ok (.ofList childResult))) :
    ∃ outcome,
      Settles (SimpleExecutor.indexMergeJoin ctx store ns keyPrefix sortFields boundLimit ascending child).drain
        outcome ∧
      (PagesNotFull ctx store ns keyPrefix boundLimit childResult →
        Settles
          (ParallelExecutor.indexMergeJoin ctx store ns keyPrefix sortFields boundLimit ascending child').drain
          outcome) ∧
      ∀ tuples, outcome = .ok tuples →
        (Settles
          (ParallelExecutor.indexMergeJoin ctx store ns keyPrefix sortFields boundLimit ascending child').drain
          (.ok tuples) ↔ PagesNotFull ctx store ns keyPrefix boundLimit childResult) := by
  refine ⟨_, simple_drains positive begins, parallel_drains begins', fun tuples yields => ⟨?_, ?_⟩⟩
  · exact parallel_drains_ok positive begins'
  · intro notFull
    rw [← yields]
    exact parallel_drains begins' notFull

end

def oneUser : Context := ⟨[.tuples [[[.utf8 "alice"]]]]⟩

theorem oneUser_begins :
    (SimpleExecutor.localIterator oneUser 0 false).Begins (.ok (.ofList [[[.utf8 "alice"]]])) :=
  (SimpleExecutor.localIterator_opens oneUser 0 false).begins

/-- A page of two records is not full, and the joins agree on it. -/
theorem short_page_agrees :
    (1 : Int) ≤ 2 ∧
      Settles (ParallelExecutor.indexMergeJoin oneUser oneThought thoughts [.attribute 0 0] [.attribute 1 1] 2 true
          (SimpleExecutor.localIterator oneUser 0 false)).drain
        (.ok [[[.utf8 "alice"], [.utf8 "alice", .int 1, .utf8 "hello"]]]) := by
  refine ⟨by decide, ?_⟩
  obtain ⟨outcome, simple, -, agrees⟩ := @parallel_merge_join_agrees_iff oneUser oneThought thoughts
    [.attribute 0 0] [.attribute 1 1] 2 true [[[.utf8 "alice"]]] _ _ (by decide) oneUser_begins oneUser_begins
  have yields := simple.unique (simple_drains (by decide) oneUser_begins)
  refine (agrees _ yields).mpr ?_
  intro childValue member key bound
  have one : (oneThought.matching thoughts key).length ≤ 1 := List.length_filter_le ..
  omega

/-- A page of one record is full with one thought: the simple join ends and the parallel one does not. -/
theorem full_page_repeats :
    ∃ (ctx : Context) (store : Store) (ns : TupleProvider) (keyPrefix : KeyGenerator) (sortFields : List Value)
      (boundLimit : Int) (ascending : Bool) (childResult : List Tuple) (child child' : QueryIterator)
      (tuples : List Tuple),
      1 ≤ boundLimit ∧ child.Begins (.ok (.ofList childResult)) ∧ child'.Begins (.ok (.ofList childResult)) ∧
        Settles (SimpleExecutor.indexMergeJoin ctx store ns keyPrefix sortFields boundLimit ascending child).drain
          (.ok tuples) ∧
        ¬ ∃ others, Settles
          (ParallelExecutor.indexMergeJoin ctx store ns keyPrefix sortFields boundLimit ascending child').drain
          (.ok others) := by
  refine ⟨oneUser, oneThought, thoughts, [.attribute 0 0], [.attribute 1 1], 1, true, [[[.utf8 "alice"]]],
    SimpleExecutor.localIterator oneUser 0 false, SimpleExecutor.localIterator oneUser 0 false,
    [[[.utf8 "alice"], [.utf8 "alice", .int 1, .utf8 "hello"]]], by decide, oneUser_begins, oneUser_begins,
    simple_drains (by decide) oneUser_begins, ?_⟩
  intro found
  obtain ⟨others, drains⟩ := found
  have notFull := parallel_drains_ok (by decide) oneUser_begins drains [[.utf8 "alice"]] (by simp)
    [.utf8 "alice", .null] rfl
  revert notFull
  decide

end Scads.Piql
