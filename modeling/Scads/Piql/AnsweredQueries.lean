import Scads.Piql.RangeRows

namespace Scads.Piql

open Scads.Client Scads.Data

/-! # Answered queries

The first tuples of the plan that the optimizer makes are the first ones of an answer to
the query, operator by operator, for as many tuples as the operator above asks for.
-/

namespace Optimizer

variable {ctx : Context} {store : Store} {db : Database} {plan child : LogicalPlan} {range : IndexRange}
  {result bound whole boundChild optChild : QueryPlan} {schema : List TupleProvider} {started : Bool} {count : Nat}

section

variable {layout : List TupleProvider} {v1 v2 : Value} {predicate : Predicate} {tuples : List Tuple}

end

/-- The plan begins with the first tuples of an answer. -/
def Yields (ctx : Context) (store : Store) (db : Database) (layout : List TupleProvider) (plan : LogicalPlan)
    (bound : QueryPlan) (count : Nat) : Prop :=
  ∃ given tuples answer, course ctx store bound = .ok given ∧ given.stop count = .ofList tuples ∧
    Answers ctx db plan answer ∧ tuples.map (onRelations layout) = answer.take count

theorem ofList_injective {first second : List Tuple}
    (same : (Course.ofList first : Course QueryFailure Tuple) = .ofList second) : first = second := by
  have outcomes := congrArg Course.outcome same
  rw [Course.outcome_ofList, Course.outcome_ofList] at outcomes
  exact Except.ok.inj outcomes

/-- A plan that always begins so has the tuples of an answer. -/
theorem Yields.drained {layout : List TupleProvider} (yields : ∀ count, Yields ctx store db layout plan bound count) :
    ∃ tuples, course ctx store bound = .ok (.ofList tuples) ∧
      Answers ctx db plan (tuples.map (onRelations layout)) := by
  obtain ⟨given, _, _, ran, -⟩ := yields 0
  obtain ⟨enough, stops⟩ := given.exists_stop_eq
  have reached (count : Nat) (high : enough ≤ count) : ∃ tuples answer, given = .ofList tuples ∧
      Answers ctx db plan answer ∧ tuples.map (onRelations layout) = answer.take count := by
    obtain ⟨other, tuples, answer, also, first, answers, same⟩ := yields count
    cases ran.symm.trans also
    rw [stops count high] at first
    exact ⟨tuples, answer, first, answers, same⟩
  obtain ⟨tuples, -, rfl, -⟩ := reached enough (Nat.le_refl enough)
  obtain ⟨others, answer, equal, answers, same⟩ := reached (enough + tuples.length + 1) (by omega)
  cases ofList_injective equal
  have length := congrArg List.length same
  rw [List.length_map, List.length_take] at length
  rw [List.take_of_length_le (by omega)] at same
  exact ⟨tuples, ran, same ▸ answers⟩

/-- A query that keeps its selections, and a database that it is asked of. -/
structure Asked (ctx : Context) (store : Store) (db : Database) (started : Bool) (schema : List TupleProvider)
    (whole : QueryPlan) (plan : LogicalPlan) : Prop where
  selects : plan.Selects
  keeps : KeepsSelections ctx store db started schema whole plan
  indexed : db.Indexed plan

theorem Asked.select {predicate : Predicate}
    (asked : Asked ctx store db started schema whole (.selection predicate child))
    (unanswered : answered (.selection predicate child) = none) : Asked ctx store db started schema whole child := by
  refine ⟨asked.selects.2, asked.keeps.below ?_, asked.indexed⟩
  rw [operations_selection unanswered]
  exact List.subset_cons_self ..

theorem Asked.join (asked : Asked ctx store db started schema whole plan) (matched : unapply plan = .ok (some range))
    (answer : answers range = true) (joins : range.child = some child) :
    Asked ctx store db started schema whole child := by
  have tops := tops_of_unapply asked.selects matched
  refine ⟨tops.below child joins, asked.keeps.below ?_, fun r member => asked.indexed r ?_⟩
  · rw [operations_answered matched answer, joins]
    exact List.subset_cons_self ..
  · rw [tops.relations, relationsBelow, joins]
    exact List.mem_append_left _ member

theorem Asked.gets (asked : Asked ctx store db started schema whole plan) (matched : unapply plan = .ok (some range))
    (answer : answers range = true) {row : Tuple} (takes : TakesBelow ctx store schema whole range row) :
    Reads ctx started range row ∧ (StopsAtNone ctx range ∨ FindsSelected ctx db started range row) := by
  have gets : .get range ∈ operations false plan := by
    rw [operations_answered matched answer]
    exact List.mem_cons_self
  exact ⟨asked.keeps.usable range row gets takes, asked.keeps.finds range row gets takes⟩

section

variable {layout : List TupleProvider} {key : KeyGenerator}

/-- What is promised not to be there is not found. -/
theorem Served.nothing {tuples : List Tuple} {limit : TupleLimit} {boundLimit : Int} {ns : TupleProvider}
    (served : Served ctx store db started range layout tuples) (bounded : range.limit = some limit)
    (isLimit : bindLimit ctx limit.count = .ok boundLimit) (nonpositive : boundLimit ≤ 0)
    (goesOn : ¬ StopsAtNone ctx range) (pages : looksUp range = false)
    (serves : ns = range.relation ∨ ∃ names, index range.relation names = .ok ns)
    (indexed : ∀ names idx, index range.relation names = .ok idx →
      (db idx).Perm ((db range.relation).map (entryOf range.relation idx))) (covers : Covers range ns) :
    withFound (foundIn ctx db range layout ns) tuples = [] := by
  have few : LimitAtMost ctx 0 limit.count := by
    intro other also
    cases isLimit.symm.trans also
    exact nonpositive
  have isDataStop : limit.isDataStop = true := by
    by_contra stops
    exact goesOn ⟨limit, bounded, by simpa using stops, few⟩
  refine List.flatMap_eq_nil_iff.mpr fun tuple member => List.map_eq_nil_iff.mpr ?_
  have none : (db range.relation).filter (meetsKey ctx range (onRelations layout tuple)) = [] := by
    refine List.filter_eq_nil_iff.mpr fun record inside => ?_
    rw [(served.finds tuple member).promised limit bounded isDataStop few pages record inside]
    exact Bool.false_ne_true
  obtain rfl | ⟨names, isIndex⟩ := serves
  · exact none
  · have entries := @found_entries ctx _ _ _ (indexed names ns isIndex) covers (onRelations layout tuple)
    rw [none] at entries
    exact List.perm_nil.mp entries

end

theorem Asked.limited {limit : TupleLimit} (conditions : Asked ctx store db started schema whole plan)
    (matched : unapply plan = .ok (some range)) (answer : answers range = true) (bounded : range.limit = some limit)
    (left : limit.isDataStop = false ∨ looksUp range = false) :
    ∃ boundLimit, bindLimit ctx limit.count = .ok boundLimit := by
  refine conditions.keeps.limits (.get range) ?_ limit.count ?_
  · rw [operations_answered matched answer]
    exact List.mem_cons_self
  · rw [Operation.limits, bounded]
    split
    · rename_i looks
      have cuts := left.resolve_right (by simp [looks])
      simp [Option.filter, cuts]
    · exact List.mem_singleton.mpr (pageLimit_of_bounded bounded).symm

theorem StopsAtNone.reads {limit : TupleLimit} {boundLimit : Int} {read : Nat} (atNone : StopsAtNone ctx range)
    (bounded : range.limit = some limit) (isLimit : bindLimit ctx limit.count = .ok boundLimit)
    (stops : limit.isDataStop = false → boundLimit ≤ 0 → read = 0) : read = 0 := by
  obtain ⟨other, same, cuts, few⟩ := atNone
  cases bounded.symm.trans same
  exact stops cuts (few boundLimit isLimit)

variable {physical : QueryPlan}

end Optimizer

end Scads.Piql
