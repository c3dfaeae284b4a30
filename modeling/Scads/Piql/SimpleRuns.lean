import Scads.Piql.SimpleExecutor

namespace Scads.Piql

open Scads.Client Scads.Data

/-! # Runs of the simple executor

What the iterators of a plan give is a `Course` that the plan, the parameters of
the query and the records of the store determine.
-/

section

variable (ctx : Context) (store : Store)

/-- The tuples that a merge join finds for one tuple of its child. -/
def joined (ns : TupleProvider) (keyPrefix : KeyGenerator) (ascending : Bool) (childValue : Tuple) :
    Except QueryFailure (List Tuple) := do
  let boundKeyPrefix ← bindKey ctx ns keyPrefix (some childValue)
  return (store.inOrder ns boundKeyPrefix ascending).map fun r => childValue ++ [r]

/-- What a merge join gives of the lists of its child's tuples.  Pages that hold no record give nothing. -/
def mergePages (sortFields : List Value) (ascending : Bool) (boundLimit : Int) (lists : List (List Tuple)) :
    Except QueryFailure (Course QueryFailure Tuple) :=
  if 1 ≤ boundLimit then merge (goesBefore ctx sortFields ascending) (total lists) lists else .ok .done

/-- What an opened iterator of the plan gives. -/
def course : QueryPlan → Except QueryFailure (Course QueryFailure Tuple)
  | .indexLookup ns key => do
      let boundKey ← bindKey ctx ns key none
      return .ofList ((store.getRecord ns boundKey).toList.map fun r => [r])
  | .indexScan ns keyPrefix _ ascending => do
      let boundKeyPrefix ← bindKey ctx ns keyPrefix none
      return .ofList ((store.inOrder ns boundKeyPrefix ascending).map fun r => [r])
  | .indexLookupJoin ns key child => do (← course child).sift (lookupRecord ctx store ns key)
  | .indexMergeJoin ns keyPrefix sortFields limit ascending child => do
      let lists ← (← course child).gather (joined ctx store ns keyPrefix ascending)
      mergePages ctx sortFields ascending (← bindLimit ctx limit) lists
  | .localSelection predicate child => do (← course child).sift (keepSelected ctx predicate)
  | .localStopAfter k child => do
      let rest ← course child
      return rest.stop (← bindLimit ctx k).toNat
  | .localIterator ordinal wrap => do return .ofResults (← localTuples ctx ordinal wrap)
  | .union .. => .error (.runtime "Not yet implemented")
  | .indexScanJoin .. | .localSort .. => .error .matchError

end

section

variable {α β : Type*}

theorem built_bind {first : Except QueryFailure α} {next : α → Except QueryFailure β} {result : β}
    (built : first.bind next = .ok result) : ∃ value, first = .ok value ∧ next value = .ok result := by
  cases first with
  | error failure => cases built
  | ok value => exact ⟨value, rfl, built⟩

theorem map_eq_bind (f : α → β) (given : Except QueryFailure α) :
    given.map f = given.bind fun value => .ok (f value) := by
  cases given <;> rfl

theorem built_map {first : Except QueryFailure α} {f : α → β} {result : β} (built : first.map f = .ok result) :
    ∃ value, first = .ok value ∧ f value = result := by
  cases first with
  | error failure => cases built
  | ok value =>
      cases built
      exact ⟨value, rfl, rfl⟩

end

section

variable {ctx : Context} {store : Store} {ns : TupleProvider} {key : KeyGenerator} {childTuple : Tuple}

theorem lookupRecord_ok {result : Option Tuple} (looked : lookupRecord ctx store ns key childTuple = .ok result) :
    ∃ boundKey, bindKey ctx ns key (some childTuple) = .ok boundKey ∧
      result = (store.getRecord ns boundKey).map fun value => childTuple ++ [value] := by
  obtain ⟨boundKey, bound, same⟩ := built_bind looked
  cases same
  exact ⟨boundKey, bound, rfl⟩

theorem joined_ok {ascending : Bool} {list : List Tuple}
    (fetched : joined ctx store ns key ascending childTuple = .ok list) :
    ∃ boundKeyPrefix, bindKey ctx ns key (some childTuple) = .ok boundKeyPrefix ∧
      list = (store.inOrder ns boundKeyPrefix ascending).map fun r => childTuple ++ [r] := by
  obtain ⟨boundKeyPrefix, bound, same⟩ := built_bind fetched
  cases same
  exact ⟨boundKeyPrefix, bound, rfl⟩

theorem keepSelected_ok {predicate : Predicate} {result : Option Tuple}
    (selected : keepSelected ctx predicate childTuple = .ok result) :
    ∃ holds, evalPredicate ctx predicate childTuple = .ok holds ∧
      result = if holds then some childTuple else none := by
  obtain ⟨holds, evaluated, same⟩ := built_bind selected
  cases same
  exact ⟨holds, evaluated, rfl⟩

end

section

variable {ctx : Context} {sortFields : List Value} {ascending : Bool} {boundLimit : Int} {lists : List (List Tuple)}

theorem mergePages_of_positive (positive : 1 ≤ boundLimit) :
    mergePages ctx sortFields ascending boundLimit lists =
      merge (goesBefore ctx sortFields ascending) (total lists) lists := if_pos positive

theorem mergePages_of_nonpositive (nonpositive : boundLimit ≤ 0) :
    mergePages ctx sortFields ascending boundLimit lists = .ok .done := if_neg (by omega)

theorem mergePages_each {passes : Tuple → Prop} (all : ∀ list ∈ lists, ∀ tuple ∈ list, passes tuple)
    {given : Course QueryFailure Tuple} (merged : mergePages ctx sortFields ascending boundLimit lists = .ok given) :
    given.Each passes := by
  rw [mergePages] at merged
  split at merged
  · exact merge_each all merged
  · cases merged
    trivial

end

/-- The page has a record to give or was the last one. -/
def Scan.Decided (scan : Scan) : Prop := scan.pos < scan.result.length ∨ scan.limitReached = true

theorem Scan.undecided {scan : Scan} (undecided : ¬ scan.Decided) :
    ¬ scan.pos < scan.result.length ∧ scan.limitReached = false := by
  obtain ⟨used, unended⟩ := not_or.mp undecided
  exact ⟨used, Bool.eq_false_iff.mpr unended⟩

namespace SimpleExecutor

variable {ctx : Context} {store : Store}

theorem indexLookup_opens (ns : TupleProvider) (boundKey : Key) :
    (indexLookup store ns boundKey).Opens
      (.ok (.ofList ((store.getRecord ns boundKey).toList.map fun r => [r]))) := by
  refine ⟨store.getRecord ns boundKey, .const _,
    fun result course => course = .ofList (result.toList.map fun r => [r]), ?_, rfl⟩
  constructor
  · intro result course same
    subst same
    cases result <;> exact ⟨_, .const _, rfl⟩
  · intro result value rest same
    cases result with
    | none => cases same
    | some record =>
        cases same
        exact ⟨none, .const _, rfl⟩
  · intro result failure same
    cases result <;> cases same

section

variable {ns : TupleProvider} {boundKeyPrefix : Key} {boundLimit : Int} {ascending : Bool} {scan : Scan}
  {rest : List Record}

/-- The records that a scan has still to give: those of its page and those of the pages after it. -/
structure Left (all : List Record) (scan : Scan) (skipped : Nat) (rest : List Record) : Prop where
  offset : scan.offset = skipped
  within : skipped ≤ all.length
  records : rest = scan.result.drop scan.pos ++ all.drop skipped
  ended : scan.limitReached = true → all.drop skipped = []

theorem Left.doFetch {skipped : Nat} (left : Left (store.inOrder ns boundKeyPrefix ascending) scan skipped rest)
    (boundLimit : Int) (used : scan.result.length ≤ scan.pos) (fetches : scan.limitReached = false) :
    Left (store.inOrder ns boundKeyPrefix ascending)
      (doFetch store ns boundKeyPrefix boundLimit ascending scan)
      (skipped + (store.getRange ns boundKeyPrefix ascending skipped boundLimit).length) rest := by
  have isOffset := left.offset
  constructor
  · rw [← Store.toInt32_getRange boundLimit left.within, ← isOffset]
    rfl
  · exact Store.getRange_within boundLimit left.within
  · rw [left.records, List.drop_eq_nil_of_le used, List.nil_append, SimpleExecutor.doFetch, isOffset]
    exact (Store.getRange_append boundLimit).symm
  · intro reached
    rw [SimpleExecutor.doFetch, isOffset, fetches, Bool.false_or, decide_eq_true_eq] at reached
    exact Store.drop_of_short reached

/-- A page that is read to its end leaves nothing only if it was the last one. -/
theorem Left.isEmpty {skipped : Nat} {all : List Record} (left : Left all scan skipped rest)
    (used : scan.result.length ≤ scan.pos) (reached : scan.limitReached = true) : rest = [] := by
  rw [left.records, left.ended reached, List.drop_eq_nil_of_le used]
  rfl

theorem Left.head {skipped : Nat} {all : List Record} (left : Left all scan skipped rest)
    (inPage : scan.pos < scan.result.length) :
    ∃ record others, rest = record :: others ∧ scan.result[scan.pos]? = some record ∧
      Left all { scan with pos := scan.pos + 1 } skipped others := by
  refine ⟨scan.result[scan.pos], scan.result.drop (scan.pos + 1) ++ all.drop skipped, ?_,
    List.getElem?_eq_getElem inPage, left.offset, left.within, rfl, left.ended⟩
  rw [left.records, List.drop_eq_getElem_cons inPage]
  rfl

/-- A fetched page has a record unless the scan is at its end. -/
theorem doFetch_has (store : Store) (ns : TupleProvider) (boundKeyPrefix : Key) (ascending : Bool)
    (positive : 1 ≤ boundLimit) (fetches : scan.limitReached = false) :
    (doFetch store ns boundKeyPrefix boundLimit ascending scan).Decided := by
  simp only [Scan.Decided, doFetch, fetches, Bool.false_or, decide_eq_true_eq]
  omega

theorem hasNext_decided (decided : scan.Decided) :
    Settles (hasNext store ns boundKeyPrefix boundLimit ascending · scan)
      (.ok (decide (scan.pos < scan.result.length), scan)) := by
  refine .of_succ ((Settles.const _).congr fun rounds => ?_)
  rw [hasNext]
  by_cases inPage : scan.pos < scan.result.length
  · rw [if_pos inPage, decide_eq_true inPage]
  · rw [if_neg inPage, if_pos (decided.resolve_left inPage), decide_eq_false inPage]

theorem hasNext_undecided (undecided : ¬ scan.Decided) (rounds : Nat) :
    hasNext store ns boundKeyPrefix boundLimit ascending (rounds + 1) scan =
      hasNext store ns boundKeyPrefix boundLimit ascending rounds
        (doFetch store ns boundKeyPrefix boundLimit ascending scan) := by
  obtain ⟨used, fetches⟩ := Scan.undecided undecided
  rw [hasNext, if_neg used, fetches, if_neg Bool.false_ne_true]

/-- `hasNext` tells whether records are left, and leaves the first of them in the page. -/
def Reports (store : Store) (ns : TupleProvider) (boundKeyPrefix : Key) (boundLimit : Int) (ascending : Bool)
    (scan : Scan) (rest : List Record) : Prop :=
  ∃ after skipped,
    Settles (hasNext store ns boundKeyPrefix boundLimit ascending · scan) (.ok (!rest.isEmpty, after)) ∧
      Left (store.inOrder ns boundKeyPrefix ascending) after skipped rest ∧
      (rest ≠ [] → after.pos < after.result.length)

theorem Left.more {skipped : Nat} {all : List Record} (left : Left all scan skipped rest) (decided : scan.Decided) :
    decide (scan.pos < scan.result.length) = !rest.isEmpty := by
  by_cases inPage : scan.pos < scan.result.length
  · obtain ⟨record, others, rfl, -⟩ := left.head inPage
    rw [decide_eq_true inPage]
    rfl
  · rw [decide_eq_false inPage, left.isEmpty (by omega) (decided.resolve_left inPage)]
    rfl

theorem Left.inPage {skipped : Nat} {all : List Record} (left : Left all scan skipped rest) (decided : scan.Decided)
    (some : rest ≠ []) : scan.pos < scan.result.length := by
  refine of_decide_eq_true ((left.more decided).trans ?_)
  rw [List.isEmpty_eq_false_iff.mpr some, Bool.not_false]

theorem Left.reports_decided {skipped : Nat}
    (left : Left (store.inOrder ns boundKeyPrefix ascending) scan skipped rest) (boundLimit : Int)
    (decided : scan.Decided) : Reports store ns boundKeyPrefix boundLimit ascending scan rest := by
  refine ⟨scan, skipped, (hasNext_decided decided).congr_outcome ?_, left, left.inPage decided⟩
  rw [left.more decided]

theorem Left.reports {skipped : Nat}
    (left : Left (store.inOrder ns boundKeyPrefix ascending) scan skipped rest) (positive : 1 ≤ boundLimit) :
    Reports store ns boundKeyPrefix boundLimit ascending scan rest := by
  by_cases decided : scan.Decided
  · exact left.reports_decided boundLimit decided
  · obtain ⟨used, fetches⟩ := Scan.undecided decided
    have fetched := left.doFetch boundLimit (by omega) fetches
    obtain ⟨after, later, settles, kept⟩ :=
      fetched.reports_decided boundLimit (doFetch_has store ns boundKeyPrefix ascending positive fetches)
    exact ⟨after, later, .of_succ (settles.congr (hasNext_undecided decided)), kept⟩

theorem indexScan_opens (ns : TupleProvider) (boundKeyPrefix : Key) (ascending : Bool)
    (positive : 1 ≤ boundLimit) :
    (indexScan store ns boundKeyPrefix boundLimit ascending).Opens
      (.ok (.ofList ((store.inOrder ns boundKeyPrefix ascending).map fun r => [r]))) := by
  have start : Left (store.inOrder ns boundKeyPrefix ascending)
      { result := [], pos := 0, offset := 0, limitReached := false } 0
      (store.inOrder ns boundKeyPrefix ascending) := ⟨rfl, Nat.zero_le _, rfl, nofun⟩
  refine ⟨_, .const _, fun scan course => ∃ skipped rest,
    Left (store.inOrder ns boundKeyPrefix ascending) scan skipped rest ∧
      course = .ofList (rest.map fun r => [r]), ?_, _, _, start.doFetch boundLimit (Nat.le_refl _) rfl, rfl⟩
  constructor
  · intro scan course found
    obtain ⟨skipped, rest, left, rfl⟩ := found
    obtain ⟨after, later, settles, kept, -⟩ := left.reports positive
    refine ⟨after, ?_, later, rest, kept, rfl⟩
    rw [Course.pending_ofList, List.isEmpty_map]
    exact settles
  · intro scan value others found
    obtain ⟨skipped, rest, left, same⟩ := found
    cases rest with
    | nil => cases same
    | cons record rest =>
        obtain ⟨after, later, settles, kept, inPage⟩ := left.reports positive
        obtain ⟨first, behind, equal, read, left⟩ := kept.head (inPage (List.cons_ne_nil _ _))
        cases equal
        cases same
        refine ⟨_, settles.bind ((Settles.const _).congr fun rounds => ?_), later, _, left, rfl⟩
        dsimp only
        rw [List.isEmpty_cons, Bool.not_false, if_pos rfl, elementAt, read]
        rfl
  · intro scan failure found
    obtain ⟨skipped, rest, left, same⟩ := found
    cases rest <;> cases same

end

section

variable {ns : TupleProvider} {keyPrefix : KeyGenerator} {boundLimit : Int} {ascending : Bool} {data : TupleData}
  {list : List Tuple}

/-- The tuples that are left for one tuple of the child: those of the buffer and those in the store. -/
structure Stands (store : Store) (ns : TupleProvider) (ascending : Bool) (data : TupleData) (list : List Tuple) :
    Prop where
  within : data.bufferPos ≤ data.buffer.length
  stored : ∃ skipped : Nat, data.offset = skipped ∧ skipped ≤ (store.inOrder ns data.key ascending).length ∧
    list = data.buffer.drop data.bufferPos ++
      ((store.inOrder ns data.key ascending).drop skipped).map (fun r => data.tup ++ [r]) ∧
    (data.limitReached = true → (store.inOrder ns data.key ascending).drop skipped = [])

theorem Stands.fillBuffer (stands : Stands store ns ascending data list) (boundLimit : Int)
    (used : data.bufferPos = data.buffer.length) :
    Stands store ns ascending (fillBuffer store ns boundLimit ascending data) list := by
  obtain ⟨skipped, isOffset, within, same, -⟩ := stands.stored
  refine ⟨?_, skipped + (store.getRange ns data.key ascending skipped boundLimit).length, ?_,
    Store.getRange_within boundLimit within, ?_, ?_⟩
  · change data.bufferPos ≤ (data.buffer ++ _).length
    rw [List.length_append]
    omega
  · rw [← Store.toInt32_getRange boundLimit within, ← isOffset]
    rfl
  · change list = (data.buffer ++ _).drop data.bufferPos ++ _
    rw [same, used, List.drop_left, List.drop_length, List.nil_append, isOffset,
      ← Store.getRange_append boundLimit, List.map_append]
    rfl
  · intro reached
    rw [SimpleExecutor.fillBuffer, isOffset, decide_eq_true_eq] at reached
    exact Store.drop_of_short reached

theorem Stands.head (stands : Stands store ns ascending data list)
    (decided : data.bufferPos < data.buffer.length ∨ data.limitReached = true) :
    data.buffer[data.bufferPos]? = list.head? := by
  obtain ⟨skipped, -, -, rfl, ended⟩ := stands.stored
  by_cases inBuffer : data.bufferPos < data.buffer.length
  · rw [List.getElem?_eq_getElem inBuffer, List.drop_eq_getElem_cons inBuffer]
    rfl
  · rw [ended (decided.resolve_left inBuffer), List.drop_eq_nil_of_le (by omega),
      List.getElem?_eq_none (by omega)]
    rfl

theorem reads (positive : 1 ≤ boundLimit) : Reads (refill store ns boundLimit ascending)
    (fun data => data.buffer[data.bufferPos]?) (fun data => { data with bufferPos := data.bufferPos + 1 })
    (Stands store ns ascending) where
  refresh := by
    intro data list stands
    rw [refill]
    split
    · rename_i needed
      have filled := stands.fillBuffer boundLimit needed.1
      refine ⟨filled, filled.head ?_⟩
      simp only [fillBuffer, List.length_append, List.length_map, decide_eq_true_eq]
      omega
    · rename_i full
      refine ⟨stands, stands.head ?_⟩
      have within := stands.within
      by_cases reached : data.limitReached = true
      · exact .inr reached
      · exact .inl (by
          have used : data.bufferPos ≠ data.buffer.length := fun used => full ⟨used, by simpa using reached⟩
          omega)
  advance := by
    intro data value rest stands isHead
    obtain ⟨inBuffer, read⟩ := List.getElem?_eq_some_iff.mp isHead
    obtain ⟨skipped, isOffset, within, same, ended⟩ := stands.stored
    refine ⟨inBuffer, skipped, isOffset, within, ?_, ended⟩
    rw [List.drop_eq_getElem_cons inBuffer, List.cons_append] at same
    exact (List.cons.inj same).2

/-- The first page stands for all the tuples that belong to a tuple of the child. -/
theorem prefetch_agree (ctx : Context) (store : Store) (ns : TupleProvider) (keyPrefix : KeyGenerator)
    (ascending : Bool) (boundLimit : Int) (childValue : Tuple) :
    Agree (Stands store ns ascending) (prefetch ctx store ns keyPrefix boundLimit ascending childValue)
      (joined ctx store ns keyPrefix ascending childValue) := by
  rw [prefetch, joined]
  cases bindKey ctx ns keyPrefix (some childValue) with
  | error failure => exact .error failure
  | ok boundKeyPrefix =>
      have within := @Store.getRange_within store ns boundKeyPrefix ascending 0 boundLimit (Nat.zero_le _)
      have split := @Store.getRange_append store ns boundKeyPrefix ascending 0 boundLimit
      rw [Nat.zero_add] at within split
      refine .ok ⟨Nat.zero_le _, (store.getRange ns boundKeyPrefix ascending 0 boundLimit).length, rfl, within,
        ?_, ?_⟩
      · rw [List.drop_zero] at split
        dsimp only
        rw [List.drop_zero, ← List.map_append]
        exact congrArg _ split.symm
      · intro short
        have ended := @Store.drop_of_short store ns boundKeyPrefix ascending 0 boundLimit
          (of_decide_eq_true short)
        rwa [Nat.zero_add] at ended

/-- A merge join gives what merging the lists of its child's tuples gives, once `open` has read the child. -/
theorem indexMergeJoin_opens_of (ctx : Context) (store : Store) (ns : TupleProvider) (keyPrefix : KeyGenerator)
    (sortFields : List Value) (ascending : Bool) (positive : 1 ≤ boundLimit) {child : QueryIterator}
    (course : Course QueryFailure Tuple)
    (opens : Settles (fun rounds => do
      child.gather (prefetch ctx store ns keyPrefix boundLimit ascending) rounds
        (← child.opened rounds child.initial)) (course.gather (prefetch ctx store ns keyPrefix boundLimit ascending))) :
    (indexMergeJoin ctx store ns keyPrefix sortFields boundLimit ascending child).Opens (do
      let lists ← course.gather (joined ctx store ns keyPrefix ascending)
      merge (goesBefore ctx sortFields ascending) (total lists) lists) := by
  have agree := course.gather_agree (prefetch_agree ctx store ns keyPrefix ascending boundLimit)
  revert agree opens
  generalize course.gather (prefetch ctx store ns keyPrefix boundLimit ascending) = datas
  generalize course.gather (joined ctx store ns keyPrefix ascending) = lists
  intro opens agree
  cases agree with
  | error failure => exact opens.bind_error
  | @ok datas lists stand =>
      exact Machine.holding_opens (reads positive).sought opens
        ((reads positive).sought ⟨lists, total lists, stand, Nat.le_refl _, rfl⟩)

theorem getRange_of_nonpositive {boundKeyPrefix : Key} (offset : Int) (nonpositive : boundLimit ≤ 0) :
    store.getRange ns boundKeyPrefix ascending offset boundLimit = [] := by
  rw [Store.getRange, Int.toNat_of_nonpos nonpositive, List.take_zero]

/-- A tuple of the child for which pages that hold no record find nothing. -/
def Barren (data : TupleData) (list : List Tuple) : Prop := data.buffer = [] ∧ data.bufferPos = 0 ∧ list = []

theorem prefetch_barren (ctx : Context) (store : Store) (ns : TupleProvider) (keyPrefix : KeyGenerator)
    (ascending : Bool) (nonpositive : boundLimit ≤ 0) (childValue : Tuple) :
    Agree (fun data _ => Barren data []) (prefetch ctx store ns keyPrefix boundLimit ascending childValue)
      (joined ctx store ns keyPrefix ascending childValue) := by
  rw [prefetch, joined]
  cases bindKey ctx ns keyPrefix (some childValue) with
  | error failure => exact .error failure
  | ok boundKeyPrefix =>
      refine .ok ⟨?_, rfl, rfl⟩
      rw [getRange_of_nonpositive _ nonpositive]
      rfl

theorem barren_reads (nonpositive : boundLimit ≤ 0) : Reads (refill store ns boundLimit ascending)
    (fun data => data.buffer[data.bufferPos]?) (fun data => { data with bufferPos := data.bufferPos + 1 })
    Barren where
  refresh := by
    intro data list found
    obtain ⟨empty, start, rfl⟩ := found
    have kept : Barren (refill store ns boundLimit ascending data) [] := by
      rw [refill]
      split
      · refine ⟨?_, start, rfl⟩
        rw [fillBuffer, getRange_of_nonpositive _ nonpositive, empty]
        rfl
      · exact ⟨empty, start, rfl⟩
    refine ⟨kept, ?_⟩
    rw [kept.1]
    rfl
  advance := by
    intro data value rest found
    obtain ⟨-, -, same⟩ := found
    cases same

theorem forall₂_barren {datas : List TupleData} {lists : List (List Tuple)}
    (barren : List.Forall₂ (fun data _ => Barren data []) datas lists) :
    List.Forall₂ Barren datas (lists.map fun _ => []) := by
  rw [List.forall₂_map_right_iff]
  exact barren

/-- With pages that hold no record a merge join reads its child and gives nothing. -/
theorem indexMergeJoin_opens_barren (ctx : Context) (store : Store) (ns : TupleProvider) (keyPrefix : KeyGenerator)
    (sortFields : List Value) (ascending : Bool) (nonpositive : boundLimit ≤ 0) {child : QueryIterator}
    (course : Course QueryFailure Tuple)
    (opens : Settles (fun rounds => do
      child.gather (prefetch ctx store ns keyPrefix boundLimit ascending) rounds
        (← child.opened rounds child.initial)) (course.gather (prefetch ctx store ns keyPrefix boundLimit ascending))) :
    (indexMergeJoin ctx store ns keyPrefix sortFields boundLimit ascending child).Opens (do
      let _ ← course.gather (joined ctx store ns keyPrefix ascending)
      return .done) := by
  have agree := course.gather_agree (prefetch_barren ctx store ns keyPrefix ascending nonpositive)
  revert agree opens
  generalize course.gather (prefetch ctx store ns keyPrefix boundLimit ascending) = datas
  generalize course.gather (joined ctx store ns keyPrefix ascending) = lists
  intro opens agree
  cases agree with
  | error failure => exact opens.bind_error
  | @ok datas lists barren =>
      have none : total (lists.map fun _ => ([] : List Tuple)) ≤ 0 := by simp [total]
      have reads := @barren_reads store ns boundLimit ascending nonpositive
      exact Machine.holding_opens reads.sought opens (reads.sought ⟨_, 0, forall₂_barren barren, none, rfl⟩)

/-- Whatever the page size, a merge join gives what `mergePages` says. -/
theorem indexMergeJoin_opens_pages (ctx : Context) (store : Store) (ns : TupleProvider) (keyPrefix : KeyGenerator)
    (sortFields : List Value) (boundLimit : Int) (ascending : Bool) {child : QueryIterator}
    {result : Except QueryFailure (Course QueryFailure Tuple)} (begins : child.Begins result) :
    (indexMergeJoin ctx store ns keyPrefix sortFields boundLimit ascending child).Opens (do
      mergePages ctx sortFields ascending boundLimit
        (← (← result).gather (joined ctx store ns keyPrefix ascending))) := by
  have opens := begins.gather (prefetch ctx store ns keyPrefix boundLimit ascending)
  cases result with
  | error failure => exact opens.bind_error
  | ok course =>
      by_cases positive : 1 ≤ boundLimit
      · simp only [mergePages_of_positive positive]
        exact indexMergeJoin_opens_of ctx store ns keyPrefix sortFields ascending positive course opens
      · simp only [mergePages_of_nonpositive (Int.not_lt.mp positive)]
        exact indexMergeJoin_opens_barren ctx store ns keyPrefix sortFields ascending (by omega) course opens

theorem indexMergeJoin_opens (ctx : Context) (store : Store) (ns : TupleProvider) (keyPrefix : KeyGenerator)
    (sortFields : List Value) (ascending : Bool) (positive : 1 ≤ boundLimit) {child : QueryIterator}
    {result : Except QueryFailure (Course QueryFailure Tuple)} (begins : child.Begins result) :
    (indexMergeJoin ctx store ns keyPrefix sortFields boundLimit ascending child).Opens (do
      let lists ← (← result).gather (joined ctx store ns keyPrefix ascending)
      merge (goesBefore ctx sortFields ascending) (total lists) lists) := by
  have opens := begins.gather (prefetch ctx store ns keyPrefix boundLimit ascending)
  cases result with
  | error failure => exact opens.bind_error
  | ok course => exact indexMergeJoin_opens_of ctx store ns keyPrefix sortFields ascending positive course opens

end

section

variable {limit : Int} {child : QueryIterator}

theorem stop_pending (count : Nat) (course : Course QueryFailure Tuple) :
    (course.stop count).pending = (course.pending && decide (0 < count)) := by
  cases count <;> cases course <;> rfl

/-- What `LocalStopAfter` has taken so far, and what it has left of its child. -/
def Taken (limit : Int) (child : QueryIterator) (state : child.State × Int)
    (course : Course QueryFailure Tuple) : Prop :=
  ∃ rest, child.Follows state.1 rest ∧ 0 ≤ state.2 ∧ course = rest.stop (limit - state.2).toNat

theorem localStopAfter_simulates (bounded : limit < 2 ^ 31) (child : QueryIterator) :
    (localStopAfter limit child).Simulates (Taken limit child) where
  hasNext := by
    intro given course found
    obtain ⟨state, taken⟩ := given
    obtain ⟨rest, follows, low, same⟩ := found
    obtain ⟨after, answered, follows⟩ := follows.hasNext
    refine ⟨(after, taken), ?_, rest, follows, low, same⟩
    have open' : (course.pending) = (rest.pending && decide (limit > taken)) := by
      rw [same, stop_pending]
      congr 1
      simp only [gt_iff_lt, decide_eq_decide]
      omega
    rw [open']
    exact answered.bind (.const _)
  next := by
    intro given value others found
    obtain ⟨state, taken⟩ := given
    obtain ⟨rest, follows, low, same⟩ := found
    cases counted : (limit - taken).toNat with
    | zero => simp [counted, Course.stop] at same
    | succ count =>
        rw [counted] at same
        cases rest with
        | done => cases same
        | fails failure => cases same
        | more first rest =>
            cases same
            obtain ⟨after, given, follows⟩ := follows.next
            have next : toInt32 (taken + 1) = taken + 1 := toInt32_of_range (by omega) (by omega)
            refine ⟨(after, toInt32 (taken + 1)), given.bind (.const _), rest, follows, ?_, ?_⟩
            · rw [next]
              omega
            · rw [next, show (limit - (taken + 1)).toNat = count by omega]
  fails := by
    intro given failure found
    obtain ⟨state, taken⟩ := given
    obtain ⟨rest, follows, low, same⟩ := found
    cases counted : (limit - taken).toNat with
    | zero => simp [counted, Course.stop] at same
    | succ count =>
        rw [counted] at same
        cases rest with
        | done => cases same
        | fails other =>
            cases same
            exact follows.fails.bind_error
        | more first rest => cases same

theorem localStopAfter_opens (bounded : limit < 2 ^ 31)
    {result : Except QueryFailure (Course QueryFailure Tuple)} (opens : child.Opens result) :
    (localStopAfter limit child).Opens (do return (← result).stop limit.toNat) := by
  cases result with
  | error failure => exact Settles.bind_error opens
  | ok course =>
      obtain ⟨state, opened, follows⟩ := opens
      refine ⟨(state, 0), opened.bind (.const _), _, localStopAfter_simulates bounded child, course, follows,
        Int.le_refl 0, ?_⟩
      rw [Int.sub_zero]

end

theorem localIterator_opens (ctx : Context) (ordinal : Nat) (wrap : Bool) :
    (localIterator ctx ordinal wrap).Opens (do return .ofResults (← localTuples ctx ordinal wrap)) := by
  cases read : localTuples ctx ordinal wrap with
  | error failure =>
      refine (Settles.const _).congr fun rounds => ?_
      change (do return some (← localTuples ctx ordinal wrap)) = _
      rw [read]
      rfl
  | ok tuples =>
      refine ⟨some tuples, (Settles.const _).congr fun rounds => ?_,
        fun delegate course => ∃ tuples, delegate = some tuples ∧ course = .ofResults tuples, ?_, tuples, rfl, rfl⟩
      · change (do return some (← localTuples ctx ordinal wrap)) = _
        rw [read]
        rfl
      constructor
      · intro delegate course found
        obtain ⟨tuples, rfl, rfl⟩ := found
        refine ⟨some tuples, ?_, tuples, rfl, rfl⟩
        have pending : (Course.ofResults tuples).pending = !tuples.isEmpty := by
          cases tuples with
          | nil => rfl
          | cons tuple rest => cases tuple <;> rfl
        rw [pending]
        exact .const _
      · intro delegate value rest found
        obtain ⟨tuples, rfl, same⟩ := found
        cases tuples with
        | nil => cases same
        | cons tuple others =>
            cases tuple with
            | error failure => cases same
            | ok tuple =>
                cases same
                exact ⟨some others, .const _, others, rfl, rfl⟩
      · intro delegate failure found
        obtain ⟨tuples, rfl, same⟩ := found
        cases tuples with
        | nil => cases same
        | cons tuple others =>
            cases tuple with
            | error failure =>
                cases same
                exact .const _
            | ok tuple => cases same

variable {plan : QueryPlan} {iterator : QueryIterator}

theorem apply_opens (advance : ScansAdvance ctx plan) (applied : apply ctx store plan = .ok iterator) :
    iterator.Opens (course ctx store plan) := by
  induction plan generalizing iterator with
  | indexLookup ns key =>
      obtain ⟨boundKey, bound, applied⟩ := built_bind applied
      cases applied
      rw [course, bound]
      exact indexLookup_opens ns boundKey
  | indexScan ns keyPrefix limit ascending =>
      obtain ⟨boundKeyPrefix, bound, applied⟩ := built_bind applied
      obtain ⟨boundLimit, isLimit, rfl⟩ := built_map applied
      rw [course, bound]
      exact indexScan_opens ns boundKeyPrefix ascending (advance limit List.mem_cons_self boundLimit isLimit)
  | indexLookupJoin ns key child ih =>
      obtain ⟨childIterator, childApplied, rfl⟩ := built_map applied
      exact (ih advance childApplied).begins.lookahead _ _
  | indexScanJoin ns keyPrefix limit ascending child ih => cases applied
  | indexMergeJoin ns keyPrefix sortFields limit ascending child ih =>
      obtain ⟨childIterator, childApplied, applied⟩ := built_bind applied
      obtain ⟨boundLimit, isLimit, rfl⟩ := built_map applied
      rw [course, isLimit]
      exact indexMergeJoin_opens_pages ctx store ns keyPrefix sortFields boundLimit ascending
        (ih advance childApplied).begins
  | localSelection predicate child ih =>
      obtain ⟨childIterator, childApplied, rfl⟩ := built_map applied
      exact (ih advance childApplied).begins.lookahead _ _
  | localSort sortFields ascending child ih => cases applied
  | localStopAfter count child ih =>
      obtain ⟨childIterator, childApplied, applied⟩ := built_bind applied
      obtain ⟨limit, isLimit, rfl⟩ := built_map applied
      rw [course, isLimit]
      exact localStopAfter_opens (bindLimit_lt ctx isLimit) (ih advance childApplied)
  | localIterator ordinal wrap =>
      cases applied
      exact localIterator_opens ctx ordinal wrap
  | union child1 child2 eqField => cases applied

/-- What a query comes to under the simple executor. -/
theorem execute_settles (advance : ScansAdvance ctx plan) :
    Settles (execute (apply ctx store plan))
      ((apply ctx store plan).bind fun _ => course ctx store plan >>= Course.outcome) := by
  cases applied : apply ctx store plan with
  | error failure => exact .const _
  | ok iterator => exact (apply_opens advance applied).begins.drain

end SimpleExecutor

end Scads.Piql
