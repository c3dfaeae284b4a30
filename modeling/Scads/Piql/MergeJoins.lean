import Scads.Data.Comparator
import Scads.Data.StableMerging
import Scads.Piql.SimpleRuns

namespace Scads.Piql

open Scads.Client Scads.Data

/-! # Merge joins

Where the sort fields compare all the joined tuples, a merge join is the stable merge
of the tuples that it finds for each tuple of its child.
-/

/-- Whether the first tuple may stand before the second in the direction of the join. -/
def inSortOrder (comparison : Tuple → Tuple → Int) (ascending : Bool) (left right : Tuple) : Bool :=
  if ascending then comparison left right ≤ 0 else 0 ≤ comparison left right

section

variable {ctx : Context} {sortFields : List Value} {used : Tuple → Prop} {comparison : Tuple → Tuple → Int}

theorem goesBefore_ranks
    (preorders : PreordersBy used (fun left right => compareTuples ctx left right sortFields) comparison)
    (ascending : Bool) : Ranks (goesBefore ctx sortFields ascending) used (inSortOrder comparison ascending) := by
  have flips := @preorders.preorders.flips
  constructor
  · intro left right leftUsed rightUsed
    have compared : compareTuples ctx left right sortFields = .ok (comparison left right) :=
      preorders.compared leftUsed rightUsed
    have there := flips leftUsed rightUsed
    have back := flips rightUsed leftUsed
    rw [goesBefore, compared, inSortOrder]
    cases ascending with
    | true =>
        simp only [if_true, ← decide_not, Int.not_le, ← there]
        rfl
    | false =>
        simp only [Bool.false_eq_true, if_false, ← decide_not, Int.not_le, back]
        rfl
  · intro left right leftUsed rightUsed
    have there := flips leftUsed rightUsed
    have back := flips rightUsed leftUsed
    cases ascending with
    | true =>
        simp only [inSortOrder, if_true, decide_eq_true_eq]
        omega
    | false =>
        simp only [inSortOrder, Bool.false_eq_true, if_false, decide_eq_true_eq]
        omega
  · intro first second third firstUsed secondUsed thirdUsed
    cases ascending with
    | true =>
        simp only [inSortOrder, if_true, decide_eq_true_eq]
        exact preorders.preorders.trans firstUsed secondUsed thirdUsed
    | false =>
        have one := flips firstUsed secondUsed
        have two := flips secondUsed thirdUsed
        have both := flips firstUsed thirdUsed
        have chain := preorders.preorders.trans thirdUsed secondUsed firstUsed
        simp only [inSortOrder, Bool.false_eq_true, if_false, decide_eq_true_eq]
        omega

end

namespace SimpleExecutor

variable {ctx : Context} {store : Store} {ns : TupleProvider} {keyPrefix : KeyGenerator} {sortFields : List Value}
  {limit : Limit} {ascending : Bool} {child : QueryPlan} {boundLimit : Int} {childTuples : List Tuple}
  {lists : List (List Tuple)} {comparison : Tuple → Tuple → Int}

/-- A merge join ends and yields the joined tuples of its child's tuples, merged in a stable way. -/
theorem merge_join_yields (childYields : Settles (execute (apply ctx store child)) (.ok childTuples))
    (isLimit : bindLimit ctx limit = .ok boundLimit) (positive : 1 ≤ boundLimit)
    (found : childTuples.mapM (joined ctx store ns keyPrefix ascending) = .ok lists)
    (preorders : PreordersBy (· ∈ lists.flatten) (fun left right => compareTuples ctx left right sortFields) comparison)
    (arrive : ∀ list ∈ lists, list.Pairwise fun earlier later =>
      inSortOrder comparison ascending earlier later = true) :
    ∃ result,
      Settles (execute (apply ctx store (.indexMergeJoin ns keyPrefix sortFields limit ascending child)))
        (.ok result) ∧
      StableMerge (· ∈ lists.flatten) (inSortOrder comparison ascending) lists result := by
  have ranked : ∀ list ∈ lists, RankedList (· ∈ lists.flatten) (inSortOrder comparison ascending) list :=
    fun list member => ⟨fun value inside => List.mem_flatten.mpr ⟨list, member, inside⟩, arrive list member⟩
  obtain ⟨merged, same, stable⟩ := (goesBefore_ranks preorders ascending).merge (Nat.le_refl _) ranked
  refine ⟨merged, ?_, stable⟩
  cases applied : apply ctx store child with
  | error failure =>
      rw [applied] at childYields
      cases (Settles.const _).unique childYields
  | ok childIterator =>
      rw [applied] at childYields
      have gathers := Machine.gather_of_drain (prefetch ctx store ns keyPrefix boundLimit ascending) childYields
      rw [← Course.gather_ofList] at gathers found
      have opens := indexMergeJoin_opens_of ctx store ns keyPrefix sortFields ascending positive _ gathers
      rw [found] at opens
      change Machine.Opens _ (merge _ (total lists) lists) at opens
      rw [same] at opens
      have drains := opens.begins.drain
      change Settles _ (Course.ofList merged).outcome at drains
      rw [Course.outcome_ofList] at drains
      rw [apply, applied]
      change Settles (execute ((bindLimit ctx limit).map _)) _
      rw [isLimit]
      exact drains

def thoughtAt (owner : String) (timestamp : Int32) : Record := [.utf8 owner, .int timestamp, .utf8 "hello"]

def twoAuthors : Store where
  getRecord _ _ := none
  matching _ key :=
    if key.head? = some (.utf8 "bob") then [thoughtAt "bob" 1, thoughtAt "bob" 2]
    else [thoughtAt "alice" 1, thoughtAt "alice" 3]
  counted ns key := by
    split <;> decide

def authors : Context := ⟨[.tuples [[[.utf8 "alice"]], [[.utf8 "bob"]]]]⟩

def byTimestamp : Tuple → Tuple → Int
  | [_, [_, .int l, _]], [_, [_, .int r, _]] => (l - r).toInt
  | _, _ => 0

def joinedThoughts : List (List Tuple) :=
  [[[[.utf8 "alice"], thoughtAt "alice" 1], [[.utf8 "alice"], thoughtAt "alice" 3]],
    [[[.utf8 "bob"], thoughtAt "bob" 1], [[.utf8 "bob"], thoughtAt "bob" 2]]]

theorem byTimestamp_preorders :
    PreordersBy (· ∈ joinedThoughts.flatten) (fun left right => compareTuples authors left right [.attribute 1 1])
      byTimestamp where
  compared := by
    have all : ∀ left ∈ joinedThoughts.flatten, ∀ right ∈ joinedThoughts.flatten,
        compareTuples authors left right [.attribute 1 1] = .ok (byTimestamp left right) := by decide +kernel
    exact fun {left right} leftUsed rightUsed => all left leftUsed right rightUsed
  preorders := by
    constructor
    · have all : ∀ left ∈ joinedThoughts.flatten, ∀ right ∈ joinedThoughts.flatten,
          (byTimestamp left right < 0 ↔ 0 < byTimestamp right left) := by decide +kernel
      exact fun {left right} leftUsed rightUsed => all left leftUsed right rightUsed
    · have all : ∀ first ∈ joinedThoughts.flatten, ∀ second ∈ joinedThoughts.flatten,
          ∀ third ∈ joinedThoughts.flatten, byTimestamp first second ≤ 0 → byTimestamp second third ≤ 0 →
            byTimestamp first third ≤ 0 := by decide +kernel
      exact fun {first second third} firstUsed secondUsed thirdUsed =>
        all first firstUsed second secondUsed third thirdUsed

/-- Pages of one record; the thoughts of the first author go first where the timestamps tie. -/
theorem two_authors_merged :
    ∃ result,
      Settles (execute (apply authors twoAuthors
        (.indexMergeJoin thoughts [.attribute 0 0] [.attribute 1 1] (.fixed 1) true (.localIterator 0 false))))
        (.ok result) ∧
      StableMerge (· ∈ joinedThoughts.flatten) (inSortOrder byTimestamp true) joinedThoughts result := by
  have childYields : Settles (execute (apply authors twoAuthors (.localIterator 0 false)))
      (.ok [[[.utf8 "alice"]], [[.utf8 "bob"]]]) :=
    (localIterator_opens authors 0 false).begins.drain
  exact merge_join_yields childYields rfl (by decide) (by decide +kernel) byTimestamp_preorders (by decide +kernel)

end SimpleExecutor

end Scads.Piql
