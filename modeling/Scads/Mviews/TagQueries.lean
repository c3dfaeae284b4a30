import Scads.Mviews.MVClient
import Scads.Piql.Binder
import Scads.Piql.Optimizer

namespace Scads.Mviews

open Scads.Client Scads.Data Scads.Piql

/-! # The query for the tags of an item

The optimizer answers it from the index on the items, and what the executor then
gives are the words that the client's `selectItem` reads.
-/

def tagsRelation : TupleProvider where
  ns := "tags"
  aliasName := none
  schema :=
    { keyFields := [⟨"word", "\"string\""⟩, ⟨"item", "\"string\""⟩]
      valueFields := []
      distinct := by decide }
  isRelation := true

/-- The index of the tags on their items. -/
def itemIndex : TupleProvider where
  ns := "tags/item"
  aliasName := none
  schema :=
    { keyFields := [⟨"item", "\"string\""⟩, ⟨"word", "\"string\""⟩]
      valueFields := []
      distinct := by decide }
  isRelation := false

def selectItemLogical : LogicalPlan :=
  .stopAfter (.fixed 20)
    (.selection (.equality (.qualifiedAttribute tagsRelation ⟨"item", "\"string\""⟩) (.parameter 0))
      (.relation tagsRelation))

def selectItemPlan : QueryPlan :=
  .localStopAfter (.fixed 20)
    (.indexLookupJoin tagsRelation [.attribute 0 1, .attribute 0 0]
      (.indexScan itemIndex [.parameter 0] (.fixed 20) true))

theorem selectItem_compiled : Optimizer.apply selectItemLogical >>= Binder.boundPlan = .ok selectItemPlan := by decide

/-- The store has the tags and their index. -/
structure HoldsTags (store : Store) (tags : Finset Tag) : Prop where
  records : ∀ word item, ⟨word, item⟩ ∈ tags →
    store.getRecord tagsRelation [.utf8 word, .utf8 item] = some [.utf8 word, .utf8 item]
  entries : ∀ item, store.matching itemIndex [.string item, .null] =
    ((MTagClient.wordsOf tags item).sort (· ≤ ·)).map fun word => [.utf8 item, .utf8 word]

/-- The tuple of a tag: its index entry and its record. -/
def tagTuple (item word : String) : Tuple := [[.utf8 item, .utf8 word], [.utf8 word, .utf8 item]]

theorem selectItem_runs {store : Store} {tags : Finset Tag} (holds : HoldsTags store tags) (item : String) :
    Settles (execute (SimpleExecutor.apply ⟨[.value (.string item)]⟩ store selectItemPlan))
      (.ok ((MTagClient.selectItemQuery tags item).map (tagTuple item))) := by
  have limits : LimitsWithin ⟨[.value (.string item)]⟩ 20 selectItemPlan := by
    intro limit member
    have twenty : limit = .fixed 20 := by simpa [selectItemPlan, QueryPlan.limits] using member
    rw [twenty]
    exact ⟨20, rfl, by decide⟩
  refine (SimpleExecutor.execute_settles limits.advance).congr_outcome ?_
  have looked : ((store.inOrder itemIndex [.string item, .null] true).map fun r => [r]).mapM
      (lookupRecord ⟨[.value (.string item)]⟩ store tagsRelation [.attribute 0 1, .attribute 0 0]) =
        .ok (((MTagClient.wordsOf tags item).sort (· ≤ ·)).map fun word => some (tagTuple item word)) := by
    rw [Store.inOrder, if_pos rfl, holds.entries]
    have recorded : ∀ word ∈ (MTagClient.wordsOf tags item).sort (· ≤ ·),
        store.getRecord tagsRelation [.utf8 word, .utf8 item] = some [.utf8 word, .utf8 item] := by
      intro word member
      exact holds.records word item (MTagClient.mem_wordsOf.mp ((Finset.mem_sort _).mp member))
    generalize (MTagClient.wordsOf tags item).sort (· ≤ ·) = words at recorded
    induction words with
    | nil => rfl
    | cons word rest ih =>
        have first : lookupRecord ⟨[.value (.string item)]⟩ store tagsRelation [.attribute 0 1, .attribute 0 0]
            [[.utf8 item, .utf8 word]] = .ok (some (tagTuple item word)) := by
          have found := recorded word (by simp)
          change Except.ok ((store.getRecord tagsRelation [.utf8 word, .utf8 item]).map _) = _
          rw [found]
          rfl
        have later := ih fun other member => recorded other (by simp [member])
        rw [List.map_cons, List.map_cons, List.mapM_cons, first, later]
        rfl
  have sifted := Course.sift_ofList looked
  have built : SimpleExecutor.apply ⟨[.value (.string item)]⟩ store selectItemPlan = .ok _ := rfl
  rw [built]
  change (course ⟨[.value (.string item)]⟩ store selectItemPlan >>= Course.outcome) = _
  have given : course ⟨[.value (.string item)]⟩ store selectItemPlan =
      .ok ((Course.ofList ((((MTagClient.wordsOf tags item).sort (· ≤ ·)).map
        fun word => some (tagTuple item word)).filterMap id)).stop 20) := by
    change (do
      let rest ← (Course.ofList ((store.inOrder itemIndex [.string item, .null] true).map fun r => [r])).sift
        (lookupRecord ⟨[.value (.string item)]⟩ store tagsRelation [.attribute 0 1, .attribute 0 0])
      return rest.stop 20) = _
    rw [sifted]
    rfl
  rw [given, Course.stop_ofList]
  change (Course.ofList _).outcome = _
  rw [Course.outcome_ofList, MTagClient.selectItemQuery]
  simp [limit, List.map_take, List.filterMap_map]

end Scads.Mviews
