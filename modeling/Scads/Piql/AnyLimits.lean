import Scads.Piql.KeyOrder
import Scads.Piql.ScanTermination

namespace Scads.Piql

open Scads.Client Scads.Data

/-! # Plans with any limits

A scan whose limit is not positive never ends, and a merge join whose limit is not
positive finds nothing.
-/

namespace SimpleExecutor

variable {ctx : Context} {store : Store} {ns : TupleProvider} {keyPrefix : KeyGenerator} {sortFields : List Value}
  {boundKeyPrefix : Key} {boundLimit : Int} {ascending : Bool} {child : QueryIterator}
  {holds passes : Course QueryFailure Tuple → Prop}

theorem indexScan_comes : (indexScan store ns boundKeyPrefix boundLimit ascending).Comes
    (· = .ofList ((store.inOrder ns boundKeyPrefix ascending).map fun r => [r])) := by
  by_cases positive : 1 ≤ boundLimit
  · refine .inr ⟨_, indexScan_opens ns boundKeyPrefix ascending positive, fun course same => ?_⟩
    cases same
    rfl
  · exact .inl (indexScan_unending (by omega)).stuck

theorem localStopAfter_stuck {limit : Int} (stuck : child.Stuck) : (localStopAfter limit child).Stuck := by
  intro rounds
  obtain refused | ⟨state, opened, unfinished⟩ := stuck rounds
  · refine .inl ?_
    change (child.opened rounds child.initial).bind _ = _
    rw [refused]
    rfl
  · refine .inr ⟨(state, 0), ?_, fun turns => ?_⟩
    · change (child.opened rounds child.initial).bind _ = _
      rw [opened]
      rfl
    · change (child.hasNext turns state).bind _ = _
      rw [unfinished]
      rfl

theorem indexMergeJoin_stuck (stuck : child.Stuck) :
    (indexMergeJoin ctx store ns keyPrefix sortFields boundLimit ascending child).Stuck := by
  refine fun rounds => .inl ?_
  have unfinished := stuck.gather (prefetch ctx store ns keyPrefix boundLimit ascending) rounds
  change ((child.opened rounds child.initial >>= _) >>= _) = _
  rw [unfinished]
  rfl

theorem localStopAfter_comes {limit : Int} (bounded : limit < 2 ^ 31) (comes : child.Comes holds)
    (stops : ∀ course, holds course → passes (course.stop limit.toNat)) :
    (localStopAfter limit child).Comes passes := by
  obtain stuck | ⟨result, opens, given⟩ := comes
  · exact .inl (localStopAfter_stuck stuck)
  · refine .inr ⟨_, localStopAfter_opens bounded opens, fun course stopped => ?_⟩
    obtain ⟨whole, same, stopped⟩ := built_bind stopped
    cases stopped
    exact stops whole (given whole same)

theorem indexMergeJoin_comes (comes : child.Comes holds)
    (merged : ∀ given lists course, holds given → given.gather (joined ctx store ns keyPrefix ascending) = .ok lists →
      mergePages ctx sortFields ascending boundLimit lists = .ok course → passes course) :
    (indexMergeJoin ctx store ns keyPrefix sortFields boundLimit ascending child).Comes passes := by
  obtain stuck | ⟨result, opens, given⟩ := comes
  · exact .inl (indexMergeJoin_stuck stuck)
  · refine .inr ⟨_, indexMergeJoin_opens_pages ctx store ns keyPrefix sortFields boundLimit ascending opens.begins,
      fun course ran => ?_⟩
    obtain ⟨whole, same, ran⟩ := built_bind ran
    obtain ⟨lists, gathered, ran⟩ := built_bind ran
    exact merged whole lists course (given whole same) gathered ran

theorem apply_comes {plan : QueryPlan} {iterator : QueryIterator} (plain : plan.Plain)
    (applied : apply ctx store plan = .ok iterator) :
    iterator.Comes fun given => given.Each fun tuple => List.Forall₂ store.Gives plan.layout tuple := by
  induction plan generalizing iterator with
  | indexLookup ns key =>
      obtain ⟨boundKey, -, applied⟩ := built_bind applied
      cases applied
      refine .inr ⟨_, indexLookup_opens ns boundKey, fun course same => ?_⟩
      cases same
      refine Course.each_ofList fun tuple member => ?_
      obtain ⟨record, there, rfl⟩ := List.mem_map.mp member
      exact .cons (.inl ⟨boundKey, Option.mem_toList.mp there⟩) .nil
  | indexScan ns keyPrefix limit ascending =>
      obtain ⟨boundKeyPrefix, -, applied⟩ := built_bind applied
      obtain ⟨boundLimit, -, rfl⟩ := built_map applied
      refine indexScan_comes.imp fun course same => ?_
      rw [same]
      refine Course.each_ofList fun tuple member => ?_
      obtain ⟨record, there, rfl⟩ := List.mem_map.mp member
      exact .cons (Store.gives_of_inOrder there) .nil
  | indexLookupJoin ns key child ih =>
      obtain ⟨childIterator, childApplied, rfl⟩ := built_map applied
      exact (ih plain childApplied).lookahead _ _ fun course result each sifted => each.sift lookupRecord_laid sifted
  | indexMergeJoin ns keyPrefix sortFields limit ascending child ih =>
      obtain ⟨childIterator, childApplied, applied⟩ := built_bind applied
      obtain ⟨boundLimit, -, rfl⟩ := built_map applied
      exact indexMergeJoin_comes (ih plain childApplied) fun given lists course each gathered merged =>
        mergePages_each (each.gather joined_laid gathered) merged
  | localSelection predicate child ih =>
      obtain ⟨childIterator, childApplied, rfl⟩ := built_map applied
      exact (ih plain childApplied).lookahead _ _ fun course result each sifted =>
        each.sift (fun laid selected => keepSelected_same selected ▸ laid) sifted
  | localStopAfter count child ih =>
      obtain ⟨childIterator, childApplied, applied⟩ := built_bind applied
      obtain ⟨limit, isLimit, rfl⟩ := built_map applied
      exact localStopAfter_comes (bindLimit_lt ctx isLimit) (ih plain childApplied) fun course each => each.stop _
  | indexScanJoin | localSort | localIterator | union => cases plain

end SimpleExecutor

end Scads.Piql
