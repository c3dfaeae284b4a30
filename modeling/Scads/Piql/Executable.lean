import Scads.Piql.TupleBounds

namespace Scads.Piql

open Scads.Client Scads.Data

/-! # Executable plans

The optimizer, the binder and the executor each take a plan apart.  A plan that
one of them makes runs in the next without a match error when the values that are
compared have types that can be compared and the binder finds their relations.
-/

section

variable {ctx : Context} {store : Store} {schema : List TupleProvider} {plan child bound boundChild : QueryPlan}
  {tuple : Tuple}

/-- A value of a bound plan is read as what it holds, or has not got there yet. -/
theorem Fits.spares (fits : Fits schema plan) (typed : store.Typed)
    (laid : List.Forall₂ store.Gives plan.layout tuple) {value boundValue : Value} (qualified : value.Qualified)
    (placed : plan.startsWithLookup = true → ¬ value.IsAttribute) (binds : Binder.Binds schema value boundValue) :
    Spares .matchError (value.Holds ctx) (bindValue ctx boundValue (some tuple)) :=
  bindValue_holds typed qualified binds laid fun named => by
    cases looks : plan.startsWithLookup with
    | false => exact fits.within looks
    | true => exact absurd named (placed looks)

/-- A bound plan that the executor does not refuse is made of operators that it has. -/
theorem plain_of_accepted (binds : Binder.bindPlan schema plan = .ok bound)
    (accepted : SimpleExecutor.apply ctx store bound ≠ .error .matchError) : plan.Plain := by
  induction plan generalizing bound with
  | indexLookup | indexScan => trivial
  | indexLookupJoin ns key child ih =>
      obtain ⟨values, keyBinds, binds⟩ := built_bind binds
      obtain ⟨boundChild, childBinds, same⟩ := built_bind binds
      cases same
      refine ih childBinds fun refused => accepted ?_
      rw [SimpleExecutor.apply, refused]
      rfl
  | indexMergeJoin ns keyPrefix sortFields limit ascending child ih =>
      obtain ⟨values, keyBinds, binds⟩ := built_bind binds
      obtain ⟨fields, fieldBinds, binds⟩ := built_bind binds
      obtain ⟨boundChild, childBinds, same⟩ := built_bind binds
      cases same
      refine ih childBinds fun refused => accepted ?_
      rw [SimpleExecutor.apply, refused]
      rfl
  | localSelection predicate child ih =>
      obtain ⟨boundPredicate, predicateBinds, binds⟩ := built_bind binds
      obtain ⟨boundChild, childBinds, same⟩ := built_bind binds
      cases same
      refine ih childBinds fun refused => accepted ?_
      rw [SimpleExecutor.apply, refused]
      rfl
  | localStopAfter limit child ih =>
      obtain ⟨boundChild, childBinds, same⟩ := built_bind binds
      cases same
      refine ih childBinds fun refused => accepted ?_
      rw [SimpleExecutor.apply, refused]
      rfl
  | indexScanJoin ns keyPrefix limit ascending child =>
      obtain ⟨values, keyBinds, same⟩ := built_bind binds
      cases same
      exact (accepted rfl).elim
  | localSort sortFields ascending child =>
      obtain ⟨values, keyBinds, binds⟩ := built_bind binds
      obtain ⟨boundChild, childBinds, same⟩ := built_bind binds
      cases same
      exact (accepted rfl).elim
  | localIterator | union => cases binds

section

variable {ns : TupleProvider} {key boundKey : KeyGenerator}

end

end

end Scads.Piql
