import Scads.Piql.BoundValues

namespace Scads.Piql

open Scads.Client Scads.Data

/-! # Bounds of tuples

How many tuples a physical plan can give on any database: none where a selection
refuses them or a limit is zero, one where the whole key of a record is given.
-/

/-- A key prefix of this length has every field of the primary key of a relation, of which the namespace is the
primary index or another one. -/
def Fixes (ns : TupleProvider) (count : Nat) : Prop :=
  ∃ r, (ns = r ∨ ∃ names, Optimizer.index r names = .ok ns) ∧
    ∀ field ∈ r.keySchema, field.name ∈ (ns.keySchema.take count).map Field.name

/-- The store has one record for a primary key, and one entry for it in an index. -/
def Store.Keyed (store : Store) : Prop :=
  ∀ ns values count, .null ∉ values → Fixes ns values.length →
    (store.matching ns (values ++ List.replicate count .null)).length ≤ 1

variable {ctx : Context} {count : Nat}

/-- The limit is bound to no more than this. -/
def LimitAtMost (ctx : Context) (count : Nat) (limit : Limit) : Prop :=
  ∀ boundLimit, bindLimit ctx limit = .ok boundLimit → boundLimit ≤ count

/-- The value is there on every tuple.  The tuples are shifted where the binder counts their records from the
second on. -/
def Value.NeverNull (ctx : Context) (shifted : Bool) (value : Value) : Prop :=
  (shifted = true → ¬ value.IsAttribute) ∧ ∀ datum, value.Holds ctx datum → datum ≠ .null

/-- No tuple passes the selection. -/
def Refuses (ctx : Context) : Predicate → Prop
  | .equality v1 v2 =>
      ¬ v1.IsAttribute ∧ ¬ v2.IsAttribute ∧ evalPredicate ctx (.equality v1 v2) [] ≠ .ok true
  | .like .. | .within .. => False

/-- The plan gives no more tuples than this on any database. -/
def QueryPlan.AtMost (ctx : Context) (count : Nat) : QueryPlan → Prop
  | .indexLookup .. => 1 ≤ count
  | .indexScan ns keyPrefix _ _ =>
      1 ≤ count ∧ Fixes ns keyPrefix.length ∧ ∀ value ∈ keyPrefix, value.NeverNull ctx false
  | .indexLookupJoin _ _ child => child.AtMost ctx count
  | .indexMergeJoin ns keyPrefix _ limit _ child =>
      LimitAtMost ctx 0 limit ∨ child.AtMost ctx 0 ∨
        (child.AtMost ctx count ∧ Fixes ns keyPrefix.length ∧
          ∀ value ∈ keyPrefix, value.NeverNull ctx child.startsWithLookup)
  | .localSelection predicate child => Refuses ctx predicate ∨ child.AtMost ctx count
  | .localStopAfter limit child => LimitAtMost ctx count limit ∨ child.AtMost ctx count
  | .indexScanJoin .. | .localSort .. | .localIterator .. | .union .. => False

section

variable {store : Store} {schema layout : List TupleProvider} {ns : TupleProvider} {key boundKey : KeyGenerator}
  {tuple : Tuple} {value boundValue : Value} {datum : Datum}

/-- The values that are read are those that the values hold. -/
theorem bindValues_hold {currentTuple : Option Tuple} {values : List Datum}
    (binds : List.Forall₂ (Binder.Binds schema) key boundKey)
    (holds : ∀ value ∈ key, ∀ boundValue datum, Binder.Binds schema value boundValue →
      bindValue ctx boundValue currentTuple = .ok datum → value.Holds ctx datum)
    (read : boundKey.mapM (fun value => bindValue ctx value currentTuple) = .ok values) :
    ∀ datum ∈ values, ∃ value ∈ key, value.Holds ctx datum := by
  intro datum member
  obtain ⟨boundValue, inKey, found⟩ := forall₂_mem_right (mapM_forall₂.mp read) member
  obtain ⟨value, there, bound⟩ := forall₂_mem_right binds inKey
  exact ⟨value, there, holds value there boundValue datum bound found⟩

/-- A range of a whole key without a null has at most one record. -/
theorem Store.Keyed.inOrder (keyed : store.Keyed) {currentTuple : Option Tuple} {bound : Key}
    (binds : List.Forall₂ (Binder.Binds schema) key boundKey) (fixes : Fixes ns key.length) (shifted : Bool)
    (never : ∀ value ∈ key, value.NeverNull ctx shifted)
    (holds : ∀ value ∈ key, ∀ boundValue datum, Binder.Binds schema value boundValue →
      bindValue ctx boundValue currentTuple = .ok datum → value.Holds ctx datum)
    (isBound : bindKey ctx ns boundKey currentTuple = .ok bound) (ascending : Bool) :
    (store.inOrder ns bound ascending).length ≤ 1 := by
  obtain ⟨values, read, within⟩ := built_bind isBound
  have length : values.length = key.length :=
    (mapM_forall₂.mp read).length_eq.symm.trans binds.length_eq.symm
  have present : .null ∉ values := by
    intro member
    obtain ⟨value, there, held⟩ := bindValues_hold binds holds read .null member
    exact (never value there).2 .null held rfl
  split at within
  · cases within
    rw [Store.length_inOrder]
    exact keyed ns values _ present (length ▸ fixes)
  · cases within

end

/-- The plan is bound as a part of one with the schema, whose places are those of its tuples unless it starts
with a lookup. -/
structure Fits (schema : List TupleProvider) (plan : QueryPlan) : Prop where
  plain : plan.Plain
  qualified : ∀ value ∈ plan.values, value.Qualified
  within : plan.startsWithLookup = false → plan.layout <+: schema

section

variable {store : Store} {schema : List TupleProvider} {plan child bound : QueryPlan}

theorem Fits.below (fits : Fits schema plan) (plain : child.Plain) (values : child.values ⊆ plan.values)
    (starts : child.startsWithLookup = plan.startsWithLookup) (laid : child.layout <+: plan.layout) :
    Fits schema child where
  plain := plain
  qualified value member := fits.qualified value (values member)
  within scans := laid.trans (fits.within (starts.symm.trans scans))

theorem Fits.indexLookupJoin {ns : TupleProvider} {key : KeyGenerator}
    (fits : Fits schema (.indexLookupJoin ns key child)) : Fits schema child :=
  fits.below fits.plain (List.subset_append_right ..) rfl (List.prefix_append ..)

theorem Fits.indexMergeJoin {ns : TupleProvider} {key : KeyGenerator} {sortFields : List Value} {limit : Limit}
    {ascending : Bool} (fits : Fits schema (.indexMergeJoin ns key sortFields limit ascending child)) :
    Fits schema child :=
  fits.below fits.plain (List.subset_append_of_subset_right _ (List.subset_append_right ..)) rfl
    (List.prefix_append ..)

theorem Fits.localSelection {predicate : Predicate} (fits : Fits schema (.localSelection predicate child)) :
    Fits schema child :=
  fits.below fits.plain (List.subset_append_right ..) rfl List.prefix_rfl

theorem Fits.localStopAfter {limit : Limit} (fits : Fits schema (.localStopAfter limit child)) :
    Fits schema child :=
  fits.below fits.plain (List.Subset.refl _) rfl List.prefix_rfl

/-- What a value is read as on a tuple of the plan. -/
theorem Fits.holds (fits : Fits schema plan) (typed : store.Typed) {tuple : Tuple}
    (laid : List.Forall₂ store.Gives plan.layout tuple) {value boundValue : Value} {datum : Datum}
    (qualified : value.Qualified) (placed : plan.startsWithLookup = true → ¬ value.IsAttribute)
    (binds : Binder.Binds schema value boundValue) (read : bindValue ctx boundValue (some tuple) = .ok datum) :
    value.Holds ctx datum := by
  have spares := @bindValue_holds ctx store schema plan.layout tuple value boundValue typed qualified binds laid
    fun named => by
      cases looks : plan.startsWithLookup with
      | false => exact fits.within looks
      | true => exact absurd named (placed looks)
  rw [read] at spares
  exact spares

end

end Scads.Piql
