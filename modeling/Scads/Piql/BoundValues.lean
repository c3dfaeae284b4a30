import Scads.Piql.Compiled

namespace Scads.Piql

open Scads.Client Scads.Data

/-! # Bound values

What the values of a plan are bound to, and what the executor reads for them on the
tuples of a store.
-/

/-- The value of a field has the type of its schema. -/
structure Conforms (field : Field) (datum : Datum) : Prop where
  int : field.schema = "\"int\"" → ∃ value, datum = .int value
  string : field.schema = "\"string\"" → ∃ text, datum = .utf8 text
  boolean : field.schema = "\"boolean\"" → ∃ value, datum = .boolean value

/-- The records have the fields of their schemas. -/
def Store.Typed (store : Store) : Prop :=
  ∀ ns record, store.Gives ns record → List.Forall₂ Conforms ns.fields record

namespace Value

/-- The values of a qualified plan. -/
def Qualified : Value → Prop
  | .constant _ | .parameter _ | .qualifiedAttribute .. => True
  | .attribute .. | .unboundAttribute _ => False

/-- What the value can be in a query: every value of its type for an attribute. -/
def Holds (ctx : Context) : Value → Datum → Prop
  | .qualifiedAttribute r f, datum => ∃ field ∈ r.fields, field.name = f.name ∧ Conforms field datum
  | value, datum => bindValue ctx value none = .ok datum

/-- What the value can be on these records. -/
def Occurs (ctx : Context) (store : Store) : Value → Datum → Prop
  | .qualifiedAttribute r f, datum => ∃ record, store.Gives r record ∧ record[r.pos f]? = some datum
  | value, datum => bindValue ctx value none = .ok datum

def IsAttribute (value : Value) : Prop := ∃ r f, value = .qualifiedAttribute r f

end Value

namespace QueryPlan

/-- All the values of a plan. -/
def values : QueryPlan → List Value
  | .indexLookup _ key => key
  | .indexScan _ keyPrefix _ _ => keyPrefix
  | .indexLookupJoin _ key child => key ++ child.values
  | .indexScanJoin _ keyPrefix _ _ child => keyPrefix ++ child.values
  | .indexMergeJoin _ keyPrefix sortFields _ _ child => keyPrefix ++ (sortFields ++ child.values)
  | .localSelection predicate child => predicate.values ++ child.values
  | .localSort sortFields _ child => sortFields ++ child.values
  | .localStopAfter _ child => child.values
  | .localIterator .. => []
  | .union child1 child2 _ => child1.values ++ child2.values

/-- The predicates that are evaluated on the tuples. -/
def predicates : QueryPlan → List Predicate
  | .localSelection predicate child => predicate :: child.predicates
  | .indexLookupJoin _ _ child | .indexScanJoin _ _ _ _ child | .indexMergeJoin _ _ _ _ _ child
  | .localSort _ _ child | .localStopAfter _ child => child.predicates
  | .indexLookup .. | .indexScan .. | .localIterator .. => []
  | .union child1 child2 _ => child1.predicates ++ child2.predicates

end QueryPlan

namespace Binder

variable {schema : List TupleProvider} {plan bound : QueryPlan}

/-- One value of a plan and the value that it is bound to. -/
def Binds (schema : List TupleProvider) (value boundValue : Value) : Prop := bindValue schema value = .ok boundValue

end Binder

section

variable {ctx : Context} {store : Store} {schema layout : List TupleProvider} {tuple : Tuple}

theorem elementAt_spares {α : Type} (values : List α) (index : Nat) :
    Spares .matchError (values[index]? = some ·) (elementAt values index) := by
  rw [elementAt]
  cases values[index]? with
  | none =>
      intro same
      cases same
  | some value => exact rfl

/-- A bound value can always be evaluated or is not there. -/
theorem bindValue_spares {schema : List TupleProvider} {value boundValue : Value} (qualified : value.Qualified)
    (binds : Binder.Binds schema value boundValue) (ctx : Context) (currentTuple : Option Tuple) :
    Spares .matchError (fun _ => True) (bindValue ctx boundValue currentTuple) := by
  unfold Binder.Binds Binder.bindValue at binds
  split at binds
  · split at binds
    · cases binds
      cases currentTuple with
      | none => exact nofun
      | some tuple =>
          exact (elementAt_spares tuple _).bind fun record _ => (elementAt_spares record _).imp fun _ _ => trivial
    · cases binds
  · cases binds
    unfold Value.Qualified at qualified
    split at qualified
    · trivial
    · refine (elementAt_spares ctx.parameters _).bind fun parameter _ => ?_
      cases parameter <;> trivial
    · rename_i other
      exact absurd rfl (other _ _)
    · cases qualified
    · cases qualified

/-- A tuple has at the place of an attribute a value of that attribute, or has not got there yet. -/
theorem bindValue_occurs {value boundValue : Value} (qualified : value.Qualified)
    (binds : Binder.Binds schema value boundValue) (laid : List.Forall₂ store.Gives layout tuple)
    (within : value.IsAttribute → layout <+: schema) :
    Spares .matchError (value.Occurs ctx store) (bindValue ctx boundValue (some tuple)) := by
  unfold Binder.Binds Binder.bindValue at binds
  split at binds
  · rename_i r f
    split at binds
    · rename_i member
      cases binds
      refine (elementAt_spares tuple _).bind fun record read => ?_
      refine (elementAt_spares record _).imp fun datum there => ?_
      have short : schema.idxOf r < layout.length := by
        rw [laid.length_eq]
        exact (List.getElem?_eq_some_iff.mp read).1
      have isRelation : layout[schema.idxOf r]? = some r := by
        obtain ⟨rest, rfl⟩ := within ⟨r, f, rfl⟩
        rw [← List.getElem?_append_left short]
        exact List.getElem?_idxOf member
      obtain ⟨inLayout, isR⟩ := List.getElem?_eq_some_iff.mp isRelation
      obtain ⟨inTuple, isRecord⟩ := List.getElem?_eq_some_iff.mp read
      have given := laid.get inLayout inTuple
      simp only [List.get_eq_getElem, isR, isRecord] at given
      exact ⟨record, given, there⟩
    · cases binds
  · cases binds
    unfold Value.Qualified at qualified
    split at qualified
    · exact rfl
    · rename_i ordinal other
      exact (@bindValue_spares schema (.parameter ordinal) _ trivial rfl ctx (some tuple)).self
    · rename_i other
      exact absurd rfl (other _ _)
    · cases qualified
    · cases qualified

theorem holds_of_occurs (typed : store.Typed) {value : Value} {datum : Datum} (qualified : value.Qualified)
    (occurs : value.Occurs ctx store datum) : value.Holds ctx datum := by
  unfold Value.Qualified at qualified
  split at qualified
  · exact occurs
  · exact occurs
  · rename_i r f
    obtain ⟨record, given, there⟩ := occurs
    have conforms := typed r record given
    obtain ⟨inRecord, isDatum⟩ := List.getElem?_eq_some_iff.mp there
    have inFields : r.pos f < r.fields.length := by
      rw [conforms.length_eq]
      exact inRecord
    have here := conforms.get inFields inRecord
    simp only [List.get_eq_getElem, isDatum] at here
    exact ⟨_, List.getElem_mem inFields, of_decide_eq_true (List.findIdx_getElem (w := inFields)), here⟩
  · cases qualified
  · cases qualified

theorem bindValue_holds {value boundValue : Value} (typed : store.Typed) (qualified : value.Qualified)
    (binds : Binder.Binds schema value boundValue) (laid : List.Forall₂ store.Gives layout tuple)
    (within : value.IsAttribute → layout <+: schema) :
    Spares .matchError (value.Holds ctx) (bindValue ctx boundValue (some tuple)) :=
  (bindValue_occurs qualified binds laid within).imp fun _ occurs => holds_of_occurs typed qualified occurs

end

end Scads.Piql
