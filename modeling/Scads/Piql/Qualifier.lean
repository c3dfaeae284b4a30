import Mathlib.Data.List.TakeWhile
import Scads.Piql.Optimizer
import Scads.Piql.SimpleRuns

namespace Scads.Piql

open Scads.Client Scads.Data

/-! # The qualifier

Before a plan is optimized, the names of its attributes are resolved to fields of its
relations.  A name with a dot is looked up among the names of the relations, any
other name among the fields of all of them.
-/

/-- A value of a qualified plan, which has attributes with `null` in the place of a field. -/
inductive QualifiedValue where
  | value (v : Value)
  | nullField (relation : TupleProvider)
deriving DecidableEq

inductive QualifiedPredicate where
  | equality (v1 v2 : QualifiedValue)
  | like (v1 v2 : QualifiedValue)
  | within (v1 v2 : QualifiedValue)
deriving DecidableEq

def QualifiedPredicate.values : QualifiedPredicate → List QualifiedValue
  | .equality v1 v2 | .like v1 v2 | .within v1 v2 => [v1, v2]

inductive QualifiedPlan where
  | relation (r : TupleProvider)
  | selection (predicate : QualifiedPredicate) (child : QualifiedPlan)
  | sort (attributes : List QualifiedValue) (ascending : Bool) (child : QualifiedPlan)
  | stopAfter (count : Limit) (child : QualifiedPlan)
  | dataStopAfter (count : Limit) (child : QualifiedPlan)
  | paginate (count : Limit) (child : QualifiedPlan)
  | join (left right : QualifiedPlan)
deriving DecidableEq

namespace TupleProvider

def getField (provider : TupleProvider) (name : String) : Option Field :=
  provider.fields.find? fun field => field.name = name

def HasField (provider : TupleProvider) (name : String) : Prop := name ∈ provider.fields.map Field.name

instance (provider : TupleProvider) (name : String) : Decidable (provider.HasField name) :=
  inferInstanceAs (Decidable (name ∈ provider.fields.map Field.name))

end TupleProvider

namespace Qualifier

inductive NamedAttribute where
  | unique (relation : TupleProvider) (field : Field)
  | ambiguous

inductive NamedRelation where
  | unique (r : TupleProvider)
  | ambiguous

def getRelations : LogicalPlan → Except QueryFailure (List TupleProvider)
  | .relation r => if r.isRelation then .ok [r] else .error .matchError
  | .selection _ child | .sort _ _ child | .stopAfter _ child | .dataStopAfter _ child | .paginate _ child =>
      getRelations child
  | .join left right => do return (← getRelations left) ++ (← getRelations right)

section

variable (relations : List TupleProvider)

/-- What `attributeMap` has under a name. -/
def attributeMap (name : String) : Option NamedAttribute :=
  match (relations.flatMap fun r => r.fields.map fun f => (r, f)).filter fun a => a.2.name = name with
  | [] => none
  | [attr] => some (.unique attr.1 attr.2)
  | _ => some .ambiguous

def relationMap (name : String) : Option NamedRelation :=
  match relations.filter fun r => r.name = name with
  | [] => none
  | [r] => some (.unique r)
  | _ => some .ambiguous

/-- The groups of `([^\.]+)\.([^\.]+)`. -/
def qualifiedAttribute (name : String) : Option (String × String) :=
  let relationName := name.toList.takeWhile (· ≠ '.')
  let attrName := (name.toList.dropWhile (· ≠ '.')).drop 1
  if relationName ≠ [] ∧ attrName ≠ [] ∧ '.' ∉ attrName then
    some (String.ofList relationName, String.ofList attrName)
  else none

def qualifiedValue (r : TupleProvider) : Option Field → QualifiedValue
  | some field => .value (.qualifiedAttribute r field)
  | none => .nullField r

def resolve (name : String) : Except QueryFailure QualifiedValue :=
  match qualifiedAttribute name with
  | some (relationName, attrName) =>
      match relationMap relations relationName with
      | none => .error (.runtime ("No such relation: " ++ relationName))
      | some (.unique r) => .ok (qualifiedValue r (r.getField attrName))
      | some .ambiguous => .error (.runtime ("Ambiguous reference to relation: " ++ relationName))
  | none =>
      match attributeMap relations name with
      | none => .error (.runtime ("No such attribute:" ++ name))
      | some (.unique r field) => .ok (.value (.qualifiedAttribute r field))
      | some .ambiguous => .error (.runtime ("Ambiguous reference to attribute: " ++ name))

end

def qualifyValue (plan : LogicalPlan) : Value → Except QueryFailure QualifiedValue
  | .unboundAttribute name => do resolve (← getRelations plan) name
  | otherValue => .ok (.value otherValue)

section

variable (qualify : Value → Except QueryFailure QualifiedValue)

def qualifyPredicate : Predicate → Except QueryFailure QualifiedPredicate
  | .equality v1 v2 => do return .equality (← qualify v1) (← qualify v2)
  | .like v1 v2 => do return .like (← qualify v1) (← qualify v2)
  | .within v1 v2 => do return .within (← qualify v1) (← qualify v2)

def qualifyAttributes : LogicalPlan → Except QueryFailure QualifiedPlan
  | .selection pred child => do
      return .selection (← qualifyPredicate qualify pred) (← qualifyAttributes child)
  | .sort attrs asc child => do return .sort (← attrs.mapM qualify) asc (← qualifyAttributes child)
  | .stopAfter count child => do return .stopAfter count (← qualifyAttributes child)
  | .dataStopAfter count child => do return .dataStopAfter count (← qualifyAttributes child)
  | .paginate count child => do return .paginate count (← qualifyAttributes child)
  | .join left right => do return .join (← qualifyAttributes left) (← qualifyAttributes right)
  | .relation r => if r.isRelation then .ok (.relation r) else .error .matchError

end

def qualifiedPlan (plan : LogicalPlan) : Except QueryFailure QualifiedPlan :=
  qualifyAttributes (qualifyValue plan) plan

end Qualifier

namespace LogicalPlan

/-- The values of the predicates and of the orderings. -/
def values : LogicalPlan → List Value
  | .relation _ => []
  | .selection pred child => pred.values ++ child.values
  | .sort attrs _ child => attrs ++ child.values
  | .stopAfter _ child | .dataStopAfter _ child | .paginate _ child => child.values
  | .join left right => left.values ++ right.values

def leaves : LogicalPlan → List TupleProvider
  | .relation r => [r]
  | .selection _ child | .sort _ _ child | .stopAfter _ child | .dataStopAfter _ child | .paginate _ child =>
      child.leaves
  | .join left right => left.leaves ++ right.leaves

def OverRelations (plan : LogicalPlan) : Prop := ∀ r ∈ plan.leaves, r.isRelation = true

end LogicalPlan

/-- The predicates are the same up to their values, which are related. -/
inductive PredicateBecomes (related : Value → QualifiedValue → Prop) : Predicate → QualifiedPredicate → Prop where
  | equality {v1 v2 : Value} {q1 q2 : QualifiedValue} (first : related v1 q1) (second : related v2 q2) :
      PredicateBecomes related (.equality v1 v2) (.equality q1 q2)
  | like {v1 v2 : Value} {q1 q2 : QualifiedValue} (first : related v1 q1) (second : related v2 q2) :
      PredicateBecomes related (.like v1 v2) (.like q1 q2)
  | within {v1 v2 : Value} {q1 q2 : QualifiedValue} (first : related v1 q1) (second : related v2 q2) :
      PredicateBecomes related (.within v1 v2) (.within q1 q2)

/-- The plans are the same up to their values, which are related. -/
inductive Becomes (related : Value → QualifiedValue → Prop) : LogicalPlan → QualifiedPlan → Prop where
  | relation {r : TupleProvider} : Becomes related (.relation r) (.relation r)
  | selection {pred : Predicate} {qualifiedPred : QualifiedPredicate} {child : LogicalPlan}
      {qualifiedChild : QualifiedPlan} (predicates : PredicateBecomes related pred qualifiedPred)
      (children : Becomes related child qualifiedChild) :
      Becomes related (.selection pred child) (.selection qualifiedPred qualifiedChild)
  | sort {attrs : List Value} {qualifiedAttrs : List QualifiedValue} {asc : Bool} {child : LogicalPlan}
      {qualifiedChild : QualifiedPlan} (attributes : List.Forall₂ related attrs qualifiedAttrs)
      (children : Becomes related child qualifiedChild) :
      Becomes related (.sort attrs asc child) (.sort qualifiedAttrs asc qualifiedChild)
  | stopAfter {count : Limit} {child : LogicalPlan} {qualifiedChild : QualifiedPlan}
      (children : Becomes related child qualifiedChild) :
      Becomes related (.stopAfter count child) (.stopAfter count qualifiedChild)
  | dataStopAfter {count : Limit} {child : LogicalPlan} {qualifiedChild : QualifiedPlan}
      (children : Becomes related child qualifiedChild) :
      Becomes related (.dataStopAfter count child) (.dataStopAfter count qualifiedChild)
  | paginate {count : Limit} {child : LogicalPlan} {qualifiedChild : QualifiedPlan}
      (children : Becomes related child qualifiedChild) :
      Becomes related (.paginate count child) (.paginate count qualifiedChild)
  | join {left right : LogicalPlan} {qualifiedLeft qualifiedRight : QualifiedPlan}
      (lefts : Becomes related left qualifiedLeft) (rights : Becomes related right qualifiedRight) :
      Becomes related (.join left right) (.join qualifiedLeft qualifiedRight)

section

variable {related other : Value → QualifiedValue → Prop} {pred : Predicate} {qualifiedPred : QualifiedPredicate}
  {plan : LogicalPlan} {qualified : QualifiedPlan}

theorem PredicateBecomes.imp (becomes : PredicateBecomes related pred qualifiedPred)
    (implies : ∀ v ∈ pred.values, ∀ q, related v q → other v q) : PredicateBecomes other pred qualifiedPred := by
  cases becomes with
  | equality first second =>
      exact .equality (implies _ (List.mem_cons_self ..) _ first)
        (implies _ (List.mem_cons_of_mem _ (List.mem_cons_self ..)) _ second)
  | like first second =>
      exact .like (implies _ (List.mem_cons_self ..) _ first)
        (implies _ (List.mem_cons_of_mem _ (List.mem_cons_self ..)) _ second)
  | within first second =>
      exact .within (implies _ (List.mem_cons_self ..) _ first)
        (implies _ (List.mem_cons_of_mem _ (List.mem_cons_self ..)) _ second)

theorem Becomes.imp (becomes : Becomes related plan qualified)
    (implies : ∀ v ∈ plan.values, ∀ q, related v q → other v q) : Becomes other plan qualified := by
  induction becomes with
  | relation => exact .relation
  | selection predicates children ih =>
      exact .selection (predicates.imp fun v member => implies v (List.mem_append_left _ member))
        (ih fun v member => implies v (List.mem_append_right _ member))
  | sort attributes children ih =>
      refine .sort ?_ (ih fun v member => implies v (List.mem_append_right _ member))
      refine List.forall₂_iff_zip.mpr ⟨attributes.length_eq, fun both => ?_⟩
      exact implies _ (List.mem_append_left _ (List.of_mem_zip both).1) _ (List.forall₂_zip attributes both)
  | stopAfter children ih => exact .stopAfter (ih implies)
  | dataStopAfter children ih => exact .dataStopAfter (ih implies)
  | paginate children ih => exact .paginate (ih implies)
  | join lefts rights leftIh rightIh =>
      exact .join (leftIh fun v member => implies v (List.mem_append_left _ member))
        (rightIh fun v member => implies v (List.mem_append_right _ member))

theorem forall₂_both {values : List Value} {results : List QualifiedValue} (first : List.Forall₂ related values results)
    (second : List.Forall₂ other values results) {v : Value} (member : v ∈ values) : ∃ q, related v q ∧ other v q := by
  induction first with
  | nil => cases member
  | cons here rest ih =>
      cases second with
      | cons there others =>
          obtain rfl | later := List.mem_cons.mp member
          · exact ⟨_, here, there⟩
          · exact ih others later

theorem PredicateBecomes.values (becomes : PredicateBecomes related pred qualifiedPred) :
    List.Forall₂ related pred.values qualifiedPred.values := by
  cases becomes with
  | equality first second | like first second | within first second => exact .cons first (.cons second .nil)

/-- What a value becomes is related to it in both ways. -/
theorem Becomes.both (first : Becomes related plan qualified) (second : Becomes other plan qualified) {v : Value}
    (member : v ∈ plan.values) : ∃ q, related v q ∧ other v q := by
  induction first with
  | relation => cases member
  | selection predicates children ih =>
      cases second with
      | selection others below =>
          obtain here | later := List.mem_append.mp member
          · exact forall₂_both predicates.values others.values here
          · exact ih below later
  | sort attributes children ih =>
      cases second with
      | sort others below =>
          obtain here | later := List.mem_append.mp member
          · exact forall₂_both attributes others here
          · exact ih below later
  | stopAfter children ih =>
      cases second with
      | stopAfter below => exact ih below member
  | dataStopAfter children ih =>
      cases second with
      | dataStopAfter below => exact ih below member
  | paginate children ih =>
      cases second with
      | paginate below => exact ih below member
  | join lefts rights leftIh rightIh =>
      cases second with
      | join left right =>
          obtain here | later := List.mem_append.mp member
          · exact leftIh left here
          · exact rightIh right later

end

namespace Qualifier

section

variable {qualify : Value → Except QueryFailure QualifiedValue}

theorem qualifyPredicate_becomes {pred : Predicate} {qualifiedPred : QualifiedPredicate}
    (qualifies : qualifyPredicate qualify pred = .ok qualifiedPred) :
    PredicateBecomes (fun v q => qualify v = .ok q) pred qualifiedPred := by
  cases pred with
  | equality v1 v2 =>
      obtain ⟨q1, first, rest⟩ := built_bind qualifies
      obtain ⟨q2, second, same⟩ := built_bind rest
      cases same
      exact .equality first second
  | like v1 v2 =>
      obtain ⟨q1, first, rest⟩ := built_bind qualifies
      obtain ⟨q2, second, same⟩ := built_bind rest
      cases same
      exact .like first second
  | within v1 v2 =>
      obtain ⟨q1, first, rest⟩ := built_bind qualifies
      obtain ⟨q2, second, same⟩ := built_bind rest
      cases same
      exact .within first second

theorem exists_qualifyPredicate {pred : Predicate} (each : ∀ v ∈ pred.values, ∃ q, qualify v = .ok q) :
    ∃ qualifiedPred, qualifyPredicate qualify pred = .ok qualifiedPred := by
  cases pred with
  | equality v1 v2 | like v1 v2 | within v1 v2 =>
      obtain ⟨q1, first⟩ := each v1 (List.mem_cons_self ..)
      obtain ⟨q2, second⟩ := each v2 (List.mem_cons_of_mem _ (List.mem_cons_self ..))
      rw [qualifyPredicate, first, second]
      exact ⟨_, rfl⟩

/-- The qualifier leaves the shape of a plan and qualifies its values. -/
theorem qualifyAttributes_becomes {plan : LogicalPlan} {qualified : QualifiedPlan}
    (qualifies : qualifyAttributes qualify plan = .ok qualified) :
    Becomes (fun v q => qualify v = .ok q) plan qualified := by
  induction plan generalizing qualified with
  | relation r =>
      rw [qualifyAttributes] at qualifies
      split at qualifies
      · cases qualifies
        exact .relation
      · cases qualifies
  | selection pred child ih =>
      obtain ⟨qualifiedPred, predicates, rest⟩ := built_bind qualifies
      obtain ⟨qualifiedChild, children, same⟩ := built_bind rest
      cases same
      exact .selection (qualifyPredicate_becomes predicates) (ih children)
  | sort attrs asc child ih =>
      obtain ⟨qualifiedAttrs, attributes, rest⟩ := built_bind qualifies
      obtain ⟨qualifiedChild, children, same⟩ := built_bind rest
      cases same
      exact .sort (mapM_forall₂.mp attributes) (ih children)
  | stopAfter count child ih =>
      obtain ⟨qualifiedChild, children, same⟩ := built_bind qualifies
      cases same
      exact .stopAfter (ih children)
  | dataStopAfter count child ih =>
      obtain ⟨qualifiedChild, children, same⟩ := built_bind qualifies
      cases same
      exact .dataStopAfter (ih children)
  | paginate count child ih =>
      obtain ⟨qualifiedChild, children, same⟩ := built_bind qualifies
      cases same
      exact .paginate (ih children)
  | join left right leftIh rightIh =>
      obtain ⟨qualifiedLeft, lefts, rest⟩ := built_bind qualifies
      obtain ⟨qualifiedRight, rights, same⟩ := built_bind rest
      cases same
      exact .join (leftIh lefts) (rightIh rights)

theorem exists_qualifyAttributes {plan : LogicalPlan} (relations : plan.OverRelations)
    (each : ∀ v ∈ plan.values, ∃ q, qualify v = .ok q) :
    ∃ qualified, qualifyAttributes qualify plan = .ok qualified := by
  induction plan with
  | relation r =>
      rw [qualifyAttributes, if_pos (relations r (List.mem_singleton_self r))]
      exact ⟨_, rfl⟩
  | selection pred child ih =>
      obtain ⟨qualifiedPred, predicates⟩ :=
        exists_qualifyPredicate fun v member => each v (List.mem_append_left _ member)
      obtain ⟨qualifiedChild, children⟩ := ih relations fun v member => each v (List.mem_append_right _ member)
      rw [qualifyAttributes, predicates, children]
      exact ⟨_, rfl⟩
  | sort attrs asc child ih =>
      obtain ⟨qualifiedAttrs, attributes⟩ := mapM_ok fun v member => each v (List.mem_append_left _ member)
      obtain ⟨qualifiedChild, children⟩ := ih relations fun v member => each v (List.mem_append_right _ member)
      rw [qualifyAttributes, attributes, children]
      exact ⟨_, rfl⟩
  | stopAfter count child ih | dataStopAfter count child ih | paginate count child ih =>
      obtain ⟨qualifiedChild, children⟩ := ih relations each
      rw [qualifyAttributes, children]
      exact ⟨_, rfl⟩
  | join left right leftIh rightIh =>
      obtain ⟨qualifiedLeft, lefts⟩ := leftIh (fun r leaf => relations r (List.mem_append_left _ leaf))
        fun v member => each v (List.mem_append_left _ member)
      obtain ⟨qualifiedRight, rights⟩ := rightIh (fun r leaf => relations r (List.mem_append_right _ leaf))
        fun v member => each v (List.mem_append_right _ member)
      rw [qualifyAttributes, lefts, rights]
      exact ⟨_, rfl⟩

end

theorem filter_name {fields : List Field} (distinct : (fields.map Field.name).Nodup) (name : String) :
    (fields.filter fun field => field.name = name) = (fields.find? fun field => field.name = name).toList := by
  induction fields with
  | nil => rfl
  | cons field rest ih =>
      obtain ⟨fresh, others⟩ := List.nodup_cons.mp distinct
      by_cases here : field.name = name
      · have none : (rest.filter fun field => field.name = name) = [] := by
          refine List.filter_eq_nil_iff.mpr fun other member same => fresh ?_
          rw [here, ← of_decide_eq_true same]
          exact List.mem_map_of_mem member
        rw [List.filter_cons_of_pos (by simpa using here), none, List.find?_cons_of_pos (by simpa using here)]
        rfl
      · rw [List.filter_cons_of_neg (by simpa using here), List.find?_cons_of_neg (by simpa using here), ih others]

theorem getField_of_has {r : TupleProvider} {name : String} (has : r.HasField name) :
    ∃ field, r.getField name = some field := by
  obtain ⟨field, member, named⟩ := List.mem_map.mp has
  exact Option.isSome_iff_exists.mp (List.find?_isSome.mpr ⟨field, member, decide_eq_true named⟩)

theorem getField_none {r : TupleProvider} {name : String} (lacks : ¬ r.HasField name) : r.getField name = none := by
  refine List.find?_eq_none.mpr fun field member named => lacks ?_
  rw [← of_decide_eq_true named]
  exact List.mem_map_of_mem member

theorem getField_some {r : TupleProvider} {name : String} {field : Field} (found : r.getField name = some field) :
    field ∈ r.fields ∧ field.name = name := by
  have named := List.find?_some found
  exact ⟨List.mem_of_find?_eq_some found, of_decide_eq_true named⟩

variable (relations : List TupleProvider) (name : String)

/-- The relations that a name can denote: those of that name if it has a dot, else those with such a field. -/
def candidates : List TupleProvider :=
  match qualifiedAttribute name with
  | some (relationName, _) => relations.filter fun r => r.name = relationName
  | none => relations.filter fun r => r.HasField name

def fieldName : String :=
  match qualifiedAttribute name with
  | some (_, attrName) => attrName
  | none => name

/-- The attributes of a name, one for each relation with such a field. -/
theorem attributes_named :
    ((relations.flatMap fun r => r.fields.map fun f => (r, f)).filter fun a => a.2.name = name) =
      (relations.filter fun r => r.HasField name).flatMap fun r => (r.getField name).toList.map fun f => (r, f) := by
  induction relations with
  | nil => rfl
  | cons r rest ih =>
      have here : ((r.fields.map fun f => (r, f)).filter fun a => a.2.name = name) =
          (r.getField name).toList.map fun f => (r, f) := by
        rw [List.filter_map]
        exact congrArg (List.map _) (filter_name r.schema.distinct name)
      rw [List.flatMap_cons, List.filter_append, here, ih]
      by_cases has : r.HasField name
      · rw [List.filter_cons_of_pos (by simpa using has), List.flatMap_cons]
      · rw [List.filter_cons_of_neg (by simpa using has), getField_none has]
        rfl

variable {relations name}

theorem resolve_of_only {r : TupleProvider} (only : candidates relations name = [r]) :
    resolve relations name = .ok (qualifiedValue r (r.getField (fieldName name))) := by
  rw [candidates] at only
  rw [resolve, fieldName]
  cases shape : qualifiedAttribute name with
  | some parts =>
      rw [shape] at only
      dsimp only at only ⊢
      rw [relationMap, only]
  | none =>
      rw [shape] at only
      dsimp only at only ⊢
      have member : r ∈ relations.filter fun r => r.HasField name := by
        rw [only]
        exact List.mem_singleton_self r
      have has := (List.mem_filter.mp member).2
      obtain ⟨field, found⟩ := getField_of_has (of_decide_eq_true has)
      rw [attributeMap, attributes_named, only, List.flatMap_singleton, found]
      rfl

/-- Any other name is refused. -/
theorem only_of_resolve {q : QualifiedValue} (resolved : resolve relations name = .ok q) :
    ∃ r, candidates relations name = [r] := by
  rw [candidates]
  rw [resolve] at resolved
  cases shape : qualifiedAttribute name with
  | some parts =>
      rw [shape] at resolved
      dsimp only at resolved ⊢
      rw [relationMap] at resolved
      cases named : relations.filter fun r => r.name = parts.1 with
      | nil =>
          rw [named] at resolved
          cases resolved
      | cons r others =>
          cases others with
          | nil => exact ⟨r, rfl⟩
          | cons other rest =>
              rw [named] at resolved
              cases resolved
  | none =>
      rw [shape] at resolved
      dsimp only at resolved ⊢
      rw [attributeMap, attributes_named] at resolved
      cases having : relations.filter fun r => r.HasField name with
      | nil =>
          rw [having] at resolved
          cases resolved
      | cons r others =>
          cases others with
          | nil => exact ⟨r, rfl⟩
          | cons other rest =>
              have has : ∀ r' ∈ r :: other :: rest, r'.HasField name := by
                intro r' member
                rw [← having] at member
                exact of_decide_eq_true (List.mem_filter.mp member).2
              obtain ⟨first, foundFirst⟩ := getField_of_has (has r (List.mem_cons_self ..))
              obtain ⟨second, foundSecond⟩ :=
                getField_of_has (has other (List.mem_cons_of_mem _ (List.mem_cons_self ..)))
              rw [having, List.flatMap_cons, List.flatMap_cons, foundFirst, foundSecond] at resolved
              cases resolved

/-- The attribute of the one relation that the name can denote. -/
def Denotes (relations : List TupleProvider) (name : String) (q : QualifiedValue) : Prop :=
  ∃ r f, q = .value (.qualifiedAttribute r f) ∧ candidates relations name = [r] ∧ f ∈ r.fields ∧
    f.name = fieldName name

def Resolved (relations : List TupleProvider) : Value → QualifiedValue → Prop
  | .unboundAttribute name, q => Denotes relations name q
  | v, q => q = .value v

theorem denotes_iff {r : TupleProvider} (only : candidates relations name = [r]) :
    Denotes relations name (qualifiedValue r (r.getField (fieldName name))) ↔ r.HasField (fieldName name) := by
  constructor
  · intro ⟨r', f, same, isOnly, member, named⟩
    obtain rfl : r = r' := List.head_eq_of_cons_eq (only.symm.trans isOnly)
    rw [← named]
    exact List.mem_map_of_mem member
  · intro has
    obtain ⟨field, found⟩ := getField_of_has has
    obtain ⟨member, named⟩ := getField_some found
    rw [found]
    exact ⟨r, field, rfl, only, member, named⟩

theorem getRelations_eq {plan : LogicalPlan} (relations : plan.OverRelations) :
    getRelations plan = .ok plan.leaves := by
  induction plan with
  | relation r => rw [getRelations, if_pos (relations r (List.mem_singleton_self r)), LogicalPlan.leaves]
  | selection pred child ih | sort attrs asc child ih | stopAfter count child ih | dataStopAfter count child ih
  | paginate count child ih => exact ih relations
  | join left right leftIh rightIh =>
      have lefts := leftIh fun r leaf => relations r (List.mem_append_left _ leaf)
      have rights := rightIh fun r leaf => relations r (List.mem_append_right _ leaf)
      rw [getRelations, lefts, rights]
      rfl

section

variable {plan : LogicalPlan}

theorem qualifyValue_unbound (relations : plan.OverRelations) (name : String) :
    qualifyValue plan (.unboundAttribute name) = resolve plan.leaves name := by
  rw [qualifyValue, getRelations_eq relations]
  rfl

/-- A plan is qualified if each of its names can denote exactly one relation. -/
theorem exists_qualifiedPlan (relations : plan.OverRelations)
    (only : ∀ name, .unboundAttribute name ∈ plan.values → ∃ r, candidates plan.leaves name = [r]) :
    ∃ qualified, qualifiedPlan plan = .ok qualified := by
  refine exists_qualifyAttributes relations fun v member => ?_
  cases v with
  | unboundAttribute name =>
      obtain ⟨r, isOnly⟩ := only name member
      exact ⟨_, (qualifyValue_unbound relations name).trans (resolve_of_only isOnly)⟩
  | _ => exact ⟨_, rfl⟩

theorem only_of_qualifiedPlan (relations : plan.OverRelations) {qualified : QualifiedPlan}
    (qualifies : qualifiedPlan plan = .ok qualified) {name : String} (member : .unboundAttribute name ∈ plan.values) :
    ∃ r, candidates plan.leaves name = [r] := by
  have becomes := qualifyAttributes_becomes qualifies
  obtain ⟨q, resolved, -⟩ := becomes.both becomes member
  rw [qualifyValue_unbound relations] at resolved
  exact only_of_resolve resolved

theorem resolved_of_qualifyValue (relations : plan.OverRelations) {v : Value} {q : QualifiedValue}
    (has : ∀ name, v = .unboundAttribute name → ∀ r ∈ candidates plan.leaves name, r.HasField (fieldName name))
    (qualifies : qualifyValue plan v = .ok q) : Resolved plan.leaves v q := by
  cases v with
  | unboundAttribute name =>
      rw [qualifyValue_unbound relations] at qualifies
      obtain ⟨r, only⟩ := only_of_resolve qualifies
      rw [resolve_of_only only] at qualifies
      cases qualifies
      refine (denotes_iff only).mpr (has name rfl r ?_)
      rw [only]
      exact List.mem_singleton_self r
  | _ =>
      cases qualifies
      exact rfl

/-- The qualifier refuses a plan or resolves its names to fields that exist, exactly if it refuses the plan
or no name with a dot is of a field that its relation lacks. -/
theorem qualifiedPlan_resolves_iff (relations : plan.OverRelations) :
    (∀ qualified, qualifiedPlan plan = .ok qualified → Becomes (Resolved plan.leaves) plan qualified) ↔
      (∃ name, .unboundAttribute name ∈ plan.values ∧ (candidates plan.leaves name).length ≠ 1) ∨
        ∀ name, .unboundAttribute name ∈ plan.values →
          ∀ r ∈ candidates plan.leaves name, r.HasField (fieldName name) := by
  constructor
  · intro resolves
    by_cases refused : ∃ name, .unboundAttribute name ∈ plan.values ∧ (candidates plan.leaves name).length ≠ 1
    · exact .inl refused
    · have only : ∀ name, .unboundAttribute name ∈ plan.values → ∃ r, candidates plan.leaves name = [r] :=
        fun name member => List.length_eq_one_iff.mp (of_not_not fun many => refused ⟨name, member, many⟩)
      obtain ⟨qualified, qualifies⟩ := exists_qualifiedPlan relations only
      refine .inr fun name member r candidate => ?_
      obtain ⟨q, resolved, denotes⟩ := (qualifyAttributes_becomes qualifies).both (resolves qualified qualifies) member
      obtain ⟨r', isOnly⟩ := only name member
      rw [isOnly, List.mem_singleton] at candidate
      subst candidate
      rw [qualifyValue_unbound relations, resolve_of_only isOnly] at resolved
      cases resolved
      exact (denotes_iff isOnly).mp denotes
  · intro condition qualified qualifies
    obtain ⟨name, member, many⟩ | has := condition
    · obtain ⟨r, only⟩ := only_of_qualifiedPlan relations qualifies member
      exact absurd (congrArg List.length only) many
    · refine (qualifyAttributes_becomes qualifies).imp fun v member q resolved => ?_
      exact resolved_of_qualifyValue relations (fun name same => has name (same ▸ member)) resolved

end

/-- The thoughts of a user, by the name of a field. -/
def thoughtsWhere (name : String) : LogicalPlan :=
  .selection (.equality (.unboundAttribute name) (.parameter 0)) (.relation thoughts)

theorem thoughtsWhere_relations (name : String) : (thoughtsWhere name).OverRelations := by
  intro r member
  rw [List.mem_singleton.mp member]
  rfl

theorem owner_resolves :
    (thoughtsWhere "thoughts.owner").OverRelations ∧
      ((∀ qualified, qualifiedPlan (thoughtsWhere "thoughts.owner") = .ok qualified →
          Becomes (Resolved [thoughts]) (thoughtsWhere "thoughts.owner") qualified) ↔
        (∃ name, .unboundAttribute name ∈ (thoughtsWhere "thoughts.owner").values ∧
            (candidates [thoughts] name).length ≠ 1) ∨
          ∀ name, .unboundAttribute name ∈ (thoughtsWhere "thoughts.owner").values →
            ∀ r ∈ candidates [thoughts] name, r.HasField (fieldName name)) :=
  ⟨thoughtsWhere_relations _, qualifiedPlan_resolves_iff (thoughtsWhere_relations _)⟩

/-- A field that the relation lacks becomes `null`. -/
theorem title_becomes_null :
    ¬ ∀ plan : LogicalPlan, plan.OverRelations →
      ∀ qualified, qualifiedPlan plan = .ok qualified → Becomes (Resolved plan.leaves) plan qualified := by
  intro resolves
  have becomes := resolves (thoughtsWhere "thoughts.title") (thoughtsWhere_relations _)
    (.selection (.equality (.nullField thoughts) (.value (.parameter 0))) (.relation thoughts)) (by decide)
  cases becomes with
  | selection predicates children =>
      cases predicates with
      | equality first second =>
          obtain ⟨r, f, same, -⟩ := first
          cases same

end Qualifier

end Scads.Piql
