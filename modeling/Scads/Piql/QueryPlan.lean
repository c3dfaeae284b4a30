import Mathlib.Data.List.Basic
import Mathlib.Algebra.Group.Int.Defs
import Mathlib.Algebra.Group.Nat.Defs
import Scads.Client.IndexManager

namespace Scads.Piql

open Scads.Client

/-! # Query plans

Values, predicates and physical plans, and how an executor evaluates the first two
on a tuple.
-/

/-- An exception that leaves the optimizer, the binder or an executor. -/
inductive QueryFailure where
  | matchError
  | nullPointer
  | indexOutOfBounds (index : Nat)
  | classCast (target : String)
  | noSuchElement (message : String)
  | unsupportedOperation (message : String)
  | assertion (message : String)
  | illegalArgument (message : String)
  | implementationLimitation (desc : String)
  | runtime (message : String)
  -- the call has not come back after the given number of rounds
  | unfinished
deriving DecidableEq, Repr

/-- What a field of a record or a parameter of a query can hold.  `other` stands for
the types that no comparison takes. -/
inductive Datum where
  | int (value : Int32)
  | utf8 (text : String)
  | string (text : String)
  | boolean (value : Bool)
  | seq (values : List Datum)
  | null
  | other (text : String)
deriving Repr

namespace Datum

mutual

/-- Whether two values are the same. -/
def same : Datum → Datum → Bool
  | .int first, .int second => first == second
  | .utf8 first, .utf8 second => first == second
  | .string first, .string second => first == second
  | .boolean first, .boolean second => first == second
  | .seq first, .seq second => sameSeq first second
  | .null, .null => true
  | .other first, .other second => first == second
  | _, _ => false

def sameSeq : List Datum → List Datum → Bool
  | [], [] => true
  | first :: firsts, second :: seconds => same first second && sameSeq firsts seconds
  | _, _ => false

end

mutual

theorem same_iff : (first second : Datum) → (same first second = true ↔ first = second)
  | .int _, second => by cases second <;> simp [same]
  | .utf8 _, second => by cases second <;> simp [same]
  | .string _, second => by cases second <;> simp [same]
  | .boolean _, second => by cases second <;> simp [same]
  | .seq firsts, second => by
      cases second with
      | seq seconds => simpa [same] using sameSeq_iff firsts seconds
      | int | utf8 | string | boolean | null | other => simp [same]
  | .null, second => by cases second <;> simp [same]
  | .other _, second => by cases second <;> simp [same]

theorem sameSeq_iff : (firsts seconds : List Datum) → (sameSeq firsts seconds = true ↔ firsts = seconds)
  | [], seconds => by cases seconds <;> simp [sameSeq]
  | first :: firsts, seconds => by
      cases seconds with
      | nil => simp [sameSeq]
      | cons second seconds => simp [sameSeq, same_iff first second, sameSeq_iff firsts seconds]

end

instance : DecidableEq Datum := fun first second => decidable_of_iff _ (same_iff first second)

end Datum

abbrev Record := List Datum

/-- A key record.  The fields that were not put are `null`. -/
abbrev Key := List Datum

abbrev Tuple := List Record

/-- A source of tuples: a namespace under its name or an alias, or an index. -/
structure TupleProvider where
  ns : String
  aliasName : Option String
  schema : PairSchema
  isRelation : Bool
deriving DecidableEq

namespace TupleProvider

def name (provider : TupleProvider) : String := provider.aliasName.getD provider.ns

/-- A relation or an index, as Scala prints a case class. -/
def toString (provider : TupleProvider) : String :=
  let ns := "<Namespace: " ++ provider.ns ++ ">"
  if provider.isRelation then "ScadsRelation(" ++ ns ++ "," ++ Comm.showOption id provider.aliasName ++ ")"
  else "ScadsIndex(" ++ ns ++ ")"

def keySchema (provider : TupleProvider) : List Field := provider.schema.keyFields

/-- The fields of a record, which are those of the key and then those of the value. -/
def fields (provider : TupleProvider) : List Field := provider.schema.keyFields ++ provider.schema.valueFields

/-- `Field.pos`, for a field that the schema has. -/
def pos (provider : TupleProvider) (field : Field) : Nat :=
  provider.fields.findIdx fun other => other.name = field.name

end TupleProvider

inductive Value where
  | constant (v : Datum)
  | parameter (ordinal : Nat)
  | attribute (recordPosition fieldPosition : Nat)
  | qualifiedAttribute (relation : TupleProvider) (field : Field)
  | unboundAttribute (name : String)
deriving DecidableEq

inductive Limit where
  | fixed (count : Int32)
  | parameter (ordinal : Nat) (max : Int32)
deriving DecidableEq, Repr

inductive Predicate where
  | equality (v1 v2 : Value)
  | like (v1 v2 : Value)
  | within (v1 v2 : Value)
deriving DecidableEq

def Predicate.values : Predicate → List Value
  | .equality v1 v2 | .like v1 v2 | .within v1 v2 => [v1, v2]

abbrev KeyGenerator := List Value

inductive QueryPlan where
  | indexLookup (ns : TupleProvider) (key : KeyGenerator)
  | indexScan (ns : TupleProvider) (keyPrefix : KeyGenerator) (limit : Limit) (ascending : Bool)
  | indexLookupJoin (ns : TupleProvider) (key : KeyGenerator) (child : QueryPlan)
  | indexScanJoin (ns : TupleProvider) (keyPrefix : KeyGenerator) (limit : Limit) (ascending : Bool)
      (child : QueryPlan)
  | indexMergeJoin (ns : TupleProvider) (keyPrefix : KeyGenerator) (sortFields : List Value) (limit : Limit)
      (ascending : Bool) (child : QueryPlan)
  | localSelection (predicate : Predicate) (child : QueryPlan)
  | localSort (sortFields : List Value) (ascending : Bool) (child : QueryPlan)
  | localStopAfter (count : Limit) (child : QueryPlan)
  | localIterator (parameterOrdinal : Nat) (wrap : Bool)
  | union (child1 child2 : QueryPlan) (eqField : Nat × Nat)
deriving DecidableEq

def QueryPlan.limits : QueryPlan → List Limit
  | .indexLookup .. | .localIterator .. => []
  | .indexScan _ _ limit _ => [limit]
  | .indexLookupJoin _ _ child | .localSelection _ child | .localSort _ _ child => child.limits
  | .indexScanJoin _ _ limit _ child | .indexMergeJoin _ _ _ limit _ child | .localStopAfter limit child =>
      limit :: child.limits
  | .union child1 child2 _ => child1.limits ++ child2.limits

/-- The limits with which the scans of a plan ask for their pages. -/
def QueryPlan.scanLimits : QueryPlan → List Limit
  | .indexLookup .. | .localIterator .. => []
  | .indexScan _ _ limit _ => [limit]
  | .indexLookupJoin _ _ child | .indexScanJoin _ _ _ _ child | .indexMergeJoin _ _ _ _ _ child
  | .localSelection _ child | .localSort _ _ child | .localStopAfter _ child => child.scanLimits
  | .union child1 child2 _ => child1.scanLimits ++ child2.scanLimits

theorem QueryPlan.scanLimits_subset (plan : QueryPlan) : plan.scanLimits ⊆ plan.limits := by
  induction plan with
  | indexLookup | localIterator => exact List.nil_subset _
  | indexScan => exact List.Subset.refl _
  | indexLookupJoin _ _ _ ih | localSelection _ _ ih | localSort _ _ _ ih => exact ih
  | indexScanJoin _ _ _ _ _ ih | indexMergeJoin _ _ _ _ _ _ ih | localStopAfter _ _ ih =>
      exact List.subset_cons_of_subset _ ih
  | union _ _ _ ih1 ih2 =>
      exact List.append_subset.mpr
        ⟨List.subset_append_of_subset_left _ ih1, List.subset_append_of_subset_right _ ih2⟩

/-- What a caller passes to a query. -/
inductive Parameter where
  | value (datum : Datum)
  | tuples (tuples : List Tuple)
deriving DecidableEq

structure Context where
  parameters : List Parameter

/-- `args(index)` of an indexed sequence. -/
def elementAt {α : Type} (values : List α) (index : Nat) : Except QueryFailure α :=
  match values[index]? with
  | some value => .ok value
  | none => .error (.indexOutOfBounds index)

variable (ctx : Context)

/-- `currentTuple` is `none` where the source passes `null`. -/
def bindValue (value : Value) (currentTuple : Option Tuple) : Except QueryFailure Datum :=
  match value with
  | .constant v => .ok v
  | .parameter o => do
      match ← elementAt ctx.parameters o with
      | .value datum => return datum
      | .tuples _ => return .other "Seq"
  | .attribute recPos fieldPos =>
      match currentTuple with
      | none => .error .nullPointer
      | some tuple => do elementAt (← elementAt tuple recPos) fieldPos
  | .qualifiedAttribute .. | .unboundAttribute _ => .error .matchError

def bindKey (ns : TupleProvider) (key : KeyGenerator) (currentTuple : Option Tuple) :
    Except QueryFailure Key := do
  let values ← key.mapM fun value => bindValue ctx value currentTuple
  if values.length ≤ ns.keySchema.length then
    return values ++ List.replicate (ns.keySchema.length - values.length) .null
  else throw (.indexOutOfBounds ns.keySchema.length)

def bindLimit : Limit → Except QueryFailure Int
  | .fixed l => .ok l.toInt
  | .parameter lim _ => do
      match ← elementAt ctx.parameters lim with
      | .value (.int value) => return value.toInt
      | _ => throw (.classCast "java.lang.Integer")

theorem bindLimit_toInt {limit : Limit} {boundLimit : Int} (bound : bindLimit ctx limit = .ok boundLimit) :
    ∃ count : Int32, count.toInt = boundLimit := by
  cases limit with
  | fixed count =>
      cases bound
      exact ⟨count, rfl⟩
  | parameter ordinal max =>
      rw [bindLimit] at bound
      cases read : elementAt ctx.parameters ordinal with
      | error failure =>
          rw [read] at bound
          cases bound
      | ok parameter =>
          rw [read] at bound
          cases parameter with
          | tuples tuples => cases bound
          | value datum =>
              cases datum with
              | int value =>
                  cases bound
                  exact ⟨value, rfl⟩
              | utf8 | string | boolean | seq | null | other => cases bound

theorem bindLimit_lt {limit : Limit} {boundLimit : Int} (bound : bindLimit ctx limit = .ok boundLimit) :
    boundLimit < 2 ^ 31 := by
  obtain ⟨count, rfl⟩ := bindLimit_toInt ctx bound
  exact Int32.toInt_lt count

theorem le_bindLimit {limit : Limit} {boundLimit : Int} (bound : bindLimit ctx limit = .ok boundLimit) :
    -2 ^ 31 ≤ boundLimit := by
  obtain ⟨count, rfl⟩ := bindLimit_toInt ctx bound
  exact Int32.le_toInt count

/-- The limits of the plan are bound to numbers from 1 to `max`. -/
def LimitsWithin (max : Int) (plan : QueryPlan) : Prop :=
  ∀ limit ∈ plan.limits, ∃ boundLimit, bindLimit ctx limit = .ok boundLimit ∧ 1 ≤ boundLimit ∧ boundLimit ≤ max

theorem LimitsWithin.child {ctx : Context} {max : Int} {plan child : QueryPlan}
    (limits : LimitsWithin ctx max plan) (contained : child.limits ⊆ plan.limits) : LimitsWithin ctx max child :=
  fun limit member => limits limit (contained member)

/-- No scan asks for pages that can hold no record, which it would do for ever. -/
def ScansAdvance (plan : QueryPlan) : Prop :=
  ∀ limit ∈ plan.scanLimits, ∀ boundLimit, bindLimit ctx limit = .ok boundLimit → 1 ≤ boundLimit

theorem LimitsWithin.advance {ctx : Context} {max : Int} {plan : QueryPlan} (limits : LimitsWithin ctx max plan) :
    ScansAdvance ctx plan := by
  intro limit member boundLimit isLimit
  obtain ⟨other, same, positive, -⟩ := limits limit (plan.scanLimits_subset member)
  cases isLimit.symm.trans same
  exact positive

/-- The UTF-16 code units of a character. -/
def utf16 (char : Char) : List Nat :=
  if char.toNat < 0x10000 then [char.toNat]
  else [0xD800 + (char.toNat - 0x10000) / 0x400, 0xDC00 + (char.toNat - 0x10000) % 0x400]

/-- `String.compareTo` on the code units of two texts. -/
def compareUnits : List Nat → List Nat → Int
  | left :: lefts, right :: rights => if left = right then compareUnits lefts rights else left - right
  | lefts, rights => lefts.length - rights.length

def compareTexts (left right : String) : Int :=
  compareUnits (left.toList.flatMap utf16) (right.toList.flatMap utf16)

def compareAny : Datum → Datum → Except QueryFailure Int
  | .int l, .int r => .ok (l - r).toInt
  | .utf8 l, .utf8 r => .ok (compareTexts l r)
  | .string l, .utf8 r => .ok (compareTexts l r)
  | .utf8 l, .string r => .ok (compareTexts l r)
  | .boolean true, .boolean true => .ok 0
  | .boolean false, .boolean true => .ok (-1)
  | .boolean true, .boolean false => .ok 1
  | _, _ => .error .matchError

/-- Whether one of the values compares equal. -/
def anyEqual (boundValue : Datum) : List Datum → Except QueryFailure Bool
  | [] => .ok false
  | v :: rest => do if (← compareAny v boundValue) = 0 then return true else anyEqual boundValue rest

def evalPredicate (predicate : Predicate) (tuple : Tuple) : Except QueryFailure Bool :=
  match predicate with
  | .equality v1 v2 => do
      return (← compareAny (← bindValue ctx v1 (some tuple)) (← bindValue ctx v2 (some tuple))) = 0
  | .within v1 v2 => do
      match ← bindValue ctx v2 (some tuple) with
      | .seq valueList => anyEqual (← bindValue ctx v1 (some tuple)) valueList
      | _ => throw (.classCast "scala.collection.Seq")
  | .like .. => .error .matchError

def compareTuples (left right : Tuple) : List Value → Except QueryFailure Int
  | [] => .ok 0
  | a :: rest => do
      let comparison ← compareAny (← bindValue ctx a (some left)) (← bindValue ctx a (some right))
      if comparison ≠ 0 then return comparison else compareTuples left right rest

/-- The records of the namespaces: by key, and in key order by a prefix of the key.
The offset of a range is an `Int`, which reaches all of them. -/
structure Store where
  getRecord : TupleProvider → Key → Option Record
  matching : TupleProvider → Key → List Record
  counted : ∀ ns key, (matching ns key).length < 2 ^ 31

/-- A sum of two `Int`s. -/
def toInt32 (value : Int) : Int := value.bmod (2 ^ 32)

theorem toInt32_of_range {value : Int} (low : -2 ^ 31 ≤ value) (high : value < 2 ^ 31) :
    toInt32 value = value := by
  rw [toInt32, Int.bmod_def]
  split <;> omega

namespace Store

variable (store : Store) (ns : TupleProvider) (keyPrefix : Key) (ascending : Bool)

def inOrder : List Record :=
  if ascending then store.matching ns keyPrefix else (store.matching ns keyPrefix).reverse

def getRange (offset limit : Int) : List Record :=
  ((store.inOrder ns keyPrefix ascending).drop offset.toNat).take limit.toNat

theorem length_inOrder : (store.inOrder ns keyPrefix ascending).length = (store.matching ns keyPrefix).length := by
  rw [inOrder]
  split
  · rfl
  · rw [List.length_reverse]

theorem inOrder_counted : (store.inOrder ns keyPrefix ascending).length < 2 ^ 31 := by
  rw [length_inOrder]
  exact store.counted ns keyPrefix

variable {store ns keyPrefix ascending} {offset : Nat} {limit : Int}

/-- A page and what comes after it are all that comes from its offset on. -/
theorem getRange_append (limit : Int) :
    store.getRange ns keyPrefix ascending offset limit ++
        (store.inOrder ns keyPrefix ascending).drop
          (offset + (store.getRange ns keyPrefix ascending offset limit).length) =
      (store.inOrder ns keyPrefix ascending).drop offset := by
  rw [← List.drop_drop]
  have page : store.getRange ns keyPrefix ascending offset limit =
      ((store.inOrder ns keyPrefix ascending).drop offset).take limit.toNat := rfl
  rw [page, List.length_take]
  obtain short | long := Nat.le_total limit.toNat ((store.inOrder ns keyPrefix ascending).drop offset).length
  · rw [Nat.min_eq_left short, List.take_append_drop]
  · rw [Nat.min_eq_right long, List.take_of_length_le long, List.drop_length, List.append_nil]

theorem getRange_within (limit : Int) (within : offset ≤ (store.inOrder ns keyPrefix ascending).length) :
    offset + (store.getRange ns keyPrefix ascending offset limit).length ≤
      (store.inOrder ns keyPrefix ascending).length := by
  have page : (store.getRange ns keyPrefix ascending offset limit).length ≤
      ((store.inOrder ns keyPrefix ascending).drop offset).length := List.length_take_le' _ _
  rw [List.length_drop] at page
  omega

/-- The offset of the next page. -/
theorem toInt32_getRange (limit : Int) (within : offset ≤ (store.inOrder ns keyPrefix ascending).length) :
    toInt32 (offset + (store.getRange ns keyPrefix ascending offset limit).length) =
      (offset + (store.getRange ns keyPrefix ascending offset limit).length : Nat) := by
  have inside := getRange_within limit within
  have counted := store.inOrder_counted ns keyPrefix ascending
  rw [← Int.natCast_add]
  exact toInt32_of_range (by omega) (by omega)

/-- A page that is not full is the last one. -/
theorem drop_of_short (short : (store.getRange ns keyPrefix ascending offset limit).length < limit) :
    (store.inOrder ns keyPrefix ascending).drop
      (offset + (store.getRange ns keyPrefix ascending offset limit).length) = [] := by
  have page : (store.getRange ns keyPrefix ascending offset limit).length =
      min limit.toNat ((store.inOrder ns keyPrefix ascending).drop offset).length := List.length_take
  rw [List.length_drop] at page
  exact List.drop_eq_nil_of_le (by omega)

end Store

/-- What the users of a microblog have posted. -/
def thoughts : TupleProvider where
  ns := "thoughts"
  aliasName := none
  schema :=
    { keyFields := [⟨"owner", "\"string\""⟩, ⟨"timestamp", "\"int\""⟩]
      valueFields := [⟨"text", "\"string\""⟩]
      distinct := by decide }
  isRelation := true

/-- A store with the same records under each name. -/
def Store.ofRecords (records : List Record) (counted : records.length < 2 ^ 31) : Store where
  getRecord _ key := records.find? fun record => key.isPrefixOf record
  matching _ keyPrefix := records.filter fun record => (keyPrefix.takeWhile (· ≠ .null)).isPrefixOf record
  counted _ _ := Nat.lt_of_le_of_lt (List.length_filter_le ..) counted

/-- One thought of one user. -/
def oneThought : Store := .ofRecords [[.utf8 "alice", .int 1, .utf8 "hello"]] (by decide)

end Scads.Piql
