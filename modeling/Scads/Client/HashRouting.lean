import Scads.Data.Words
import Scads.Client.ClusterRuns

namespace Scads.Client

open Scads.Data Scads.Comm

/-! # Routing keys of hashes

`DefaultHashKeyRoutable` routes a key by the four bytes of its hash.
-/

namespace DefaultHashKeyRoutable

/-- `hashKey`: the bytes are signed, and the hash wraps around. -/
def hashKey (x : List UInt8) : BitVec 32 :=
  x.foldl (fun hash byte => 31#32 * hash + byte.toBitVec.signExtend 32) 0#32

def convertToRoutingKey (key : List UInt8) : List UInt8 := wordBytes (hashKey key)

/-- `getInt` of a wrapped array of four bytes. -/
def getInt (bytes : List UInt8) : Option (BitVec 32) :=
  match bytes with
  | [a, b, c, d] => some (wordOf a b c d)
  | _ => none

def routingKeyComp (lhs rhs : List UInt8) : Except Failure Int :=
  match getInt lhs, getInt rhs with
  | some left, some right =>
      let diff := (left - right).toInt
      .ok (if diff = 0 then 0 else if diff < 0 then -1 else 1)
  | _, _ => .error (.assertion "assertion failed: bad routing keys passed to comp")

theorem getInt_convertToRoutingKey (key : List UInt8) : getInt (convertToRoutingKey key) = some (hashKey key) := by
  rw [convertToRoutingKey, wordBytes, getInt, wordOf_wordBytes]

theorem routingKeyComp_convertToRoutingKey (first second : List UInt8) :
    routingKeyComp (convertToRoutingKey first) (convertToRoutingKey second) =
      .ok (HashKey.routingKeyComp ⟨hashKey first⟩ ⟨hashKey second⟩) := by
  rw [routingKeyComp, getInt_convertToRoutingKey, getInt_convertToRoutingKey]
  rfl

/-- The comparison finds the routing key of the first key below that of the second. -/
def Less (first second : List UInt8) : Prop :=
  ∃ comparison, routingKeyComp (convertToRoutingKey first) (convertToRoutingKey second) = .ok comparison ∧
    comparison < 0

/-- The routing keys of these keys are strictly and totally ordered, by their hashes. -/
structure Ordered (used : List UInt8 → Prop) : Prop where
  signed : ∀ first second, used first → used second → ∃ comparison,
    routingKeyComp (convertToRoutingKey first) (convertToRoutingKey second) = .ok comparison ∧
      (comparison < 0 ↔ (hashKey first).toInt < (hashKey second).toInt) ∧
      (comparison = 0 ↔ convertToRoutingKey first = convertToRoutingKey second) ∧
      (0 < comparison ↔ (hashKey second).toInt < (hashKey first).toInt)
  irreflexive : ∀ key, used key → ¬ Less key key
  transitive : ∀ first second third, used first → used second → used third →
    Less first second → Less second third → Less first third
  total : ∀ first second, used first → used second →
    Less first second ∨ convertToRoutingKey first = convertToRoutingKey second ∨ Less second first

theorem less_iff {first second : List UInt8} :
    Less first second ↔ HashKey.routingKeyComp ⟨hashKey first⟩ ⟨hashKey second⟩ < 0 := by
  rw [Less, routingKeyComp_convertToRoutingKey]
  constructor
  · intro found
    obtain ⟨comparison, same, below⟩ := found
    cases same
    exact below
  · exact fun below => ⟨_, rfl, below⟩

theorem convertToRoutingKey_eq_iff {first second : List UInt8} :
    convertToRoutingKey first = convertToRoutingKey second ↔ hashKey first = hashKey second := by
  constructor
  · intro same
    have read := congrArg getInt same
    rw [getInt_convertToRoutingKey, getInt_convertToRoutingKey] at read
    exact Option.some.inj read
  · exact congrArg wordBytes

/-- The routing keys are in the order of their hashes exactly where no difference of two wraps around. -/
theorem routing_order_iff (used : List UInt8 → Prop) : Ordered used ↔
    ∀ first second, used first → used second → (hashKey first).toInt - (hashKey second).toInt < 2 ^ 31 := by
  have near : (∀ first second, used first → used second →
        (hashKey first).toInt - (hashKey second).toInt < 2 ^ 31) ↔
      AgreesOn (fun key : HashKey => ∃ given, used given ∧ key = ⟨hashKey given⟩) HashKey.routingKeyComp := by
    rw [HashKey.routingKeyComp_agreesOn_iff]
    constructor
    · intro near _ _ given found
      obtain ⟨first, known, rfl⟩ := given
      obtain ⟨second, given, rfl⟩ := found
      exact near first second known given
    · exact fun near first second known given => near _ _ ⟨first, known, rfl⟩ ⟨second, given, rfl⟩
  rw [near]
  constructor
  · intro ordered _ _ given found
    obtain ⟨first, known, rfl⟩ := given
    obtain ⟨second, given, rfl⟩ := found
    obtain ⟨comparison, compared, below, same, -⟩ := ordered.signed first second known given
    rw [routingKeyComp_convertToRoutingKey] at compared
    cases compared
    rw [convertToRoutingKey_eq_iff] at same
    exact ⟨below, same.trans ⟨congrArg HashKey.mk, HashKey.mk.inj⟩⟩
  · intro agrees
    have signs (first second : List UInt8) (known : used first) (given : used second) :
        (HashKey.routingKeyComp ⟨hashKey first⟩ ⟨hashKey second⟩ < 0 ↔
            (hashKey first).toInt < (hashKey second).toInt) ∧
          (HashKey.routingKeyComp ⟨hashKey first⟩ ⟨hashKey second⟩ = 0 ↔
            (hashKey first).toInt = (hashKey second).toInt) := by
      obtain ⟨below, same⟩ := agrees ⟨first, known, rfl⟩ ⟨second, given, rfl⟩
      exact ⟨below, same.trans HashKey.eq_iff⟩
    have equal (first second : List UInt8) : convertToRoutingKey first = convertToRoutingKey second ↔
        (hashKey first).toInt = (hashKey second).toInt :=
      convertToRoutingKey_eq_iff.trans BitVec.toInt_inj.symm
    constructor
    · intro first second known given
      obtain ⟨below, same⟩ := signs first second known given
      refine ⟨_, routingKeyComp_convertToRoutingKey first second, below, same.trans (equal first second).symm, ?_⟩
      omega
    · intro key known
      rw [less_iff, (signs key key known known).1]
      exact lt_irrefl _
    · intro first second third known given other
      rw [less_iff, less_iff, less_iff, (signs _ _ known given).1, (signs _ _ given other).1, (signs _ _ known other).1]
      exact lt_trans
    · intro first second known given
      rw [less_iff, less_iff, equal, (signs _ _ known given).1, (signs _ _ given known).1]
      omega

/-- "polygenelubricants" has the least hash. -/
def lubricants : List UInt8 :=
  [112, 111, 108, 121, 103, 101, 110, 101, 108, 117, 98, 114, 105, 99, 97, 110, 116, 115]

/-- The greater hash goes first. -/
theorem distant_hashes_swapped :
    (hashKey lubricants).toInt = -2 ^ 31 ∧ (hashKey [1]).toInt = 1 ∧
      routingKeyComp (convertToRoutingKey [1]) (convertToRoutingKey lubricants) = .ok (-1) ∧
      ¬ Ordered fun _ => True := by
  have least : (hashKey lubricants).toInt = -2 ^ 31 := by decide
  have one : (hashKey [1]).toInt = 1 := by decide
  have compared : routingKeyComp (convertToRoutingKey [1]) (convertToRoutingKey lubricants) = .ok (-1) := by decide
  refine ⟨least, one, compared, fun ordered => ?_⟩
  obtain ⟨comparison, same, below, -⟩ := ordered.signed [1] lubricants trivial trivial
  rw [compared] at same
  cases same
  rw [least, one] at below
  exact absurd (below.mp (by decide)) (by decide)

end DefaultHashKeyRoutable

end Scads.Client
