import Mathlib.Data.Nat.Digits.Lemmas
import Scads.Client.Cluster
import Scads.Client.RoutedRuns

namespace Scads.Client

open Scads.Data Scads.Comm Scads.Server Scads.Util RangeTable

/-! # Runs of calls on the storage servers -/

/-- A namespace on these servers that routes its keys in this way. -/
def Environment.routable {R K V : Type} {order : LinearOrder K} (environment : Environment K V)
    (convertToRoutingKey : R → K) (routingKeyComp : K → K → Int) : Routable R K (Cluster environment) :=
  ⟨environment.servers, convertToRoutingKey, routingKeyComp⟩

def Environment.partitions {R K V : Type} {order : LinearOrder K} (environment : Environment K V)
    (convertToRoutingKey : R → K) (routingKeyComp : K → K → Int) :
    Registry (environment.routable convertToRoutingKey routingKeyComp).servers :=
  environment.registry

open Routable

/-- The four bytes of a hash. -/
structure HashKey where
  bits : BitVec 32
deriving DecidableEq

namespace HashKey

theorem toInt_injective : Function.Injective fun key : HashKey => key.bits.toInt := by
  intro given found same
  obtain ⟨first⟩ := given
  obtain ⟨second⟩ := found
  exact congrArg HashKey.mk (BitVec.eq_of_toInt_eq same)

instance : LinearOrder HashKey := LinearOrder.lift' (fun key : HashKey => key.bits.toInt) toInt_injective

instance : ToString HashKey := ⟨fun key => toString key.bits.toInt⟩

/-- `routingKeyComp` of `DefaultHashKeyRoutable`: the sign of a difference of `Int`s. -/
def routingKeyComp (lhs rhs : HashKey) : Int :=
  let diff := (lhs.bits - rhs.bits).toInt
  if diff = 0 then 0
  else if diff < 0 then -1
  else 1

theorem lt_iff {left right : HashKey} : left < right ↔ left.bits.toInt < right.bits.toInt := Iff.rfl

theorem eq_iff {left right : HashKey} : left = right ↔ left.bits.toInt = right.bits.toInt :=
  toInt_injective.eq_iff.symm

/-- The difference of two hashes as an `Int`, which wraps around. -/
theorem toInt_sub (left right : HashKey) : (left.bits - right.bits).toInt =
    if left.bits.toInt - right.bits.toInt < -2 ^ 31 then left.bits.toInt - right.bits.toInt + 2 ^ 32
    else if left.bits.toInt - right.bits.toInt < 2 ^ 31 then left.bits.toInt - right.bits.toInt
    else left.bits.toInt - right.bits.toInt - 2 ^ 32 := by
  have leftLow := left.bits.le_toInt
  have leftHigh := left.bits.toInt_lt
  have rightLow := right.bits.le_toInt
  have rightHigh := right.bits.toInt_lt
  rw [BitVec.toInt_sub, Int.bmod_def]
  split
  · split
    · omega
    · split <;> omega
  · split
    · omega
    · split <;> omega

/-- The comparison is the order of the hashes exactly where no difference wraps around. -/
theorem routingKeyComp_agreesOn_iff {used : HashKey → Prop} : AgreesOn used routingKeyComp ↔
    ∀ left right, used left → used right → left.bits.toInt - right.bits.toInt < 2 ^ 31 := by
  constructor
  · intro agrees left right known given
    by_contra far
    have wrapped : (left.bits - right.bits).toInt = left.bits.toInt - right.bits.toInt - 2 ^ 32 := by
      rw [toInt_sub, if_neg (by omega), if_neg far]
    have leftHigh := left.bits.toInt_lt
    have rightLow := right.bits.le_toInt
    have below : routingKeyComp left right < 0 := by
      rw [routingKeyComp, wrapped, if_neg (by omega), if_pos (by omega)]
      decide
    have order := (agrees known given).1.mp below
    rw [lt_iff] at order
    omega
  · intro near left right known given
    have forward := near left right known given
    have backward := near right left given known
    have kept : (left.bits - right.bits).toInt = left.bits.toInt - right.bits.toInt := by
      rw [toInt_sub, if_neg (by omega), if_pos forward]
    rw [lt_iff, eq_iff, routingKeyComp, kept]
    split
    · omega
    · split <;> omega

end HashKey

/-- The decimal digits of a number, the lowest first, at least ten of them. -/
def paddedDigits (number : Nat) : List Nat :=
  Nat.digits 10 number ++ List.replicate (10 - (Nat.digits 10 number).length) 0

/-- The name that ZooKeeper gives to a sequential node. -/
def sequentialName (path : String) (number : Nat) : String :=
  path ++ String.ofList ((paddedDigits number).reverse.map Nat.digitChar)

theorem digitChar_toNat : ∀ digit < 10, (Nat.digitChar digit).toNat - 48 = digit := by decide

theorem sequentialName_injective (path : String) : Function.Injective (sequentialName path) := by
  intro first second same
  have chars := congrArg String.toList same
  simp only [sequentialName, String.toList_append, String.toList_ofList] at chars
  have read := congrArg (List.map fun digit => digit.toNat - 48) (List.append_cancel_left chars)
  have small : ∀ number, ∀ digit ∈ (paddedDigits number).reverse, digit < 10 := by
    intro number digit member
    rw [List.mem_reverse] at member
    rcases List.mem_append.mp member with given | padding
    · exact Nat.digits_lt_base (by decide) given
    · simp [List.eq_of_mem_replicate padding]
  have kept : ∀ number, ((paddedDigits number).reverse.map Nat.digitChar).map
      (fun digit => digit.toNat - 48) = (paddedDigits number).reverse := by
    intro number
    rw [List.map_map]
    conv => rhs; rw [← List.map_id (paddedDigits number).reverse]
    exact List.map_congr_left fun digit member => digitChar_toNat digit (small number digit member)
  rw [kept, kept] at read
  have value := congrArg (Nat.ofDigits 10) (List.reverse_injective read)
  simpa [paddedDigits, Nat.ofDigits_append_replicate_zero, Nat.ofDigits_digits] using value

/-- The servers of a test, where nothing else is stored. -/
def testEnvironment (K : Type) [LinearOrder K] : Environment K Nat where
  ns := "test"
  partitionType := "bdb"
  root := some ⟨"IntRec", true⟩
  sequentialNode := sequentialName "test"
  sequentialNode_injective := sequentialName_injective "test"
  serviceId _ number := .number number
  iteration _ := .inserted _
  copyIterator source minKey maxKey :=
    match source with
    | none => .error "GetRangeRequest timedout"
    | some database => .ok (database.iterateOverRange minKey maxKey none none true true)
  printed _ := "\x7b\x7d"
  printedException cause := "\x7b\"cause\": \"" ++ cause ++ "\"\x7d"
  databaseClosed := "Database was closed."

def testCluster (K : Type) [LinearOrder K] : Cluster (testEnvironment K) :=
  ⟨fun _ => .empty, 0, [], by simp, by simp⟩

def testServer (number : Nat) : StorageService := ⟨"localhost", 9000 + number, .number 0⟩

/-- A run that a computation finds to end in a state with a property. -/
theorem exists_run {R K σ : Type} [DecidableEq K] [ToString K] {routable : Routable R K σ}
    {server : StorageService} {cluster : σ} {calls : List (Call R K × Iteration PartitionService)}
    {holds : RoutedNamespace K σ → Bool}
    (evaluated : returns (fun _ ns => (run routable.step ns calls).any holds)
      (routable.doCreate server (routable.unopened cluster)) = true) :
    ∃ ns next, routable.doCreate server (routable.unopened cluster) = .ok .unit ns ∧
      run routable.step ns calls = some next ∧ holds next := by
  obtain ⟨_, ns, created, held⟩ := exists_ok evaluated
  obtain ⟨next, ran, held⟩ := (Option.any_eq_true _ _).mp held
  exact ⟨ns, next, created, ran, held⟩

/-- In every run whose calls compare only routing keys that the comparison orders,
the table matches the partitions after each call, and the check that the next
call makes before it stores its table passes too. -/
theorem Environment.routing_table_matches_partitions {R K V : Type} {stored : LinearOrder K}
    (environment : Environment K V) (convertToRoutingKey : R → K) (routingKeyComp : K → K → Int)
    [LinearOrder K] [DecidableEq K] [ToString K] (used : K → Prop)
    (compared : AgreesOn used routingKeyComp) {server : StorageService} {cluster : Cluster environment}
    {calls : List (Call R K × Iteration PartitionService)} {ns next : RoutedNamespace K (Cluster environment)}
    (created : (environment.routable convertToRoutingKey routingKeyComp).doCreate server
      ((environment.routable convertToRoutingKey routingKeyComp).unopened cluster) = .ok .unit ns)
    (ran : run (environment.routable convertToRoutingKey routingKeyComp).step ns calls = some next)
    (admitted : Along (environment.routable convertToRoutingKey routingKeyComp).step
      (fun before called _ =>
        Admitted (environment.partitions convertToRoutingKey routingKeyComp) used before called.1) ns calls) :
    TableMatches (environment.routable convertToRoutingKey routingKeyComp) next ∧
      ∀ {made : Call R K} {edited},
        Admitted (environment.partitions convertToRoutingKey routingKeyComp) used next made →
        ReplicatesListed next made →
        (environment.routable convertToRoutingKey routingKeyComp).edit made next = .ok .unit edited →
          (environment.routable convertToRoutingKey routingKeyComp).validateRoutingTable edited =
            .ok true edited := by
  have routed := run_routed compared created ran admitted
  refine ⟨routed.tableMatches, fun allowed sources changed => ?_⟩
  exact (edit_routed routed compared allowed sources changed).valid

def rangeRouted : Routable Nat Nat (Cluster (testEnvironment Nat)) :=
  (testEnvironment Nat).routable id (Comparator.threeWay Nat).compare

def moved : PartitionService := ⟨"localhost", 9002, .number 1, "test0000000001", testServer 2⟩

/-- A namespace is cut in two, and the second half moves to another server. -/
def schemeThenMove : List (Call Nat Nat × Iteration PartitionService) :=
  [(.setPartitionScheme [(none, [testServer 1]), (some 5, [testServer 2])], .inserted _),
    (.replicatePartitions [(moved, testServer 3)], .inserted _), (.deletePartitions [moved], .inserted _)]

theorem routing_table_matches_moved :
    ∃ ns next, rangeRouted.doCreate (testServer 0) (rangeRouted.unopened (testCluster Nat)) = .ok .unit ns ∧
      run rangeRouted.step ns schemeThenMove = some next ∧ TableMatches rangeRouted next := by
  obtain ⟨ns, next, created, ran, _⟩ := @exists_run _ _ _ _ _ rangeRouted (testServer 0) (testCluster Nat)
    schemeThenMove (fun _ => true) (by decide +kernel)
  refine ⟨ns, next, created, ran, ?_⟩
  refine ((testEnvironment Nat).routing_table_matches_partitions id (Comparator.threeWay Nat).compare
    (fun _ => True) (Comparator.threeWay Nat).agrees created ran ?_).1
  refine along_of_forall fun called member _ _ => admitted_of_increasing fun scheme given => ?_
  rcases List.mem_cons.mp member with rfl | member
  · cases given
    unfold Increasing
    decide
  · simp only [List.mem_cons, List.not_mem_nil, or_false] at member
    rcases member with rfl | rfl
    · cases given
    · cases given

def hashRouted : Routable HashKey HashKey (Cluster (testEnvironment HashKey)) :=
  (testEnvironment HashKey).routable id HashKey.routingKeyComp

def hashScheme : List (Option HashKey × List StorageService) :=
  [(none, [testServer 0, testServer 1]), (some ⟨0xA1000000⟩, [testServer 2]), (some ⟨0⟩, [testServer 3]),
    (some ⟨0x40000000⟩, [testServer 4])]

/-- The partition of the last range of the scheme. -/
def lastPartition : PartitionService :=
  ⟨"localhost", 9004, .number 1, "test0000000001", testServer 4⟩

/-- A namespace that is routed by hashes gets a scheme, and then one of its partitions is deleted. -/
def schemeThenDelete : List (Call HashKey HashKey × Iteration PartitionService) :=
  [(.setPartitionScheme hashScheme, .inserted _), (.deletePartitions [lastPartition], .inserted _)]

theorem hash_routing_deletes_listed : Increasing hashScheme ∧
    ∃ ns next, hashRouted.doCreate (testServer 5) (hashRouted.unopened (testCluster HashKey)) = .ok .unit ns ∧
      run hashRouted.step ns schemeThenDelete = some next ∧ Listed next lastPartition ∧
        lastPartition ∈ next.deletions := by
  refine ⟨?_, ?_⟩
  · unfold Increasing
    decide
  · obtain ⟨ns, next, created, ran, held⟩ := @exists_run _ _ _ _ _ hashRouted (testServer 5)
      (testCluster HashKey) schemeThenDelete (fun next => decide (lastPartition ∈ next.deletions) &&
        next.routingTable.rTable.any fun range => decide (lastPartition ∈ range.values)) (by decide +kernel)
    rw [Bool.and_eq_true, decide_eq_true_iff, List.any_eq_true] at held
    obtain ⟨sent, range, member, listed⟩ := held
    exact ⟨ns, next, created, ran, ⟨range, member, of_decide_eq_true listed⟩, sent⟩

end Scads.Client
