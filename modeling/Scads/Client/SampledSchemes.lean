import Mathlib.Data.List.Sort
import Mathlib.Tactic.Ring
import Scads.Client.AnsweringServers
import Scads.Data.Comparator
import Scads.Data.Ranks
import Scads.Data.Words

namespace Scads.Client

open Scads.Data Scads.Comm Scads.Server Scads.Util

/-! # Schemes from sampled keys

`repartition` of a namespace of records sorts a sample of them, takes the keys at
equal distances for the start keys of a scheme and deals the servers out to it.
-/

/-- `start until stop by step`. -/
def rangeUntil (start stop step : Int) : Except Failure (List Int) :=
  if step = 0 then .error (.illegalArgument "step cannot be 0.")
  else
    let count := if 0 < step then (stop - start + step - 1) / step else (start - stop - step - 1) / -step
    .ok ((List.range count.toNat).map fun index : Nat => start + index * step)

def grouped {α : Type} (size : Int) (elements : List α) : Except Failure (List (List α)) :=
  if size < 1 then .error (.illegalArgument "requirement failed")
  else .ok ((List.range ((elements.length + size.toNat - 1) / size.toNat)).map fun group =>
    (elements.drop (group * size.toNat)).take size.toNat)

/-- A namespace of records.  `compare` is the comparison of whole records by Avro, and
`keyToBytes` writes the key fields of a record. -/
structure RecordStore (Rec K σ : Type) where
  routable : Routable K K σ
  compare : Rec → Rec → Int
  keyToBytes : Rec → K

namespace RecordStore

def samplesPerServer : Int := 10000

def numPartitions (servers : List StorageService) (replicationFactor : Int) : Int :=
  (servers.length : Int).tdiv replicationFactor

/-- The records that are read. -/
def sampled {Rec : Type} (data : List Rec) (numPartitions : Int) : List Rec :=
  data.take (int32 (samplesPerServer * numPartitions)).toNat

def sampleAt {Rec : Type} (samples : List Rec) (index : Int) : Except Failure Rec :=
  match samples[index.toNat]? with
  | some record => if 0 ≤ index then .ok record else .error (.indexOutOfBounds index)
  | none => .error (.indexOutOfBounds index)

variable {Rec K σ : Type} (store : RecordStore Rec K σ)

def sortWith (records : List Rec) : List Rec :=
  records.mergeSort fun left right => !decide (store.compare right left < 0)

/-- The keys at which the sorted samples are split. -/
def splits (samples : List Rec) (numPartitions : Int) : Except Failure (List Rec) :=
  if numPartitions = 0 then .error (.runtime "/ by zero")
  else do
    let splitSize := (samples.length : Int).tdiv numPartitions
    (← rangeUntil splitSize (splitSize * numPartitions) splitSize).mapM (sampleAt samples)

def partitions (servers : List StorageService) (data : List Rec) (replicationFactor : Int) :
    Except Failure (List (Option K × List StorageService)) :=
  if replicationFactor = 0 then .error (.runtime "/ by zero")
  else do
    require (decide ((servers.length : Int).tmod replicationFactor = 0))
      "num servers must divide evenly by replication factor"
    let numPartitions := numPartitions servers replicationFactor
    let splits ← splits (store.sortWith (sampled data numPartitions)) numPartitions
    let byteSplits := none :: splits.map fun record => some (store.keyToBytes record)
    return byteSplits.zip (← grouped replicationFactor servers)

/-- `servers` are the available servers of the cluster. -/
def repartition [DecidableEq K] [ToString K] (arrival : Iteration PartitionService)
    (servers : List StorageService) (data : List Rec) (replicationFactor : Int) : Method K σ Unit := do
  let partitions ← ofExcept (store.partitions servers data replicationFactor)
  store.routable.setPartitionScheme arrival partitions

/-- The scheme has an entry for each partition, rising start keys, and every server in
exactly one entry. -/
structure Deals (servers : List StorageService) (replicationFactor : Int)
    (scheme : List (Option K × List StorageService)) : Prop where
  entries : (scheme.length : Int) = numPartitions servers replicationFactor
  starts : ∃ keys : List K, scheme.map Prod.fst = none :: keys.map some ∧
    keys.Pairwise fun first second => store.routable.routingKeyComp first second < 0
  disjoint : (scheme.map Prod.snd).Pairwise List.Disjoint
  covers : ∀ server, server ∈ servers ↔ ∃ entry ∈ scheme, server ∈ entry.2

/-- The records with a smaller key. -/
def below (records : List Rec) (record : Rec) : Nat :=
  records.countP fun other =>
    decide (store.routable.routingKeyComp (store.keyToBytes other) (store.keyToBytes record) < 0)

/-- The records with a key that is not greater. -/
def upTo (records : List Rec) (record : Rec) : Nat :=
  records.countP fun other =>
    decide (store.routable.routingKeyComp (store.keyToBytes other) (store.keyToBytes record) ≤ 0)

/-- No key takes up all samples from one split to the next. -/
def Spread (samples : List Rec) (numPartitions : Nat) : Prop :=
  ∀ record ∈ samples, ∀ split : Nat, 0 < split → split + 1 < numPartitions →
    store.below samples record ≤ split * (samples.length / numPartitions) →
      store.upTo samples record ≤ (split + 1) * (samples.length / numPartitions)

/-- There are partitions and enough samples for them, the samples are spread, and no
server is listed in two groups. -/
structure Divisible (servers : List StorageService) (data : List Rec) (replicationFactor : Int) : Prop where
  some_partition : 0 < numPartitions servers replicationFactor
  enough : numPartitions servers replicationFactor ≤
    (sampled data (numPartitions servers replicationFactor)).length
  spread : store.Spread (sampled data (numPartitions servers replicationFactor))
    (numPartitions servers replicationFactor).toNat
  apart : ∀ (first second : Nat) server, servers[first]? = some server → servers[second]? = some server →
    first / replicationFactor.toNat = second / replicationFactor.toNat

end RecordStore

variable {Rec K σ : Type} {store : RecordStore Rec K σ}

/-- Steps from one step on. -/
theorem rangeUntil_steps {step : Int} (positive : 0 < step) (count : Nat) :
    rangeUntil step (step * (count + 1 : Nat)) step =
      .ok ((List.range count).map fun index => step * (index + 1 : Nat)) := by
  simp only [rangeUntil, if_neg positive.ne', if_pos positive]
  have length : ((step * (count + 1 : Nat) - step + step - 1) / step).toNat = count := by
    have rearranged : step * (count + 1 : Nat) - step + step - 1 = step - 1 + step * count := by
      push_cast
      ring
    rw [rearranged, Int.add_mul_ediv_left _ _ positive.ne', Int.ediv_eq_zero_of_lt (by omega) (by omega)]
    omega
  rw [length]
  refine congrArg Except.ok (List.map_congr_left fun index _ => ?_)
  push_cast
  ring

theorem mapM_sampleAt {samples : List Rec} {positions : List Int}
    (within : ∀ position ∈ positions, 0 ≤ position ∧ position < samples.length) :
    ∃ splits, positions.mapM (RecordStore.sampleAt samples) = .ok splits ∧
      splits.map some = positions.map fun position => samples[position.toNat]? := by
  induction positions with
  | nil => exact ⟨[], rfl, rfl⟩
  | cons position rest ih =>
      rw [List.forall_mem_cons] at within
      obtain ⟨splits, read, same⟩ := ih within.2
      have bound : position.toNat < samples.length := by omega
      refine ⟨samples[position.toNat] :: splits, ?_, ?_⟩
      · have here : RecordStore.sampleAt samples position = .ok samples[position.toNat] := by
          simp only [RecordStore.sampleAt, List.getElem?_eq_getElem bound, within.1.1, if_true]
        rw [List.mapM_cons, read, here]
        rfl
      · rw [List.map_cons, List.map_cons, same, List.getElem?_eq_getElem bound]

/-- The groups of servers that a factor divides. -/
theorem grouped_ok {α : Type} {size count : Nat} (positive : 0 < size) {elements : List α}
    (divided : elements.length = count * size) :
    grouped size elements =
      .ok ((List.range count).map fun group => (elements.drop (group * size)).take size) := by
  have number : (elements.length + size - 1) / size = count := by
    rw [divided, Nat.add_sub_assoc positive, Nat.mul_comm, Nat.mul_add_div positive,
      Nat.div_eq_of_lt (Nat.sub_lt positive Nat.one_pos), Nat.add_zero]
  rw [grouped, if_neg (by omega), Int.toNat_natCast, number]


section

variable {α : Type} {elements : List α} {element : α} {size count group : Nat}

theorem mem_group (positive : 0 < size) : element ∈ (elements.drop (group * size)).take size ↔
    ∃ index, elements[index]? = some element ∧ index / size = group := by
  rw [List.mem_iff_getElem?]
  constructor
  · intro found
    obtain ⟨index, held⟩ := found
    rw [List.getElem?_take] at held
    split at held
    · next low =>
        rw [List.getElem?_drop] at held
        refine ⟨_, held, ?_⟩
        rw [Nat.mul_comm, Nat.mul_add_div positive, Nat.div_eq_of_lt low, Nat.add_zero]
    · cases held
  · intro found
    obtain ⟨index, held, rfl⟩ := found
    refine ⟨index % size, ?_⟩
    rw [List.getElem?_take, if_pos (Nat.mod_lt _ positive), List.getElem?_drop, Nat.mul_comm, Nat.div_add_mod, held]

theorem groups_disjoint (positive : 0 < size) (divided : elements.length = count * size) :
    ((List.range count).map fun group => (elements.drop (group * size)).take size).Pairwise List.Disjoint ↔
      ∀ (first second : Nat) element, elements[first]? = some element → elements[second]? = some element →
        first / size = second / size := by
  rw [List.pairwise_map, List.pairwise_iff_getElem]
  simp only [List.length_range, List.getElem_range]
  constructor
  · intro apart
    have ordered : ∀ (first second : Nat) element, elements[first]? = some element →
        elements[second]? = some element → ¬ first / size < second / size := by
      intro first second element one other less
      have last : second / size < count :=
        (Nat.div_lt_iff_lt_mul positive).mpr (divided ▸ (List.getElem?_eq_some_iff.mp other).1)
      exact apart _ _ (less.trans last) last less ((mem_group positive).mpr ⟨first, one, rfl⟩)
        ((mem_group positive).mpr ⟨second, other, rfl⟩)
    intro first second element one other
    exact Nat.le_antisymm (not_lt.mp (ordered second first element other one))
      (not_lt.mp (ordered first second element one other))
  · intro apart first second _ _ less element one other
    obtain ⟨here, held, rfl⟩ := (mem_group positive).mp one
    obtain ⟨there, also, rfl⟩ := (mem_group positive).mp other
    exact absurd (apart here there element held also) (Nat.ne_of_lt less)

theorem mem_groups (positive : 0 < size) (divided : elements.length = count * size) :
    element ∈ elements ↔ ∃ dealt ∈ (List.range count).map fun group => (elements.drop (group * size)).take size,
      element ∈ dealt := by
  constructor
  · intro member
    obtain ⟨index, held⟩ := List.mem_iff_getElem?.mp member
    have last : index / size < count :=
      (Nat.div_lt_iff_lt_mul positive).mpr (divided ▸ (List.getElem?_eq_some_iff.mp held).1)
    exact ⟨_, List.mem_map_of_mem (List.mem_range.mpr last), (mem_group positive).mpr ⟨index, held, rfl⟩⟩
  · intro found
    obtain ⟨dealt, among, member⟩ := found
    obtain ⟨group, _, rfl⟩ := List.mem_map.mp among
    exact List.mem_of_mem_drop (List.mem_of_mem_take member)

end

namespace RecordStore

variable {servers : List StorageService} {data samples : List Rec} {replicationFactor : Int}
  {scheme : List (Option K × List StorageService)}

theorem length_sortWith (records : List Rec) : (store.sortWith records).length = records.length :=
  List.length_mergeSort _

/-- Samples are split into at most as many partitions as there are samples. -/
theorem splits_enough {numPartitions : Int} {split : List Rec} (ran : splits samples numPartitions = .ok split) :
    numPartitions ≠ 0 ∧ numPartitions ≤ samples.length := by
  by_cases zero : numPartitions = 0
  · rw [splits, if_pos zero] at ran
    cases ran
  · refine ⟨zero, ?_⟩
    rw [splits, if_neg zero] at ran
    obtain ⟨positions, stepped, _⟩ := bind_eq_ok.mp ran
    by_contra few
    have still : (samples.length : Int).tdiv numPartitions = 0 :=
      Int.tdiv_eq_zero_of_lt (Int.natCast_nonneg _) (not_le.mp few)
    rw [still, rangeUntil, if_pos rfl] at stepped
    cases stepped

theorem partitions_enough (built : store.partitions servers data replicationFactor = .ok scheme) :
    0 < replicationFactor ∧ 0 < numPartitions servers replicationFactor ∧
      numPartitions servers replicationFactor ≤
        (sampled data (numPartitions servers replicationFactor)).length := by
  by_cases zero : replicationFactor = 0
  · rw [partitions, if_pos zero] at built
    cases built
  · rw [partitions, if_neg zero] at built
    obtain ⟨_, _, built⟩ := bind_eq_ok.mp built
    obtain ⟨split, ran, built⟩ := bind_eq_ok.mp built
    obtain ⟨groups, dealt, _⟩ := bind_eq_ok.mp built
    obtain ⟨divided, enough⟩ := splits_enough ran
    rw [length_sortWith] at enough
    have positive : 0 < replicationFactor := by
      by_contra negative
      rw [grouped, if_pos (by omega)] at dealt
      cases dealt
    have nonnegative : 0 ≤ numPartitions servers replicationFactor :=
      Int.tdiv_nonneg (Int.natCast_nonneg _) positive.le
    exact ⟨positive, lt_of_le_of_ne nonnegative (Ne.symm divided), enough⟩

/-- The keys of a sorted sample are taken at equal distances. -/
theorem splits_ok {count : Nat} (enough : count + 1 ≤ samples.length) :
    ∃ split, splits samples (count + 1 : Nat) = .ok split ∧
      split.map some = (List.range count).map fun index => samples[samples.length / (count + 1) * (index + 1)]? := by
  have step : (samples.length : Int).tdiv (count + 1 : Nat) = (samples.length / (count + 1) : Nat) := by
    rw [Int.tdiv_eq_ediv_of_nonneg (Int.natCast_nonneg _)]
    norm_cast
  have positive : 0 < samples.length / (count + 1) := Nat.div_pos enough (Nat.succ_pos _)
  have within : ∀ position ∈ (List.range count).map fun index : Nat =>
      ((samples.length / (count + 1) : Nat) : Int) * (index + 1 : Nat), 0 ≤ position ∧ position < samples.length := by
    intro position member
    obtain ⟨index, low, rfl⟩ := List.mem_map.mp member
    have last : samples.length / (count + 1) * (index + 1) < samples.length / (count + 1) * (count + 1) :=
      Nat.mul_lt_mul_of_pos_left (Nat.succ_lt_succ (List.mem_range.mp low)) positive
    have whole := Nat.div_mul_le_self samples.length (count + 1)
    norm_cast
    exact ⟨Nat.zero_le _, last.trans_le whole⟩
  obtain ⟨split, read, same⟩ := mapM_sampleAt within
  refine ⟨split, ?_, ?_⟩
  · have steps := rangeUntil_steps (Int.natCast_pos.mpr positive) count
    rw [splits, if_neg (by omega), step]
    dsimp only
    rw [steps]
    exact read
  · rw [same, List.map_map]
    refine List.map_congr_left fun index _ => ?_
    rw [Function.comp_apply]
    norm_cast

/-- What the comparisons of Avro give for the records of a sequence: records and their
keys are preordered, and the key fields come first. -/
structure Ordered (store : RecordStore Rec K σ) (data : List Rec) : Prop where
  records : PreordersOn (fun _ => True) store.compare
  keys : PreordersOn (· ∈ data) fun first second =>
    store.routable.routingKeyComp (store.keyToBytes first) (store.keyToBytes second)
  keys_first : ∀ first ∈ data, ∀ second ∈ data, store.compare first second ≤ 0 →
    store.routable.routingKeyComp (store.keyToBytes first) (store.keyToBytes second) ≤ 0

/-- The samples in the order of their keys. -/
def Sorted (store : RecordStore Rec K σ) (samples : List Rec) : Prop :=
  samples.Pairwise fun first second =>
    store.routable.routingKeyComp (store.keyToBytes first) (store.keyToBytes second) ≤ 0

theorem sortWith_sorted (ordered : store.Ordered data) (among : samples ⊆ data) :
    store.Sorted (store.sortWith samples) := by
  have sorted : (store.sortWith samples).Pairwise fun first second =>
      (!decide (store.compare second first < 0)) = true := by
    refine List.pairwise_mergeSort ?_ ?_ samples
    · intro first second third
      simp only [Bool.not_eq_true', decide_eq_false_iff_not, ordered.records.not_neg trivial trivial]
      exact ordered.records.trans trivial trivial trivial
    · intro first second
      simp only [Bool.or_eq_true, Bool.not_eq_true', decide_eq_false_iff_not,
        ordered.records.not_neg trivial trivial]
      exact ordered.records.total trivial trivial
  refine sorted.imp_of_mem fun {first second} known also later => ?_
  simp only [Bool.not_eq_true', decide_eq_false_iff_not, ordered.records.not_neg trivial trivial] at later
  exact ordered.keys_first first (among (List.mem_mergeSort.mp known)) second (among (List.mem_mergeSort.mp also)) later

theorem below_iff (ordered : store.Ordered data) (among : samples ⊆ data) (sorted : store.Sorted samples)
    {record : Rec} (known : record ∈ data) {index : Nat} (within : index < samples.length) :
    store.routable.routingKeyComp (store.keyToBytes samples[index]) (store.keyToBytes record) < 0 ↔
      index < store.below samples record := by
  rw [below, ← PrefixClosed.getElem_iff (sorted.imp_of_mem ?_) within, decide_eq_true_iff]
  intro first second early late least
  rw [decide_eq_true_iff, decide_eq_true_iff]
  exact fun smaller => ordered.keys.lt_of_le_of_lt (among early) (among late) known least smaller

theorem upTo_iff (ordered : store.Ordered data) (among : samples ⊆ data) (sorted : store.Sorted samples)
    {record : Rec} (known : record ∈ data) {index : Nat} (within : index < samples.length) :
    store.routable.routingKeyComp (store.keyToBytes samples[index]) (store.keyToBytes record) ≤ 0 ↔
      index < store.upTo samples record := by
  rw [upTo, ← PrefixClosed.getElem_iff (sorted.imp_of_mem ?_) within, decide_eq_true_iff]
  intro first second early late least
  rw [decide_eq_true_iff, decide_eq_true_iff]
  exact fun smaller => ordered.keys.trans (among early) (among late) known least smaller

/-- Two positions of the sorted samples have the same key if some key stands at both. -/
theorem same_key_iff (ordered : store.Ordered data) (among : samples ⊆ data) (sorted : store.Sorted samples)
    {first second : Nat} (low : first < samples.length) (high : second < samples.length) :
    ¬ store.routable.routingKeyComp (store.keyToBytes samples[first]) (store.keyToBytes samples[second]) < 0 ↔
      ∃ record ∈ samples, store.below samples record ≤ first ∧ second < store.upTo samples record := by
  have one := among (List.getElem_mem low)
  have other := among (List.getElem_mem high)
  constructor
  · intro same
    have back := (ordered.keys.not_neg one other).mp same
    refine ⟨samples[first], List.getElem_mem low, ?_, (upTo_iff ordered among sorted one high).mp back⟩
    rw [← not_lt, ← below_iff ordered among sorted one low, ordered.keys.not_neg one one]
    exact ordered.keys.refl one
  · intro found
    obtain ⟨record, member, behind, before⟩ := found
    rw [← not_lt, ← below_iff ordered among sorted (among member) low,
      ordered.keys.not_neg one (among member)] at behind
    rw [← upTo_iff ordered among sorted (among member) high] at before
    rw [ordered.keys.not_neg one other]
    exact ordered.keys.trans other (among member) one before behind

/-- The first of the two samples has a smaller key than the second. -/
def Rises (store : RecordStore Rec K σ) (samples : List Rec) (first second : Nat) : Prop :=
  ∀ one ∈ samples[first]?, ∀ other ∈ samples[second]?,
    store.routable.routingKeyComp (store.keyToBytes one) (store.keyToBytes other) < 0

theorem rises_iff (ordered : store.Ordered data) (among : samples ⊆ data) (sorted : store.Sorted samples)
    {first second : Nat} (low : first < samples.length) (high : second < samples.length) :
    store.Rises samples first second ↔
      ∀ record ∈ samples, store.below samples record ≤ first → store.upTo samples record ≤ second := by
  have same := same_key_iff ordered among sorted low high
  rw [Rises, List.getElem?_eq_getElem low, List.getElem?_eq_getElem high]
  simp only [Option.mem_some_iff, forall_eq']
  rw [← not_iff_not, same]
  simp only [not_forall, not_le, exists_prop]

theorem rises_far (ordered : store.Ordered data) (among : samples ⊆ data) (sorted : store.Sorted samples)
    {first second third : Nat} (least : second ≤ third) (within : third < samples.length)
    (rises : store.Rises samples first second) : store.Rises samples first third := by
  cases Nat.eq_or_lt_of_le least with
  | inl same => exact same ▸ rises
  | inr less =>
      intro one held other also
      have middle := List.getElem?_eq_getElem (Nat.lt_of_le_of_lt least within)
      rw [List.getElem?_eq_getElem within, Option.mem_some_iff] at also
      subst also
      have early := among (List.mem_of_getElem? held)
      have between := among (List.getElem_mem (Nat.lt_of_le_of_lt least within))
      exact ordered.keys.lt_of_lt_of_le early between (among (List.getElem_mem within)) (rises one held _ middle)
        (List.pairwise_iff_getElem.mp sorted second third _ _ less)

theorem Spread.perm {records : List Rec} (permuted : samples.Perm records) (numPartitions : Nat) :
    store.Spread samples numPartitions ↔ store.Spread records numPartitions := by
  have below_eq : ∀ record, store.below samples record = store.below records record :=
    fun record => permuted.countP_eq _
  have upTo_eq : ∀ record, store.upTo samples record = store.upTo records record :=
    fun record => permuted.countP_eq _
  simp only [Spread, permuted.mem_iff, permuted.length_eq, below_eq, upTo_eq]

/-- The keys at equal distances rise if the samples are spread. -/
theorem splits_rise (ordered : store.Ordered data) (among : samples ⊆ data) (sorted : store.Sorted samples)
    {count : Nat} (enough : count + 1 ≤ samples.length) {split : List Rec}
    (taken : split.map some =
      (List.range count).map fun index => samples[samples.length / (count + 1) * (index + 1)]?) :
    (split.map store.keyToBytes).Pairwise (fun first second => store.routable.routingKeyComp first second < 0) ↔
      store.Spread samples (count + 1) := by
  have bound : ∀ {index}, index < count → samples.length / (count + 1) * (index + 1) < samples.length := by
    intro index low
    have whole := Nat.div_mul_le_self samples.length (count + 1)
    have last := Nat.mul_lt_mul_of_pos_left (Nat.succ_lt_succ low) (Nat.div_pos enough (Nat.succ_pos count))
    exact last.trans_le whole
  have read : (split.map store.keyToBytes).Pairwise
      (fun first second => store.routable.routingKeyComp first second < 0) ↔
        (List.range count).Pairwise fun first second => store.Rises samples
          (samples.length / (count + 1) * (first + 1)) (samples.length / (count + 1) * (second + 1)) := by
    have lifted : split.Pairwise (fun first second => store.routable.routingKeyComp (store.keyToBytes first)
        (store.keyToBytes second) < 0) ↔
        (split.map some).Pairwise fun first second => ∀ one ∈ first, ∀ other ∈ second,
          store.routable.routingKeyComp (store.keyToBytes one) (store.keyToBytes other) < 0 := by
      rw [List.pairwise_map]
      simp only [Option.mem_some_iff, forall_eq']
    rw [List.pairwise_map, lifted, taken, List.pairwise_map]
    rfl
  rw [read, pairwise_range_iff]
  · constructor
    · intro neighbours record member cut positive low behind
      obtain ⟨index, rfl⟩ := Nat.exists_eq_add_of_lt positive
      rw [Nat.zero_add] at low behind ⊢
      rw [Nat.mul_comm] at behind ⊢
      have low := Nat.lt_of_succ_lt_succ low
      have next := neighbours index low
      exact (rises_iff ordered among sorted (bound (Nat.lt_of_succ_lt low)) (bound low)).mp next record member behind
    · intro spread first low
      refine (rises_iff ordered among sorted (bound (Nat.lt_of_succ_lt low)) (bound low)).mpr ?_
      intro record member behind
      rw [Nat.mul_comm] at behind ⊢
      exact spread record member (first + 1) (Nat.succ_pos first) (Nat.succ_lt_succ low) behind
  · intro first second less low
    exact rises_far ordered among sorted (Nat.mul_le_mul_left _ (Nat.succ_le_succ less)) (bound low)

theorem perm_sortWith (records : List Rec) : (store.sortWith records).Perm records :=
  List.mergeSort_perm _ _

theorem sampled_subset (numPartitions : Int) : sampled data numPartitions ⊆ data := List.take_subset _ _

/-- Servers that a factor divides into at least one group. -/
theorem exists_sizes (nonzero : replicationFactor ≠ 0) (divides : (servers.length : Int).tmod replicationFactor = 0)
    (positive : 0 < numPartitions servers replicationFactor) :
    ∃ size count : Nat, 0 < size ∧ replicationFactor = size ∧ servers.length = (count + 1) * size ∧
      numPartitions servers replicationFactor = (count + 1 : Nat) := by
  have whole : numPartitions servers replicationFactor * replicationFactor = servers.length :=
    Int.tdiv_mul_cancel (Int.dvd_of_tmod_eq_zero divides)
  obtain ⟨count, number⟩ : ∃ count : Nat, numPartitions servers replicationFactor = (count + 1 : Nat) :=
    ⟨(numPartitions servers replicationFactor).toNat - 1, by omega⟩
  have factor : 0 < replicationFactor := by
    have product : 0 ≤ numPartitions servers replicationFactor * replicationFactor :=
      whole ▸ Int.natCast_nonneg _
    have nonnegative : 0 ≤ replicationFactor := Int.nonneg_of_mul_nonneg_right product positive
    exact lt_of_le_of_ne nonnegative nonzero.symm
  obtain ⟨size, rfl⟩ := Int.eq_ofNat_of_zero_le factor.le
  refine ⟨size, count, Int.natCast_pos.mp factor, rfl, ?_, number⟩
  rw [number] at whole
  exact_mod_cast whole.symm

section

variable {size count : Nat} (positive : 0 < size) (divided : servers.length = (count + 1) * size)

include positive divided

theorem numPartitions_eq : numPartitions servers size = (count + 1 : Nat) := by
  rw [numPartitions, divided, Nat.cast_mul]
  exact Int.mul_tdiv_cancel _ (by omega)

theorem partitions_built (enough : count + 1 ≤ (sampled data (count + 1 : Nat)).length) :
    ∃ split : List Rec, (split.map some = (List.range count).map fun index =>
        (store.sortWith (sampled data (count + 1 : Nat)))[
          (sampled data (count + 1 : Nat)).length / (count + 1) * (index + 1)]?) ∧
      store.partitions servers data size = .ok
        ((none :: split.map fun record => some (store.keyToBytes record)).zip
          ((List.range (count + 1)).map fun group => (servers.drop (group * size)).take size)) := by
  have sorted : (store.sortWith (sampled data (count + 1 : Nat))).length = _ := length_sortWith _
  obtain ⟨split, cut, taken⟩ := splits_ok (enough.trans_eq sorted.symm)
  rw [length_sortWith] at taken
  refine ⟨split, taken, ?_⟩
  have divides : ((servers.length : Int).tmod size) = 0 := by
    rw [divided, Nat.cast_mul]
    exact Int.mul_tmod_left _ _
  rw [partitions, if_neg (by omega), divides]
  dsimp only
  rw [numPartitions_eq positive divided, cut, grouped_ok positive divided]
  rfl

theorem deals_iff {split : List Rec} (length : split.length = count) :
    store.Deals servers size ((none :: split.map fun record => some (store.keyToBytes record)).zip
        ((List.range (count + 1)).map fun group => (servers.drop (group * size)).take size)) ↔
      ((split.map store.keyToBytes).Pairwise fun first second => store.routable.routingKeyComp first second < 0) ∧
      ∀ (first second : Nat) server, servers[first]? = some server → servers[second]? = some server →
        first / size = second / size := by
  have same : (none :: split.map fun record => some (store.keyToBytes record)).length =
      ((List.range (count + 1)).map fun group => (servers.drop (group * size)).take size).length := by
    simp only [List.length_cons, List.length_map, List.length_range, length]
  have starts := List.map_fst_zip (le_of_eq same)
  have groups := List.map_snd_zip (ge_of_eq same)
  rw [← groups_disjoint positive divided]
  constructor
  · intro deals
    obtain ⟨keys, listed, rising⟩ := deals.starts
    rw [starts, List.cons.injEq, show (fun record => some (store.keyToBytes record)) = some ∘ store.keyToBytes from rfl,
      ← List.map_map] at listed
    rw [List.map_injective_iff.mpr (Option.some_injective K) listed.2]
    exact ⟨rising, groups ▸ deals.disjoint⟩
  · intro both
    refine ⟨?_, ⟨split.map store.keyToBytes, ?_, both.1⟩, ?_, ?_⟩
    · rw [numPartitions_eq positive divided, List.length_zip, same, Nat.min_self]
      simp only [List.length_map, List.length_range]
    · rw [starts, List.map_map]
      rfl
    · rw [groups]
      exact both.2
    · intro server
      have listed : server ∈ servers ↔ _ := mem_groups positive divided
      rw [← groups] at listed
      simpa only [List.mem_map, exists_exists_and_eq_and] using listed

end

/-- The partitions of a sequence of records are as they should be exactly if its samples
can be divided among its servers. -/
theorem partitions_deals_iff (ordered : store.Ordered data) (nonzero : replicationFactor ≠ 0)
    (divides : (servers.length : Int).tmod replicationFactor = 0) :
    (∃ scheme, store.partitions servers data replicationFactor = .ok scheme ∧
        store.Deals servers replicationFactor scheme) ↔
      store.Divisible servers data replicationFactor := by
  by_cases enough : 0 < numPartitions servers replicationFactor ∧
      numPartitions servers replicationFactor ≤ (sampled data (numPartitions servers replicationFactor)).length
  · obtain ⟨some_partition, enough⟩ := enough
    obtain ⟨size, count, positive, rfl, divided, number⟩ := exists_sizes nonzero divides some_partition
    have many : count + 1 ≤ (sampled data (count + 1 : Nat)).length := by
      rw [number] at enough
      exact Int.ofNat_le.mp enough
    obtain ⟨split, taken, built⟩ := @partitions_built _ _ _ store servers data size count positive divided many
    have length : split.length = count := by
      have lengths : (split.map some).length = split.length := List.length_map _
      rw [taken, List.length_map, List.length_range] at lengths
      exact lengths.symm
    have permuted : (store.sortWith (sampled data (count + 1 : Nat))).Perm _ := perm_sortWith _
    rw [← permuted.length_eq] at taken many
    have rise := splits_rise ordered (fun record member => sampled_subset _ (permuted.mem_iff.mp member))
      (sortWith_sorted ordered (sampled_subset _)) many taken
    rw [Spread.perm permuted] at rise
    have deals := @deals_iff _ _ _ store _ _ _ positive divided _ length
    rw [rise] at deals
    constructor
    · intro found
      obtain ⟨scheme, same, dealt⟩ := found
      cases built.symm.trans same
      obtain ⟨spread, apart⟩ := deals.mp dealt
      refine ⟨some_partition, enough, ?_, apart⟩
      rwa [number, Int.toNat_natCast]
    · intro divisible
      have spread := divisible.spread
      rw [number, Int.toNat_natCast] at spread
      exact ⟨_, built, deals.mpr ⟨spread, divisible.apart⟩⟩
  · refine iff_of_false ?_ fun divisible => enough ⟨divisible.some_partition, divisible.enough⟩
    intro found
    obtain ⟨scheme, built, _⟩ := found
    exact enough (partitions_enough built).2

variable {registry : Registry store.routable.servers} {sound : σ → Prop} {ns : RoutedNamespace K σ}

/-- On servers that answer, `repartition` sets a scheme that deals the servers out exactly
if the samples can be divided among them. -/
theorem repartition_deals_iff [DecidableEq K] [ToString K] (answering : Answering registry sound)
    (start : sound ns.cluster)
    (live : ∀ range ∈ ns.routingTable.rTable, ∀ partition ∈ range.values,
      ∃ bounds, registry.live ns.cluster partition = some bounds)
    (ordered : store.Ordered data) (nonzero : replicationFactor ≠ 0)
    (divides : (servers.length : Int).tmod replicationFactor = 0) (arrival : Iteration PartitionService) :
    (∃ scheme next, store.partitions servers data replicationFactor = .ok scheme ∧
        store.Deals servers replicationFactor scheme ∧
        store.repartition arrival servers data replicationFactor ns = .ok () next) ↔
      store.Divisible servers data replicationFactor := by
  rw [← partitions_deals_iff ordered nonzero divides]
  constructor
  · intro found
    obtain ⟨scheme, _, built, deals, _⟩ := found
    exact ⟨scheme, built, deals⟩
  · intro found
    obtain ⟨scheme, built, deals⟩ := found
    obtain ⟨keys, starts, _⟩ := deals.starts
    have opened : scheme.head?.map Prod.fst = some none := by
      rw [← List.head?_map, starts]
      rfl
    obtain ⟨next, set⟩ : ∃ next, store.routable.setPartitionScheme arrival scheme ns = .ok .unit next :=
      Routable.setPartitionScheme_returns answering start opened live
    exact ⟨scheme, next, built, deals, bind_ok.mpr ⟨scheme, ns, ofExcept_ok.mpr ⟨built, rfl⟩, set⟩⟩

/-- A store of numbers that are their own keys. -/
def numbers : RecordStore Nat Nat MemoryServers :=
  ⟨⟨MemoryServers.servers, id, (Comparator.threeWay Nat).compare⟩, (Comparator.threeWay Nat).compare, id⟩

theorem numbers_ordered (data : List Nat) : numbers.Ordered data where
  records := .of_key id fun _ _ => ⟨(Comparator.threeWay Nat).compare_neg, (Comparator.threeWay Nat).compare_zero⟩
  keys := .of_key id fun _ _ => ⟨(Comparator.threeWay Nat).compare_neg, (Comparator.threeWay Nat).compare_zero⟩
  keys_first := fun _ _ _ _ => id

def threeServers : List StorageService :=
  [⟨"localhost", 1, .number 0⟩, ⟨"localhost", 2, .number 0⟩, ⟨"localhost", 3, .number 0⟩]

theorem threeServers_apart (first second : Nat) (server : StorageService)
    (one : threeServers[first]? = some server) (other : threeServers[second]? = some server) : first = second :=
  (List.getElem?_inj (List.getElem?_eq_some_iff.mp one).1 (by decide)).mp (one.trans other.symm)

theorem three_numbers_dealt : ∃ scheme next,
    numbers.partitions threeServers [3, 1, 2] 1 = .ok scheme ∧ numbers.Deals threeServers 1 scheme ∧
      numbers.repartition (.inserted _) threeServers [3, 1, 2] 1 (numbers.routable.unopened {}) = .ok () next := by
  refine (repartition_deals_iff MemoryServers.answering trivial (List.forall_mem_nil _)
    (numbers_ordered [3, 1, 2]) (by decide) (by decide) (.inserted _)).mpr ⟨by decide, by decide, ?_, ?_⟩
  · intro record member split positive low
    have only : split = 1 := by
      have bound : split + 1 < 3 := low
      omega
    subst only
    revert record
    decide
  · intro first second server one other
    rw [threeServers_apart first second server one other]

/-- Three equal keys give two partitions that start at the same key. -/
theorem equal_numbers_not_dealt : ¬ ∃ scheme,
    numbers.partitions threeServers [5, 5, 5] 1 = .ok scheme ∧ numbers.Deals threeServers 1 scheme := by
  rw [partitions_deals_iff (numbers_ordered [5, 5, 5]) (by decide) (by decide)]
  intro divisible
  exact absurd (divisible.spread 5 (by decide) 1 (by decide) (by decide) (by decide)) (by decide)

end RecordStore

end Scads.Client
