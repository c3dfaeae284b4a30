import Scads.Util.RoutingOrder
import Scads.Client.PartitionRequests

namespace Scads.Client

open Scads.Data Scads.Comm Scads.Server Scads.Util RangeTable

/-! # The partitions of a routing table

Every partition that a table lists was made for the key range that lists it, and
it is not among those that the client has asked to delete.
-/

namespace Routable

variable {R K σ : Type}

section

variable {holds other : PartitionService → Option K × Option K → Prop} {stop : Option K}
  {before after ranges : List (RangeType K PartitionService)} {range : RangeType K PartitionService}
  {partition : PartitionService}

/-- Every partition that is listed has to do with the key range that lists it. -/
def Aligned (holds : PartitionService → Option K × Option K → Prop) (stop : Option K) :
    List (RangeType K PartitionService) → Prop
  | [] => True
  | range :: rest =>
      (∀ partition ∈ range.values, holds partition (range.startKey, startOr stop rest)) ∧
        Aligned holds stop rest

theorem startOr_append (before after : List (RangeType K PartitionService)) :
    startOr stop (before ++ after) = startOr (startOr stop after) before := by
  cases before <;> rfl

theorem aligned_append :
    Aligned holds stop (before ++ after) ↔
      Aligned holds (startOr stop after) before ∧ Aligned holds stop after := by
  induction before with
  | nil => simp [Aligned]
  | cons first rest ih => simp only [List.cons_append, Aligned, ih, startOr_append, and_assoc]

theorem Aligned.mem (aligned : Aligned holds stop ranges) (member : range ∈ ranges)
    (listed : partition ∈ range.values) : ∃ endKey, holds partition (range.startKey, endKey) := by
  obtain ⟨before, after, rfl⟩ := List.append_of_mem member
  exact ⟨_, (aligned_append.mp aligned).2.1 partition listed⟩

theorem Aligned.imp (aligned : Aligned holds stop ranges)
    (implied : ∀ range ∈ ranges, ∀ partition ∈ range.values, ∀ bounds,
      holds partition bounds → other partition bounds) : Aligned other stop ranges := by
  induction ranges with
  | nil => trivial
  | cons first rest ih =>
      refine ⟨fun partition listed => ?_, ih aligned.2 fun range member => implied range (by simp [member])⟩
      exact implied first (by simp) partition listed _ (aligned.1 partition listed)

theorem aligned_iff_getElem : Aligned holds none ranges ↔
    ∀ place range, ranges[place]? = some range → ∀ partition ∈ range.values,
      holds partition (range.startKey, (ranges[place + 1]?).bind RangeType.startKey) := by
  induction ranges with
  | nil => simp [Aligned]
  | cons first rest ih =>
      have next : startOr none rest = (rest[0]?).bind RangeType.startKey := by cases rest <;> rfl
      rw [Aligned, ih, next]
      constructor
      · intro given place range found
        obtain ⟨here, later⟩ := given
        cases place with
        | zero =>
            cases found
            exact here
        | succ place => exact later place range found
      · intro each
        exact ⟨each 0 first rfl, fun place range found => each (place + 1) range found⟩

end

variable {routable : Routable R K σ} {registry : Registry routable.servers}
  {ns middle next : RoutedNamespace K σ} [LinearOrder K] {used : K → Prop}

/-- What the client knows about its partitions, whatever ranges list them. -/
structure Held (registry : Registry routable.servers) (used : K → Prop) (ns : RoutedNamespace K σ) :
    Prop where
  arranged : ns.routingTable.Arranged used
  known : ∀ {partition bounds}, (partition, bounds) ∈ ns.creations →
    registry.issued ns.cluster partition ∧
      (partition ∉ ns.deletions → registry.live ns.cluster partition = some bounds)
  sent : ∀ partition ∈ ns.deletions, registry.issued ns.cluster partition
  listed : ∀ range ∈ ns.routingTable.rTable, ∀ partition ∈ range.values,
    partition ∉ ns.deletions ∧ ∃ bounds, (partition, bounds) ∈ ns.creations

def Created (ns : RoutedNamespace K σ) (partition : PartitionService) (bounds : Option K × Option K) : Prop :=
  (partition, bounds) ∈ ns.creations

/-- Every partition of the table was made for the range that lists it. -/
structure Routed (registry : Registry routable.servers) (used : K → Prop) (ns : RoutedNamespace K σ) : Prop
    extends Held registry used ns where
  aligned : Aligned (Created ns) none ns.routingTable.rTable

/-- A partition that the table does not list. -/
def Dropped (registry : Registry routable.servers) (ns : RoutedNamespace K σ)
    (partition : PartitionService) : Prop :=
  registry.issued ns.cluster partition ∧ ∀ range ∈ ns.routingTable.rTable, partition ∉ range.values

section

variable {range : RangeType K PartitionService} {partition : PartitionService}
  {bounds : Option K × Option K} {made : List (PartitionService × Option K × Option K)}

theorem Held.live (held : Held registry used ns) (member : range ∈ ns.routingTable.rTable)
    (listed : partition ∈ range.values) (created : Created ns partition bounds) :
    registry.live ns.cluster partition = some bounds :=
  (held.known created).2 (held.listed range member partition listed).1

theorem Held.issued (held : Held registry used ns) (member : range ∈ ns.routingTable.rTable)
    (listed : partition ∈ range.values) : registry.issued ns.cluster partition := by
  obtain ⟨_, bounds, created⟩ := held.listed range member partition listed
  exact (held.known created).1

/-- The partitions of a table that passes the check were made for their ranges. -/
theorem Held.routed (held : Held registry used ns)
    (answers : Aligned (fun partition bounds => registry.live ns.cluster partition = some bounds) none
      ns.routingTable.rTable) : Routed registry used ns where
  toHeld := held
  aligned := by
    refine answers.imp fun range member partition listed bounds live => ?_
    obtain ⟨_, others, created⟩ := held.listed range member partition listed
    have same := held.live member listed created
    rw [live] at same
    cases same
    exact created

theorem Routed.answers (routed : Routed registry used ns) :
    Aligned (fun partition bounds => registry.live ns.cluster partition = some bounds) none
      ns.routingTable.rTable :=
  routed.aligned.imp fun _ member _ listed _ created => routed.live member listed created

/-- A partition is in one range of the table only. -/
theorem Routed.listed_once (routed : Routed registry used ns) {second : RangeType K PartitionService}
    (member : range ∈ ns.routingTable.rTable) (among : second ∈ ns.routingTable.rTable)
    (listed : partition ∈ range.values) (again : partition ∈ second.values) : range = second := by
  obtain ⟨_, created⟩ := routed.aligned.mem member listed
  obtain ⟨_, also⟩ := routed.aligned.mem among again
  have same := (routed.live member listed created).symm.trans (routed.live among again also)
  have start := congrArg Prod.fst (Option.some.inj same)
  exact routed.arranged.same_start member among start

theorem Held.grown (held : Held registry used ns) (grown : Grown registry ns made next) :
    Held registry used next where
  arranged := grown.table ▸ held.arranged
  known := by
    intro partition bounds created
    rcases (grown.creations _).mp created with new | old
    · exact ⟨(grown.issued _).mpr (.inl (List.mem_map_of_mem new)), fun _ => grown.opened _ new⟩
    · obtain ⟨issued, live⟩ := held.known old
      refine ⟨(grown.issued _).mpr (.inr issued), fun kept => ?_⟩
      rw [grown.deletions] at kept
      rw [grown.live issued, live kept]
  sent := by
    intro partition sent
    rw [grown.deletions] at sent
    exact (grown.issued _).mpr (.inr (held.sent partition sent))
  listed := by
    rw [grown.table, grown.deletions]
    intro range member partition listed
    obtain ⟨kept, bounds, created⟩ := held.listed range member partition listed
    exact ⟨kept, bounds, (grown.creations _).mpr (.inr created)⟩

omit [LinearOrder K] in
theorem Grown.created (grown : Grown registry ns made next) (created : Created ns partition bounds) :
    Created next partition bounds :=
  (grown.creations _).mpr (.inr created)

/-- A new partition was not asked to be deleted. -/
theorem Held.new_listed (held : Held registry used ns) (grown : Grown registry ns made next)
    (new : (partition, bounds) ∈ made) :
    partition ∉ next.deletions ∧ ∃ bounds, (partition, bounds) ∈ next.creations := by
  refine ⟨fun sent => ?_, bounds, (grown.creations _).mpr (.inl new)⟩
  rw [grown.deletions] at sent
  exact grown.fresh _ new (held.sent partition sent)

theorem Routed.shrunk {partitions : List PartitionService} (routed : Routed registry used ns)
    (dropped : ∀ partition ∈ partitions, Dropped registry ns partition)
    (shrunk : Shrunk registry partitions ns next) : Routed registry used next where
  arranged := shrunk.table ▸ routed.arranged
  known := by
    intro partition bounds created
    rw [shrunk.creations] at created
    obtain ⟨issued, live⟩ := routed.known created
    refine ⟨(shrunk.issued _).mpr issued, fun kept => ?_⟩
    rw [shrunk.deletions, List.mem_append, not_or] at kept
    rw [shrunk.live _ kept.2, live kept.1]
  sent := by
    intro partition sent
    rw [shrunk.deletions, List.mem_append] at sent
    rcases sent with old | new
    · exact (shrunk.issued _).mpr (routed.sent partition old)
    · exact (shrunk.issued _).mpr (dropped partition new).1
  listed := by
    rw [shrunk.table, shrunk.creations, shrunk.deletions]
    intro range member partition listed
    obtain ⟨kept, created⟩ := routed.listed range member partition listed
    refine ⟨fun sent => ?_, created⟩
    rcases List.mem_append.mp sent with old | new
    · exact kept old
    · exact (dropped partition new).2 range member listed
  aligned := by
    rw [shrunk.table]
    refine routed.aligned.imp fun _ _ partition _ bounds created => ?_
    rw [Created, shrunk.creations]
    exact created

omit [LinearOrder K] in
theorem Shrunk.dropped {partitions : List PartitionService} (shrunk : Shrunk registry partitions ns next)
    (dropped : Dropped registry ns partition) : Dropped registry next partition := by
  refine ⟨(shrunk.issued _).mpr dropped.1, ?_⟩
  rw [shrunk.table]
  exact dropped.2

theorem deletePartitionServices_routed {arrival : Iteration PartitionService}
    {partitions : List PartitionService} (routed : Routed registry used ns)
    (dropped : ∀ partition ∈ partitions, Dropped registry ns partition)
    (ran : routable.deletePartitionServices arrival partitions ns = .ok .unit next) :
    Routed registry used next ∧ ∀ {other}, Dropped registry ns other → Dropped registry next other := by
  have shrunk := deletePartitionServices_shrunk (fun partition listed => (dropped partition listed).1) ran
  exact ⟨routed.shrunk dropped shrunk, fun other => shrunk.dropped other⟩

section

variable {before after block others : List (RangeType K PartitionService)} {table : RoutingTable K}

theorem Held.retable (held : Held registry used ns) (arranged : table.Arranged used)
    (listed : ∀ range ∈ table.rTable, ∀ partition ∈ range.values,
      partition ∉ ns.deletions ∧ ∃ bounds, (partition, bounds) ∈ ns.creations) :
    Held registry used { ns with routingTable := table } :=
  ⟨arranged, held.known, held.sent, listed⟩

theorem Routed.replaced (routed : Routed registry used ns) (grown : Grown registry ns made next)
    (split : ns.routingTable.rTable = before ++ block ++ after) (arranged : table.Arranged used)
    (result : table.rTable = before ++ others ++ after)
    (start : startOr (startOr none after) others = startOr (startOr none after) block)
    (aligned : Aligned (Created next) (startOr none after) others)
    (values : ∀ range ∈ others, ∀ partition ∈ range.values,
      (∃ bounds, (partition, bounds) ∈ made) ∨ ∃ old ∈ block, partition ∈ old.values) :
    Routed registry used { next with routingTable := table } := by
  have old : ∀ range ∈ ns.routingTable.rTable, ∀ partition ∈ range.values,
      partition ∉ next.deletions ∧ ∃ bounds, (partition, bounds) ∈ next.creations := by
    intro range member partition listed
    obtain ⟨kept, bounds, created⟩ := routed.listed range member partition listed
    rw [grown.deletions]
    exact ⟨kept, bounds, grown.created created⟩
  refine ⟨(routed.toHeld.grown grown).retable arranged ?_, ?_⟩
  · intro range member partition listed
    rw [result, List.append_assoc] at member
    rcases List.mem_append.mp member with early | member
    · exact old range (by simp [split, early]) partition listed
    · rcases List.mem_append.mp member with new | late
      · rcases values range new partition listed with ⟨bounds, fresh⟩ | ⟨kept, among, known⟩
        · exact routed.toHeld.new_listed grown fresh
        · exact old kept (by simp [split, among]) partition known
      · exact old range (by simp [split, late]) partition listed
  · have before : Aligned (Created next) none ns.routingTable.rTable :=
      routed.aligned.imp fun _ _ _ _ _ created => grown.created created
    rw [split, List.append_assoc, aligned_append, aligned_append, startOr_append] at before
    change Aligned (Created next) none table.rTable
    rw [result, List.append_assoc, aligned_append, aligned_append, startOr_append, start]
    exact ⟨before.1, aligned, before.2.2⟩

/-- The table after an edit, with the partitions that it no longer lists. -/
structure Edited (registry : Registry routable.servers) (used : K → Prop) (old : List PartitionService)
    (ns next : RoutedNamespace K σ) : Prop where
  routed : Routed registry used next
  dropped : ∀ {partition}, Dropped registry ns partition → Dropped registry next partition
  replaced : ∀ partition ∈ old, Dropped registry next partition

theorem Routed.edited_refl (routed : Routed registry used ns) : Edited registry used [] ns ns :=
  ⟨routed, id, by simp⟩

theorem Edited.trans {first second : List PartitionService}
    (edited : Edited registry used first ns middle) (again : Edited registry used second middle next) :
    Edited registry used (first ++ second) ns next where
  routed := again.routed
  dropped dropped := again.dropped (edited.dropped dropped)
  replaced partition member := by
    rcases List.mem_append.mp member with early | late
    · exact again.dropped (edited.replaced partition early)
    · exact again.replaced partition late

/-- New partitions in the place of those of some ranges. -/
theorem Routed.edited (routed : Routed registry used ns) (grown : Grown registry ns made next)
    (split : ns.routingTable.rTable = before ++ block ++ after) (arranged : table.Arranged used)
    (result : table.rTable = before ++ others ++ after)
    (start : startOr (startOr none after) others = startOr (startOr none after) block)
    (aligned : Aligned (Created next) (startOr none after) others)
    (values : ∀ range ∈ others, ∀ partition ∈ range.values, ∃ bounds, (partition, bounds) ∈ made) :
    Edited registry used (block.flatMap RangeType.values) ns { next with routingTable := table } := by
  have fresh : ∀ partition, registry.issued ns.cluster partition →
      ∀ range ∈ others, partition ∉ range.values := by
    intro partition issued range member listed
    obtain ⟨bounds, new⟩ := values range member partition listed
    exact grown.fresh _ new issued
  have unlisted : ∀ partition, registry.issued ns.cluster partition →
      (∀ range ∈ before ++ after, partition ∉ range.values) →
        Dropped registry { next with routingTable := table } partition := by
    intro partition issued elsewhere
    refine ⟨(grown.issued _).mpr (.inr issued), fun range member listed => ?_⟩
    rw [result, List.append_assoc] at member
    rcases List.mem_append.mp member with early | member
    · exact elsewhere range (by simp [early]) listed
    · rcases List.mem_append.mp member with new | late
      · exact fresh partition issued range new listed
      · exact elsewhere range (by simp [late]) listed
  refine ⟨routed.replaced grown split arranged result start aligned
    fun range member partition listed => .inl (values range member partition listed), ?_, ?_⟩
  · intro partition found
    obtain ⟨issued, absent⟩ := found
    refine unlisted partition issued fun range member => absent range ?_
    rcases List.mem_append.mp member with early | late
    · simp [split, early]
    · simp [split, late]
  · intro partition member
    obtain ⟨old, among, listed⟩ := List.mem_flatMap.mp member
    have known : old ∈ ns.routingTable.rTable := by simp [split, among]
    refine unlisted partition (routed.issued known listed) fun range elsewhere again => ?_
    have nodup := routed.arranged.nodup
    rw [split, List.append_assoc, List.nodup_append, List.nodup_append] at nodup
    rcases List.mem_append.mp elsewhere with early | late
    · have same := routed.listed_once (by simp [split, early]) known again listed
      exact nodup.2.2 range early old (by simp [among]) same
    · have same := routed.listed_once known (by simp [split, late]) listed again
      exact nodup.2.1.2.2 old among range late same

end

end

section

variable [DecidableEq K] [ToString K]

omit [LinearOrder K] in
theorem validateRanges_ok (registry : Registry routable.servers)
    {ranges : List (RangeType K PartitionService)} {stop : Option K} :
    routable.validateRanges ranges stop ns = .ok .unit next ↔ ns = next ∧
      Aligned (fun partition bounds => registry.live ns.cluster partition = some bounds) stop
        ranges.reverse := by
  induction ranges generalizing stop with
  | nil =>
      rw [validateRanges]
      constructor
      · intro ran
        cases ran
        exact ⟨rfl, trivial⟩
      · intro found
        obtain ⟨rfl, _⟩ := found
        rfl
  | cons range earlier ih =>
      rw [validateRanges, bind_ok, List.reverse_cons, aligned_append]
      constructor
      · intro found
        obtain ⟨_, between, here, ran⟩ := found
        obtain ⟨rfl, live⟩ := (forM_validatePartition_ok registry).mp here
        obtain ⟨same, aligned⟩ := ih.mp ran
        exact ⟨same, aligned, live, trivial⟩
      · intro found
        obtain ⟨rfl, aligned, live, _⟩ := found
        exact ⟨.unit, ns, (forM_validatePartition_ok registry).mpr ⟨rfl, live⟩, ih.mpr ⟨rfl, aligned⟩⟩

omit [LinearOrder K] in
/-- The check of a table succeeds if and only if the partitions answer with the key
ranges that list them. -/
theorem validateRoutingTable_ok (registry : Registry routable.servers) {valid : Bool} :
    routable.validateRoutingTable ns = .ok valid next ↔ valid = true ∧ ns = next ∧
      Aligned (fun partition bounds => registry.live ns.cluster partition = some bounds) none
        ns.routingTable.rTable := by
  have checked : routable.validateRanges ns.routingTable.rTable.reverse none ns = .ok .unit next ↔ _ :=
    validateRanges_ok registry
  rw [List.reverse_reverse] at checked
  rw [validateRoutingTable, bind_ok]
  constructor
  · intro found
    obtain ⟨read, _, got, ran⟩ := found
    cases got
    obtain ⟨_, _, ran, returned⟩ := bind_ok.mp ran
    cases returned
    exact ⟨rfl, checked.mp ran⟩
  · intro found
    obtain ⟨rfl, same⟩ := found
    exact ⟨ns, ns, rfl, bind_ok.mpr ⟨.unit, next, checked.mpr same, rfl⟩⟩

omit [LinearOrder K] in
theorem storeRoutingTable_ok (registry : Registry routable.servers) :
    routable.storeRoutingTable ns = .ok .unit next ↔
      next = { ns with stored := ns.routingTable.rTable } ∧
        Aligned (fun partition bounds => registry.live ns.cluster partition = some bounds) none
          ns.routingTable.rTable := by
  rw [storeRoutingTable, bind_ok]
  constructor
  · intro found
    obtain ⟨valid, _, checked, ran⟩ := found
    obtain ⟨rfl, rfl, aligned⟩ := (validateRoutingTable_ok registry).mp checked
    cases ran
    exact ⟨rfl, aligned⟩
  · intro found
    obtain ⟨rfl, aligned⟩ := found
    exact ⟨true, ns, (validateRoutingTable_ok registry).mpr ⟨rfl, rfl, aligned⟩, rfl⟩

end

end Routable

end Scads.Client
