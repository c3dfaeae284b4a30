import Scads.Client.Metadata
import Scads.Comm.ZooKeeperNode

namespace Scads.Protocol

open Scads.Data Scads.Comm Scads.Client ZooKeeperNode

/-! # The creation of a namespace

Clients that open a namespace at the same time find out in ZooKeeper which of them creates
it.  The lock that they take is an ephemeral node, so it may go while its owner is
still at work; what keeps the others out then is that the schema is there already.
-/

/-- What a client brings along for a namespace that it creates.  Making the first partition
and checking the routing table may fail. -/
structure NamespaceSettings where
  keySchema : Bytes
  valueSchema : Bytes
  valueClass : Bytes
  routingTable : Except Failure Bytes
  quorumConfig : Bytes

section

variable {C : Type} (client : C) (path : String) (settings : NamespaceSettings)

def putMetadata (key : String) (value : Bytes) : ZooKeeperScript C Unit := do
  getOrCreate client path key
  setData path key value

def initRoot : ZooKeeperScript C Unit := do
  getOrCreate client path "partitions"
  createChild client path "keySchema" settings.keySchema .persistent
  createChild client path "valueSchema" settings.valueSchema .persistent
  createChild client path "valueClass" settings.valueClass .persistent

/-- The routing table of the first partition, as the client that makes it stores it. -/
def storeRoutingTable : ZooKeeperScript C Unit :=
  match settings.routingTable with
  | .error failure => throw (.thrown failure)
  | .ok table => putMetadata client path "routingtable" table

def onCreateFinished : ZooKeeperScript C Unit := do
  createChild client path "initialized" [] .persistent
  apply path "createLock"
  deleteChild "createLock"

def create : ZooKeeperScript C Unit := do
  getOrCreateNode path
  createChild client path "createLock" [] .ephemeral
  initRoot client path settings
  storeRoutingTable client path settings
  putMetadata client path "quorumProtConfig" settings.quorumConfig
  onCreateFinished client path

def loadRoutingTable : ZooKeeperScript C Bytes := do
  apply path "routingtable"
  getData path "routingtable"

def loadQuorumConfig : ZooKeeperScript C Bytes := do
  unless ← get path "quorumProtConfig" do
    throw (.thrown (.runtime "could not find quorum protocol"))
  getData path "quorumProtConfig"

/-- `open` of a namespace. -/
def openNamespace : ZooKeeperScript C (Bytes × Bytes) := do
  getOrCreateNode path
  if ← get path "initialized" then
    awaitChild path "initialized"
  else
    tryCatch (create client path settings) fun
      | .nodeExists _ => awaitChild path "initialized"
      | failure => throw failure
  let table ← loadRoutingTable path
  return (table, ← loadQuorumConfig path)

end

/-- The nodes that describe the namespace, by the order in which they are made. -/
def described : List String :=
  ["keySchema", "valueSchema", "valueClass", "routingtable", "quorumProtConfig", "initialized"]

def metadata (settings : NamespaceSettings) (table : Bytes) : String → Option Bytes
  | "keySchema" => some settings.keySchema
  | "valueSchema" => some settings.valueSchema
  | "valueClass" => some settings.valueClass
  | "routingtable" => some table
  | "quorumProtConfig" => some settings.quorumConfig
  | "initialized" => some []
  | _ => none

variable {C : Type}

/-- The nodes that describe the namespace have these values, from this client. -/
def Described (client : C) (values : String → Option Bytes) (node : ZooKeeperNode C) : Prop :=
  ∀ name ∈ described, node.children name = (values name).map fun data => ⟨data, none, client⟩

/-- The child is there. -/
def Has (name : String) (node : ZooKeeperNode C) : Prop := (node.children name).isSome = true

/-- All of the namespace comes from this client. -/
def CompletedBy (settings : C → NamespaceSettings) (client : C) (node : ZooKeeperNode C) : Prop :=
  ∃ table, (settings client).routingTable = .ok table ∧
    Described client (metadata (settings client) table) node ∧ Has "partitions" node

structure Sound (settings : C → NamespaceSettings) (node : ZooKeeperNode C) : Prop where
  persistent : ∀ name, name ≠ "createLock" → ∀ child, node.children name = some child → child.ephemeralOwner = none
  ordered : node.children "keySchema" = none → ∀ name ∈ described, node.children name = none
  complete : Has "initialized" node → ∃ client, CompletedBy settings client node

/-- The client made the schema. -/
def Creates (client : C) (node : ZooKeeperNode C) : Prop :=
  ∃ child, node.children "keySchema" = some child ∧ child.creator = client

/-- What a client finds after steps of the others: nothing but the lock goes, and nobody
touches a namespace that the client creates. -/
structure Follows (client : C) (before after : ZooKeeperNode C) : Prop where
  present : before.present = true → after.present = true
  kept : ∀ name, name ≠ "createLock" → ∀ child, before.children name = some child →
    ∃ later, after.children name = some later ∧ later.creator = child.creator
  owned : Creates client before → ∀ name ∈ described, after.children name = before.children name

def Relies (settings : C → NamespaceSettings) (client : C) (before after : ZooKeeperNode C) : Prop :=
  Sound settings before → Sound settings after ∧ Follows client before after

def Guarantees (settings : C → NamespaceSettings) (client : C) (before after : ZooKeeperNode C) : Prop :=
  Sound settings before → Sound settings after ∧ ∀ other, other ≠ client → Follows other before after

variable {settings : C → NamespaceSettings} {client : C} {node before after : ZooKeeperNode C}

theorem Follows.refl (client : C) (node : ZooKeeperNode C) : Follows client node node :=
  ⟨id, fun _ _ child found => ⟨child, found, rfl⟩, fun _ _ _ => rfl⟩

theorem Follows.trans {third : ZooKeeperNode C} (first : Follows client node before)
    (second : Follows client before third) : Follows client node third where
  present := second.present ∘ first.present
  kept name other child found := by
    obtain ⟨middle, between, same⟩ := first.kept name other child found
    obtain ⟨later, last, equal⟩ := second.kept name other middle between
    exact ⟨later, last, equal.trans same⟩
  owned creates name member := by
    have still : Creates client before := by
      obtain ⟨child, found, same⟩ := creates
      exact ⟨child, (first.owned ⟨child, found, same⟩ _ (by simp [described])).trans found, same⟩
    rw [second.owned still name member, first.owned creates name member]

/-- Steps that change nothing but the lock. -/
theorem lock_changed (present : before.present = true → after.present = true)
    (same : ∀ name, name ≠ "createLock" → after.children name = before.children name)
    (sound : Sound settings before) : Sound settings after ∧ ∀ other, Follows other before after := by
  have listed : ∀ name ∈ described, after.children name = before.children name := by
    intro name member
    refine same name fun equal => ?_
    subst equal
    simp [described] at member
  refine ⟨⟨fun name other child found => ?_, fun empty name member => ?_, fun made => ?_⟩,
    fun other => ⟨present, ?_, ?_⟩⟩
  · exact sound.persistent name other child (same name other ▸ found)
  · rw [listed name member]
    exact sound.ordered (listed "keySchema" (by simp [described]) ▸ empty) name member
  · rw [Has, listed "initialized" (by simp [described])] at made
    obtain ⟨creator, table, stores, values, partitions⟩ := sound.complete made
    refine ⟨creator, table, stores, fun name member => (listed name member).trans (values name member), ?_⟩
    rw [Has, same "partitions" (by decide)]
    exact partitions
  · exact fun name different child found => ⟨child, (same name different).trans found, rfl⟩
  · exact fun _ name member => listed name member

theorem expire_relies [DecidableEq C] (client session : C) (node : ZooKeeperNode C) :
    Relies settings client node (node.expire session) := by
  intro sound
  have same : ∀ name, name ≠ "createLock" → (node.expire session).children name = node.children name := by
    intro name other
    cases found : node.children name with
    | none => simp [expire, found]
    | some child => simp [expire, found, sound.persistent name other child found]
  have present : node.present = true → (node.expire session).present = true := id
  obtain ⟨still, follows⟩ := lock_changed present same sound
  exact ⟨still, follows client⟩

theorem relies_refl (client : C) (node : ZooKeeperNode C) : Relies settings client node node :=
  fun sound => ⟨sound, Follows.refl client node⟩

theorem guarantees_refl (client : C) (node : ZooKeeperNode C) : Guarantees settings client node node :=
  fun sound => ⟨sound, fun other _ => Follows.refl other node⟩

theorem compatible [DecidableEq C] (settings : C → NamespaceSettings) :
    Parties.Compatible ZooKeeperNode.expire (Relies settings) (Guarantees settings) where
  reflexive := relies_refl
  transitive client first second third relied again sound := by
    obtain ⟨still, follows⟩ := relied sound
    obtain ⟨last, more⟩ := again still
    exact ⟨last, follows.trans more⟩
  idle := guarantees_refl
  others different guaranteed sound := (guaranteed sound).imp id fun follows => follows _ different
  outer client session node := expire_relies client session node

variable {path name : String} {holds : ZooKeeperNode C → Prop}

/-- What a client knows about sound nodes, whatever the others do. -/
def Lasting (settings : C → NamespaceSettings) (client : C) (holds : ZooKeeperNode C → Prop) : Prop :=
  ∀ ⦃before after⦄, Sound settings before → holds before → Relies settings client before after → holds after

theorem Lasting.stable (lasting : Lasting settings client holds) :
    Script.Stable (Relies settings client) fun node => Sound settings node ∧ holds node := by
  intro before after known relied
  exact ⟨(relied known.1).1, lasting known.1 known.2 relied⟩

theorem sound_stable : Script.Stable (Relies settings client) (Sound settings) :=
  fun _ _ sound relied => (relied sound).1

theorem has_lasting (other : name ≠ "createLock") : Lasting settings client (Has (C := C) name) := by
  intro before after sound there relied
  obtain ⟨child, found⟩ := Option.isSome_iff_exists.mp there
  obtain ⟨later, kept, _⟩ := (relied sound).2.kept name other child found
  rw [Has, kept]
  rfl

/-- What a client has seen stays, unless it is the lock. -/
def Found (name : String) (node : ZooKeeperNode C) : Prop := name ≠ "createLock" → Has name node

theorem found_lasting : Lasting settings client (Found (C := C) name) :=
  fun _ _ sound there relied other => has_lasting other sound (there other) relied

theorem Lasting.and {more : ZooKeeperNode C → Prop} (lasting : Lasting settings client holds)
    (also : Lasting settings client more) : Lasting settings client fun node => holds node ∧ more node :=
  fun _ _ sound known relied => ⟨lasting sound known.1 relied, also sound known.2 relied⟩

/-- A safe script of a client, which fails where the nodes are sound. -/
abbrev Works {α : Type} (settings : C → NamespaceSettings) (client : C) (ends : α → ZooKeeperNode C → Prop)
    (script : ZooKeeperScript C α) (node : ZooKeeperNode C) : Prop :=
  script.Safe (Relies settings client) (Guarantees settings client)
    (fun value node => Sound settings node ∧ ends value node)
    (fun _ => Sound settings) node

theorem get_works (lasting : Lasting settings client holds) (sound : Sound settings node) (known : holds node) :
    Works settings client (fun found node => holds node ∧ (found = true → Found name node)) (get path name) node := by
  refine Script.safe_perform_of_stable lasting.stable ?_ (fun _ => sound_stable) ?_ ⟨sound, known⟩
  · intro found
    refine (lasting.and ?_).stable
    cases found with
    | true => exact fun _ _ sound there relied _ => found_lasting sound (there rfl) relied
    | false => exact fun _ _ _ _ _ absurd => nomatch absurd
  · intro later held
    split
    · exact ⟨guarantees_refl client later, held.1⟩
    · exact ⟨guarantees_refl client later, held.1, held.2, fun there _ => there⟩

theorem apply_works (lasting : Lasting settings client holds) (sound : Sound settings node) (known : holds node) :
    Works settings client (fun _ node => holds node ∧ Found name node) (apply path name) node := by
  refine (get_works lasting sound known).bind (relies_refl client) ?_
  intro found later held
  obtain ⟨sound, known, there⟩ := held
  cases found with
  | true => exact Script.safe_done fun last relied =>
      (lasting.and found_lasting).stable ⟨sound, known, there rfl⟩ relied
  | false => exact Script.safe_failed fun last relied => sound_stable sound relied

theorem awaitChild_works (lasting : Lasting settings client holds) (sound : Sound settings node) (known : holds node) :
    Works settings client (fun _ node => holds node ∧ Found name node) (awaitChild path name) node := by
  have asked : Works settings client (fun (_ : Bool) node => holds node)
      (Script.perform fun node : ZooKeeperNode C => (.ok (node.children name).isSome, node)) node := by
    refine Script.safe_perform_of_stable lasting.stable (fun _ => lasting.stable) (fun _ => sound_stable) ?_
      ⟨sound, known⟩
    exact fun later held => ⟨guarantees_refl client later, held⟩
  refine asked.bind (relies_refl client) fun found later held => ?_
  cases found with
  | true => exact apply_works lasting held.1 held.2
  | false =>
      have waited : Works settings client (fun (_ : Unit) node => holds node)
          (Script.await (fun node : ZooKeeperNode C => (node.children name).isSome) (.done ())
            (.failed (.thrown .timeout))) later := by
        intro last relied
        have still := lasting.stable held relied
        exact ⟨fun _ => Script.safe_done fun final more => lasting.stable still more,
          Script.safe_failed fun final more => sound_stable still.1 more⟩
      exact waited.bind (relies_refl client) fun _ last found => apply_works lasting found.1 found.2

/-- Data of a child that is only read. -/
theorem getData_works {known : Bytes → ZooKeeperNode C → Prop} (lasting : Lasting settings client holds)
    (reads : ∀ data, Lasting settings client (known data))
    (read : ∀ node child, Sound settings node → holds node → node.children name = some child → known child.data node)
    (sound : Sound settings node) (start : holds node) :
    Works settings client known (getData path name) node := by
  refine Script.safe_perform_of_stable lasting.stable (fun data => (reads data).stable) (fun _ => sound_stable) ?_
    ⟨sound, start⟩
  intro later held
  refine ⟨?_, ?_⟩
  · cases found : later.children name with
    | none => exact guarantees_refl client later
    | some child => exact guarantees_refl client later
  · cases found : later.children name with
    | none => exact held.1
    | some child => exact ⟨held.1, read later child held.1 held.2 found⟩

/-- The lock comes and goes without changing anything else. -/
theorem lock_guaranteed (child : Option (Znode C)) :
    Guarantees settings client node (node.withChild "createLock" child) := by
  intro sound
  have present : node.present = true → (node.withChild "createLock" child).present = true := id
  obtain ⟨still, follows⟩ := lock_changed present (fun name other => withChild_other node child other) sound
  exact ⟨still, fun other _ => follows other⟩

theorem present_guaranteed : Guarantees settings client node { node with present := true } := by
  intro sound
  have present : node.present = true → ({ node with present := true } : ZooKeeperNode C).present = true := fun _ => rfl
  obtain ⟨still, follows⟩ := lock_changed present (fun _ _ => rfl) sound
  exact ⟨still, fun other _ => follows other⟩

theorem createLock_works (sound : Sound settings node) :
    Works settings client (fun _ _ => True) (createChild client path "createLock" [] .ephemeral) node := by
  refine Script.safe_perform_of_stable sound_stable (fun _ _ _ held relied => ⟨sound_stable held.1 relied, trivial⟩)
    (fun _ => sound_stable) ?_ sound
  intro later held
  split
  · exact ⟨guarantees_refl client later, held⟩
  · split
    · exact ⟨guarantees_refl client later, held⟩
    · have guaranteed := @lock_guaranteed C settings client later (some ⟨[], some client, client⟩)
      exact ⟨guaranteed, (guaranteed held).1, trivial⟩

/-- What the client has made stays as it is, and it is all there is. -/
theorem described_lasting {values : String → Option Bytes} (made : (values "keySchema").isSome = true) :
    Lasting settings client (Described client values) := by
  intro before after sound known relied
  have creates : Creates client before := by
    obtain ⟨data, given⟩ := Option.isSome_iff_exists.mp made
    exact ⟨⟨data, none, client⟩, by rw [known _ (by simp [described]), given]; rfl, rfl⟩
  exact fun name member => ((relied sound).2.owned creates name member).trans (known name member)

/-- A new node that is no part of the description. -/
theorem undescribed_guaranteed {child : Znode C} (absent : node.children name = none) (other : name ∉ described)
    (owner : child.ephemeralOwner = none) : Guarantees settings client node (node.withChild name (some child)) := by
  intro sound
  have same : ∀ one ∈ described, (node.withChild name (some child)).children one = node.children one :=
    fun one member => withChild_other node _ fun equal => other (equal ▸ member)
  have kept : ∀ one, one ≠ "createLock" → ∀ old, node.children one = some old →
      ∃ later, (node.withChild name (some child)).children one = some later ∧ later.creator = old.creator := by
    intro one _ old found
    refine ⟨old, ?_, rfl⟩
    rw [withChild_other, found]
    intro equal
    rw [← equal, found] at absent
    cases absent
  refine ⟨⟨fun one different old found => ?_, fun empty one member => ?_, fun made => ?_⟩, fun _ _ =>
    ⟨id, kept, fun _ one member => same one member⟩⟩
  · by_cases equal : one = name
    · subst equal
      rw [withChild_self] at found
      cases found
      exact owner
    · rw [withChild_other node _ equal] at found
      exact sound.persistent one different old found
  · rw [same one member]
    exact sound.ordered (same "keySchema" (by simp [described]) ▸ empty) one member
  · rw [Has, same "initialized" (by simp [described])] at made
    obtain ⟨creator, table, stores, values, partitions⟩ := sound.complete made
    refine ⟨creator, table, stores, fun one member => (same one member).trans (values one member), ?_⟩
    obtain ⟨old, found⟩ := Option.isSome_iff_exists.mp partitions
    obtain ⟨later, still, _⟩ := kept "partitions" (by decide) old found
    rw [Has, still]
    rfl

theorem Described.withChild {values : String → Option Bytes} (known : Described client values node) (name : String)
    (data : Bytes) : Described client (Function.update values name (some data))
      (node.withChild name (some ⟨data, none, client⟩)) := by
  intro one among
  by_cases equal : one = name
  · subst equal
    simp
  · rw [withChild_other node _ equal, Function.update_of_ne equal]
    exact known one among

/-- The client goes on with its description.  The last node comes when all others are there. -/
theorem described_guaranteed {values : String → Option Bytes} {data : Bytes} (member : name ∈ described)
    (fresh : name = "keySchema" ∧ node.children "keySchema" = none ∨ Creates client node)
    (known : Described client values node) (unfinished : values "initialized" = none)
    (last : name = "initialized" → CompletedBy settings client (node.withChild name (some ⟨data, none, client⟩))) :
    Guarantees settings client node (node.withChild name (some ⟨data, none, client⟩)) := by
  have lock : name ≠ "createLock" := by
    intro equal
    rw [equal] at member
    simp [described] at member
  have creators : ∀ one child, node.children one = some child → one ∈ described → child.creator = client := by
    intro one child found among
    rw [known one among] at found
    obtain ⟨value, _, rfl⟩ := Option.map_eq_some_iff.mp found
    rfl
  refine fun sound => ⟨⟨fun one different old found => ?_, fun empty one among => ?_, fun made => ?_⟩,
    fun other different => ⟨id, fun one _ old found => ?_, fun creates => ?_⟩⟩
  · by_cases equal : one = name
    · subst equal
      rw [withChild_self] at found
      cases found
      rfl
    · rw [withChild_other node _ equal] at found
      exact sound.persistent one different old found
  · -- the schema is there, or it is what the client makes
    exfalso
    rcases fresh with ⟨rfl, _⟩ | ⟨child, found, _⟩
    · rw [withChild_self] at empty
      cases empty
    · by_cases equal : name = "keySchema"
      · subst equal
        rw [withChild_self] at empty
        cases empty
      · rw [withChild_other node _ (Ne.symm equal), found] at empty
        cases empty
  · by_cases equal : name = "initialized"
    · exact ⟨client, last equal⟩
    · rw [Has, withChild_other node _ (Ne.symm equal), known _ (by simp [described]), unfinished] at made
      cases made
  · by_cases equal : one = name
    · subst equal
      exact ⟨_, withChild_self .., (creators one old found member).symm⟩
    · exact ⟨old, (withChild_other node _ equal).trans found, rfl⟩
  · -- nobody else has made the schema
    obtain ⟨child, found, same⟩ := creates
    exact absurd (same.symm.trans (creators _ child found (by simp [described]))) different

variable {values : String → Option Bytes} {data : Bytes}

/-- What the client has made so far. -/
def Progress (client : C) (values : String → Option Bytes) (node : ZooKeeperNode C) : Prop :=
  Described client values node ∧ Has "partitions" node

theorem progress_lasting (made : (values "keySchema").isSome = true) :
    Lasting settings client (Progress client values) :=
  (described_lasting made).and (has_lasting (by decide))

theorem getOrCreateNode_works (sound : Sound settings node) :
    Works settings client (fun _ _ => True) (getOrCreateNode path) node := by
  have stable : ∀ {α : Type} (_ : α), Script.Stable (Relies settings client) fun node => Sound settings node ∧ True :=
    fun _ _ _ held relied => ⟨sound_stable held.1 relied, trivial⟩
  have reads : ∀ {node : ZooKeeperNode C}, Sound settings node → Works settings client (fun (_ : Bool) _ => True)
      (Script.perform fun node : ZooKeeperNode C => (.ok node.present, node)) node := by
    intro node sound
    refine Script.safe_perform_of_stable sound_stable stable (fun _ => sound_stable) ?_ sound
    exact fun later held => ⟨guarantees_refl client later, held, trivial⟩
  have there : ∀ {node : ZooKeeperNode C}, Sound settings node →
      Works settings client (fun (_ : Unit) _ => True) (pure ()) node :=
    fun sound => Script.safe_done fun last relied => ⟨sound_stable sound relied, trivial⟩
  have fails : ∀ {node : ZooKeeperNode C} (failure : ZooKeeperFailure), Sound settings node →
      Works settings client (fun (_ : Unit) _ => True) (throw failure) node :=
    fun _ sound => Script.safe_failed fun last relied => sound_stable sound relied
  refine (reads sound).bind (relies_refl client) fun present later held => ?_
  cases present with
  | true => exact there held.1
  | false =>
      refine @Script.Safe.handle _ _ _ _ _ _ _ _ _ _ (fun _ => Sound settings) (relies_refl client) ?_ ?_
      · refine Script.safe_perform_of_stable sound_stable stable (fun _ => sound_stable) ?_ held.1
        intro last sound
        split
        · exact ⟨guarantees_refl client last, sound⟩
        · have guaranteed := @present_guaranteed C settings client last
          exact ⟨guaranteed, (guaranteed sound).1, trivial⟩
      · intro failure last sound
        cases failure with
        | nodeExists taken =>
            refine (reads sound).bind (relies_refl client) fun present final held => ?_
            cases present with
            | true => exact there held.1
            | false => exact fails _ held.1
        | noNode missing => exact fails _ sound
        | thrown failure => exact fails _ sound

theorem getOrCreate_partitions_works (sound : Sound settings node) :
    Works settings client (fun _ => Has "partitions") (getOrCreate client path "partitions") node := by
  have anything : Lasting settings client (fun _ : ZooKeeperNode C => True) := fun _ _ _ _ _ => trivial
  have there : ∀ {node : ZooKeeperNode C}, Sound settings node → Has "partitions" node →
      Works settings client (fun (_ : Unit) => Has "partitions") (pure ()) node :=
    fun sound there => Script.safe_done fun last relied =>
      ⟨sound_stable sound relied, has_lasting (by decide) sound there relied⟩
  have fails : ∀ {node : ZooKeeperNode C} (failure : ZooKeeperFailure), Sound settings node →
      Works settings client (fun (_ : Unit) => Has "partitions") (throw failure) node :=
    fun _ sound => Script.safe_failed fun last relied => sound_stable sound relied
  refine (get_works anything sound trivial).bind (relies_refl client) fun found later held => ?_
  cases found with
  | true => exact there held.1 (held.2.2 rfl (by decide))
  | false =>
      refine @Script.Safe.handle _ _ _ _ _ _ _ _ _ _ (fun _ => Sound settings) (relies_refl client) ?_ ?_
      · refine Script.safe_perform_of_stable sound_stable (fun _ => (has_lasting (by decide)).stable)
          (fun _ => sound_stable) ?_ held.1
        intro last sound
        split
        · exact ⟨guarantees_refl client last, sound⟩
        · split
          · exact ⟨guarantees_refl client last, sound⟩
          · rename_i empty
            have guaranteed := @undescribed_guaranteed C settings client last "partitions" ⟨[], none, client⟩
              (Option.not_isSome_iff_eq_none.mp empty) (by decide) rfl
            exact ⟨guaranteed, (guaranteed sound).1, by simp [Has]⟩
      · intro failure last sound
        cases failure with
        | nodeExists taken =>
            refine (get_works anything sound trivial).bind (relies_refl client) fun found final held => ?_
            cases found with
            | true => exact there held.1 (held.2.2 rfl (by decide))
            | false => exact fails _ held.1
        | noNode missing => exact fails _ sound
        | thrown failure => exact fails _ sound

theorem createSchema_works (sound : Sound settings node) (partitions : Has "partitions" node) :
    Works settings client (fun _ => Progress client (Function.update (fun _ => none) "keySchema" (some data)))
      (createChild client path "keySchema" data .persistent) node := by
  refine Script.safe_perform_of_stable (has_lasting (by decide)).stable
    (fun _ => (progress_lasting (by simp)).stable) (fun _ => sound_stable) ?_ ⟨sound, partitions⟩
  intro later held
  split
  · exact ⟨guarantees_refl client later, held.1⟩
  · split
    · exact ⟨guarantees_refl client later, held.1⟩
    · rename_i empty
      have absent := Option.not_isSome_iff_eq_none.mp empty
      have none : Described client (fun _ => none) later := held.1.ordered absent
      have guaranteed := @described_guaranteed C settings client later "keySchema" (fun _ => .none) data
        (by simp [described]) (.inl ⟨rfl, absent⟩) none rfl (fun equal => by simp at equal)
      refine ⟨guaranteed, (guaranteed held.1).1, none.withChild "keySchema" data, ?_⟩
      rw [Has, withChild_other later _ (by decide)]
      exact held.2

/-- A client that made the schema makes the other nodes without being in anybody's way. -/
theorem createChild_works (made : (values "keySchema").isSome = true) (unfinished : values "initialized" = none)
    (member : name ∈ described) (absent : values name = none)
    (last : name = "initialized" → ∀ node : ZooKeeperNode C,
      Progress client (Function.update values name (some data)) node → CompletedBy settings client node)
    (sound : Sound settings node) (progress : Progress client values node) :
    (createChild client path name data .persistent).Safe (Relies settings client) (Guarantees settings client)
      (fun _ node => Sound settings node ∧ Progress client (Function.update values name (some data)) node)
      (fun failure node => Sound settings node ∧ ∀ taken, failure ≠ .nodeExists taken) node := by
  have still : (Function.update values name (some data) "keySchema").isSome = true := by
    rw [Function.update_apply]
    split
    · rfl
    · exact made
  refine Script.safe_perform_of_stable (progress_lasting made).stable (fun _ => (progress_lasting still).stable)
    (fun _ _ _ known relied => ⟨sound_stable known.1 relied, known.2⟩) ?_ ⟨sound, progress⟩
  intro later held
  obtain ⟨sound, known, partitions⟩ := held
  have empty : later.children name = none := by rw [known name member, absent]; rfl
  split
  · exact ⟨guarantees_refl client later, sound, fun _ => by simp⟩
  · rw [if_neg (by simp [empty])]
    have creates : Creates client later := by
      obtain ⟨schema, given⟩ := Option.isSome_iff_exists.mp made
      exact ⟨⟨schema, none, client⟩, by rw [known _ (by simp [described]), given]; rfl, rfl⟩
    have there : Has "partitions" (later.withChild name (some ⟨data, none, client⟩)) := by
      rw [Has, withChild_other later _ (fun equal => by rw [← equal] at member; simp [described] at member)]
      exact partitions
    have changed := known.withChild name data
    have guaranteed := @described_guaranteed C settings client later name values data member (.inr creates)
      known unfinished fun equal => last equal _ ⟨changed, there⟩
    exact ⟨guaranteed, (guaranteed sound).1, changed, there⟩

theorem progress_creates (made : (values "keySchema").isSome = true) (progress : Progress client values node) :
    Creates client node := by
  obtain ⟨schema, given⟩ := Option.isSome_iff_exists.mp made
  exact ⟨⟨schema, none, client⟩, by rw [progress.1 _ (by simp [described]), given]; rfl, rfl⟩

theorem update_made (made : (values "keySchema").isSome = true) (name : String) (data : Bytes) :
    (Function.update values name (some data) "keySchema").isSome = true := by
  rw [Function.update_apply]
  split
  · rfl
  · exact made

theorem setData_works {old : Bytes} (made : (values "keySchema").isSome = true)
    (unfinished : values "initialized" = none) (member : name ∈ described) (there : values name = some old)
    (sound : Sound settings node) (progress : Progress client values node) :
    Works settings client (fun _ => Progress client (Function.update values name (some data)))
      (setData path name data) node := by
  refine Script.safe_perform_of_stable (progress_lasting made).stable
    (fun _ => (progress_lasting (update_made made name data)).stable) (fun _ => sound_stable) ?_ ⟨sound, progress⟩
  intro later held
  obtain ⟨sound, known, partitions⟩ := held
  have found : later.children name = some ⟨old, none, client⟩ := by rw [known name member, there]; rfl
  simp only [found]
  have guaranteed := @described_guaranteed C settings client later name values data member
    (.inr (progress_creates made ⟨known, partitions⟩)) known unfinished fun equal => by
      rw [equal, unfinished] at there
      cases there
  refine ⟨guaranteed, (guaranteed sound).1, known.withChild name data, ?_⟩
  rw [Has, withChild_other later _ (fun equal => by rw [← equal] at member; simp [described] at member)]
  exact partitions

theorem putMetadata_works (made : (values "keySchema").isSome = true) (unfinished : values "initialized" = none)
    (member : name ∈ described) (absent : values name = none) (before : name ≠ "initialized")
    (sound : Sound settings node) (progress : Progress client values node) :
    Works settings client (fun _ => Progress client (Function.update values name (some data)))
      (putMetadata client path name data) node := by
  have new : Works settings client (fun _ => Progress client (Function.update values name (some [])))
      (getOrCreate client path name) node := by
    refine (get_works (progress_lasting made) sound progress).bind (relies_refl client) fun found later held => ?_
    obtain ⟨sound, progress, there⟩ := held
    cases found with
    | true =>
        have present := there rfl fun equal => by rw [equal] at member; simp [described] at member
        rw [Has, progress.1 name member, absent] at present
        cases present
    | false =>
        refine (createChild_works made unfinished member absent
          (fun equal => absurd equal before) sound progress).handle
          (relies_refl client) ?_
        intro failure last known
        cases failure with
        | nodeExists taken => exact absurd rfl (known.2 taken)
        | noNode missing => exact Script.safe_failed fun final relied => sound_stable known.1 relied
        | thrown failure => exact Script.safe_failed fun final relied => sound_stable known.1 relied
  refine new.bind (relies_refl client) fun _ later held => ?_
  have kept : Function.update values name (some []) "initialized" = none := by
    rw [Function.update_of_ne (Ne.symm before), unfinished]
  have set := @setData_works C settings client later path name (Function.update values name (some [])) data []
    (update_made made name []) kept member (Function.update_self ..) held.1 held.2
  rw [Function.update_idem] at set
  exact set

theorem createChild_works_sound (made : (values "keySchema").isSome = true) (unfinished : values "initialized" = none)
    (member : name ∈ described) (absent : values name = none)
    (last : name = "initialized" → ∀ node : ZooKeeperNode C,
      Progress client (Function.update values name (some data)) node → CompletedBy settings client node)
    (sound : Sound settings node) (progress : Progress client values node) :
    Works settings client (fun _ => Progress client (Function.update values name (some data)))
      (createChild client path name data .persistent) node :=
  (createChild_works made unfinished member absent last sound progress).mono (fun _ _ held => held)
    fun _ _ held => held.1

/-- The values once `initRoot` is done. -/
def schemaValues (given : NamespaceSettings) : String → Option Bytes :=
  Function.update (Function.update (Function.update (fun _ => none) "keySchema" (some given.keySchema))
    "valueSchema" (some given.valueSchema)) "valueClass" (some given.valueClass)

/-- With the other nodes, they are all that there is to say. -/
theorem schemaValues_rest (given : NamespaceSettings) (table : Bytes) : ∀ name ∈ described,
    Function.update (Function.update (Function.update (schemaValues given) "routingtable" (some table))
      "quorumProtConfig" (some given.quorumConfig)) "initialized" (some []) name = metadata given table name := by
  simp [schemaValues, described, metadata, Function.update_apply]

theorem completed_lasting : Lasting settings client (CompletedBy settings client) := by
  intro before after sound completed relied
  obtain ⟨table, stores, values, partitions⟩ := completed
  exact ⟨table, stores, progress_lasting (by simp [metadata]) sound ⟨values, partitions⟩ relied⟩

theorem deleteLock_works (sound : Sound settings node) (completed : CompletedBy settings client node) :
    Works settings client (fun _ => CompletedBy settings client) (deleteChild "createLock") node := by
  refine Script.safe_perform_of_stable completed_lasting.stable (fun _ => completed_lasting.stable)
    (fun _ => sound_stable) ?_ ⟨sound, completed⟩
  intro later held
  obtain ⟨sound, table, stores, values, partitions⟩ := held
  have guaranteed := @lock_guaranteed C settings client later none
  refine ⟨guaranteed, (guaranteed sound).1, table, stores, fun name member => ?_, ?_⟩
  · rw [withChild_other later _ (fun equal => by rw [equal] at member; simp [described] at member)]
    exact values name member
  · rw [Has, withChild_other later _ (by decide)]
    exact partitions

theorem initRoot_works (sound : Sound settings node) :
    Works settings client (fun _ => Progress client (schemaValues (settings client)))
      (initRoot client path (settings client)) node := by
  refine (getOrCreate_partitions_works sound).bind (relies_refl client) fun _ later held => ?_
  refine (createSchema_works held.1 held.2).bind (relies_refl client) fun _ later held => ?_
  refine (createChild_works_sound (by simp) (by simp) (by simp [described]) (by simp)
    (fun equal => by simp at equal) held.1 held.2).bind (relies_refl client) fun _ later held => ?_
  exact createChild_works_sound (by simp) (by simp) (by simp [described]) (by simp)
    (fun equal => by simp at equal) held.1 held.2

/-- A call to create a namespace that returns has made all of it. -/
theorem create_works (sound : Sound settings node) :
    Works settings client (fun _ => CompletedBy settings client) (create client path (settings client)) node := by
  refine (getOrCreateNode_works sound).bind (relies_refl client) fun _ later held => ?_
  refine (createLock_works held.1).bind (relies_refl client) fun _ later held => ?_
  refine (initRoot_works held.1).bind (relies_refl client) fun _ later held => ?_
  rw [storeRoutingTable]
  split
  · exact Script.safe_failed fun last relied => sound_stable held.1 relied
  · rename_i table stores
    refine (putMetadata_works (by simp [schemaValues]) (by simp [schemaValues]) (by simp [described])
      (by simp [schemaValues]) (by decide) held.1 held.2).bind (relies_refl client) fun _ later held => ?_
    refine (putMetadata_works (by simp [schemaValues]) (by simp [schemaValues]) (by simp [described])
      (by simp [schemaValues]) (by decide) held.1 held.2).bind (relies_refl client) fun _ later held => ?_
    have finished : ∀ node : ZooKeeperNode C, Progress client (Function.update (Function.update (Function.update
        (schemaValues (settings client)) "routingtable" (some table)) "quorumProtConfig"
        (some (settings client).quorumConfig)) "initialized" (some [])) node → CompletedBy settings client node :=
      fun node progress => ⟨table, stores, fun name member => by
        rw [progress.1 name member, schemaValues_rest _ table name member], progress.2⟩
    refine (createChild_works_sound (by simp [schemaValues]) (by simp [schemaValues]) (by simp [described])
      (by simp [schemaValues]) (fun _ => finished) held.1 held.2).bind (relies_refl client) fun _ later held => ?_
    refine (apply_works completed_lasting held.1 (finished later held.2)).bind (relies_refl client)
      fun _ later held => ?_
    exact deleteLock_works held.1 held.2.1

/-- A call to open a namespace that returns has read what its creator stored. -/
def Opened (settings : C → NamespaceSettings) (read : Bytes × Bytes) (node : ZooKeeperNode C) : Prop :=
  ∃ creator, CompletedBy settings creator node ∧ (settings creator).routingTable = .ok read.1 ∧
    (settings creator).quorumConfig = read.2

theorem CompletedBy.has (completed : CompletedBy settings client node) (member : name ∈ described) :
    Has name node := by
  obtain ⟨table, _, values, _⟩ := completed
  rw [Has, values name member]
  simp only [described, List.mem_cons, List.not_mem_nil, or_false] at member
  rcases member with rfl | rfl | rfl | rfl | rfl | rfl <;> rfl

theorem CompletedBy.creator (completed : CompletedBy settings client node) : Creates client node := by
  obtain ⟨table, _, values, _⟩ := completed
  exact ⟨_, values "keySchema" (by simp [described]), rfl⟩

theorem creates_unique {other : C} (creates : Creates client node) (also : Creates other node) : client = other := by
  obtain ⟨child, found, rfl⟩ := creates
  obtain ⟨same, again, rfl⟩ := also
  rw [found] at again
  cases again
  rfl

/-- A complete namespace stays as it is, whoever made it. -/
theorem completedBy_lasting (creator : C) : Lasting settings client (CompletedBy settings creator) := by
  intro before after sound completed relied
  obtain ⟨still, follows⟩ := relied sound
  have initialized : Has "initialized" after :=
    has_lasting (by decide) sound (completed.has (by simp [described])) relied
  obtain ⟨other, complete⟩ := still.complete initialized
  obtain ⟨child, found, same⟩ := completed.creator
  obtain ⟨later, kept, equal⟩ := follows.kept "keySchema" (by decide) child found
  rw [creates_unique ⟨later, kept, equal.trans same⟩ complete.creator]
  exact complete

theorem loadRoutingTable_works (sound : Sound settings node) (initialized : Has "initialized" node) :
    Works settings client (fun read node => ∃ creator, CompletedBy settings creator node ∧
      (settings creator).routingTable = .ok read) (loadRoutingTable path) node := by
  refine (apply_works (has_lasting (by decide)) sound initialized).bind (relies_refl client) fun _ later held => ?_
  refine getData_works (has_lasting (by decide)) (fun read => ?_) ?_ held.1 held.2.1
  · intro before after sound known relied
    obtain ⟨creator, completed, stores⟩ := known
    exact ⟨creator, completedBy_lasting creator sound completed relied, stores⟩
  · intro last child sound initialized found
    obtain ⟨creator, table, stores, values, partitions⟩ := sound.complete initialized
    refine ⟨creator, ⟨table, stores, values, partitions⟩, ?_⟩
    rw [values "routingtable" (by simp [described])] at found
    cases found
    exact stores

theorem loadQuorumConfig_works {read : Bytes} (sound : Sound settings node)
    (known : ∃ creator, CompletedBy settings creator node ∧ (settings creator).routingTable = .ok read) :
    Works settings client (fun config => Opened settings (read, config)) (loadQuorumConfig path) node := by
  have lasting : Lasting settings client (fun node => ∃ creator, CompletedBy settings creator node ∧
      (settings creator).routingTable = .ok read) := by
    intro before after sound known relied
    obtain ⟨creator, completed, stores⟩ := known
    exact ⟨creator, completedBy_lasting creator sound completed relied, stores⟩
  refine (get_works lasting sound known).bind (relies_refl client) fun found later held => ?_
  cases found with
  | false => exact Script.safe_failed fun last relied => sound_stable held.1 relied
  | true =>
      refine getData_works lasting (fun config => ?_) ?_ held.1 held.2.1
      · intro before after sound known relied
        obtain ⟨creator, completed, stores⟩ := known
        exact ⟨creator, completedBy_lasting creator sound completed relied, stores⟩
      · intro last child sound known found
        obtain ⟨creator, completed, stores⟩ := known
        refine ⟨creator, completed, stores, ?_⟩
        obtain ⟨table, _, values, _⟩ := completed
        rw [values "quorumProtConfig" (by simp [described])] at found
        cases found
        rfl

theorem openNamespace_works (sound : Sound settings node) :
    Works settings client (Opened settings) (openNamespace client path (settings client)) node := by
  have anything : Lasting settings client (fun _ : ZooKeeperNode C => True) := fun _ _ _ _ _ => trivial
  have awaits : ∀ {node : ZooKeeperNode C}, Sound settings node →
      Works settings client (fun _ => Has "initialized") (awaitChild path "initialized") node :=
    fun sound => (awaitChild_works anything sound trivial).mono
      (fun _ _ held => ⟨held.1, held.2.2 (by decide)⟩) fun _ _ sound => sound
  have loads : ∀ {node : ZooKeeperNode C}, Sound settings node → Has "initialized" node →
      Works settings client (Opened settings)
        (do
          let table ← loadRoutingTable path
          return (table, ← loadQuorumConfig path)) node := by
    intro node sound initialized
    refine (loadRoutingTable_works sound initialized).bind (relies_refl client) fun table later held => ?_
    refine (loadQuorumConfig_works held.1 held.2).bind (relies_refl client) fun config last held => ?_
    refine Script.safe_done fun final relied => ⟨sound_stable held.1 relied, ?_⟩
    obtain ⟨creator, completed, stores, same⟩ := held.2
    exact ⟨creator, completedBy_lasting creator held.1 completed relied, stores, same⟩
  refine (getOrCreateNode_works sound).bind (relies_refl client) fun _ later held => ?_
  refine (get_works anything held.1 trivial).bind (relies_refl client) fun found later held => ?_
  cases found with
  | true => exact (awaits held.1).bind (relies_refl client) fun _ last held => loads held.1 held.2
  | false =>
      have creates : Works settings client (fun _ => Has "initialized")
          (tryCatch (create client path (settings client)) fun
            | .nodeExists _ => awaitChild path "initialized"
            | failure => throw failure) later := by
        refine @Script.Safe.handle _ _ _ _ _ _ _ _ _ _ (fun _ => Sound settings) (relies_refl client) ?_ ?_
        · exact (create_works held.1).mono
            (fun _ _ held => ⟨held.1, held.2.has (by simp [described])⟩) fun _ _ sound => sound
        · intro failure last sound
          cases failure with
          | nodeExists taken => exact awaits sound
          | noNode missing => exact Script.safe_failed fun final relied => sound_stable sound relied
          | thrown failure => exact Script.safe_failed fun final relied => sound_stable sound relied
      exact creates.bind (relies_refl client) fun _ last held => loads held.1 held.2

inductive NamespaceCall where
  | create
  | openNamespace

def NamespaceCall.script (client : C) (path : String) (settings : NamespaceSettings) :
    NamespaceCall → ZooKeeperScript C (Option (Bytes × Bytes))
  | .create => do
      Protocol.create client path settings
      return none
  | .openNamespace => do
      return some (← Protocol.openNamespace client path settings)

/-- Clients that call for a namespace that nobody has made. -/
def newNamespace (path : String) (settings : C → NamespaceSettings) (calls : C → NamespaceCall) :
    Parties C ZooKeeperFailure (ZooKeeperNode C) (Option (Bytes × Bytes)) :=
  ⟨fun client => (calls client).script client path (settings client), ⟨false, fun _ => none⟩⟩

/-- What holds when a call returns. -/
def Returned (settings : C → NamespaceSettings) (client : C) : Option (Bytes × Bytes) → ZooKeeperNode C → Prop
  | none, node => CompletedBy settings client node
  | some read, node => Opened settings read node

theorem newNamespace_sound (settings : C → NamespaceSettings) :
    Sound settings (⟨false, fun _ => none⟩ : ZooKeeperNode C) where
  persistent _ _ _ found := nomatch found
  ordered _ _ _ := rfl
  complete made := nomatch made

theorem newNamespace_allSafe (path : String) (settings : C → NamespaceSettings) (calls : C → NamespaceCall) :
    Parties.AllSafe (Relies settings) (Guarantees settings)
      (fun client value node => Sound settings node ∧ Returned settings client value node) (fun _ _ => Sound settings)
      (newNamespace path settings calls) := by
  intro client
  have sound := newNamespace_sound settings
  change ((calls client).script client path (settings client)).Safe _ _ _ _ _
  cases calls client with
  | create =>
      refine (create_works sound).bind (relies_refl client) fun _ later held => ?_
      exact Script.safe_done fun last relied => completed_lasting.stable held relied
  | openNamespace =>
      refine (openNamespace_works sound).bind (relies_refl client) fun read later held => ?_
      refine Script.safe_done fun last relied => ⟨sound_stable held.1 relied, ?_⟩
      obtain ⟨creator, completed, stores⟩ := held.2
      exact ⟨creator, completedBy_lasting creator held.1 completed relied, stores⟩

section

variable [DecidableEq C] {calls : C → NamespaceCall} {turns more : List (Turn C C)}
  {middle final : Parties C ZooKeeperFailure (ZooKeeperNode C) (Option (Bytes × Bytes))}

theorem run_returned (ran : run (Parties.step ZooKeeperNode.expire) (newNamespace path settings calls) turns =
      some final)
    {value : Option (Bytes × Bytes)} (ended : final.scripts client = .done value) :
    Returned settings client value final.shared :=
  ((Parties.run_allSafe (compatible settings) (newNamespace_allSafe path settings calls) ran).ended
      (compatible settings)
    ended).2

theorem run_sound (ran : run (Parties.step ZooKeeperNode.expire) (newNamespace path settings calls) turns =
      some final) :
    Sound settings final.shared :=
  Parties.run_keeps (compatible settings) (newNamespace_allSafe path settings calls)
    (fun guaranteed sound => (guaranteed sound).1)
    (fun {session before} sound => (expire_relies session session before sound).1) ran
    (newNamespace_sound settings)

end

/-- Whatever clients create and open a namespace at a time, and whatever sessions expire:
an initialized namespace is all from one client, at most one call to create it returns, and
all calls to open it that return have read what that client stored. -/
theorem namespace_created_once [DecidableEq C] (path : String) (settings : C → NamespaceSettings)
    (calls : C → NamespaceCall) {turns : List (Turn C C)}
    {final : Parties C ZooKeeperFailure (ZooKeeperNode C) (Option (Bytes × Bytes))}
    (ran : run (Parties.step ZooKeeperNode.expire) (newNamespace path settings calls) turns = some final) :
    (Has "initialized" final.shared → ∃ creator, CompletedBy settings creator final.shared) ∧
      (∀ client, final.scripts client = .done none → CompletedBy settings client final.shared) ∧
      (∀ client other, final.scripts client = .done none → final.scripts other = .done none → client = other) ∧
      (∀ client read, final.scripts client = .done (some read) → Opened settings read final.shared) ∧
      ∀ client other read again, final.scripts client = .done (some read) → final.scripts other = .done (some again) →
        read = again := by
  have created : ∀ client, final.scripts client = .done none → CompletedBy settings client final.shared :=
    fun client ended => run_returned ran ended
  have opened : ∀ client read, final.scripts client = .done (some read) → Opened settings read final.shared :=
    fun client read ended => run_returned ran ended
  refine ⟨(run_sound ran).complete, created, ?_, opened, ?_⟩
  · exact fun client other ended also => creates_unique (created client ended).creator (created other also).creator
  · intro client other read again ended also
    obtain ⟨creator, completed, stores, config⟩ := opened client read ended
    obtain ⟨another, complete, store, same⟩ := opened other again also
    rw [creates_unique complete.creator completed.creator, stores] at store
    rw [creates_unique complete.creator completed.creator, config] at same
    exact Prod.ext (Except.ok.inj store) same

/-- The session of a client expires while it holds the lock, and another client creates the
namespace.  Both read what that one stored. -/
theorem namespace_created_once_overtaken :
    let steps (client : Bool) (count : Nat) : List (Turn Bool Bool) := List.replicate count (.party client false)
    ∃ final, run (Parties.step ZooKeeperNode.expire)
        (newNamespace "/ns" (fun client => ⟨[1], [2], [3], .ok [if client then 4 else 5], [6]⟩) fun _ => .openNamespace)
        (steps true 6 ++ [.outside true] ++ steps false 22 ++ steps true 9) = some final ∧
      final.scripts true = .done (some ([5], [6])) ∧ final.scripts false = .done (some ([5], [6])) ∧
      Opened (fun client => ⟨[1], [2], [3], .ok [if client then 4 else 5], [6]⟩) ([5], [6]) final.shared := by
  intro steps
  obtain ⟨final, ran, ended, also⟩ : ∃ final, run (Parties.step ZooKeeperNode.expire)
        (newNamespace "/ns" (fun client => ⟨[1], [2], [3], .ok [if client then 4 else 5], [6]⟩) fun _ => .openNamespace)
        (steps true 6 ++ [.outside true] ++ steps false 22 ++ steps true 9) = some final ∧
      final.scripts true = .done (some ([5], [6])) ∧ final.scripts false = .done (some ([5], [6])) :=
    ⟨_, rfl, rfl, rfl⟩
  exact ⟨final, ran, ended, also, (namespace_created_once "/ns" _ _ ran).2.2.2.1 true _ ended⟩

/-- A client that made the schema and takes no more steps leaves a namespace that nobody can
create or open. -/
theorem abandoned_namespace [DecidableEq C] (path : String) (settings : C → NamespaceSettings)
    (calls : C → NamespaceCall) {turns more : List (Turn C C)}
    {middle final : Parties C ZooKeeperFailure (ZooKeeperNode C) (Option (Bytes × Bytes))} {owner : C}
    (ran : run (Parties.step ZooKeeperNode.expire) (newNamespace path settings calls) turns = some middle)
    (creates : Creates owner middle.shared) (unfinished : ¬ Has "initialized" middle.shared)
    (again : run (Parties.step ZooKeeperNode.expire) middle more = some final)
    (quiet : ∀ turn ∈ more, ∀ late, turn ≠ .party owner late) :
    ¬ Has "initialized" final.shared ∧ ∀ client value, final.scripts client ≠ .done value := by
  have safe := Parties.run_allSafe (compatible settings) (newNamespace_allSafe path settings calls) ran
  have whole : run (Parties.step ZooKeeperNode.expire) (newNamespace path settings calls) (turns ++ more) =
      some final :=
    run_append.mpr ⟨middle, ran, again⟩
  have relied := Parties.run_others (compatible settings) safe again quiet
  have absent : ¬ Has "initialized" final.shared := by
    rw [Has, (relied (run_sound ran)).2.owned creates "initialized" (by simp [described])]
    exact unfinished
  refine ⟨absent, fun client value ended => absent ?_⟩
  have returned := run_returned whole ended
  cases value with
  | none => exact CompletedBy.has returned (by simp [described])
  | some read =>
      obtain ⟨creator, completed, _⟩ := returned
      exact completed.has (by simp [described])

/-- The session of the creator expires after it made the schema.  Another client takes the
lock, cannot make the schema and waits until it is late. -/
theorem abandoned_namespace_late :
    let steps (client : Bool) (count : Nat) : List (Turn Bool Bool) := List.replicate count (.party client false)
    ∃ middle final, run (Parties.step ZooKeeperNode.expire)
        (newNamespace "/ns" (fun client => ⟨[1], [2], [3], .ok [if client then 4 else 5], [6]⟩) fun _ => .openNamespace)
        (steps true 8) = some middle ∧
      run (Parties.step ZooKeeperNode.expire) middle ([.outside true] ++ steps false 7 ++ [.party false true]) =
        some final ∧
      final.scripts false = .failed (.thrown .timeout) ∧ ¬ Has "initialized" final.shared := by
  intro steps
  obtain ⟨middle, final, ran, again, creates, unfinished, ended⟩ : ∃ middle final,
      run (Parties.step ZooKeeperNode.expire)
        (newNamespace "/ns" (fun client => ⟨[1], [2], [3], .ok [if client then 4 else 5], [6]⟩) fun _ => .openNamespace)
        (steps true 8) = some middle ∧
      run (Parties.step ZooKeeperNode.expire) middle ([.outside true] ++ steps false 7 ++ [.party false true]) =
        some final ∧
      Creates true middle.shared ∧ (middle.shared.children "initialized").isSome = false ∧
      final.scripts false = .failed (.thrown .timeout) :=
    ⟨_, _, rfl, rfl, ⟨_, rfl, rfl⟩, rfl, rfl⟩
  refine ⟨middle, final, ran, again, ended, (abandoned_namespace "/ns" _ _ ran creates ?_ again ?_).1⟩
  · simp [Has, unfinished]
  · intro turn member late equal
    subst equal
    simp [steps] at member

end Scads.Protocol
