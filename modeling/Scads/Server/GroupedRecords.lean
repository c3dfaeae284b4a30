import Mathlib.Data.List.Nodup
import Scads.Server.GroupKeys

namespace Scads.Server

open Scads.Data

/-! # Groups of records

A partition groups its records by the key of their group, and a group is reported by
the fields of the record that came first in it.
-/

variable {σ K T W O : Type} {schema : List FieldType}

/-- What `applyAggregate` groups the records by. -/
def groupsOf (write : FieldType → FieldDatum → List UInt8) (groups : List (Fin schema.length)) :
    Option (Grouping (IndexedRecord schema O) String (List UInt8)) :=
  if groups.isEmpty then none else some ⟨getGroupKey groups, getGroupBytes write groups⟩

/-- The bytes of the fields of a group. -/
def fieldBytes (write : FieldType → FieldDatum → List UInt8) (types : List FieldType) (fields : List FieldDatum) :
    List UInt8 :=
  (List.zipWith write types fields).flatten

/-- The aggregation of the groups that have the same fields, each under its fields. -/
def Database.aggregateFields [LinearOrder K] (database : Database K W) (parse : W → IndexedRecord schema O)
    (write : FieldType → FieldDatum → List UInt8) (groups : List (Fin schema.length))
    (filters : List (IndexedRecord schema O → Bool))
    (aggregates : List (RemoteAggregate σ K (IndexedRecord schema O) T)) :
    List (GroupedAgg (List UInt8) T) :=
  let tally : Tally σ (List FieldDatum) Unit T :=
    ⟨aggregates.map RemoteAggregate.fresh, aggregates.map RemoteAggregate.init, ∅, ∅⟩
  let tally := tally.visitAll filters aggregates (some ⟨groupFields groups, fun _ => ()⟩) (database.aggregated parse)
  tally.groupMap.entries.map fun group => ⟨some (fieldBytes write (groups.map schema.get) group.1), group.2⟩

/-- The key tells the groups apart, and `applyAggregate` reports each of them by its own fields. -/
structure GroupsApart (O : Type) (groups : List (Fin schema.length)) : Prop where
  keys : ∀ first second : IndexedRecord schema O,
    getGroupKey groups first = getGroupKey groups second ↔ ∀ group ∈ groups, first.get group = second.get group
  reported : groups ≠ [] → ∀ {σ K T W : Type} [LinearOrder K] (database : Database K W)
    (parse : W → IndexedRecord schema O) (write : FieldType → FieldDatum → List UInt8)
    (filters : List (IndexedRecord schema O → Bool))
    (aggregates : List (RemoteAggregate σ K (IndexedRecord schema O) T)),
    (database.applyAggregate parse (groupsOf write groups) filters aggregates).Perm
      (database.aggregateFields parse write groups filters aggregates)

theorem getGroupKey_chars (groups : List (Fin schema.length)) (rec : IndexedRecord schema O) :
    (getGroupKey groups rec).toList = ((groupFields groups rec).map FieldDatum.chars).flatten := by
  have built : ∀ start : String,
      (groups.foldl (fun groupBuilder group => groupBuilder ++ (rec.get group).toText) start).toList =
        start.toList ++ ((groupFields groups rec).map FieldDatum.chars).flatten := by
    induction groups with
    | nil => exact fun start => (List.append_nil _).symm
    | cons group rest ih =>
        intro start
        rw [List.foldl_cons, ih, String.toList_append, List.append_assoc]
        rfl
  exact built ""

theorem groupFields_types (groups : List (Fin schema.length)) (rec : IndexedRecord schema O) :
    (groupFields groups rec).map FieldDatum.type = groups.map schema.get := by
  rw [groupFields, List.map_map]
  exact List.map_congr_left fun group _ => rec.typed group

theorem groupFields_same_iff (groups : List (Fin schema.length)) (first second : IndexedRecord schema O) :
    groupFields groups first = groupFields groups second ↔ ∀ group ∈ groups, first.get group = second.get group :=
  List.map_inj_left

theorem getGroupBytes_eq (write : FieldType → FieldDatum → List UInt8) (groups : List (Fin schema.length))
    (rec : IndexedRecord schema O) :
    getGroupBytes write groups rec = fieldBytes write (groups.map schema.get) (groupFields groups rec) := by
  have written : ∀ start : List UInt8,
      groups.foldl (fun out group => out ++ write (schema.get group) (rec.get group)) start =
        start ++ fieldBytes write (groups.map schema.get) (groupFields groups rec) := by
    induction groups with
    | nil => exact fun start => (List.append_nil _).symm
    | cons group rest ih =>
        intro start
        rw [List.foldl_cons, ih, List.append_assoc]
        rfl
  exact written []

/-- Of separated fields, the keys are the same exactly if the fields are. -/
theorem getGroupKey_same_iff {groups : List (Fin schema.length)} (separated : Separated (groups.map schema.get))
    (first second : IndexedRecord schema O) :
    getGroupKey groups first = getGroupKey groups second ↔ groupFields groups first = groupFields groups second := by
  constructor
  · intro same
    have chars := congrArg String.toList same
    rw [getGroupKey_chars, getGroupKey_chars] at chars
    exact fields_read ((groupFields_types groups first).trans (groupFields_types groups second).symm)
      (groupFields_types groups first ▸ separated) chars
  · intro same
    have chars := congrArg (fun fields => (fields.map FieldDatum.chars).flatten) same
    rw [← getGroupKey_chars, ← getGroupKey_chars] at chars
    exact String.toList_injective chars

/-- A tally by texts and one by fields, where the texts tell the same records apart as the fields. -/
structure SameGroups {V G H B : Type} [DecidableEq G] [DecidableEq H] (text : V → G) (fields : V → H) (bytes : H → B)
    (tally : Tally σ G B T) (exact : Tally σ H Unit T) : Prop where
  states : tally.states = exact.states
  groups : Alike text fields tally.groupMap exact.groupMap
  bytes : ∀ value, text value ∈ tally.groupMap →
    tally.groupBytesMap.lookup (text value) = some (bytes (fields value))

variable {V G H B : Type} [DecidableEq G] [DecidableEq H] {text : V → G} {fields : V → H}

/-- A record goes to the same group of both tallies. -/
theorem SameGroups.visit (apart : ∀ {one other}, text one = text other ↔ fields one = fields other) {bytes : H → B}
    {tally : Tally σ G B T} {exact : Tally σ H Unit T} (same : SameGroups text fields bytes tally exact)
    (filters : List (V → Bool)) (aggregates : List (RemoteAggregate σ K V T)) (key : K) (value : V) :
    SameGroups text fields bytes
        (tally.visit filters aggregates (some ⟨text, fun value => bytes (fields value)⟩) key value).1
        (exact.visit filters aggregates (some ⟨fields, fun _ => ()⟩) key value).1 ∧
      (tally.visit filters aggregates (some ⟨text, fun value => bytes (fields value)⟩) key value).2 =
        (exact.visit filters aggregates (some ⟨fields, fun _ => ()⟩) key value).2 := by
  rw [Tally.visit, Tally.visit]
  by_cases passed : filters.all (· value) = true
  · rw [if_pos passed, if_pos passed]
    have found := same.groups.lookup apart value
    cases entry : tally.groupMap.lookup (text value) with
    | some thing =>
        have known : text value ∈ tally.groupMap := AList.lookup_isSome.mp (by rw [entry]; rfl)
        simp only [entry, found.symm.trans entry, same.states]
        refine ⟨⟨rfl, same.groups.insert apart value _, ?_⟩, trivial⟩
        intro other member
        cases (AList.mem_insert _).mp member with
        | inl here => exact same.bytes other (here ▸ known)
        | inr elsewhere => exact same.bytes other elsewhere
    | none =>
        simp only [entry, found.symm.trans entry, same.states]
        refine ⟨⟨rfl, same.groups.insert apart value _, ?_⟩, trivial⟩
        intro other member
        by_cases here : text other = text value
        · rw [here, AList.lookup_insert, apart.mp here]
        · rw [AList.lookup_insert_ne here]
          exact same.bytes other (((AList.mem_insert _).mp member).resolve_left here)
  · rw [if_neg passed, if_neg passed]
    exact ⟨same, rfl⟩

theorem SameGroups.visitAll (apart : ∀ {one other}, text one = text other ↔ fields one = fields other) {bytes : H → B}
    {tally : Tally σ G B T} {exact : Tally σ H Unit T} (same : SameGroups text fields bytes tally exact)
    (filters : List (V → Bool)) (aggregates : List (RemoteAggregate σ K V T)) (records : List (K × V)) :
    SameGroups text fields bytes
      (tally.visitAll filters aggregates (some ⟨text, fun value => bytes (fields value)⟩) records)
      (exact.visitAll filters aggregates (some ⟨fields, fun _ => ()⟩) records) := by
  induction records generalizing tally exact with
  | nil => exact same
  | cons record rest ih =>
      obtain ⟨key, value⟩ := record
      obtain ⟨visited, stop⟩ := same.visit apart filters aggregates key value
      rw [Tally.visitAll, Tally.visitAll]
      dsimp only
      rw [stop]
      split
      · exact visited
      · exact ih visited

/-- Keys that tell the same records apart as their fields make the same groups. -/
theorem Database.applyAggregate_fields [LinearOrder K] {groups : List (Fin schema.length)} (grouped : groups ≠ [])
    (apart : ∀ {first second : IndexedRecord schema O},
      getGroupKey groups first = getGroupKey groups second ↔ groupFields groups first = groupFields groups second)
    (database : Database K W) (parse : W → IndexedRecord schema O) (write : FieldType → FieldDatum → List UInt8)
    (filters : List (IndexedRecord schema O → Bool))
    (aggregates : List (RemoteAggregate σ K (IndexedRecord schema O) T)) :
    database.applyAggregate parse (groupsOf write groups) filters aggregates =
      database.aggregateFields parse write groups filters aggregates := by
  have bytes : getGroupBytes write groups =
      fun rec : IndexedRecord schema O => fieldBytes write (groups.map schema.get) (groupFields groups rec) :=
    funext (getGroupBytes_eq write groups)
  have start :
    SameGroups (V := IndexedRecord schema O) (getGroupKey groups) (groupFields groups)
      (fieldBytes write (groups.map schema.get))
      (⟨aggregates.map RemoteAggregate.fresh, aggregates.map RemoteAggregate.init, ∅, ∅⟩ : Tally σ _ _ T)
      ⟨aggregates.map RemoteAggregate.fresh, aggregates.map RemoteAggregate.init, ∅, ∅⟩ :=
    ⟨rfl, alike_empty, fun _ member => absurd member (AList.notMem_empty _)⟩
  have done := start.visitAll apart filters aggregates (database.aggregated parse)
  rw [groupsOf, if_neg (by rwa [List.isEmpty_iff]), bytes]
  exact done.groups.map_entries (f := fun key => AList.lookup key _) (g := fun fields => some _) done.bytes GroupedAgg.mk

theorem groupsApart_of_separated {groups : List (Fin schema.length)} (separated : Separated (groups.map schema.get)) :
    GroupsApart O groups where
  keys first second := (getGroupKey_same_iff separated first second).trans (groupFields_same_iff groups first second)
  reported grouped _ _ _ _ _ database parse write filters aggregates := by
    rw [database.applyAggregate_fields grouped fun {first second} => getGroupKey_same_iff separated first second]

/-- A field of a type, of whose text nothing but a number is known. -/
def FieldType.numbered : FieldType → Nat → FieldDatum
  | .int, number => .int (Int32.ofNat number)
  | .long, number => .long (Int64.ofNat number)
  | .boolean, _ => .boolean false
  | .string, number => .string (toString number)

theorem FieldType.numbered_type (type : FieldType) (number : Nat) : (type.numbered number).type = type := by
  cases type <;> rfl

namespace IndexedRecord

def blank (schema : List FieldType) (O : Type) [Inhabited O] : IndexedRecord schema O where
  get pos := (schema.get pos).numbered 0
  typed _ := FieldType.numbered_type _ _
  others := default

def put (rec : IndexedRecord schema O) (pos : Fin schema.length) (datum : FieldDatum)
    (fits : datum.type = schema.get pos) : IndexedRecord schema O where
  get := Function.update rec.get pos datum
  others := rec.others
  typed other := by
    by_cases here : other = pos
    · rw [here, Function.update_self, fits]
    · rw [Function.update_of_ne here, rec.typed]

theorem put_here (rec : IndexedRecord schema O) (pos : Fin schema.length) (datum : FieldDatum)
    (fits : datum.type = schema.get pos) : (rec.put pos datum fits).get pos = datum :=
  Function.update_self _ _ _

/-- The fields of other positions are not changed. -/
theorem put_elsewhere (rec : IndexedRecord schema O) {pos : Fin schema.length} {datum : FieldDatum}
    (fits : datum.type = schema.get pos) {groups : List (Fin schema.length)} (absent : pos ∉ groups) :
    groupFields groups (rec.put pos datum fits) = groupFields groups rec :=
  List.map_congr_left fun _ member => Function.update_of_ne (ne_of_mem_of_not_mem member absent) _ _

end IndexedRecord

/-- Fields that differ at one of two positions do not have the same text around what is between these. -/
theorem put_two_apart {before between after : List (Fin schema.length)} {one other : Fin schema.length}
    (distinct : (before ++ one :: (between ++ other :: after)).Nodup)
    (apart : GroupsApart O (before ++ one :: (between ++ other :: after))) (base : IndexedRecord schema O)
    (first second third fourth : FieldDatum) (firstFits : first.type = schema.get one)
    (secondFits : second.type = schema.get other) (thirdFits : third.type = schema.get one)
    (fourthFits : fourth.type = schema.get other)
    (same : first.chars ++ (((groupFields between base).map FieldDatum.chars).flatten ++ second.chars) =
      third.chars ++ (((groupFields between base).map FieldDatum.chars).flatten ++ fourth.chars)) :
    first = third := by
  obtain ⟨absent, rest⟩ := List.nodup_cons.mp (List.nodup_middle.mp distinct)
  rw [← List.append_assoc] at rest
  have otherAbsent := (List.nodup_cons.mp (List.nodup_middle.mp rest)).1
  simp only [List.mem_append, List.mem_cons, not_or] at absent otherAbsent
  have written : ∀ {here there : FieldDatum} (hereFits : here.type = schema.get one)
      (thereFits : there.type = schema.get other),
      groupFields (before ++ one :: (between ++ other :: after)) ((base.put other there thereFits).put one here hereFits) =
        groupFields before base ++ here :: (groupFields between base ++ there :: groupFields after base) := by
    intro here there hereFits thereFits
    have put : ∀ {groups : List (Fin schema.length)}, one ∉ groups → other ∉ groups →
        groupFields groups ((base.put other there thereFits).put one here hereFits) = groupFields groups base := by
      intro groups oneAbsent otherAbsent
      rw [IndexedRecord.put_elsewhere _ hereFits oneAbsent, IndexedRecord.put_elsewhere _ thereFits otherAbsent]
    have there_kept : ((base.put other there thereFits).put one here hereFits).get other = there :=
      (Function.update_of_ne (Ne.symm absent.2.2.1) _ _).trans (base.put_here other there thereFits)
    have parts : ∀ rec : IndexedRecord schema O, groupFields (before ++ one :: (between ++ other :: after)) rec =
        groupFields before rec ++ rec.get one :: (groupFields between rec ++ rec.get other :: groupFields after rec) := by
      intro rec
      rw [groupFields, List.map_append, List.map_cons, List.map_append, List.map_cons]
      rfl
    rw [parts, put absent.1 otherAbsent.1.1, put absent.2.1 otherAbsent.1.2, put absent.2.2.2 otherAbsent.2,
      IndexedRecord.put_here, there_kept]
  have keys : getGroupKey (before ++ one :: (between ++ other :: after))
      ((base.put other second secondFits).put one first firstFits) =
      getGroupKey (before ++ one :: (between ++ other :: after))
        ((base.put other fourth fourthFits).put one third thirdFits) := by
    apply String.toList_injective
    rw [getGroupKey_chars, getGroupKey_chars, written firstFits secondFits, written thirdFits fourthFits]
    have middle := congrArg (((groupFields before base).map FieldDatum.chars).flatten ++ · ++
      ((groupFields after base).map FieldDatum.chars).flatten) same
    simpa only [List.map_append, List.map_cons, List.flatten_append, List.flatten_cons, List.append_assoc] using middle
  have agree := (apart.keys _ _).mp keys one (by simp)
  rwa [IndexedRecord.put_here, IndexedRecord.put_here] at agree

/-- The numbers 1 and 23 are written like 12 and 3. -/
theorem FieldType.numbered_meet {first second : FieldType} (one : first ≠ .boolean) (other : second ≠ .boolean) :
    (first.numbered 1).chars ++ (second.numbered 23).chars =
      (first.numbered 12).chars ++ (second.numbered 3).chars := by
  have meet : ∀ first ∈ [FieldType.int, .long, .string], ∀ second ∈ [FieldType.int, .long, .string],
    (first.numbered 1).chars ++ (second.numbered 23).chars =
      (first.numbered 12).chars ++ (second.numbered 3).chars := by decide
  have listed : ∀ {type : FieldType}, type ≠ .boolean → type ∈ [FieldType.int, .long, .string] := by
    intro type plain
    cases type <;> first | exact absurd rfl plain | decide
  exact meet first (listed one) second (listed other)

theorem neighbours_of_apart [Inhabited O] {groups : List (Fin schema.length)} (distinct : groups.Nodup)
    (apart : GroupsApart O groups) :
    (groups.map schema.get).IsChain fun first second => first = .boolean ∨ second = .boolean := by
  rw [List.isChain_iff_forall_rel_of_append_cons_cons]
  intro first second before after split
  obtain ⟨earlier, rest, rfl, -, tail⟩ := List.map_eq_append_iff.mp split
  obtain ⟨one, others, rfl, rfl, next⟩ := List.map_eq_cons_iff.mp tail
  obtain ⟨other, later, rfl, rfl, -⟩ := List.map_eq_cons_iff.mp next
  by_contra neither
  obtain ⟨plain, otherPlain⟩ := not_or.mp neither
  have equal := @put_two_apart O schema earlier [] later one other distinct apart (IndexedRecord.blank schema O)
    _ _ _ _ (FieldType.numbered_type _ 1) (FieldType.numbered_type _ 23) (FieldType.numbered_type _ 12)
    (FieldType.numbered_type _ 3) (FieldType.numbered_meet plain otherPlain)
  revert equal plain
  generalize schema.get one = type
  cases type <;> decide

theorem strings_of_apart [Inhabited O] {groups : List (Fin schema.length)} (distinct : groups.Nodup)
    (apart : GroupsApart O groups) :
    (groups.map schema.get).count .string ≤ 1 := by
  by_contra more
  have both : [FieldType.string, .string].Sublist (groups.map schema.get) :=
    List.replicate_sublist_iff.mpr (Nat.lt_of_not_le more)
  obtain ⟨positions, within, strings⟩ := List.sublist_map_iff.mp both
  obtain ⟨one, others, rfl, oneString, rest⟩ := List.map_eq_cons_iff.mp strings.symm
  obtain ⟨other, none, rfl, otherString, -⟩ := List.map_eq_cons_iff.mp rest
  obtain ⟨start, tail, rfl, first, later⟩ := List.cons_sublist_iff.mp within
  obtain ⟨before, between, rfl⟩ := List.append_of_mem first
  obtain ⟨betweenToo, after, rfl⟩ := List.append_of_mem (later.subset List.mem_cons_self)
  have parts : before ++ one :: between ++ (betweenToo ++ other :: after) =
      before ++ one :: ((between ++ betweenToo) ++ other :: after) := by
    simp only [List.append_assoc, List.cons_append]
  rw [parts] at distinct apart
  -- a text that can stand on either side of what is between the strings
  have turned : ∃ word : List Char, word ≠ [] ∧
      (((groupFields (between ++ betweenToo) (IndexedRecord.blank schema O)).map FieldDatum.chars).flatten ++ word) =
        word ++ ((groupFields (between ++ betweenToo) (IndexedRecord.blank schema O)).map FieldDatum.chars).flatten := by
    by_cases empty :
      ((groupFields (between ++ betweenToo) (IndexedRecord.blank schema O)).map FieldDatum.chars).flatten = []
    · exact ⟨['1'], List.cons_ne_nil _ _, by rw [empty]; rfl⟩
    · exact ⟨_, empty, rfl⟩
  obtain ⟨word, nonempty, turned⟩ := turned
  have chars : (FieldDatum.string "").chars = [] ∧ (FieldDatum.string (.ofList word)).chars = word :=
    ⟨rfl, String.toList_ofList⟩
  have equal := put_two_apart distinct apart (IndexedRecord.blank schema O) (.string "") (.string (.ofList word))
    (.string (.ofList word)) (.string "") oneString.symm otherString.symm oneString.symm otherString.symm
    (by rw [chars.1, chars.2, List.nil_append, turned, List.append_nil])
  exact nonempty (chars.2.symm.trans ((congrArg FieldDatum.chars equal).symm.trans chars.1))

/-- Grouping by its keys keeps the groups apart if one of every two neighbouring fields is boolean and there
is at most one string.  Unless a field is listed twice, this is needed. -/
theorem groups_apart_iff (O : Type) [Inhabited O] (groups : List (Fin schema.length)) :
    (Separated (groups.map schema.get) → GroupsApart O groups) ∧
      (groups.Nodup → (GroupsApart O groups ↔ Separated (groups.map schema.get))) := by
  refine ⟨groupsApart_of_separated, fun distinct => ⟨?_, groupsApart_of_separated⟩⟩
  intro apart
  exact ⟨neighbours_of_apart distinct apart, strings_of_apart distinct apart⟩

/-- An integer, a boolean between, and a text, beside a rational number. -/
theorem flagged_text_apart : @GroupsApart [.int, .boolean, .string] ℚ [0, 1, 2] :=
  (groups_apart_iff _ _).1 ⟨by decide, by decide⟩

def twoIntegers (first second : Int32) : IndexedRecord [.int, .int] ℚ where
  others := 1
  get pos := .int (if pos = 0 then first else second)
  typed pos := by
    have all : ∀ pos : Fin 2, FieldType.int = [FieldType.int, .int].get pos := by decide
    exact all pos

/-- The records of 1 and 23 and of 12 and 3 have the key 123, and they are counted together. -/
theorem integers_merged :
    let database : Database Nat (IndexedRecord [.int, .int] ℚ) :=
      ⟨[(1, twoIntegers 1 23), (2, twoIntegers 12 3)], by decide⟩
    getGroupKey [0, 1] (twoIntegers 1 23) = "123" ∧ getGroupKey [0, 1] (twoIntegers 12 3) = "123" ∧
      (database.applyAggregate id (groupsOf (fun _ _ => []) [0, 1]) [] [sumRemote ⟨2, fun rec _ => rec.others⟩]).map
        GroupedAgg.groupVals = [[2]] ∧
      ¬ @GroupsApart [.int, .int] ℚ [0, 1] := by
  have key : getGroupKey [0, 1] (twoIntegers 1 23) = "123" ∧ getGroupKey [0, 1] (twoIntegers 12 3) = "123" := by decide
  refine ⟨key.1, key.2, ?_, ?_⟩
  · decide +kernel
  · intro apart
    exact absurd ((apart.keys _ _).mp (key.1.trans key.2.symm) 0 List.mem_cons_self) (by decide)

end Scads.Server
