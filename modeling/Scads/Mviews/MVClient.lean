import Mathlib.Data.Finset.Sort
import Mathlib.Data.String.Basic

namespace Scads.Mviews

/-! # A materialised view of tags

The client keeps, beside the tags of the items, the pairs of tags that an item has.
What it reads of an item's tags before it writes pairs is cut at a limit.
-/

structure Tag where
  word : String
  item : String
deriving DecidableEq, Repr

structure MTagPair where
  tag1 : String
  tag2 : String
  item : String
deriving DecidableEq, Repr

/-- The keys that the two namespaces hold.  The values of their pairs are empty. -/
structure Tables where
  tags : Finset Tag := ∅
  mTagPairs : Finset MTagPair := ∅
deriving DecidableEq

/-- The limit of a `TagClient` that is given none, as `MTagClient` is. -/
def limit : Nat := 20

namespace MTagClient

def wordsOf (tags : Finset Tag) (item : String) : Finset String :=
  (tags.filter fun tag => tag.item = item).image Tag.word

/-- The entries of the item in the index, in their order. -/
def selectItemQuery (tags : Finset Tag) (item : String) : List String :=
  ((wordsOf tags item).sort (· ≤ ·)).take limit

def selectItem (tags : Finset Tag) (item : String) : List String :=
  (selectItemQuery tags item).foldl (fun found word => word :: found) []

def putAll {α : Type} [DecidableEq α] (records : List α) (table : Finset α) : Finset α :=
  records.foldl (fun table record => insert record table) table

def deleteAll {α : Type} [DecidableEq α] (records : List α) (table : Finset α) : Finset α :=
  records.foldl (fun table record => table.erase record) table

/-- The pairs of a word with the words that were selected, in both orders. -/
def pairsWith (assoc : List String) (item word : String) : List MTagPair :=
  assoc.foldl (fun mpairs a => ⟨word, a, item⟩ :: ⟨a, word, item⟩ :: mpairs) []

def addTag (tables : Tables) (item word : String) : Tables :=
  let tags := insert ⟨word, item⟩ tables.tags
  let mpairs := pairsWith (selectItem tags item) item word
  { tags, mTagPairs := putAll mpairs tables.mTagPairs }

def removeTag (tables : Tables) (item word : String) : Tables :=
  let tags := tables.tags.erase ⟨word, item⟩
  let toDelete := ⟨word, word, item⟩ :: pairsWith (selectItem tags item) item word
  { tags, mTagPairs := deleteAll toDelete tables.mTagPairs }

/-- The words of each item that occurs, sorted. -/
def grouped (itemTagPairs : List (String × String)) : List (String × List String) :=
  (itemTagPairs.map Prod.fst).dedup.map fun item =>
    (item, ((itemTagPairs.filter fun t => t.1 = item).map Prod.snd).mergeSort fun x y => x ≤ y)

def initBulk (tables : Tables) (itemTagPairs : List (String × String)) : Tables :=
  let allTags := (grouped itemTagPairs).flatMap fun t => t.2.map fun word => Tag.mk word t.1
  let allTagPairs := (grouped itemTagPairs).flatMap fun t =>
    t.2.flatMap fun x => t.2.map fun y => MTagPair.mk x y t.1
  { tags := putAll allTags.reverse tables.tags, mTagPairs := putAll allTagPairs.reverse tables.mTagPairs }

inductive Call where
  | addTag (item word : String)
  | removeTag (item word : String)
  | initBulk (itemTagPairs : List (String × String))
deriving DecidableEq

def step (tables : Tables) : Call → Tables
  | .addTag item word => addTag tables item word
  | .removeTag item word => removeTag tables item word
  | .initBulk itemTagPairs => initBulk tables itemTagPairs

def run (calls : List Call) : Tables := calls.foldl step {}

/-- The view has the pairs of tags that the items have, and no others. -/
def Exact (tables : Tables) : Prop :=
  ∀ tag1 tag2 item, ⟨tag1, tag2, item⟩ ∈ tables.mTagPairs ↔
    ⟨tag1, item⟩ ∈ tables.tags ∧ ⟨tag2, item⟩ ∈ tables.tags

/-- What keeps the view exact over a call: the tags of the item fit into the limit where
they are read, and a bulk load has all or none of an item's tags that are stored. -/
def Fits (tables : Tables) : Call → Prop
  | .addTag item word => ⟨word, item⟩ ∈ tables.tags ∨ (wordsOf (insert ⟨word, item⟩ tables.tags) item).card ≤ limit
  | .removeTag item word => ⟨word, item⟩ ∉ tables.tags ∨ (wordsOf (tables.tags.erase ⟨word, item⟩) item).card ≤ limit
  | .initBulk itemTagPairs => ∀ item,
      (∀ word, (item, word) ∈ itemTagPairs → ⟨word, item⟩ ∈ tables.tags) ∨
        ∀ word, ⟨word, item⟩ ∈ tables.tags → (item, word) ∈ itemTagPairs

section

variable {tags : Finset Tag} {item word : String}

@[simp] theorem mem_wordsOf : word ∈ wordsOf tags item ↔ ⟨word, item⟩ ∈ tags := by
  simp only [wordsOf, Finset.mem_image, Finset.mem_filter]
  constructor
  · intro ⟨tag, found, same⟩
    obtain ⟨name, owner⟩ := tag
    obtain ⟨member, rfl⟩ := found
    subst same
    exact member
  · intro member
    exact ⟨⟨word, item⟩, ⟨member, rfl⟩, rfl⟩

theorem mem_selectItem : word ∈ selectItem tags item ↔ word ∈ selectItemQuery tags item := by
  have reversed : ∀ (words found : List String),
      words.foldl (fun found word => word :: found) found = words.reverse ++ found := by
    intro words
    induction words with
    | nil => exact fun _ => rfl
    | cons first rest ih => simp [ih]
  simp [selectItem, reversed]

theorem selectItem_recorded (selected : word ∈ selectItem tags item) : ⟨word, item⟩ ∈ tags := by
  have among := List.mem_of_mem_take (mem_selectItem.mp selected)
  exact mem_wordsOf.mp ((Finset.mem_sort _).mp among)

theorem selectItem_all (few : (wordsOf tags item).card ≤ limit) : word ∈ selectItem tags item ↔
    ⟨word, item⟩ ∈ tags := by
  rw [mem_selectItem, selectItemQuery, List.take_of_length_le (by rwa [Finset.length_sort]), Finset.mem_sort,
    mem_wordsOf]

/-- A word is missed when the item has too many. -/
theorem selectItem_misses (many : limit < (wordsOf tags item).card) :
    ∃ missed, ⟨missed, item⟩ ∈ tags ∧ missed ∉ selectItem tags item := by
  by_contra none
  simp only [not_exists, not_and, not_not] at none
  have within : wordsOf tags item ⊆ (selectItemQuery tags item).toFinset := by
    intro word member
    rw [List.mem_toFinset]
    exact mem_selectItem.mp (none word (mem_wordsOf.mp member))
  have most := (Finset.card_le_card within).trans (List.toFinset_card_le _)
  rw [selectItemQuery, List.length_take] at most
  omega

end

section

variable {α : Type} [DecidableEq α] {record : α}

theorem mem_putAll (records : List α) (table : Finset α) :
    record ∈ putAll records table ↔ record ∈ records ∨ record ∈ table := by
  induction records generalizing table with
  | nil => simp [putAll]
  | cons first rest ih =>
      have next : putAll (first :: rest) table = putAll rest (insert first table) := rfl
      rw [next, ih, Finset.mem_insert, List.mem_cons]
      tauto

theorem mem_deleteAll (records : List α) (table : Finset α) :
    record ∈ deleteAll records table ↔ record ∉ records ∧ record ∈ table := by
  induction records generalizing table with
  | nil => simp [deleteAll]
  | cons first rest ih =>
      have next : deleteAll (first :: rest) table = deleteAll rest (table.erase first) := rfl
      rw [next, ih, Finset.mem_erase, List.mem_cons]
      tauto

end

theorem mem_pairsWith {assoc : List String} {item word : String} {pair : MTagPair} :
    pair ∈ pairsWith assoc item word ↔ ∃ a ∈ assoc, pair = ⟨a, word, item⟩ ∨ pair = ⟨word, a, item⟩ := by
  have collected : ∀ (assoc : List String) (mpairs : List MTagPair),
      pair ∈ assoc.foldl (fun mpairs a => ⟨word, a, item⟩ :: ⟨a, word, item⟩ :: mpairs) mpairs ↔
        (∃ a ∈ assoc, pair = ⟨a, word, item⟩ ∨ pair = ⟨word, a, item⟩) ∨ pair ∈ mpairs := by
    intro assoc
    induction assoc with
    | nil => simp
    | cons first rest ih =>
        intro mpairs
        rw [List.foldl_cons, ih]
        simp only [List.mem_cons, exists_eq_or_imp]
        grind
  rw [pairsWith, collected]
  simp

theorem mem_grouped {itemTagPairs : List (String × String)} {item : String} {words : List String} :
    (item, words) ∈ grouped itemTagPairs ↔ (∃ word, (item, word) ∈ itemTagPairs) ∧
      words = ((itemTagPairs.filter fun t => t.1 = item).map Prod.snd).mergeSort fun x y => x ≤ y := by
  simp only [grouped, List.mem_map, List.mem_dedup, Prod.mk.injEq]
  constructor
  · intro found
    obtain ⟨owner, ⟨⟨other, word⟩, member, rfl⟩, rfl, rfl⟩ := found
    exact ⟨⟨word, member⟩, rfl⟩
  · intro found
    obtain ⟨⟨word, member⟩, rfl⟩ := found
    exact ⟨item, ⟨(item, word), member, rfl⟩, rfl, rfl⟩

theorem mem_group {itemTagPairs : List (String × String)} {item word : String} :
    word ∈ ((itemTagPairs.filter fun t => t.1 = item).map Prod.snd).mergeSort (fun x y => x ≤ y) ↔
      (item, word) ∈ itemTagPairs := by
  simp only [List.mem_mergeSort, List.mem_map, List.mem_filter, decide_eq_true_eq]
  constructor
  · intro found
    obtain ⟨⟨owner, given⟩, ⟨member, rfl⟩, rfl⟩ := found
    exact member
  · intro member
    exact ⟨(item, word), ⟨member, rfl⟩, rfl⟩

section

variable {tables : Tables} {item word tag1 tag2 owner : String} {itemTagPairs : List (String × String)}

theorem addTag_tags : ⟨tag1, owner⟩ ∈ (addTag tables item word).tags ↔
    (tag1 = word ∧ owner = item) ∨ ⟨tag1, owner⟩ ∈ tables.tags := by
  simp [addTag]

theorem addTag_pairs : ⟨tag1, tag2, owner⟩ ∈ (addTag tables item word).mTagPairs ↔
    (owner = item ∧ (tag2 = word ∧ tag1 ∈ selectItem (insert ⟨word, item⟩ tables.tags) item ∨
      tag1 = word ∧ tag2 ∈ selectItem (insert ⟨word, item⟩ tables.tags) item)) ∨
      ⟨tag1, tag2, owner⟩ ∈ tables.mTagPairs := by
  simp only [addTag, mem_putAll, mem_pairsWith, MTagPair.mk.injEq]
  grind

theorem removeTag_tags : ⟨tag1, owner⟩ ∈ (removeTag tables item word).tags ↔
    ¬ (tag1 = word ∧ owner = item) ∧ ⟨tag1, owner⟩ ∈ tables.tags := by
  simp [removeTag]

theorem removeTag_pairs : ⟨tag1, tag2, owner⟩ ∈ (removeTag tables item word).mTagPairs ↔
    ¬ (owner = item ∧ (tag1 = word ∧ tag2 = word ∨
      tag2 = word ∧ tag1 ∈ selectItem (tables.tags.erase ⟨word, item⟩) item ∨
      tag1 = word ∧ tag2 ∈ selectItem (tables.tags.erase ⟨word, item⟩) item)) ∧
      ⟨tag1, tag2, owner⟩ ∈ tables.mTagPairs := by
  simp only [removeTag, mem_deleteAll, List.mem_cons, mem_pairsWith, MTagPair.mk.injEq]
  grind

theorem initBulk_tags : ⟨tag1, owner⟩ ∈ (initBulk tables itemTagPairs).tags ↔
    (owner, tag1) ∈ itemTagPairs ∨ ⟨tag1, owner⟩ ∈ tables.tags := by
  simp only [initBulk, mem_putAll, List.mem_reverse, List.mem_flatMap, List.mem_map, Tag.mk.injEq]
  refine or_congr_left ?_
  constructor
  · intro found
    obtain ⟨⟨group, words⟩, member, found, among, rfl, rfl⟩ := found
    obtain ⟨-, rfl⟩ := mem_grouped.mp member
    exact mem_group.mp among
  · intro member
    exact ⟨_, mem_grouped.mpr ⟨⟨tag1, member⟩, rfl⟩, tag1, mem_group.mpr member, rfl, rfl⟩

theorem initBulk_pairs : ⟨tag1, tag2, owner⟩ ∈ (initBulk tables itemTagPairs).mTagPairs ↔
    ((owner, tag1) ∈ itemTagPairs ∧ (owner, tag2) ∈ itemTagPairs) ∨ ⟨tag1, tag2, owner⟩ ∈ tables.mTagPairs := by
  simp only [initBulk, mem_putAll, List.mem_reverse, List.mem_flatMap, List.mem_map, MTagPair.mk.injEq]
  refine or_congr_left ?_
  constructor
  · intro found
    obtain ⟨⟨group, words⟩, member, first, firstAmong, second, secondAmong, rfl, rfl, rfl⟩ := found
    obtain ⟨-, rfl⟩ := mem_grouped.mp member
    exact ⟨mem_group.mp firstAmong, mem_group.mp secondAmong⟩
  · intro ⟨one, two⟩
    exact ⟨_, mem_grouped.mpr ⟨⟨tag1, one⟩, rfl⟩, tag1, mem_group.mpr one, tag2, mem_group.mpr two, rfl, rfl, rfl⟩

theorem addTag_exact_iff (exact : Exact tables) :
    Exact (addTag tables item word) ↔ Fits tables (.addTag item word) := by
  rw [Fits]
  constructor
  · intro exactAfter
    by_contra unfit
    obtain ⟨new, many⟩ := not_or.mp unfit
    obtain ⟨missed, recorded, unselected⟩ := selectItem_misses (Nat.lt_of_not_le many)
    have needed := (exactAfter missed word item).mpr ⟨by simpa [addTag] using recorded, by simp [addTag]⟩
    cases addTag_pairs.mp needed with
    | inr old => exact new ((exact _ _ _).mp old).2
    | inl added =>
        cases added.2 with
        | inl first => exact unselected first.2
        | inr second =>
            rw [second.1] at unselected
            exact unselected second.2
  · intro fits tag1 tag2 owner
    rw [addTag_pairs, addTag_tags, addTag_tags, exact tag1 tag2 owner]
    cases fits with
    | inl old =>
        have recorded : ∀ {tag}, tag ∈ selectItem (insert ⟨word, item⟩ tables.tags) item →
          ⟨tag, item⟩ ∈ tables.tags := by
          intro tag selected
          have known := selectItem_recorded selected
          rwa [Finset.insert_eq_of_mem old] at known
        grind
    | inr few =>
        simp only [selectItem_all few, Finset.mem_insert, Tag.mk.injEq, and_true]
        grind

theorem removeTag_exact_iff (exact : Exact tables) :
    Exact (removeTag tables item word) ↔ Fits tables (.removeTag item word) := by
  rw [Fits]
  constructor
  · intro exactAfter
    by_contra unfit
    obtain ⟨old, many⟩ := not_or.mp unfit
    rw [not_not] at old
    obtain ⟨missed, recorded, unselected⟩ := selectItem_misses (Nat.lt_of_not_le many)
    obtain ⟨apart, known⟩ := Finset.mem_erase.mp recorded
    have kept : ⟨missed, word, item⟩ ∈ (removeTag tables item word).mTagPairs := by
      rw [removeTag_pairs, exact missed word item]
      grind
    have gone := ((exactAfter missed word item).mp kept).2
    simp [removeTag] at gone
  · intro fits tag1 tag2 owner
    rw [removeTag_pairs, removeTag_tags, removeTag_tags, exact tag1 tag2 owner]
    cases fits with
    | inl new =>
        have recorded : ∀ {tag}, tag ∈ selectItem (tables.tags.erase ⟨word, item⟩) item → ⟨tag, item⟩ ∈ tables.tags :=
          fun selected => Finset.mem_of_mem_erase (selectItem_recorded selected)
        grind
    | inr few =>
        simp only [selectItem_all few, Finset.mem_erase, ne_eq, Tag.mk.injEq, and_true]
        grind

theorem initBulk_exact_iff (exact : Exact tables) :
    Exact (initBulk tables itemTagPairs) ↔ Fits tables (.initBulk itemTagPairs) := by
  rw [Fits]
  constructor
  · intro exactAfter owner
    by_contra unfit
    simp only [not_or, not_forall] at unfit
    obtain ⟨⟨new, loaded, unrecorded⟩, old, recorded, unloaded⟩ := unfit
    have needed := (exactAfter new old owner).mpr ⟨initBulk_tags.mpr (.inl loaded), initBulk_tags.mpr (.inr recorded)⟩
    rw [initBulk_pairs, exact] at needed
    grind
  · intro fits tag1 tag2 owner
    rw [initBulk_pairs, initBulk_tags, initBulk_tags, exact tag1 tag2 owner]
    have whole := fits owner
    grind

theorem step_exact_iff (exact : Exact tables) (call : Call) : Exact (step tables call) ↔ Fits tables call := by
  cases call with
  | addTag item word => exact addTag_exact_iff exact
  | removeTag item word => exact removeTag_exact_iff exact
  | initBulk itemTagPairs => exact initBulk_exact_iff exact

end

theorem run_append (calls : List Call) (call : Call) : run (calls ++ [call]) = step (run calls) call := by
  rw [run, List.foldl_append]
  rfl

theorem exact_empty : Exact {} := by
  intro tag1 tag2 item
  simp

/-- The view is exact in every state of a run just when every call of it fits. -/
theorem view_exact_iff (calls : List Call) :
    (∀ earlier, earlier <+: calls → Exact (run earlier)) ↔
      ∀ earlier call, earlier ++ [call] <+: calls → Fits (run earlier) call := by
  constructor
  · intro exact earlier call reached
    have before := exact earlier ((List.prefix_append earlier [call]).trans reached)
    have after := exact _ reached
    rw [run_append] at after
    exact (step_exact_iff before call).mp after
  · intro fits earlier
    induction earlier using List.reverseRecOn with
    | nil => exact fun _ => exact_empty
    | append_singleton earlier call ih =>
        intro reached
        have before := ih ((List.prefix_append earlier [call]).trans reached)
        rw [run_append]
        exact (step_exact_iff before call).mpr (fits earlier call reached)

/-- A bulk load beside a tag that is stored already. -/
theorem bulk_load_misses_pair :
    ¬ Exact (run [.addTag "dusk" "red", .initBulk [("dusk", "dim")]]) := by
  intro exact
  have tags : ∀ word, ⟨word, "dusk"⟩ ∈ (run [.addTag "dusk" "red", .initBulk [("dusk", "dim")]]).tags ↔
      word = "dim" ∨ word = "red" := by
    intro word
    change _ ∈ (initBulk (addTag {} "dusk" "red") [("dusk", "dim")]).tags ↔ _
    rw [initBulk_tags, addTag_tags]
    simp
  have needed := (exact "dim" "red" "dusk").mpr ⟨(tags _).mpr (.inl rfl), (tags _).mpr (.inr rfl)⟩
  change _ ∈ (initBulk (addTag {} "dusk" "red") [("dusk", "dim")]).mTagPairs at needed
  rw [initBulk_pairs, addTag_pairs] at needed
  have selected : "dim" ∈ selectItem {⟨"red", "dusk"⟩} "dusk" := by simpa using needed
  simpa using selectItem_recorded selected

end MTagClient

end Scads.Mviews
