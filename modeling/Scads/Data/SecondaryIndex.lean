import Mathlib.Data.List.Nodup

namespace Scads.Data

/-! Secondary indexes of a keyed store.

A stored pair yields entries, and an index is exact if it contains the entries of
the stored pairs and no others.  Where no two keys yield a common entry, this is
a property of each key on its own.
-/

section

variable {Key Value Entry : Type} (yields : Key → Value → Entry → Prop)
  {base next : Key → Option Value} {contents changed : Entry → Bool} {key : Key}

def Exact (base : Key → Option Value) (contents : Entry → Bool) : Prop :=
  ∀ entry, contents entry ↔ ∃ key value, base key = some value ∧ yields key value entry

/-- An entry belongs to one key. -/
def Separate : Prop :=
  ∀ ⦃key other value otherValue entry⦄, yields key value entry → yields other otherValue entry →
    key = other

/-- The entries that a key may have are in the index exactly if its stored pair yields them. -/
def ExactAt (base : Key → Option Value) (contents : Entry → Bool) (key : Key) : Prop :=
  ∀ entry, (∃ value, yields key value entry) →
    (contents entry ↔ ∃ value, base key = some value ∧ yields key value entry)

/-- Every entry of the index is one that some pair could yield. -/
def Owned (contents : Entry → Bool) : Prop :=
  ∀ entry, contents entry → ∃ key value, yields key value entry

variable {yields}

theorem exact_iff_exactAt (separate : Separate yields) :
    Exact yields base contents ↔ Owned yields contents ∧ ∀ key, ExactAt yields base contents key := by
  constructor
  · intro exact
    refine ⟨fun entry present => ?_, fun key entry possible => ?_⟩
    · obtain ⟨key, value, _, yielded⟩ := (exact entry).mp present
      exact ⟨key, value, yielded⟩
    · rw [exact entry]
      constructor
      · intro found
        obtain ⟨other, value, stored, yielded⟩ := found
        obtain ⟨given, expected⟩ := possible
        cases separate expected yielded
        exact ⟨value, stored, yielded⟩
      · intro found
        obtain ⟨value, stored, yielded⟩ := found
        exact ⟨key, value, stored, yielded⟩
  · intro found entry
    obtain ⟨owned, each⟩ := found
    constructor
    · intro present
      obtain ⟨key, value, yielded⟩ := owned entry present
      obtain ⟨value, stored, yielded⟩ := (each key entry ⟨value, yielded⟩).mp present
      exact ⟨key, value, stored, yielded⟩
    · intro found
      obtain ⟨key, value, stored, yielded⟩ := found
      exact (each key entry ⟨value, yielded⟩).mpr ⟨value, stored, yielded⟩

/-- Contents that are described key by key are exact if each description is. -/
theorem exact_iff_described {holds : Key → Entry → Prop} (separate : Separate yields)
    (described : ∀ entry, contents entry ↔ ∃ key, holds key entry)
    (possible : ∀ key entry, holds key entry → ∃ value, yields key value entry) :
    Exact yields base contents ↔
      ∀ key entry, holds key entry ↔ ∃ value, base key = some value ∧ yields key value entry := by
  constructor
  · intro exact key entry
    constructor
    · intro held
      obtain ⟨given, expected⟩ := possible key entry held
      obtain ⟨other, value, stored, yielded⟩ := (exact entry).mp ((described entry).mpr ⟨key, held⟩)
      cases separate expected yielded
      exact ⟨value, stored, yielded⟩
    · intro found
      obtain ⟨value, stored, yielded⟩ := found
      obtain ⟨other, held⟩ := (described entry).mp ((exact entry).mpr ⟨key, value, stored, yielded⟩)
      obtain ⟨given, expected⟩ := possible other entry held
      cases separate expected yielded
      exact held
  · intro each entry
    rw [described entry]
    exact exists_congr fun key => each key entry

theorem ExactAt.congr (exact : ExactAt yields base contents key) (stored : next key = base key)
    (same : ∀ entry, (∃ value, yields key value entry) → changed entry = contents entry) :
    ExactAt yields next changed key := by
  intro entry possible
  rw [same entry possible, stored]
  exact exact entry possible

end

section

variable {α : Type} [BEq α] [LawfulBEq α]

theorem nodup_eraseDups (values : List α) : values.eraseDups.Nodup := by
  induction length : values.length using Nat.strongRecOn generalizing values with
  | _ count ih =>
      cases values with
      | nil => simp
      | cons first rest =>
          rw [List.eraseDups_cons, List.nodup_cons]
          have shorter : (rest.filter fun value => !value == first).length < count := by
            have filtered := List.length_filter_le (fun value => !value == first) rest
            rw [List.length_cons] at length
            omega
          refine ⟨fun member => ?_, ih _ shorter _ rfl⟩
          have kept := List.mem_filter.mp (List.mem_eraseDups.mp member)
          simp at kept

end

end Scads.Data
