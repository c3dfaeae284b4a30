import Mathlib.Order.Lattice
import Mathlib.Data.List.Nodup

namespace Scads.Server

/-! # The database of a namespace

One storage server keeps the records of a namespace in one ordered map from keys
to values.  The key order is that of the comparator the database was opened with.
-/

structure Database (K V : Type) [LinearOrder K] where
  entries : List (K × V)
  sorted : entries.Pairwise fun earlier later => earlier.1 < later.1

namespace Database

variable {K V : Type} [LinearOrder K]

def empty : Database K V := ⟨[], .nil⟩

def get (database : Database K V) (key : K) : Option V :=
  (database.entries.find? fun entry => entry.1 = key).map Prod.snd

def delete (database : Database K V) (key : K) : Database K V where
  entries := database.entries.filter fun entry => entry.1 ≠ key
  sorted := database.sorted.filter _

def insert (database : Database K V) (key : K) (value : V) : Database K V where
  entries := database.entries.filter (fun entry => entry.1 < key) ++
    (key, value) :: database.entries.filter fun entry => key < entry.1
  sorted := by
    refine List.pairwise_append.mpr ⟨database.sorted.filter _,
      .cons ?_ (database.sorted.filter _), ?_⟩
    · intro entry member
      simpa using (List.mem_filter.mp member).2
    · intro earlier below later member
      have left : earlier.1 < key := by simpa using (List.mem_filter.mp below).2
      rcases List.mem_cons.mp member with rfl | member
      · exact left
      · exact left.trans (by simpa using (List.mem_filter.mp member).2)

/-- Keys identify entries. -/
theorem get_eq_some {database : Database K V} {key : K} {value : V} :
    database.get key = some value ↔ (key, value) ∈ database.entries := by
  constructor
  · intro found
    obtain ⟨entry, located, rfl⟩ := Option.map_eq_some_iff.mp found
    have same : entry.1 = key := by simpa using List.find?_some located
    simpa [← same] using List.mem_of_find?_eq_some located
  · intro member
    unfold get
    cases located : database.entries.find? (fun entry => entry.1 = key) with
    | none => simpa using List.find?_eq_none.mp located _ member
    | some entry =>
        have same : entry.1 = key := by simpa using List.find?_some located
        have unique : entry = (key, value) :=
          List.inj_on_of_nodup_map
            (List.pairwise_map.mpr (database.sorted.imp fun less => less.ne))
            (List.mem_of_find?_eq_some located) member same
        simp [unique]

theorem get_insert (database : Database K V) (key other : K) (value : V) :
    (database.insert key value).get other = if other = key then some value else database.get other := by
  apply Option.ext
  intro found
  rw [get_eq_some]
  simp only [insert, List.mem_append, List.mem_cons, List.mem_filter, decide_eq_true_eq, Prod.mk.injEq]
  split
  · rename_i same
    simp [same, eq_comm]
  · rename_i different
    rw [get_eq_some]
    constructor
    · intro found
      obtain ⟨member, _⟩ | ⟨same, _⟩ | ⟨member, _⟩ := found
      · exact member
      · exact absurd same different
      · exact member
    · intro member
      rcases lt_or_gt_of_ne different with below | above
      · exact .inl ⟨member, below⟩
      · exact .inr (.inr ⟨member, above⟩)

theorem get_delete (database : Database K V) (key other : K) :
    (database.delete key).get other = if other = key then none else database.get other := by
  apply Option.ext
  intro found
  rw [get_eq_some]
  simp only [delete, List.mem_filter, decide_eq_true_eq]
  split
  · rename_i same
    simp [same]
  · rename_i different
    rw [get_eq_some]
    simp [different]

/-- `BdbStorageManager.put`: a value is stored, its absence is a deletion. -/
def put (database : Database K V) (key : K) (value : Option V) : Database K V :=
  match value with
  | some value => database.insert key value
  | none => database.delete key

theorem get_put (database : Database K V) (key other : K) (value : Option V) :
    (database.put key value).get other = if other = key then value else database.get other := by
  cases value with
  | some value => exact get_insert database key other value
  | none => exact get_delete database key other

@[simp] theorem get_empty (key : K) : (empty : Database K V).get key = none := rfl

end Database

end Scads.Server
