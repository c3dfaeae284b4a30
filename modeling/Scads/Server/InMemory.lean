import Mathlib.Algebra.Group.Int.Defs
import Mathlib.Algebra.Group.Nat.Defs
import Mathlib.Data.List.TakeDrop
import Scads.Server.IterateOverRange

namespace Scads.Server

open Scads.Data Scads.Comm

/-! # The in-memory storage manager

An in-memory partition keeps its records in a tree map, each split into its
metadata and the parsed record, and puts the two together again for a reply.
-/

/-- How the values of a namespace are split and put together.  The law is the one
of an Avro encoding: a parsed record is written as the bytes it was read from. -/
structure RecordFormat (M R V : Type) where
  extractMetadataFromValue : V → M
  parse : V → R
  toBytes : M × R → V
  toBytes_parse : ∀ value, toBytes (extractMetadataFromValue value, parse value) = value

def RecordFormat.split {M R V : Type} (format : RecordFormat M R V) (value : V) : M × R :=
  (format.extractMetadataFromValue value, format.parse value)

@[simp] theorem RecordFormat.toBytes_split {M R V : Type} (format : RecordFormat M R V) (value : V) :
    format.toBytes (format.split value) = value :=
  format.toBytes_parse value

/-- The tree map of an in-memory partition. -/
abbrev TreeMap (K W : Type) [LinearOrder K] := Database K W

namespace TreeMap

variable {K M R V W : Type} [LinearOrder K]

/-- The records of a tree map as a database stores them. -/
def content (format : RecordFormat M R V) (map : TreeMap K (M × R)) : Database K V where
  entries := map.entries.map fun entry => (entry.1, format.toBytes entry.2)
  sorted := List.pairwise_map.mpr map.sorted

theorem content_get (format : RecordFormat M R V) (map : TreeMap K (M × R)) (key : K) :
    (content format map).get key = (Database.get map key).map format.toBytes := by
  rw [Database.get, content, List.find?_map, Database.get, Option.map_map, Option.map_map]
  rfl

theorem content_insert (format : RecordFormat M R V) (map : TreeMap K (M × R)) (key : K) (value : V) :
    content format (map.insert key (format.split value)) = (content format map).insert key value := by
  simp only [content, Database.insert, List.map_append, List.map_cons, List.filter_map,
    RecordFormat.toBytes_split]
  rfl

theorem content_delete (format : RecordFormat M R V) (map : TreeMap K (M × R)) (key : K) :
    content format (map.delete key) = (content format map).delete key := by
  simp only [content, Database.delete, List.filter_map]
  rfl

/-- The view of a tree map between two keys, both included. -/
def view (map : TreeMap K W) : Option K → Option K → Except Failure (List (K × W))
  | none, none => .ok map.entries
  | none, some endKey => .ok (map.entries.filter fun entry => entry.1 ≤ endKey)
  | some startKey, none => .ok (map.entries.filter fun entry => startKey ≤ entry.1)
  | some startKey, some endKey =>
      if endKey < startKey then .error (.illegalArgument "fromKey > toKey")
      else .ok (map.entries.filter fun entry => startKey ≤ entry.1 && entry.1 ≤ endKey)

/-- The loop of `iterateVals`.  The counter `lim` is an `Int` and wraps. -/
def iterate : Int → Int → List (K × W) → List (K × W)
  | _, _, [] => []
  | lim, toSkip, entry :: rest =>
      if lim = 0 then []
      else if 0 < toSkip then iterate ((lim - 1).bmod (2 ^ 32)) (toSkip - 1) rest
      else entry :: iterate ((lim - 1).bmod (2 ^ 32)) toSkip rest

def iterateVals (map : TreeMap K W) (minKey maxKey : Option K) (limit offset : Option Int)
    (ascending : Bool) : Except Failure (List (K × W)) := do
  let eMap ← map.view minKey maxKey
  return iterate (limit.getD (-1)) (offset.getD 0) (if ascending then eMap else eMap.reverse)

def getRange (format : RecordFormat M R V) (map : TreeMap K (M × R)) (minKey maxKey : Option K)
    (limit offset : Option Int) (ascending : Bool) : Except Failure (List (Record K V)) := do
  return (← map.iterateVals minKey maxKey limit offset ascending).map fun entry =>
    ⟨entry.1, some (format.toBytes entry.2)⟩

def countRange (map : TreeMap K W) (minKey maxKey : Option K) : Except Failure Int := do
  return ((← map.iterateVals minKey maxKey none none true).length : Int).bmod (2 ^ 32)

end TreeMap

/-- The count of a range; the counter is an `Int` and wraps. -/
def Database.countRange {K V : Type} [LinearOrder K] (database : Database K V) (minKey maxKey : Option K) :
    Int :=
  ((database.iterateOverRange minKey maxKey none none true true).length : Int).bmod (2 ^ 32)

namespace TreeMap

variable {K M R V W : Type} [LinearOrder K] {map : TreeMap K W} {minKey maxKey : Option K}

omit [LinearOrder K] in
/-- The limit is counted from the start of the view, skipped entries included. -/
theorem iterate_eq (lim toSkip : Int) (low : -2 ^ 31 ≤ lim) (high : lim < 2 ^ 31)
    (values : List (K × W)) :
    iterate lim toSkip values = (values.take (lim % 2 ^ 32).toNat).drop toSkip.toNat := by
  induction values generalizing lim toSkip with
  | nil => simp [iterate]
  | cons entry rest ih =>
      by_cases done : lim = 0
      · simp [iterate, done]
      · have counted : (lim % 2 ^ 32).toNat = (((lim - 1).bmod (2 ^ 32)) % 2 ^ 32).toNat + 1 := by
          have wrapped : ((lim - 1).bmod (2 ^ 32)) % 2 ^ 32 = (lim - 1) % 2 ^ 32 := Int.bmod_emod
          rw [wrapped]
          omega
        have below : -2 ^ 31 ≤ (lim - 1).bmod (2 ^ 32) := by
          have := Int.le_bmod (x := lim - 1) (m := 2 ^ 32) (by decide)
          omega
        have above : (lim - 1).bmod (2 ^ 32) < 2 ^ 31 := by
          have := Int.bmod_lt (x := lim - 1) (m := 2 ^ 32) (by decide)
          omega
        rw [iterate, if_neg done, counted, List.take_succ_cons]
        split
        · rename_i skips
          have skipped : toSkip.toNat = (toSkip - 1).toNat + 1 := by omega
          rw [ih _ _ below above, skipped, List.drop_succ_cons]
        · rename_i kept
          have none : toSkip.toNat = 0 := by omega
          rw [ih _ _ below above, none, List.drop_zero, List.drop_zero]

/-- The lower end of a range is above its upper end. -/
def Inverted (minKey maxKey : Option K) : Prop :=
  ∃ low ∈ minKey, ∃ high ∈ maxKey, high < low

theorem view_inverted (map : TreeMap K W) (inverted : Inverted minKey maxKey) :
    map.view minKey maxKey = .error (.illegalArgument "fromKey > toKey") := by
  obtain ⟨low, lower, high, upper, below⟩ := inverted
  rw [Option.mem_def.mp lower, Option.mem_def.mp upper]
  exact if_pos below

theorem view_inRange (map : TreeMap K W) (regular : ¬ Inverted minKey maxKey) :
    map.view minKey maxKey =
      .ok (map.entries.filter fun entry => Database.InRange minKey maxKey entry.1) := by
  cases minKey with
  | none =>
      cases maxKey with
      | none => simp [view, Database.InRange]
      | some endKey => simp [view, Database.InRange]
  | some startKey =>
      cases maxKey with
      | none => simp [view, Database.InRange]
      | some endKey =>
          have ordered : ¬ endKey < startKey := by simpa [Inverted] using regular
          simp [view, Database.InRange, ordered]

theorem content_filter (format : RecordFormat M R V) (map : TreeMap K (M × R)) (holds : K → Bool) :
    ((content format map).entries.filter fun entry => holds entry.1) =
      (map.entries.filter fun entry => holds entry.1).map fun entry =>
        (entry.1, format.toBytes entry.2) := by
  rw [content, List.filter_map]
  rfl

/-- The records of a range in the direction of a read. -/
def inDirection (format : RecordFormat M R V) (map : TreeMap K (M × R)) (minKey maxKey : Option K)
    (ascending : Bool) : List (Record K V) :=
  (Database.directed ascending
    (map.entries.filter fun entry => Database.InRange minKey maxKey entry.1)).map fun entry =>
      ⟨entry.1, some (format.toBytes entry.2)⟩

theorem inDirection_length (format : RecordFormat M R V) (map : TreeMap K (M × R))
    (minKey maxKey : Option K) (ascending : Bool) :
    (inDirection format map minKey maxKey ascending).length =
      (map.entries.filter fun entry => Database.InRange minKey maxKey entry.1).length := by
  cases ascending <;> simp [inDirection, Database.directed]

theorem getRange_regular (format : RecordFormat M R V) (map : TreeMap K (M × R))
    (regular : ¬ Inverted minKey maxKey) (limit offset : Option Int32) (ascending : Bool) :
    map.getRange format minKey maxKey (limit.map Int32.toInt) (offset.map Int32.toInt) ascending =
      .ok (((inDirection format map minKey maxKey ascending).take
        (((limit.map Int32.toInt).getD (-1)) % 2 ^ 32).toNat).drop
          ((offset.map Int32.toInt).getD 0).toNat) := by
  have bounds : -2 ^ 31 ≤ (limit.map Int32.toInt).getD (-1) ∧ (limit.map Int32.toInt).getD (-1) < 2 ^ 31 := by
    cases limit with
    | none => decide
    | some limit => exact ⟨limit.le_toInt, limit.toInt_lt⟩
  rw [getRange, iterateVals, view_inRange map regular]
  simp only [ok_bind, pure_eq_ok]
  rw [iterate_eq _ _ bounds.1 bounds.2, inDirection, Database.directed, List.map_drop, List.map_take]

theorem content_getRange (format : RecordFormat M R V) (map : TreeMap K (M × R))
    (minKey maxKey : Option K) (limit offset : Option Int) (ascending : Bool) :
    (content format map).getRange minKey maxKey limit offset ascending =
      Database.limited limit
        ((inDirection format map minKey maxKey ascending).drop (offset.getD 0).toNat) := by
  have pieces : ∀ values : List (K × (M × R)),
      (Database.limited limit (((Database.directed ascending
          (values.map fun entry => (entry.1, format.toBytes entry.2))).drop (offset.getD 0).toNat))).map
            (fun entry => (⟨entry.1, some entry.2⟩ : Record K V)) =
        Database.limited limit (((Database.directed ascending values).map fun entry =>
          ⟨entry.1, some (format.toBytes entry.2)⟩).drop (offset.getD 0).toNat) := by
    intro values
    have mapped : Database.directed ascending (values.map fun entry => (entry.1, format.toBytes entry.2)) =
        (Database.directed ascending values).map fun entry => (entry.1, format.toBytes entry.2) := by
      cases ascending <;> simp [Database.directed]
    rw [mapped]
    cases limit <;> simp [Database.limited, ← List.map_drop, ← List.map_take]
  rw [Database.getRange_eq, content_filter, pieces]
  rfl

theorem content_countRange (format : RecordFormat M R V) (map : TreeMap K (M × R))
    (minKey maxKey : Option K) :
    (content format map).countRange minKey maxKey =
      ((inDirection format map minKey maxKey true).length : Int).bmod (2 ^ 32) := by
  have counted : ((content format map).iterateOverRange minKey maxKey none none true true).length =
      (inDirection format map minKey maxKey true).length := by
    have same := congrArg List.length (content_getRange format map minKey maxKey none none true)
    rw [Database.getRange, List.length_map] at same
    exact same
  unfold Database.countRange
  rw [counted]

theorem countRange_regular (format : RecordFormat M R V) (map : TreeMap K (M × R))
    (regular : ¬ Inverted minKey maxKey) :
    map.countRange minKey maxKey =
      .ok (((min (2 ^ 32 - 1) (inDirection format map minKey maxKey true).length : Nat) : Int).bmod
        (2 ^ 32)) := by
  rw [countRange, iterateVals, view_inRange map regular]
  simp only [ok_bind, pure_eq_ok, if_true]
  rw [iterate_eq _ _ (by decide) (by decide), inDirection_length]
  simp

/-- Where the two managers read alike: the entries that a limit counts are those
that it lets through, and the counters of an unlimited read do not wrap. -/
def ReadsAlike (limit offset : Option Int32) (count : Nat) : Prop :=
  let skipped := ((offset.map Int32.toInt).getD 0).toNat
  match limit with
  | none => count < 2 ^ 32 ∨ count ≤ skipped
  | some limit =>
      if 0 ≤ limit.toInt then skipped = 0 ∨ limit.toInt = 0 ∨ count ≤ limit.toInt ∨ count ≤ skipped
      else count ≤ skipped

/-- The counts of a range differ only if the counter of the in-memory loop runs out. -/
def CountsAlike (count : Nat) : Prop := count < 2 ^ 32 ∨ count % 2 ^ 32 = 2 ^ 32 - 1

theorem reads_alike_iff {α : Type} (values : List α) (limit offset : Option Int32) :
    (values.take (((limit.map Int32.toInt).getD (-1)) % 2 ^ 32).toNat).drop
        ((offset.map Int32.toInt).getD 0).toNat =
      Database.limited (limit.map Int32.toInt) (values.drop ((offset.map Int32.toInt).getD 0).toNat) ↔
      ReadsAlike limit offset values.length := by
  have skipped : ((offset.map Int32.toInt).getD 0).toNat < 2 ^ 31 := by
    cases offset with
    | none => decide
    | some offset =>
        have := offset.toInt_lt
        simp only [Option.map_some, Option.getD_some]
        omega
  rw [List.drop_take]
  cases limit with
  | none =>
      simp only [ReadsAlike, Option.map_none, Option.getD_none, Database.limited]
      rw [List.take_eq_self_iff, List.length_drop]
      omega
  | some limit =>
      have low := limit.le_toInt
      have high := limit.toInt_lt
      simp only [ReadsAlike, Option.map_some, Option.getD_some, Database.limited]
      rw [List.take_eq_take_iff, List.length_drop]
      generalize ((offset.map Int32.toInt).getD 0).toNat = skips at skipped ⊢
      split <;> omega

theorem counts_alike_iff (count : Nat) :
    ((min (2 ^ 32 - 1) count : Nat) : Int).bmod (2 ^ 32) = (count : Int).bmod (2 ^ 32) ↔
      CountsAlike count := by
  have same : ∀ first second : Int,
      first.bmod (2 ^ 32) = second.bmod (2 ^ 32) ↔
        first % ((2 ^ 32 : Nat) : Int) = second % ((2 ^ 32 : Nat) : Int) := by
    intro first second
    constructor
    · intro wrapped
      rw [← Int.bmod_emod, wrapped, Int.bmod_emod]
    · intro remainders
      rw [Int.bmod_eq_emod, Int.bmod_eq_emod, remainders]
  rw [same, CountsAlike]
  omega

/-- The two managers agree on the reads of a range exactly if its ends are in
order and neither the offset nor a wrapped counter uses up the limit. -/
theorem reads_agree_iff (format : RecordFormat M R V) (map : TreeMap K (M × R))
    (minKey maxKey : Option K) (limit offset : Option Int32) (ascending : Bool) :
    (map.getRange format minKey maxKey (limit.map Int32.toInt) (offset.map Int32.toInt) ascending =
        .ok ((content format map).getRange minKey maxKey (limit.map Int32.toInt)
          (offset.map Int32.toInt) ascending) ∧
      map.countRange minKey maxKey = .ok ((content format map).countRange minKey maxKey)) ↔
      ¬ Inverted minKey maxKey ∧
        ReadsAlike limit offset
          (map.entries.filter fun entry => Database.InRange minKey maxKey entry.1).length ∧
        CountsAlike (map.entries.filter fun entry => Database.InRange minKey maxKey entry.1).length := by
  by_cases inverted : Inverted minKey maxKey
  · simp [countRange, iterateVals, view_inverted map inverted, inverted]
  · rw [getRange_regular format map inverted, countRange_regular format map inverted, content_getRange,
      content_countRange, Except.ok.injEq, Except.ok.injEq, reads_alike_iff, counts_alike_iff,
      inDirection_length, inDirection_length]
    simp [inverted]

/-- Values that are their metadata and their record. -/
def pairFormat : RecordFormat Nat Nat (Nat × Nat) := ⟨Prod.fst, Prod.snd, id, fun _ => rfl⟩

def twoRecords : TreeMap Nat (Nat × Nat) := ⟨[(1, (7, 10)), (2, (7, 20))], by decide⟩

/-- One record is skipped and one is asked for, and the in-memory read is empty. -/
theorem reads_disagree_twoRecords :
    twoRecords.getRange pairFormat none none (some 1) (some 1) true ≠
      .ok ((content pairFormat twoRecords).getRange none none (some 1) (some 1) true) := by
  intro same
  have empty : twoRecords.getRange pairFormat none none (some 1) (some 1) true = .ok [] := rfl
  exact absurd (Except.ok.inj (empty.symm.trans same)) (by decide)

end TreeMap

end Scads.Server
