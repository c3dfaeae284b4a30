import Scads.Data.Words
import Scads.Server.CursorScans
import Scads.Server.InMemory

namespace Scads.Server

open Scads.Data Scads.Comm

/-! # Range loops

The loops of `BdbStorageManager.iterateOverRange` move a cursor until a move finds
no entry.  The counters are 32-bit integers.
-/

variable {K V : Type} [LinearOrder K]

namespace Cursor

omit [LinearOrder K]

def move (ascending : Bool) (cursor : Cursor K V) : Option (Cursor K V) :=
  if ascending then cursor.getNext else cursor.getPrev

/-- The entries from where the last move ended. -/
def remaining (ascending : Bool) : Option (Cursor K V) → List (K × V)
  | none => []
  | some cursor => cursor.ahead ascending

theorem remaining_move (ascending : Bool) (cursor : Cursor K V) :
    remaining ascending (cursor.move ascending) = (cursor.ahead ascending).tail := by
  obtain ⟨previous, current, next⟩ := cursor
  cases ascending with
  | true => cases next <;> rfl
  | false => cases previous <;> rfl

theorem remaining_move_lt (ascending : Bool) (cursor : Cursor K V) :
    (remaining ascending (cursor.move ascending)).length < (remaining ascending (some cursor)).length := by
  rw [remaining_move]
  simp [remaining, ahead]

/-- The loop over the offset. -/
def skip (ascending : Bool) (toSkip : Int32) (status : Option (Cursor K V)) : Option (Cursor K V) :=
  match status with
  | none => none
  | some cursor =>
      if 0 < toSkip then skip ascending (toSkip - 1) (cursor.move ascending) else some cursor
termination_by (remaining ascending status).length
decreasing_by exact remaining_move_lt ascending cursor

/-- The loop that hands the entries to `func`, which leaves the cursor where it is. -/
def visit {S : Type} (ascending : Bool) (limit : Option Int32) (continues : K → Bool) (func : S → K × V → S)
    (returnedCount : Int32) (status : Option (Cursor K V)) (state : S) : S :=
  match status with
  | none => state
  | some cursor =>
      if limit.all (returnedCount < ·) && continues cursor.current.1 then
        visit ascending limit continues func (returnedCount + 1) (cursor.move ascending)
          (func state cursor.current)
      else state
termination_by (remaining ascending status).length
decreasing_by exact remaining_move_lt ascending cursor

theorem toNat_sub_one {toSkip : Int32} (positive : 0 < toSkip) :
    toSkip.toInt.toNat = (toSkip - 1).toInt.toNat + 1 := by
  have above : 0 < toSkip.toInt := by simpa [Int32.lt_iff_toInt_lt] using positive
  have below := toSkip.toInt_lt
  rw [Int32.toInt_sub, Int32.toInt_one, Int.bmod_eq_of_le]
  · omega
  · omega
  · omega

theorem remaining_skip (ascending : Bool) (toSkip : Int32) (status : Option (Cursor K V)) :
    remaining ascending (skip ascending toSkip status) = (remaining ascending status).drop toSkip.toInt.toNat := by
  fun_induction skip ascending toSkip status with
  | case1 toSkip => simp [remaining]
  | case2 toSkip cursor positive ih =>
      rw [ih, remaining_move, toNat_sub_one positive]
      simp [remaining]
  | case3 toSkip cursor done =>
      have none : toSkip.toInt.toNat = 0 := by
        have atMost : toSkip.toInt ≤ 0 := by simpa [Int32.lt_iff_toInt_lt] using done
        omega
      rw [none, List.drop_zero]

theorem toInt_add_one {returnedCount limit : Int32} (below : returnedCount < limit) :
    (returnedCount + 1).toInt = returnedCount.toInt + 1 := by
  have less := Int32.lt_iff_toInt_lt.mp below
  have top := limit.toInt_lt
  have bottom := returnedCount.le_toInt
  rw [Int32.toInt_add, Int32.toInt_one, Int.bmod_eq_of_le]
  · omega
  · omega

/-- Under a limit the counter is the number of entries handed out; without one it may wrap. -/
theorem visit_eq {S : Type} (ascending : Bool) (limit : Option Int32) (continues : K → Bool)
    (func : S → K × V → S) (returnedCount : Int32) (status : Option (Cursor K V)) (state : S) {count : Int}
    (counted : ∀ most ∈ limit, count = returnedCount.toInt) :
    visit ascending limit continues func returnedCount status state =
      (Database.visit (limit.map Int32.toInt) continues count (remaining ascending status)).foldl func state := by
  fun_induction visit ascending limit continues func returnedCount status state generalizing count with
  | case1 => rfl
  | case2 returnedCount state cursor goes ih =>
      obtain ⟨room, further⟩ := Bool.and_eq_true_iff.mp goes
      have next : ∀ most ∈ limit, count + 1 = (returnedCount + 1).toInt := by
        intro most given
        rw [Option.mem_def.mp given] at room
        rw [toInt_add_one (of_decide_eq_true room), counted most given]
      have left : (limit.map Int32.toInt).all (count < ·) = true := by
        cases given : limit with
        | none => rfl
        | some most =>
            rw [given] at room
            rw [counted most (Option.mem_def.mpr given)]
            exact decide_eq_true (Int32.lt_iff_toInt_lt.mp (of_decide_eq_true room))
      rw [ih next, remaining_move, remaining, ahead, Database.visit, left, further]
      rfl
  | case3 returnedCount state cursor stops =>
      have ended : ((limit.map Int32.toInt).all (count < ·) && continues cursor.current.1) = false := by
        rw [Bool.not_eq_true] at stops
        cases given : limit with
        | none =>
            rw [given] at stops
            exact stops
        | some most =>
            rw [given] at stops
            rw [counted most (Option.mem_def.mpr given)]
            simpa [Int32.lt_iff_toInt_lt] using stops
      rw [remaining, ahead, Database.visit, ended]
      rfl

end Cursor

namespace BdbStorageManager

/-- The bound that the loop checks: the end of the range it runs to. -/
def continues (minKey maxKey : Option K) (ascending includeLast : Bool) (key : K) : Bool :=
  if ascending then (includeLast && maxKey.all (key ≤ ·)) || (!includeLast && maxKey.all (key < ·))
  else minKey.all (· ≤ key)

def iterateOverRange {S : Type} (database : Database K V) (minKey maxKey : Option K) (limit offset : Option Int32)
    (ascending includeLast : Bool) (func : S → K × V → S) (state : S) : S :=
  match Cursor.start database minKey maxKey ascending with
  | none => state
  | some cursor =>
      Cursor.visit ascending limit (continues minKey maxKey ascending includeLast) func 0
        (Cursor.skip ascending (offset.getD 0) (some cursor)) state

def getRange (database : Database K V) (minKey maxKey : Option K) (limit offset : Option Int32)
    (ascending : Bool) : List (Record K V) :=
  iterateOverRange database minKey maxKey limit offset ascending true
    (fun records entry => records ++ [⟨entry.1, some entry.2⟩]) []

def countRange (database : Database K V) (minKey maxKey : Option K) : Int32 :=
  iterateOverRange database minKey maxKey none none true true (fun count _ => count + 1) 0

theorem continues_eq (minKey maxKey : Option K) (ascending includeLast : Bool) :
    continues minKey maxKey ascending includeLast =
      if ascending then fun key => maxKey.all fun mk => if includeLast then key ≤ mk else key < mk
      else fun key => minKey.all (· ≤ key) := by
  funext key
  cases ascending with
  | true => cases includeLast <;> simp [continues]
  | false => simp [continues]

/-- The loops hand out the entries of the iteration in their order. -/
theorem iterateOverRange_eq {S : Type} (database : Database K V) (minKey maxKey : Option K)
    (limit offset : Option Int32) (ascending includeLast : Bool) (func : S → K × V → S) (state : S) :
    iterateOverRange database minKey maxKey limit offset ascending includeLast func state =
      (database.iterateOverRange minKey maxKey (limit.map Int32.toInt) (offset.map Int32.toInt) ascending
        includeLast).foldl func state := by
  have skipped : ((offset.map Int32.toInt).getD 0).toNat = (offset.getD 0).toInt.toNat := by
    cases offset <;> rfl
  unfold iterateOverRange Database.iterateOverRange
  cases Cursor.start database minKey maxKey ascending with
  | none => rfl
  | some cursor =>
      have counted : ∀ most ∈ limit, (0 : Int) = (0 : Int32).toInt := fun _ _ => rfl
      simp only
      rw [Cursor.visit_eq _ _ _ _ _ _ _ counted, Cursor.remaining_skip, continues_eq, skipped]
      rfl

theorem getRange_eq (database : Database K V) (minKey maxKey : Option K) (limit offset : Option Int32)
    (ascending : Bool) :
    getRange database minKey maxKey limit offset ascending =
      database.getRange minKey maxKey (limit.map Int32.toInt) (offset.map Int32.toInt) ascending := by
  rw [getRange, iterateOverRange_eq, Database.getRange]
  generalize database.iterateOverRange minKey maxKey _ _ ascending true = entries
  have appended : ∀ records : List (Record K V),
      entries.foldl (fun records entry => records ++ [⟨entry.1, some entry.2⟩]) records =
        records ++ entries.map fun entry => ⟨entry.1, some entry.2⟩ := by
    induction entries with
    | nil => simp
    | cons entry rest ih => simp [ih]
  exact appended []

omit [LinearOrder K] in
theorem toInt_foldl_add_one (entries : List (K × V)) (count : Int32) :
    (entries.foldl (fun count _ => count + 1) count).toInt = int32 (count.toInt + entries.length) := by
  unfold int32
  induction entries generalizing count with
  | nil => simp
  | cons entry rest ih =>
      have sum : (count.toInt + 1) + (rest.length : Int) = count.toInt + (entry :: rest).length := by
        rw [List.length_cons]
        omega
      rw [List.foldl_cons, ih, Int32.toInt_add, Int.bmod_add_bmod, Int32.toInt_one, sum]

theorem countRange_eq (database : Database K V) (minKey maxKey : Option K) :
    (countRange database minKey maxKey).toInt = database.countRange minKey maxKey := by
  rw [countRange, iterateOverRange_eq, toInt_foldl_add_one, Int32.toInt_zero, Int.zero_add]
  rfl

end BdbStorageManager

theorem Database.directed_recordsWithin (database : Database K V) (minKey maxKey : Option K) (ascending : Bool) :
    directed ascending (database.recordsWithin minKey maxKey) =
      (directed ascending (database.entries.filter fun entry => InRange minKey maxKey entry.1)).map
        fun entry => ⟨entry.1, some entry.2⟩ := by
  cases ascending with
  | true => rfl
  | false => exact List.map_reverse.symm

omit [LinearOrder K] in
theorem Database.limited_map {E R : Type} (limit : Option Int) (skipped : Nat) (values : List E) (shape : E → R) :
    limited limit ((values.map shape).drop skipped) = (limited limit (values.drop skipped)).map shape := by
  cases limit with
  | none => exact List.map_drop.symm
  | some count => rw [limited, limited, List.map_take, List.map_drop]

theorem Database.iterateOverRange_length (database : Database K V) (minKey maxKey : Option K) :
    (database.iterateOverRange minKey maxKey none none true true).length =
      (database.recordsWithin minKey maxKey).length := by
  have read : database.getRange minKey maxKey none none true = database.recordsWithin minKey maxKey :=
    database.getRange_eq minKey maxKey none none true
  rw [← read, Database.getRange, List.length_map]

theorem Database.countRange_recordsWithin (database : Database K V) (minKey maxKey : Option K) :
    database.countRange minKey maxKey = int32 (database.recordsWithin minKey maxKey).length := by
  unfold Database.countRange int32
  rw [Database.iterateOverRange_length]

namespace BdbStorageManager

/-- The records of the range in their direction, the first ones that the offset counts
dropped and the rest cut to the limit; and the number of records of the range. -/
structure ReadsRange (database : Database K V) (minKey maxKey : Option K) (limit offset : Option Int32)
    (ascending : Bool) : Prop where
  records : getRange database minKey maxKey limit offset ascending =
    Database.limited (limit.map Int32.toInt)
      ((Database.directed ascending (database.recordsWithin minKey maxKey)).drop (offset.getD 0).toInt.toNat)
  count : (countRange database minKey maxKey).toInt = (database.recordsWithin minKey maxKey).length

theorem getRange_reads (database : Database K V) (minKey maxKey : Option K) (limit offset : Option Int32)
    (ascending : Bool) :
    getRange database minKey maxKey limit offset ascending =
      Database.limited (limit.map Int32.toInt)
        ((Database.directed ascending (database.recordsWithin minKey maxKey)).drop
          (offset.getD 0).toInt.toNat) := by
  have skipped : ((offset.map Int32.toInt).getD 0).toNat = (offset.getD 0).toInt.toNat := by
    cases offset <;> rfl
  rw [getRange_eq, Database.getRange_eq, Database.directed_recordsWithin, Database.limited_map, skipped]

theorem countRange_reads_iff (database : Database K V) (minKey maxKey : Option K) :
    (countRange database minKey maxKey).toInt = (database.recordsWithin minKey maxKey).length ↔
      (database.recordsWithin minKey maxKey).length < 2 ^ 31 := by
  rw [countRange_eq, Database.countRange_recordsWithin]
  constructor
  · intro same
    have below := Int.bmod_lt (x := ((database.recordsWithin minKey maxKey).length : Int)) (m := 2 ^ 32) (by decide)
    rw [int32] at same
    omega
  · exact int32_natCast

/-- Range reads are exact; counts are as long as they fit. -/
theorem range_read_iff (database : Database K V) (minKey maxKey : Option K) (limit offset : Option Int32)
    (ascending : Bool) :
    ReadsRange database minKey maxKey limit offset ascending ↔
      (database.recordsWithin minKey maxKey).length < 2 ^ 31 := by
  rw [← countRange_reads_iff]
  constructor
  · exact ReadsRange.count
  · exact fun counted => ⟨getRange_reads database minKey maxKey limit offset ascending, counted⟩

/-- The records from 0 on. -/
def numbered (size : Nat) : Database Nat Unit where
  entries := (List.range size).map fun key => (key, ())
  sorted := List.pairwise_map.mpr List.pairwise_lt_range

theorem numbered_recordsWithin (size : Nat) : ((numbered size).recordsWithin none none).length = size := by
  rw [Database.recordsWithin, List.length_map]
  simp [numbered, Database.InRange]

/-- The count of more records than an `Int` can count is negative. -/
theorem count_wraps :
    (countRange (numbered (2 ^ 31)) none none).toInt = -2 ^ 31 ∧
      ¬ ∀ (limit offset : Option Int32) (ascending : Bool),
        ReadsRange (numbered (2 ^ 31)) none none limit offset ascending := by
  have wraps : (countRange (numbered (2 ^ 31)) none none).toInt = -2 ^ 31 := by
    rw [countRange_eq, Database.countRange_recordsWithin, numbered_recordsWithin]
    decide
  refine ⟨wraps, fun reads => ?_⟩
  have counted := (reads none none true).count
  rw [wraps, numbered_recordsWithin] at counted
  exact absurd counted (by decide)

end BdbStorageManager

end Scads.Server
