import Scads.Data.Prefix
import Scads.Data.Spans
import Scads.Comm.Messages
import Scads.Server.Database

namespace Scads.Server

open Scads.Data Scads.Comm

/-! # Range iteration

`BdbStorageManager.iterateOverRange` positions a cursor at the end of the range
where the iteration starts, skips the offset and then visits entries until the
limit or the other end.
-/

/-- A cursor at an entry, with the entries `getPrev` and `getNext` move to. -/
structure Cursor (K V : Type) where
  previous : List (K × V)
  current : K × V
  next : List (K × V)

namespace Cursor

variable {K V : Type} [LinearOrder K]

def getFirst (database : Database K V) : Option (Cursor K V) :=
  match database.entries with
  | [] => none
  | entry :: rest => some ⟨[], entry, rest⟩

def getLast (database : Database K V) : Option (Cursor K V) :=
  match database.entries.reverse with
  | [] => none
  | entry :: rest => some ⟨rest, entry, []⟩

/-- The entry with the smallest key that is not below the given one. -/
def getSearchKeyRange (database : Database K V) (key : K) : Option (Cursor K V) :=
  match database.entries.dropWhile fun entry => entry.1 < key with
  | [] => none
  | entry :: rest => some ⟨(database.entries.takeWhile fun entry => entry.1 < key).reverse, entry, rest⟩

def getPrev (cursor : Cursor K V) : Option (Cursor K V) :=
  match cursor.previous with
  | [] => none
  | entry :: rest => some ⟨rest, entry, cursor.current :: cursor.next⟩

/-- The entries from the cursor on in the direction of the iteration. -/
def ahead (cursor : Cursor K V) (ascending : Bool) : List (K × V) :=
  cursor.current :: if ascending then cursor.next else cursor.previous

/-- Where the iteration starts. -/
def start (database : Database K V) (minKey maxKey : Option K) (ascending : Bool) :
    Option (Cursor K V) :=
  match ascending, minKey, maxKey with
  | true, none, _ => getFirst database
  | true, some startKey, _ => getSearchKeyRange database startKey
  | false, _, none => getLast database
  | false, _, some startKey =>
      match getSearchKeyRange database startKey with
      | none => getLast database
      | some cursor => if startKey < cursor.current.1 then cursor.getPrev else some cursor

end Cursor

namespace Database

variable {K V : Type} [LinearOrder K]

/-- The loop that hands entries out until the limit or the end of the range. -/
def visit (limit : Option Int) (continues : K → Bool) : Int → List (K × V) → List (K × V)
  | _, [] => []
  | returnedCount, entry :: rest =>
      if limit.all (returnedCount < ·) && continues entry.1 then
        entry :: visit limit continues (returnedCount + 1) rest
      else []

def iterateOverRange (database : Database K V) (minKey maxKey : Option K) (limit offset : Option Int)
    (ascending includeLast : Bool) : List (K × V) :=
  match Cursor.start database minKey maxKey ascending with
  | none => []
  | some cursor =>
      visit limit
        (if ascending then fun key => maxKey.all fun mk => if includeLast then key ≤ mk else key < mk
          else fun key => minKey.all (· ≤ key))
        0 ((cursor.ahead ascending).drop (offset.getD 0).toNat)

def getRange (database : Database K V) (minKey maxKey : Option K) (limit offset : Option Int)
    (ascending : Bool) : List (Record K V) :=
  (database.iterateOverRange minKey maxKey limit offset ascending true).map fun entry =>
    ⟨entry.1, some entry.2⟩

/-- Both ends belong to the range. -/
def InRange (minKey maxKey : Option K) (key : K) : Bool :=
  minKey.all (· ≤ key) && maxKey.all (key ≤ ·)

theorem inRange_of_lt {minKey maxKey : Option K} {key : K} (above : minKey.all (· ≤ key) = true)
    (below : maxKey.all (key < ·) = true) : InRange minKey maxKey key = true := by
  refine Bool.and_eq_true_iff.mpr ⟨above, ?_⟩
  cases maxKey with
  | none => rfl
  | some last =>
      have less : key < last := by simpa using below
      exact decide_eq_true less.le

/-- A list in the direction of an iteration. -/
def directed {α : Type} (ascending : Bool) (values : List α) : List α :=
  if ascending then values else values.reverse

/-- What is left of a list under a limit. -/
def limited {α : Type} (limit : Option Int) (values : List α) : List α :=
  match limit with
  | none => values
  | some count => values.take count.toNat

omit [LinearOrder K] in
theorem visit_eq (limit : Option Int) (continues : K → Bool) (returnedCount : Int)
    (values : List (K × V)) :
    visit limit continues returnedCount values =
      limited (limit.map (· - returnedCount)) (values.takeWhile fun entry => continues entry.1) := by
  induction values generalizing returnedCount with
  | nil => cases limit <;> simp [visit, limited]
  | cons entry rest ih =>
      cases limit with
      | none =>
          by_cases more : continues entry.1
          · simp [visit, more, ih, limited]
          · simp [visit, more, limited]
      | some count =>
          by_cases more : continues entry.1
          · by_cases room : returnedCount < count
            · have positive : (count - returnedCount).toNat = (count - (returnedCount + 1)).toNat + 1 := by
                omega
              simp [visit, more, room, ih, limited, positive]
            · have none : (count - returnedCount).toNat = 0 := by omega
              simp [visit, room, limited, none]
          · simp [visit, more, limited]

theorem prefixClosed_lt (database : Database K V) (key : K) :
    PrefixClosed (fun entry => decide (entry.1 < key)) database.entries := by
  refine database.sorted.imp fun less below => ?_
  simp only [decide_eq_true_eq] at below ⊢
  exact less.trans below

/-- An ascending iteration starts at the first entry of the range. -/
theorem ahead_ascending (database : Database K V) (minKey maxKey : Option K) :
    ((Cursor.start database minKey maxKey true).map fun cursor => cursor.ahead true).getD [] =
      database.entries.filter fun entry => minKey.all (· ≤ entry.1) := by
  cases minKey with
  | none =>
      cases same : database.entries <;> simp [Cursor.start, Cursor.getFirst, same, Cursor.ahead]
  | some key =>
      have dropped := (prefixClosed_lt database key).dropWhile
      simp only [Option.all_some, ← decide_not, not_lt] at dropped ⊢
      rw [← dropped]
      cases same : database.entries.dropWhile fun entry => decide (entry.1 < key) <;>
        simp [Cursor.start, Cursor.getSearchKeyRange, same, Cursor.ahead]

/-- A descending iteration starts at the last entry of the range. -/
theorem ahead_descending (database : Database K V) (minKey maxKey : Option K) :
    ((Cursor.start database minKey maxKey false).map fun cursor => cursor.ahead false).getD [] =
      (database.entries.filter fun entry => maxKey.all (entry.1 ≤ ·)).reverse := by
  have last : ((Cursor.getLast database).map fun cursor => cursor.ahead false).getD [] =
      database.entries.reverse := by
    unfold Cursor.getLast
    cases same : database.entries.reverse <;> simp [Cursor.ahead]
  cases maxKey with
  | none => simpa [Cursor.start] using last
  | some key =>
      have split : database.entries = (database.entries.takeWhile fun entry => entry.1 < key) ++
          database.entries.dropWhile fun entry => entry.1 < key := List.takeWhile_append_dropWhile.symm
      have below : (database.entries.takeWhile fun entry => decide (entry.1 < key)).filter
          (fun entry => entry.1 ≤ key) = database.entries.takeWhile fun entry => entry.1 < key := by
        refine List.filter_eq_self.mpr fun entry member => ?_
        have less := List.mem_takeWhile_imp member
        simp only [decide_eq_true_eq] at less ⊢
        exact less.le
      have sorted := database.sorted
      rw [split, List.pairwise_append] at sorted
      simp only [Cursor.start, Cursor.getSearchKeyRange, Option.all_some]
      cases found : database.entries.dropWhile fun entry => decide (entry.1 < key) with
      | nil =>
          rw [found, List.append_nil] at split
          rw [split, below, ← split]
          exact last
      | cons entry rest =>
          have reached : key ≤ entry.1 := by
            have stopped := List.head?_dropWhile_not (fun entry : K × V => decide (entry.1 < key))
              database.entries
            simpa [found] using stopped
          rw [found] at split sorted
          have beyond : ∀ later ∈ rest, key < later.1 := fun later member =>
            reached.trans_lt ((List.pairwise_cons.mp sorted.2.1).1 later member)
          have none : rest.filter (fun later => decide (later.1 ≤ key)) = [] :=
            List.filter_eq_nil_iff.mpr fun later member => by simpa using beyond later member
          have kept := congrArg (List.filter fun entry => decide (entry.1 ≤ key)) split
          rw [List.filter_append, below] at kept
          rw [kept]
          by_cases past : key < entry.1
          · rw [List.filter_cons_of_neg (by simpa using past), none, List.append_nil]
            simp only [past, if_true, Cursor.getPrev]
            cases (database.entries.takeWhile fun entry => decide (entry.1 < key)).reverse <;>
              simp [Cursor.ahead]
          · rw [List.filter_cons_of_pos (by simpa using past), none]
            simp [past, Cursor.ahead]

theorem iterateOverRange_visit (database : Database K V) (minKey maxKey : Option K)
    (limit offset : Option Int) (ascending includeLast : Bool) :
    database.iterateOverRange minKey maxKey limit offset ascending includeLast =
      visit limit
        (if ascending then fun key => maxKey.all fun mk => if includeLast then key ≤ mk else key < mk
          else fun key => minKey.all (· ≤ key)) 0
        ((((Cursor.start database minKey maxKey ascending).map fun cursor =>
          cursor.ahead ascending).getD []).drop (offset.getD 0).toNat) := by
  unfold iterateOverRange
  cases Cursor.start database minKey maxKey ascending with
  | none => simp [visit]
  | some cursor => rfl

/-- The iteration that leaves the upper end out visits a half-open span. -/
theorem iterateOverRange_excludingLast (database : Database K V) (minKey maxKey : Option K) :
    database.iterateOverRange minKey maxKey none none true false =
      database.entries.filter fun entry => Span.contains ⟨minKey, maxKey⟩ entry.1 := by
  have closed : PrefixClosed (fun entry : K × V => maxKey.all (entry.1 < ·))
      (database.entries.filter fun entry => minKey.all (· ≤ entry.1)) := by
    refine (database.sorted.filter _).imp fun less reached => ?_
    cases maxKey with
    | none => rfl
    | some key =>
        simp only [Option.all_some, decide_eq_true_eq] at reached ⊢
        exact less.trans reached
  rw [iterateOverRange_visit, visit_eq, ahead_ascending]
  simp only [Option.map_none, limited, if_true, Bool.false_eq_true, if_false, Option.getD_none,
    Int.toNat_zero, List.drop_zero]
  rw [closed.takeWhile, List.filter_filter]
  simp only [Span.contains, Bool.and_comm]

/-- A range read gives the entries with `minKey ≤ key ≤ maxKey` in its direction,
without the first ones that the offset counts and cut to the limit. -/
theorem getRange_eq (database : Database K V) (minKey maxKey : Option K) (limit offset : Option Int)
    (ascending : Bool) :
    database.getRange minKey maxKey limit offset ascending =
      (limited limit ((directed ascending
        (database.entries.filter fun entry => InRange minKey maxKey entry.1)).drop
          (offset.getD 0).toNat)).map fun entry => ⟨entry.1, some entry.2⟩ := by
  rw [getRange, iterateOverRange_visit, visit_eq]
  simp only [Int.sub_zero, Option.map_id_fun', id_eq]
  congr 2
  cases ascending with
  | true =>
      have closed : PrefixClosed (fun entry : K × V => maxKey.all (entry.1 ≤ ·))
          (database.entries.filter fun entry => minKey.all (· ≤ entry.1)) := by
        refine (database.sorted.filter _).imp fun less reached => ?_
        cases maxKey with
        | none => rfl
        | some key =>
            simp only [Option.all_some, decide_eq_true_eq] at reached ⊢
            exact less.le.trans reached
      rw [ahead_ascending]
      simp only [if_true, directed]
      rw [closed.drop_takeWhile, closed.takeWhile, List.filter_filter]
      simp only [InRange, Bool.and_comm]
  | false =>
      have closed : PrefixClosed (fun entry : K × V => minKey.all (· ≤ entry.1))
          (database.entries.filter fun entry => maxKey.all (entry.1 ≤ ·)).reverse := by
        refine List.pairwise_reverse.mpr ((database.sorted.filter _).imp fun less reached => ?_)
        cases minKey with
        | none => rfl
        | some key =>
            simp only [Option.all_some, decide_eq_true_eq] at reached ⊢
            exact reached.trans less.le
      rw [ahead_descending]
      simp only [Bool.false_eq_true, if_false, directed]
      rw [closed.drop_takeWhile, closed.takeWhile, List.filter_reverse, List.filter_filter]
      simp only [InRange]

end Database

end Scads.Server
