import Mathlib.Data.List.Chain
import Scads.Data.KeyedMaps
import Scads.Data.Lexemes
import Scads.Server.Aggregates

namespace Scads.Server

open Scads.Data

/-! # The keys of groups

The key of a group is the text of its fields, one written after the other without
anything in between.
-/

/-- The types of the fields that records are grouped by. -/
inductive FieldType where
  | int
  | long
  | boolean
  | string
deriving DecidableEq

inductive FieldDatum where
  | int (value : Int32)
  | long (value : Int64)
  | boolean (value : Bool)
  | string (value : String)
deriving DecidableEq

namespace FieldDatum

def type : FieldDatum → FieldType
  | .int _ => .int
  | .long _ => .long
  | .boolean _ => .boolean
  | .string _ => .string

def toText : FieldDatum → String
  | .int value => toString value.toInt
  | .long value => toString value.toInt
  | .boolean value => if value then "true" else "false"
  | .string value => value

end FieldDatum

/-- A record of a schema that has the fields of `schema`, which can be groups, and others of any types. -/
structure IndexedRecord (schema : List FieldType) (O : Type) where
  get : Fin schema.length → FieldDatum
  typed : ∀ pos, (get pos).type = schema.get pos
  others : O

section

variable {schema : List FieldType} {O : Type}

/-- The `groups` are positions. -/
def getGroupKey (groups : List (Fin schema.length)) (rec : IndexedRecord schema O) : String :=
  groups.foldl (fun groupBuilder group => groupBuilder ++ (rec.get group).toText) ""

/-- The fields of a group themselves. -/
def groupFields (groups : List (Fin schema.length)) (rec : IndexedRecord schema O) : List FieldDatum :=
  groups.map rec.get

/-- `write` is what the writer encodes a field of a type to. -/
def getGroupBytes (write : FieldType → FieldDatum → List UInt8) (groups : List (Fin schema.length))
    (rec : IndexedRecord schema O) : List UInt8 :=
  groups.foldl (fun out group => out ++ write (schema.get group) (rec.get group)) []

end

/-- One of every two neighbours is boolean, and there is at most one string. -/
structure Separated (types : List FieldType) : Prop where
  neighbours : types.IsChain fun first second => first = .boolean ∨ second = .boolean
  strings : types.count .string ≤ 1

def letterOfNumber (char : Char) : Bool := char.isDigit || char == '-'

theorem toList_toString_ofNat (number : Nat) : (toString (Int.ofNat number)).toList = Nat.toDigits 10 number :=
  String.toList_ofList

theorem toList_toString_negSucc (number : Nat) :
    (toString (Int.negSucc number)).toList = '-' :: Nat.toDigits 10 (number + 1) := by
  change ("-" ++ Nat.repr (number + 1)).toList = _
  rw [String.toList_append, Nat.toList_repr]
  rfl

theorem letters_of_int (number : Int) : ∀ char ∈ (toString number).toList, letterOfNumber char = true := by
  have digits : ∀ (natural : Nat), ∀ char ∈ Nat.toDigits 10 natural, letterOfNumber char = true := by
    intro natural char member
    rw [letterOfNumber, Nat.isDigit_of_mem_toDigits (by decide) (by decide) member, Bool.true_or]
  cases number with
  | ofNat natural =>
      rw [toList_toString_ofNat]
      exact digits natural
  | negSucc natural =>
      rw [toList_toString_negSucc]
      exact List.forall_mem_cons.mpr ⟨rfl, digits _⟩

theorem toString_int_injective {first second : Int} (same : toString first = toString second) : first = second := by
  have natural : ∀ {one other : Nat}, Nat.toDigits 10 one = Nat.toDigits 10 other → one = other := by
    intro one other equal
    have read := congrArg (fun digits => Nat.ofDigitChars 10 digits 0) equal
    rwa [Nat.ofDigitChars_toDigits (by decide) (by decide), Nat.ofDigitChars_toDigits (by decide) (by decide)] at read
  have unsigned : ∀ {number : Nat} {rest : List Char}, Nat.toDigits 10 number ≠ '-' :: rest := by
    intro number rest equal
    have member : '-' ∈ Nat.toDigits 10 number := equal ▸ List.mem_cons_self
    exact absurd (Nat.isDigit_of_mem_toDigits (by decide) (by decide) member) (by decide)
  have chars := congrArg String.toList same
  cases first with
  | ofNat one =>
      cases second with
      | ofNat other =>
          rw [toList_toString_ofNat, toList_toString_ofNat] at chars
          rw [natural chars]
      | negSucc other =>
          rw [toList_toString_ofNat, toList_toString_negSucc] at chars
          exact absurd chars unsigned
  | negSucc one =>
      cases second with
      | ofNat other =>
          rw [toList_toString_ofNat, toList_toString_negSucc] at chars
          exact absurd chars.symm unsigned
      | negSucc other =>
          rw [toList_toString_negSucc, toList_toString_negSucc] at chars
          have equal := natural (List.cons.inj chars).2
          rw [Nat.succ.inj equal]

namespace FieldDatum

/-- The text of a field in characters. -/
def chars (datum : FieldDatum) : List Char := datum.toText.toList

theorem chars_injective {first second : FieldDatum} (type : first.type = second.type)
    (same : first.chars = second.chars) : first = second := by
  have texts : first.toText = second.toText := String.toList_injective same
  cases first with
  | int one =>
      cases second with
      | int other => rw [Int32.toInt_inj.mp (toString_int_injective texts)]
      | _ => cases type
  | long one =>
      cases second with
      | long other => rw [Int64.toInt_inj.mp (toString_int_injective texts)]
      | _ => cases type
  | boolean one =>
      cases second with
      | boolean other =>
          cases one <;> cases other
          · rfl
          · exact absurd texts (by decide)
          · exact absurd texts (by decide)
          · rfl
      | _ => cases type
  | string one =>
      cases second with
      | string other =>
          change one = other at texts
          rw [texts]
      | _ => cases type

end FieldDatum

/-- A word read from the left, or from the right. -/
def mirror (mirrored : Bool) (word : List Char) : List Char := if mirrored then word.reverse else word

theorem mirror_mirror (mirrored : Bool) (word : List Char) : mirror mirrored (mirror mirrored word) = word := by
  cases mirrored with
  | false => rfl
  | true => exact List.reverse_reverse word

theorem truth_free : ∀ mirrored one other : Bool, mirror mirrored (FieldDatum.boolean one).chars <+:
    mirror mirrored (FieldDatum.boolean other).chars → one = other := by decide

theorem truth_begins (mirrored value : Bool) :
    ∃ char rest, mirror mirrored (FieldDatum.boolean value).chars = char :: rest ∧ letterOfNumber char = false := by
  cases mirrored <;> cases value <;> exact ⟨_, _, rfl, by decide⟩

/-- The texts of a type that is no string. -/
def FieldType.lexeme (mirrored : Bool) : FieldType → Lexeme Char
  | .boolean =>
      .prefixFree (fun word => ∃ value, word = mirror mirrored (FieldDatum.boolean value).chars) (by
        intro first second one other within
        obtain ⟨value, rfl⟩ := one
        obtain ⟨written, rfl⟩ := other
        rw [truth_free mirrored value written within])
  | _ => .spanning letterOfNumber

theorem FieldDatum.chars_word (mirrored : Bool) {datum : FieldDatum} (plain : datum.type ≠ .string) :
    (datum.type.lexeme mirrored).words (mirror mirrored datum.chars) := by
  have letters : ∀ number : Int, ∀ char ∈ mirror mirrored (toString number).toList, letterOfNumber char = true := by
    intro number char member
    cases mirrored with
    | false => exact letters_of_int number char member
    | true => exact letters_of_int number char (List.mem_reverse.mp member)
  cases datum with
  | int value => exact letters value.toInt
  | long value => exact letters value.toInt
  | boolean value => exact ⟨value, rfl⟩
  | string value => exact absurd rfl plain

theorem FieldType.lexeme_before (mirrored : Bool) {first second : FieldType}
    (separated : first = .boolean ∨ second = .boolean) :
    (first.lexeme mirrored).Before (second.lexeme mirrored) := by
  intro word written rest
  by_cases boolean : first = .boolean
  · subst boolean
    exact trivial
  · cases separated with
    | inl same => exact absurd same boolean
    | inr next =>
        subst next
        obtain ⟨value, rfl⟩ := written
        obtain ⟨char, chars, begins, other⟩ := truth_begins mirrored value
        have ends : ∀ found ∈ (mirror mirrored (FieldDatum.boolean value).chars ++ rest).head?,
            letterOfNumber found = false := by
          intro found head
          rw [begins] at head
          cases head
          exact other
        cases first with
        | boolean => exact absurd rfl boolean
        | _ => exact ends

theorem map_chars_injective {firsts seconds : List FieldDatum}
    (types : firsts.map FieldDatum.type = seconds.map FieldDatum.type)
    (same : firsts.map FieldDatum.chars = seconds.map FieldDatum.chars) : firsts = seconds := by
  induction firsts generalizing seconds with
  | nil => exact (List.map_eq_nil_iff.mp types.symm).symm
  | cons first rest ih =>
      cases seconds with
      | nil => cases types
      | cons second others =>
          obtain ⟨type, types⟩ := List.cons.inj types
          obtain ⟨chars, texts⟩ := List.cons.inj same
          rw [FieldDatum.chars_injective type chars, ih types texts]

/-- Separated fields without a string can be read up to what cannot belong to the last of them. -/
theorem read_fields (mirrored : Bool) {firsts seconds : List FieldDatum}
    (types : firsts.map FieldDatum.type = seconds.map FieldDatum.type)
    (neighbours : (firsts.map FieldDatum.type).IsChain fun first second => first = .boolean ∨ second = .boolean)
    (plain : ∀ type ∈ firsts.map FieldDatum.type, type ≠ .string) {after later : List Char}
    (bounded : (∀ type ∈ (firsts.map FieldDatum.type).getLast?, type = .boolean) ∨ after = [] ∧ later = [])
    (same : (firsts.map fun datum => mirror mirrored datum.chars).flatten ++ after =
      (seconds.map fun datum => mirror mirrored datum.chars).flatten ++ later) :
    firsts = seconds ∧ after = later := by
  have words : ∀ {data : List FieldDatum}, data.map FieldDatum.type = firsts.map FieldDatum.type →
      List.Forall₂ Lexeme.words ((firsts.map FieldDatum.type).map (FieldType.lexeme mirrored))
        (data.map fun datum => mirror mirrored datum.chars) := by
    intro data typed
    rw [← typed, List.map_map, List.forall₂_map_left_iff, List.forall₂_map_right_iff, List.forall₂_same]
    intro datum member
    exact datum.chars_word mirrored (plain _ (typed ▸ List.mem_map_of_mem member))
  have ends : ∀ {final : List Char},
      ((∀ type ∈ (firsts.map FieldDatum.type).getLast?, type = .boolean) ∨ final = []) →
      ∀ lexeme ∈ ((firsts.map FieldDatum.type).map (FieldType.lexeme mirrored)).getLast?, lexeme.ends final := by
    intro final bound lexeme last
    rw [List.getLast?_map] at last
    obtain ⟨type, final_type, rfl⟩ := Option.map_eq_some_iff.mp last
    cases bound with
    | inl boolean =>
        rw [boolean type final_type]
        exact trivial
    | inr empty =>
        subst empty
        cases type with
        | boolean => exact trivial
        | _ => exact fun char head => nomatch head
  have chain : ((firsts.map FieldDatum.type).map (FieldType.lexeme mirrored)).IsChain Lexeme.Before :=
    (List.isChain_map _).mpr (neighbours.imp fun _ _ separated => FieldType.lexeme_before mirrored separated)
  obtain ⟨texts, finals⟩ := Lexeme.read_all chain (words rfl) (words types.symm)
    (ends (bounded.imp_right And.left)) (ends (bounded.imp_right And.right)) same
  refine ⟨map_chars_injective types ?_, finals⟩
  have unmirrored := congrArg (List.map (mirror mirrored)) texts
  simpa only [List.map_map, Function.comp_def, mirror_mirror] using unmirrored

/-- From the right, fields can be read down to a text of any letters if the first of them is boolean. -/
theorem read_backwards {firsts seconds : List FieldDatum}
    (types : firsts.map FieldDatum.type = seconds.map FieldDatum.type)
    (neighbours : (firsts.map FieldDatum.type).IsChain fun first second => first = .boolean ∨ second = .boolean)
    (plain : ∀ type ∈ firsts.map FieldDatum.type, type ≠ .string)
    (bounded : ∀ type ∈ (firsts.map FieldDatum.type).head?, type = .boolean) {before earlier : List Char}
    (same : before ++ (firsts.map FieldDatum.chars).flatten = earlier ++ (seconds.map FieldDatum.chars).flatten) :
    before = earlier ∧ firsts = seconds := by
  have reversed := congrArg List.reverse same
  simp only [List.reverse_append, List.reverse_flatten, List.map_map, ← List.map_reverse] at reversed
  have chain : (firsts.reverse.map FieldDatum.type).IsChain fun first second => first = .boolean ∨
    second = .boolean := by
    rw [List.map_reverse, List.isChain_reverse]
    exact neighbours.imp fun _ _ => Or.symm
  obtain ⟨data, texts⟩ := read_fields true (by simp only [List.map_reverse, types]) chain
    (by rw [List.map_reverse]; exact fun type member => plain type (List.mem_reverse.mp member))
    (.inl (by rw [List.map_reverse, List.getLast?_reverse]; exact bounded)) reversed
  exact ⟨List.reverse_injective texts, List.reverse_injective data⟩

/-- Separated fields can be read from their texts: what is before the string from the left, what is
behind it from the right. -/
theorem fields_read {firsts seconds : List FieldDatum}
    (types : firsts.map FieldDatum.type = seconds.map FieldDatum.type)
    (separated : Separated (firsts.map FieldDatum.type))
    (same : (firsts.map FieldDatum.chars).flatten = (seconds.map FieldDatum.chars).flatten) : firsts = seconds := by
  by_cases string : FieldType.string ∈ firsts.map FieldDatum.type
  · obtain ⟨datum, member, type⟩ := List.mem_map.mp string
    obtain ⟨before, behind, rfl⟩ := List.append_of_mem member
    rw [List.map_append, List.map_cons, type] at types separated
    obtain ⟨earlier, rest, rfl, beforeTypes, restTypes⟩ := List.map_eq_append_iff.mp types.symm
    obtain ⟨other, later, rfl, otherType, behindTypes⟩ := List.map_eq_cons_iff.mp restTypes
    obtain ⟨beforeChain, restChain, toString⟩ := List.isChain_append.mp separated.neighbours
    obtain ⟨fromString, behindChain⟩ := List.isChain_cons.mp restChain
    have plain : FieldType.string ∉ before.map FieldDatum.type ∧ FieldType.string ∉ behind.map FieldDatum.type := by
      have strings := separated.strings
      rw [List.count_append, List.count_cons_self] at strings
      exact ⟨List.count_eq_zero.mp (by omega), List.count_eq_zero.mp (by omega)⟩
    rw [List.map_append, List.map_cons, List.flatten_append, List.flatten_cons, List.map_append, List.map_cons,
      List.flatten_append, List.flatten_cons] at same
    obtain ⟨rfl, texts⟩ := read_fields false beforeTypes.symm beforeChain
      (fun _ found isString => plain.1 (isString ▸ found))
      (.inl fun last found => (toString last found _ rfl).resolve_right (by decide)) same
    obtain ⟨chars, rfl⟩ := read_backwards behindTypes.symm behindChain
      (fun _ found isString => plain.2 (isString ▸ found))
      (fun first found => (fromString first found).resolve_left (by decide)) texts
    rw [FieldDatum.chars_injective (type.trans otherType.symm) chars]
  · have whole := read_fields false types separated.neighbours (fun _ found isString => string (isString ▸ found))
      (.inr ⟨rfl, rfl⟩) (by rw [List.append_nil, List.append_nil]; exact same)
    exact whole.1

end Scads.Server
