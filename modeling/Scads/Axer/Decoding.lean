import Scads.Axer.AxerDatumReader
import Scads.Axer.Encoding

namespace Scads.Axer

open Scads.Data
open Scads.Comm (ok_bind error_bind pure_eq_ok bind_eq_ok)

/-! # Reading the bytes of a record back

A block that stands at an offset is read from there.  Of the blocks of a record the
decoder knows the offsets, from the schema or from the table before them, and the ends,
which are the next offsets or the end of the record.
-/

/-- The block stands in the bytes at this offset. -/
def Stands (bytes : List UInt8) (offset : Int) (block : List UInt8) : Prop :=
  ∃ front rest, bytes = front ++ block ++ rest ∧ offset = front.length

namespace Stands

variable {bytes block first second : List UInt8} {offset : Int}

theorem left (stands : Stands bytes offset (first ++ second)) : Stands bytes offset first := by
  obtain ⟨front, rest, rfl, rfl⟩ := stands
  exact ⟨front, second ++ rest, by simp, rfl⟩

theorem right (stands : Stands bytes offset (first ++ second)) : Stands bytes (offset + first.length) second := by
  obtain ⟨front, rest, rfl, rfl⟩ := stands
  exact ⟨front ++ first, rest, by simp, by simp⟩

theorem bound (stands : Stands bytes offset block) : 0 ≤ offset ∧ offset + block.length ≤ bytes.length := by
  obtain ⟨front, rest, rfl, rfl⟩ := stands
  simp only [List.length_append]
  omega

theorem self (bytes : List UInt8) : Stands bytes 0 bytes := ⟨[], [], by simp, rfl⟩

theorem byteAt {dec : AxerDecoder} {position : Nat} {byte : UInt8} (stands : Stands dec.bytes dec.offset block)
    (found : block[position]? = some byte) : dec.byteAt position = .ok byte := by
  obtain ⟨front, rest, split, isOffset⟩ := stands
  obtain ⟨inside, same⟩ := List.getElem?_eq_some_iff.mp found
  have index : dec.offset + (position : Int) = (front.length + position : Nat) := by
    rw [isOffset]
    omega
  have low : front.length + position < dec.bytes.length := by
    rw [split]
    simp only [List.length_append]
    omega
  have there : dec.bytes[front.length + position]? = some byte := by
    rw [split, List.append_assoc, List.getElem?_append_right (by omega), Nat.add_sub_cancel_left,
      List.getElem?_append_left inside, found]
  rw [AxerDecoder.byteAt]
  simp only [index, Int.toNat_natCast]
  rw [if_pos (by omega), List.getD_eq_getElem?_getD, there, Option.getD_some]

theorem readInt {dec : AxerDecoder} {word : BitVec 32} (stands : Stands dec.bytes dec.offset (wordBytes word)) :
    dec.readInt = .ok word := by
  rw [AxerDecoder.readInt, stands.byteAt rfl, stands.byteAt rfl, stands.byteAt rfl, stands.byteAt rfl]
  simp only [ok_bind, pure_eq_ok, wordOf_wordBytes]

theorem readLong {dec : AxerDecoder} {word : BitVec 64} (stands : Stands dec.bytes dec.offset (longBytes word)) :
    dec.readLong = .ok word := by
  rw [AxerDecoder.readLong, stands.byteAt rfl, stands.byteAt rfl, stands.byteAt rfl, stands.byteAt rfl,
    stands.byteAt rfl, stands.byteAt rfl, stands.byteAt rfl, stands.byteAt rfl]
  simp only [ok_bind, pure_eq_ok, longOf_longBytes]

theorem readFixed {dec : AxerDecoder} (stands : Stands dec.bytes dec.offset block) :
    dec.readFixed block.length = .ok block := by
  have bound := stands.bound
  obtain ⟨front, rest, split, isOffset⟩ := stands
  rw [AxerDecoder.readFixed, if_pos (by omega), split, isOffset, Int.toNat_natCast, Int.toNat_natCast,
    List.append_assoc, List.drop_left' rfl, List.take_left' rfl]

end Stands

theorem length_constBytes {type : ConstType} {width : Nat} {value : Value} (of : ConstOf type width value) :
    (constBytes value).length = width := by
  cases type <;> cases value <;> first | exact of.elim | exact of.symm

theorem readConstValue_ok {type : ConstType} {width : Nat} {value : Value} {dec : AxerDecoder}
    (of : ConstOf type width value) (notFixed : type ≠ .fixed)
    (stands : Stands dec.bytes dec.offset (constBytes value)) : readConstValue type dec = .ok value := by
  cases type with
  | boolean => cases value with
    | boolean value =>
        have read : dec.byteAt 0 = .ok (if value then 1 else 0) := stands.byteAt rfl
        rw [readConstValue, AxerDecoder.readBoolean, read]
        cases value with
        | false => rfl
        | true => rfl
    | _ => exact of.elim
  | int => cases value with
    | int value => rw [readConstValue, stands.readInt]; rfl
    | _ => exact of.elim
  | float => cases value with
    | float bits => rw [readConstValue, AxerDecoder.readFloat, stands.readInt]; rfl
    | _ => exact of.elim
  | long => cases value with
    | long value => rw [readConstValue, stands.readLong]; rfl
    | _ => exact of.elim
  | double => cases value with
    | double bits => rw [readConstValue, AxerDecoder.readDouble, stands.readLong]; rfl
    | _ => exact of.elim
  | fixed => exact (notFixed rfl).elim

theorem fillConstArray_ok {type : ConstType} {items : List Value} {dec : AxerDecoder} {width : Nat}
    (of : ∀ item ∈ items, ConstOf type width item) (notFixed : type ≠ .fixed)
    (stands : Stands dec.bytes dec.offset (items.flatMap constBytes)) :
    ∃ next, fillConstArray type width items.length dec = .ok (items, next) := by
  induction items generalizing dec with
  | nil => exact ⟨dec, rfl⟩
  | cons item rest ih =>
      rw [List.flatMap_cons] at stands
      have length := length_constBytes (of item (by simp))
      have later := stands.right
      rw [length] at later
      obtain ⟨next, filled⟩ := @ih { dec with offset := dec.offset + width }
        (fun other member => of other (by simp [member])) later
      refine ⟨next, ?_⟩
      rw [List.length_cons, fillConstArray, readConstValue_ok (of item (by simp)) notFixed stands.left, ok_bind,
        filled]
      rfl

theorem length_flatMap_constBytes {type : ConstType} {items : List Value} {width : Nat}
    (of : ∀ item ∈ items, ConstOf type width item) : (items.flatMap constBytes).length = width * items.length := by
  induction items with
  | nil => rfl
  | cons item rest ih =>
      rw [List.flatMap_cons, List.length_append, length_constBytes (of item (by simp)),
        ih fun other member => of other (by simp [member]), List.length_cons, Nat.mul_succ, Nat.add_comm]

/-- The word of the table for an item, the item's bytes at that offset, and the end. -/
theorem item_stands {α : Type} {body : α → Nat → List UInt8} {items : List α} {bytes : List UInt8} {place : Int}
    {start position : Nat} {item : α} (found : items[position]? = some item)
    (table : Stands bytes place (offsetTable (starts body items start)))
    (data : Stands bytes start (bodies body items start)) :
    ∃ sp : Nat, (starts body items start)[position]? = some sp ∧
      Stands bytes (place + 4 * position) (wordBytes (BitVec.ofNat 32 sp)) ∧ Stands bytes sp (body item sp) ∧
      sp + (body item sp).length ≤ start + (bodies body items start).length ∧
      ((starts body items start)[position + 1]?).getD (start + (bodies body items start).length) =
        sp + (body item sp).length := by
  obtain ⟨before, after, isStart, split, ending⟩ := @starts_getElem? _ body items start position item found
  obtain ⟨rest, words⟩ := offsetTable_split isStart
  obtain ⟨inside, -⟩ := List.getElem?_eq_some_iff.mp isStart
  refine ⟨start + before.length, isStart, ?_, ?_, ?_, ending⟩
  · rw [words] at table
    have word := table.left.right
    rw [length_offsetTable, List.length_take, Nat.min_eq_left (Nat.le_of_lt inside)] at word
    exact_mod_cast word
  · rw [split] at data
    have there := data.left.right
    exact_mod_cast there
  · rw [split]
    simp only [List.length_append]
    omega

/-- What is read for an element of an array. -/
def elementBack : Value → Value
  | .bytes content => .buffer content
  | value => value

theorem fillVarArray_ok {reader : AxerDecoder → Except AxerException Value} {items done todo : List Value}
    {dec : AxerDecoder} {place : Int} {start : Nat} {finalByte : Int}
    (reads : ∀ item ∈ items, ∀ dec : AxerDecoder, Stands dec.bytes dec.offset (itemBytes item 0) →
      dec.varLen = (itemBytes item 0).length → reader dec = .ok (elementBack item))
    (table : Stands dec.bytes place (offsetTable (starts itemBytes items start)))
    (data : Stands dec.bytes start (bodies itemBytes items start))
    (isFinal : finalByte = (start + (bodies itemBytes items start).length : Nat))
    (small : start + (bodies itemBytes items start).length < 2 ^ 31) (split : items = done ++ todo) :
    ∃ next, fillVarArray reader finalByte todo.length (place + 4 * done.length) dec =
      .ok (todo.map elementBack, next) := by
  induction todo generalizing done dec with
  | nil => exact ⟨dec, rfl⟩
  | cons item rest ih =>
      have found : items[done.length]? = some item := by simp [split]
      obtain ⟨sp, isStart, word, there, within, ending⟩ := item_stands found table data
      have length : (starts itemBytes items start).length = done.length + (rest.length + 1) := by
        rw [length_starts, split, List.length_append, List.length_cons]
      have read : AxerDecoder.readInt { dec with offset := place + 4 * done.length } = .ok (BitVec.ofNat 32 sp) :=
        Stands.readInt word
      have final : itemEnd finalByte rest.length { dec with offset := place + 4 * done.length } =
          .ok (sp + (itemBytes item sp).length : Nat) := by
        rw [itemEnd]
        cases rest with
        | nil =>
            rw [List.getElem?_eq_none (by rw [length]; simp), Option.getD_none] at ending
            rw [if_pos (by simp), isFinal, ending]
        | cons second others =>
            have follows : items[done.length + 1]? = some second := by simp [split]
            obtain ⟨next, isNext, nextWord, -, bound, -⟩ := item_stands follows table data
            rw [isNext, Option.getD_some] at ending
            have moved : place + 4 * (done.length : Int) + 4 = place + 4 * (done.length + 1 : Nat) := by omega
            have there : AxerDecoder.readInt { dec with offset := place + 4 * (done.length : Int) + 4 } =
                .ok (BitVec.ofNat 32 next) := by
              rw [moved]
              exact Stands.readInt nextWord
            rw [if_neg (by simp), there, ok_bind, toInt_ofNat_word (by omega), ending]
            rfl
      have isLength : int32 ((sp + (itemBytes item sp).length : Nat) - (sp : Int)) = (itemBytes item sp).length := by
        rw [int32_of_range (by omega) (by omega)]
        omega
      have value := reads item (by simp [split])
        { dec with offset := sp, varLen := (itemBytes item sp).length } there rfl
      obtain ⟨next, filled⟩ := @ih (done ++ [item]) { dec with offset := sp, varLen := (itemBytes item sp).length }
        table data (by simp [split])
      refine ⟨next, ?_⟩
      have moved : place + 4 * (done.length : Int) + 4 = place + 4 * ((done ++ [item]).length : Nat) := by
        rw [List.length_append, List.length_singleton]
        omega
      rw [List.length_cons, fillVarArray, read, ok_bind, final, ok_bind, toInt_ofNat_word (by omega), isLength]
      simp only [value, ok_bind, moved, filled, pure_eq_ok, List.map_cons]

theorem newByteArray_ok (count : Nat) : newByteArray count = .ok () := by
  rw [newByteArray, if_neg (by omega)]

theorem readVarArray_ok {reader : AxerDecoder → Except AxerException Value} {items : List Value} {dec : AxerDecoder}
    {start : Nat}
    (reads : ∀ item ∈ items, ∀ dec : AxerDecoder, Stands dec.bytes dec.offset (itemBytes item 0) →
      dec.varLen = (itemBytes item 0).length → reader dec = .ok (elementBack item))
    (isStart : dec.offset = start) (stands : Stands dec.bytes start (listBody items start))
    (small : start + (listBody items start).length < 2 ^ 31) (few : items.length < 2 ^ 31) :
    ∃ next, readVarArray reader (listBody items start).length dec = .ok (items.map elementBack, next) := by
  obtain ⟨first, isFirst⟩ : ∃ first, first = start + 4 + 4 * items.length := ⟨_, rfl⟩
  have body : listBody items start = wordBytes (BitVec.ofNat 32 items.length) ++
      offsetTable (starts itemBytes items first) ++ bodies itemBytes items first := by
    rw [listBody, ← isFirst]
  have total : (listBody items start).length = 4 + 4 * items.length + (bodies itemBytes items first).length := by
    rw [body]
    simp only [List.length_append, length_wordBytes, length_offsetTable, length_starts]
  rw [body] at stands
  have count : dec.readInt = .ok (BitVec.ofNat 32 items.length) := by
    refine Stands.readInt ?_
    rw [isStart]
    exact stands.left.left
  have table := stands.left.right
  rw [length_wordBytes] at table
  have data := stands.right
  have place : (start : Int) + (wordBytes (BitVec.ofNat 32 items.length) ++
      offsetTable (starts itemBytes items first)).length = first := by
    simp only [List.length_append, length_wordBytes, length_offsetTable, length_starts, isFirst]
    omega
  rw [place] at data
  obtain ⟨next, filled⟩ := @fillVarArray_ok reader items [] items { dec with offset := dec.offset + 4 }
    (start + (4 : Nat)) first (dec.offset + (listBody items start).length) reads table data
    (by rw [isStart, total]; omega) (by omega) rfl
  refine ⟨next, ?_⟩
  rw [readVarArray, count, ok_bind, toInt_ofNat_word few]
  simp only [newByteArray_ok, ok_bind, Int.toNat_natCast]
  rw [← filled, isStart]
  simp

theorem readElementString_ok {malformed : List UInt8 → String} {dec : AxerDecoder} {text : String}
    (stands : Stands dec.bytes dec.offset (AxerEncoder.utf8Bytes text))
    (length : dec.varLen = (AxerEncoder.utf8Bytes text).length) :
    readElementString malformed dec = .ok (.string text) := by
  have same : (⟨(AxerEncoder.utf8Bytes text).toArray⟩ : ByteArray) = text.toByteArray := by
    simp [AxerEncoder.utf8Bytes]
  have decoded : utf8ToString malformed (AxerEncoder.utf8Bytes text) = text := by
    rw [utf8ToString, same, String.fromUTF8?, dif_pos text.isValidUTF8]
    rfl
  rw [readElementString, AxerDecoder.readString, length, stands.readFixed, ok_bind, decoded]
  rfl

theorem readBytes_ok {dec : AxerDecoder} {content : List UInt8} (stands : Stands dec.bytes dec.offset content)
    (length : dec.varLen = content.length) : dec.readBytes = .ok content := by
  rw [AxerDecoder.readBytes, length, if_neg (by omega), stands.readFixed]

section

variable {malformed : List UInt8 → String} {dec : AxerDecoder} {start : Nat}

theorem readArray_const {type : ConstType} (notFixed : type ≠ .fixed) (numBytes : Int) :
    readArray malformed (.const type) numBytes dec = (do
      newByteArray (numBytes.tdiv (numBytesForType type 0))
      fillConstArray type (numBytesForType type 0) (numBytes.tdiv (numBytesForType type 0)).toNat dec) := by
  cases type with
  | fixed => exact (notFixed rfl).elim
  | _ => rfl

theorem readConstArray_ok {type : ConstType} {items : List Value} (notFixed : type ≠ .fixed)
    (of : ∀ item ∈ items, ConstOf type (numBytesForType type 0) item)
    (stands : Stands dec.bytes dec.offset (items.flatMap constBytes)) :
    ∃ next, readArray malformed (.const type) (items.flatMap constBytes).length dec =
      .ok (items.map elementBack, next) := by
  obtain ⟨next, filled⟩ := fillConstArray_ok of notFixed stands
  have positive : (0 : Int) < numBytesForType type 0 := by
    cases type with
    | fixed => exact (notFixed rfl).elim
    | _ => decide
  have count : ((items.flatMap constBytes).length : Int).tdiv (numBytesForType type 0) = items.length := by
    rw [length_flatMap_constBytes of, Int.natCast_mul, Int.mul_tdiv_cancel_left _ (by omega)]
  have back : items.map elementBack = items := by
    refine List.map_congr_left (fun item member => ?_) |>.trans (List.map_id items)
    have typed := of item member
    cases item with
    | bytes content => cases type with
      | fixed => exact (notFixed rfl).elim
      | _ => exact typed.elim
    | _ => rfl
  refine ⟨next, ?_⟩
  rw [readArray_const notFixed, count, newByteArray_ok, ok_bind, Int.toNat_natCast, back]
  exact filled

/-- An array that the writer takes is read with its elements. -/
theorem readArray_ok {elementType : AxerType} {items : List Value} (of : ItemsOf elementType items)
    (few : items.length < 2 ^ 31) (isStart : dec.offset = start)
    (stands : Stands dec.bytes start (arrayBody elementType items start))
    (small : start + (arrayBody elementType items start).length < 2 ^ 31) :
    ∃ next, readArray malformed elementType (arrayBody elementType items start).length dec =
      .ok (items.map elementBack, next) := by
  cases elementType with
  | null =>
      have count : dec.readInt = .ok (BitVec.ofNat 32 items.length) := by
        refine Stands.readInt ?_
        rw [isStart]
        exact stands
      have nulls : List.replicate items.length .null = items.map elementBack := by
        refine (List.eq_replicate_iff.mpr ⟨by simp, ?_⟩).symm
        intro value member
        obtain ⟨item, among, rfl⟩ := List.mem_map.mp member
        rw [of item among]
        rfl
      refine ⟨dec, ?_⟩
      rw [readArray, count, ok_bind, toInt_ofNat_word few]
      simp only [newByteArray_ok, ok_bind, Int.toNat_natCast, nulls, pure_eq_ok]
  | const type =>
      rw [← isStart] at stands
      cases type with
      | double =>
          simp only [ItemsOf] at of
          subst of
          exact readConstArray_ok (by simp) (by simp) stands
      | fixed => exact (of.1 rfl).elim
      | _ => exact readConstArray_ok (by simp) of.2 stands
  | string =>
      refine readVarArray_ok ?_ isStart stands small few
      intro item member dec there length
      obtain ⟨text, rfl⟩ := of item member
      exact readElementString_ok there length
  | bytes =>
      refine readVarArray_ok ?_ isStart stands small few
      intro item member dec there length
      obtain ⟨content, rfl⟩ := of item member
      rw [readElementBytes, readBytes_ok there length]
      rfl
  | array elementType => exact of.elim

/-- What is read for a variable field. -/
def fieldBack : Value → Value
  | .string text => .utf8 (AxerEncoder.utf8Bytes text)
  | .bytes content => .buffer content
  | .array items => .array (items.map elementBack)
  | value => value

theorem readVarValue_ok {type : AxerType} {value : Value} (of : VarOf type value) (isStart : dec.offset = start)
    (stands : Stands dec.bytes start (varBody (type, value) start))
    (length : dec.varLen = (varBody (type, value) start).length)
    (small : start + (varBody (type, value) start).length < 2 ^ 31) :
    ∃ next, readVarValue malformed type dec = .ok (fieldBack value, next) := by
  have there : Stands dec.bytes dec.offset (varBody (type, value) start) := by
    rw [isStart]
    exact stands
  cases type with
  | string => cases value with
    | string text =>
        refine ⟨dec, ?_⟩
        rw [readVarValue, AxerDecoder.readString, length, there.readFixed]
        rfl
    | _ => exact of.elim
  | bytes => cases value with
    | bytes content =>
        refine ⟨dec, ?_⟩
        rw [readVarValue, readBytes_ok there length]
        rfl
    | _ => exact of.elim
  | array elementType => cases value with
    | array items =>
        obtain ⟨next, read⟩ := @readArray_ok malformed dec start _ _ of.2 of.1 isStart stands small
        refine ⟨next, ?_⟩
        rw [readVarValue, AxerDecoder.readArrayStart, length]
        simp only [varBody]
        rw [read]
        rfl
    | _ => exact of.elim
  | const type => exact of.elim
  | null => exact of.elim

end

section

variable {axer : AxerSchema} {leaves : List (String × AvroSchema)} {record : Record}

theorem length_constPart_map {consts : List ConstField}
    (typed : ∀ field ∈ consts, ConstOf field.type field.width (record.get field.name)) :
    (constPart (consts.map fun field => record.get field.name)).length = totalWidth consts := by
  rw [constPart]
  induction consts with
  | nil => rfl
  | cons field rest ih =>
      simp only [List.map_cons, List.flatMap_cons, List.length_append, totalWidth, List.sum_cons]
      rw [length_constBytes (typed field (by simp)), ih fun other member => typed other (by simp [member])]
      rfl

theorem length_constPart (writable : Writable record leaves) :
    (constPart (constValues record leaves)).length = totalWidth (constsOf leaves) :=
  length_constPart_map writable.consts

theorem placed_stands {bytes : List UInt8} {consts : List ConstField} {start : Nat}
    (typed : ∀ field ∈ consts, ConstOf field.type field.width (record.get field.name))
    (stands : Stands bytes start (constPart (consts.map fun field => record.get field.name))) :
    ∀ field offset, (field, offset) ∈ placed start consts →
      Stands bytes offset (constBytes (record.get field.name)) := by
  induction consts generalizing start with
  | nil => simp [placed]
  | cons first rest ih =>
      intro field offset member
      simp only [constPart, List.map_cons, List.flatMap_cons] at stands
      rw [placed, List.mem_cons] at member
      cases member with
      | inl same =>
          cases same
          exact stands.left
      | inr later =>
          have after := stands.right
          rw [length_constBytes (typed first (by simp))] at after
          exact ih (fun other among => typed other (by simp [among])) (by exact_mod_cast after) field offset later

theorem encoding_total : Stands (encoding record leaves) 0
    (wordBytes (BitVec.ofNat 32 (encodedSize (constValues record leaves) (varValues record leaves)))) := by
  have whole := Stands.self (encoding record leaves)
  rw [encoding, layout] at whole
  exact whole.left.left.left

theorem encoding_consts : Stands (encoding record leaves) 4 (constPart (constValues record leaves)) := by
  have whole := Stands.self (encoding record leaves)
  rw [encoding, layout] at whole
  exact whole.left.left.right

theorem encoding_table (writable : Writable record leaves) :
    Stands (encoding record leaves) (4 + totalWidth (constsOf leaves) : Nat)
      (offsetTable (starts varBody (varValues record leaves)
        (varStart (constValues record leaves) (varValues record leaves)))) := by
  have whole := Stands.self (encoding record leaves)
  rw [encoding, layout] at whole
  have table := whole.left.right
  rw [List.length_append, length_wordBytes, length_constPart writable, Int.zero_add] at table
  exact table

theorem encoding_vars : Stands (encoding record leaves)
    (varStart (constValues record leaves) (varValues record leaves))
    (varPart (constValues record leaves) (varValues record leaves)) := by
  have whole := Stands.self (encoding record leaves)
  rw [encoding, layout] at whole
  have part := whole.right
  simp only [List.length_append, length_wordBytes, length_offsetTable, length_starts, Int.zero_add] at part
  exact part

/-- The decoder finds a variable field. -/
theorem setOffsetVar_ok {dec : AxerDecoder} {position : Nat} {name : String} {type : AxerType}
    (describes : Describes axer leaves) (writable : Writable record leaves)
    (bytes : dec.bytes = encoding record leaves) (found : (varsOf leaves)[position]? = some (name, type)) :
    ∃ sp : Nat, dec.setOffsetVar name axer =
        .ok { dec with offset := sp, varLen := (varBody (type, record.get name) sp).length } ∧
      Stands dec.bytes sp (varBody (type, record.get name) sp) ∧
      sp + (varBody (type, record.get name) sp).length < 2 ^ 31 := by
  have value : (varValues record leaves)[position]? = some (type, record.get name) := by
    simp [varValues, found]
  have table := encoding_table writable
  have data := @encoding_vars leaves record
  rw [varPart] at data
  obtain ⟨sp, isStart, word, there, within, ending⟩ := item_stands value table data
  have small := writable.small
  rw [encodedSize, varPart] at small
  have entry : AxerDecoder.readInt { dec with offset := (axer.constOffset : Int) + (position : Int) * 4 } =
      .ok (BitVec.ofNat 32 sp) := by
    refine Stands.readInt ?_
    rw [describes.constOffset, bytes, Int.mul_comm]
    exact word
  have count : axer.varFields.length = (varValues record leaves).length := by
    rw [describes.varFields, List.length_map, length_varValues]
  obtain ⟨inside, -⟩ := List.getElem?_eq_some_iff.mp value
  have final : AxerDecoder.readInt { dec with offset :=
        if (position : Int) = (axer.varFields.length : Int) - 1 then 0
        else (axer.constOffset : Int) + (position : Int) * 4 + 4 } =
      .ok (BitVec.ofNat 32 (sp + (varBody (type, record.get name) sp).length)) := by
    refine Stands.readInt ?_
    rw [bytes, count, describes.constOffset]
    by_cases last : (position : Int) = ((varValues record leaves).length : Int) - 1
    · rw [List.getElem?_eq_none (by rw [length_starts]; omega), Option.getD_none] at ending
      rw [if_pos last, ← ending]
      exact encoding_total
    · rw [if_neg last]
      obtain ⟨after, follows⟩ : ∃ after, (varValues record leaves)[position + 1]? = some after :=
        ⟨_, List.getElem?_eq_getElem (by omega)⟩
      obtain ⟨next, isNext, nextWord, -, -, -⟩ := item_stands follows table data
      rw [isNext, Option.getD_some] at ending
      have moved : (((4 + totalWidth (constsOf leaves) : Nat) : Int) + (position : Int) * 4 + 4) =
          (4 + totalWidth (constsOf leaves) : Nat) + 4 * ((position + 1 : Nat) : Int) := by omega
      rw [moved, ← ending]
      exact nextWord
  refine ⟨sp, ?_, by rw [bytes]; exact there, by omega⟩
  have length : int32 (((sp + (varBody (type, record.get name) sp).length : Nat) : Int) - (sp : Int)) =
      (varBody (type, record.get name) sp).length := by
    rw [int32_of_range (by omega) (by omega)]
    omega
  rw [AxerDecoder.setOffsetVar, describes.getVarPosition position name type found, ok_bind, if_neg (by omega)]
  simp only [entry, ok_bind, final, pure_eq_ok]
  rw [toInt_ofNat_word (by omega), toInt_ofNat_word (by omega), length]

end

namespace Record

def names (record : Record) : List String := record.values.map Prod.fst

variable {record next : Record} {name other : String} {value : Value}

theorem put_ok (member : name ∈ record.names) : ∃ next, record.put name value = .ok next := by
  rw [names] at member
  rw [put, if_pos member]
  exact ⟨_, rfl⟩

theorem put_eq (done : record.put name value = .ok next) :
    name ∈ record.names ∧
      next.values = record.values.map fun field => if field.1 = name then (name, value) else field := by
  rw [put] at done
  split at done
  · next member =>
      cases done
      exact ⟨member, rfl⟩
  · cases done

theorem names_put (done : record.put name value = .ok next) : next.names = record.names := by
  rw [names, (put_eq done).2, names, List.map_map]
  refine List.map_congr_left fun field _ => ?_
  simp only [Function.comp_apply]
  split
  · next same => exact same.symm
  · rfl

theorem lookup_replace (values : List (String × Value)) (name other : String) (value : Value) :
    (values.map fun field => if field.1 = name then (name, value) else field).lookup other =
      if other = name then (values.lookup other).map fun _ => value else values.lookup other := by
  induction values with
  | nil => simp
  | cons field rest ih =>
      obtain ⟨key, old⟩ := field
      by_cases same : key = name
      · subst same
        by_cases wanted : other = key
        · subst wanted
          simp
        · have apart : (other == key) = false := by simp [wanted]
          simp only [List.map_cons, if_true, List.lookup_cons, apart, ih, wanted, if_false]
      · by_cases wanted : other = key
        · subst wanted
          simp [same]
        · have apart : (other == key) = false := by simp [wanted]
          simp only [List.map_cons, same, if_false, List.lookup_cons, apart, ih]

theorem lookup_some (member : name ∈ record.names) : ∃ value, record.values.lookup name = some value := by
  rw [names] at member
  generalize record.values = values at member
  induction values with
  | nil => simp at member
  | cons field rest ih =>
      obtain ⟨key, value⟩ := field
      by_cases same : name = key
      · subst same
        exact ⟨value, by simp⟩
      · have apart : (name == key) = false := by simp [same]
        simp only [List.map_cons, List.mem_cons, same, false_or] at member
        rw [List.lookup_cons, apart]
        exact ih member

theorem get_put (done : record.put name value = .ok next) (other : String) :
    next.get other = if other = name then value else record.get other := by
  obtain ⟨member, values⟩ := put_eq done
  rw [get, values, lookup_replace]
  split
  · next same =>
      subst same
      obtain ⟨old, found⟩ := lookup_some member
      rw [found]
      rfl
  · rfl

end Record

section

open AxerDatumReader (putNext)

variable {ε : Type} {name : ε → String} {read : ε → AxerDecoder → Except AxerException (Value × AxerDecoder)}
  {good : AxerDecoder → Prop} {value : ε → Value} {entries : List ε} {record : Record} {dec : AxerDecoder}

/-- A record after its fields were read: the last entry of a name decides. -/
theorem putNext_all
    (reads : ∀ entry ∈ entries, ∀ dec, good dec → ∃ next, read entry dec = .ok (value entry, next) ∧ good next)
    (named : ∀ entry ∈ entries, name entry ∈ record.names) (start : good dec) :
    ∃ next last, entries.foldlM (putNext name read) (record, dec) = .ok (next, last) ∧ good last ∧
      next.names = record.names ∧
      ∀ wanted, next.get wanted =
        ((entries.reverse.find? fun entry => name entry = wanted).map value).getD (record.get wanted) := by
  induction entries generalizing record dec with
  | nil => exact ⟨record, dec, rfl, start, rfl, fun _ => rfl⟩
  | cons entry rest ih =>
      obtain ⟨middle, first, kept⟩ := reads entry (by simp) dec start
      obtain ⟨after, put⟩ := @Record.put_ok record (name entry) (value entry) (named entry (by simp))
      have names := Record.names_put put
      obtain ⟨next, last, folded, ending, same, values⟩ := @ih after middle
        (fun other member => reads other (by simp [member]))
        (fun other member => by rw [names]; exact named other (by simp [member])) kept
      refine ⟨next, last, ?_, ending, same.trans names, ?_⟩
      · rw [List.foldlM_cons]
        simp only [putNext, first, ok_bind, put, pure_eq_ok]
        exact folded
      · intro wanted
        rw [values, List.reverse_cons, List.find?_append, Record.get_put put]
        cases rest.reverse.find? fun entry => name entry = wanted with
        | some found => rfl
        | none =>
            by_cases mine : name entry = wanted
            · simp [mine]
            · have apart : ¬ wanted = name entry := fun same => mine same.symm
              simp [mine, apart]

/-- Every field that was read has a place in the record. -/
theorem putNext_names {final : Record × AxerDecoder}
    (folded : entries.foldlM (putNext name read) (record, dec) = .ok final) :
    ∀ entry ∈ entries, name entry ∈ record.names := by
  induction entries generalizing record dec with
  | nil => simp
  | cons entry rest ih =>
      rw [List.foldlM_cons] at folded
      obtain ⟨⟨after, middle⟩, first, folded⟩ := bind_eq_ok.mp folded
      simp only [putNext, bind_eq_ok] at first
      obtain ⟨⟨given, moved⟩, -, stored, put, same⟩ := first
      cases same
      intro other member
      cases List.mem_cons.mp member with
      | inl same =>
          subst same
          exact (Record.put_eq put).1
      | inr later =>
          rw [← Record.names_put put]
          exact ih folded other later

theorem putNext_keeps {final : Record × AxerDecoder}
    (folded : entries.foldlM (putNext name read) (record, dec) = .ok final) : final.1.names = record.names := by
  induction entries generalizing record dec with
  | nil =>
      cases folded
      rfl
  | cons entry rest ih =>
      rw [List.foldlM_cons] at folded
      obtain ⟨⟨after, middle⟩, first, folded⟩ := bind_eq_ok.mp folded
      simp only [putNext, bind_eq_ok] at first
      obtain ⟨⟨given, moved⟩, -, stored, put, same⟩ := first
      cases same
      rw [ih folded, Record.names_put put]

/-- Every field was read, from a decoder of the same kind. -/
theorem putNext_reads {final : Record × AxerDecoder}
    (kept : ∀ entry ∈ entries, ∀ dec value next, good dec → read entry dec = .ok (value, next) → good next)
    (start : good dec) (folded : entries.foldlM (putNext name read) (record, dec) = .ok final) :
    ∀ entry ∈ entries, ∃ dec value next, good dec ∧ read entry dec = .ok (value, next) := by
  induction entries generalizing record dec with
  | nil => simp
  | cons entry rest ih =>
      rw [List.foldlM_cons] at folded
      obtain ⟨⟨after, middle⟩, first, folded⟩ := bind_eq_ok.mp folded
      simp only [putNext, bind_eq_ok] at first
      obtain ⟨⟨given, moved⟩, taken, stored, put, same⟩ := first
      cases same
      intro other member
      cases List.mem_cons.mp member with
      | inl same =>
          subst same
          exact ⟨dec, given, _, start, taken⟩
      | inr later =>
          exact ih (fun other member => kept other (by simp [member])) (kept entry (by simp) dec given _ start taken)
            folded other later

end

end Scads.Axer
