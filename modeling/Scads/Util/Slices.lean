import Scads.Data.Spans
import Scads.Comm.Messages

namespace Scads.Util

open Scads.Data Scads.Comm

/-! # Slices

A slice is what is left of a key range while other ranges are taken out of it.
-/

inductive Slice (K : Type) where
  | entireRange
  | emptyRange
  | fromLeft (endKey : K)
  | toRight (startKey : K)
  | boundedSlice (startKey endKey : K)
  | compositeSlice (slices : List (Slice K))

namespace Slice

variable {K : Type}

/-- What `foreach` hands to its function, in order. -/
def spans : Slice K → List (Span K)
  | .entireRange => [⟨none, none⟩]
  | .emptyRange => []
  | .fromLeft endKey => [⟨none, some endKey⟩]
  | .toRight startKey => [⟨some startKey, none⟩]
  | .boundedSlice startKey endKey => [⟨some startKey, some endKey⟩]
  | .compositeSlice slices => slices.flatMap spans

theorem spans_entireRange : (.entireRange : Slice K).spans = [⟨none, none⟩] := by simp [spans]

theorem spans_emptyRange : (.emptyRange : Slice K).spans = [] := by simp [spans]

theorem spans_fromLeft (endKey : K) : (Slice.fromLeft endKey).spans = [⟨none, some endKey⟩] := by
  simp [spans]

theorem spans_toRight (startKey : K) : (Slice.toRight startKey).spans = [⟨some startKey, none⟩] := by
  simp [spans]

theorem spans_boundedSlice (startKey endKey : K) :
    (Slice.boundedSlice startKey endKey).spans = [⟨some startKey, some endKey⟩] := by
  simp [spans]

theorem spans_compositeSlice (slices : List (Slice K)) :
    (Slice.compositeSlice slices).spans = slices.flatMap spans := by
  simp [spans]

/-- How a slice enters the list of a composite one. -/
def parts : Slice K → List (Slice K)
  | .compositeSlice slices => slices
  | .emptyRange => []
  | slice => [slice]

def composite : List (Slice K) → Slice K
  | [] => .emptyRange
  | [slice] => slice
  | slices => .compositeSlice slices

def cannotRemoveComposite : Failure := .unsupportedOperation "Cannot remove composite for now"

variable [LinearOrder K]

/-- The constructor of a bounded slice with its assertion. -/
def bounded (startKey endKey : K) : Except Failure (Slice K) :=
  if startKey < endKey then .ok (.boundedSlice startKey endKey) else .error (.assertion "assertion failed")

/-- `Slice.apply`. -/
def ofBounds : Option K → Option K → Except Failure (Slice K)
  | some startKey, some endKey => bounded startKey endKey
  | some startKey, none => .ok (.toRight startKey)
  | none, some endKey => .ok (.fromLeft endKey)
  | none, none => .ok .entireRange

def removeFromEntire : Slice K → Except Failure (Slice K)
  | .entireRange => .ok .emptyRange
  | .emptyRange => .ok .entireRange
  | .fromLeft endKey => .ok (.toRight endKey)
  | .toRight startKey => .ok (.fromLeft startKey)
  | .boundedSlice startKey endKey => .ok (.compositeSlice [.fromLeft startKey, .toRight endKey])
  | .compositeSlice _ => .error cannotRemoveComposite

def removeFromLeft (endKey : K) : Slice K → Except Failure (Slice K)
  | .entireRange => .ok .emptyRange
  | .emptyRange => .ok (.fromLeft endKey)
  | .fromLeft thatEndKey =>
      if endKey ≤ thatEndKey then .ok .emptyRange
      else bounded (min endKey thatEndKey) (max endKey thatEndKey)
  | .toRight startKey => if endKey ≤ startKey then .ok (.fromLeft endKey) else .ok (.fromLeft startKey)
  | .boundedSlice thatStartKey thatEndKey =>
      if endKey ≤ thatStartKey then .ok (.fromLeft endKey)
      else if endKey ≤ thatEndKey then .ok (.fromLeft thatStartKey)
      else do return .compositeSlice [.fromLeft thatStartKey, ← bounded thatEndKey endKey]
  | .compositeSlice _ => .error cannotRemoveComposite

def removeToRight (startKey : K) : Slice K → Except Failure (Slice K)
  | .entireRange => .ok .emptyRange
  | .emptyRange => .ok (.toRight startKey)
  | .fromLeft thatEndKey =>
      if thatEndKey ≤ startKey then .ok (.toRight startKey) else .ok (.toRight thatEndKey)
  | .toRight thatStartKey =>
      if thatStartKey ≤ startKey then .ok .emptyRange
      else bounded (min startKey thatStartKey) (max startKey thatStartKey)
  | .boundedSlice thatStartKey thatEndKey =>
      if thatEndKey ≤ startKey then .ok (.toRight startKey)
      else if thatStartKey ≤ startKey then .ok (.toRight thatEndKey)
      else do return .compositeSlice [← bounded startKey thatStartKey, .toRight thatEndKey]
  | .compositeSlice _ => .error cannotRemoveComposite

def removeFromBounded (startKey endKey : K) : Slice K → Except Failure (Slice K)
  | .entireRange => .ok .emptyRange
  | .emptyRange => .ok (.boundedSlice startKey endKey)
  | .fromLeft thatEndKey =>
      if thatEndKey ≤ startKey then .ok (.boundedSlice startKey endKey)
      else if thatEndKey < endKey then bounded thatEndKey endKey
      else .ok .emptyRange
  | .toRight thatStartKey =>
      if endKey ≤ thatStartKey then .ok (.boundedSlice startKey endKey)
      else if startKey < thatStartKey then bounded startKey thatStartKey
      else .ok .emptyRange
  | .boundedSlice thatStartKey thatEndKey =>
      if thatStartKey = startKey ∧ thatEndKey = endKey then .ok .emptyRange
      else if endKey ≤ thatStartKey ∨ thatEndKey ≤ startKey then .ok (.boundedSlice startKey endKey)
      else if thatStartKey ≤ startKey then
        if thatEndKey < endKey then bounded thatEndKey endKey else .ok .emptyRange
      else if thatEndKey < endKey then do
        return .compositeSlice [← bounded startKey thatStartKey, ← bounded thatEndKey endKey]
      else bounded startKey thatStartKey
  | .compositeSlice _ => .error cannotRemoveComposite

mutual

def remove : Slice K → Slice K → Except Failure (Slice K)
  | .entireRange, slice => removeFromEntire slice
  | .emptyRange, _ => .ok .emptyRange
  | .fromLeft endKey, slice => removeFromLeft endKey slice
  | .toRight startKey, slice => removeToRight startKey slice
  | .boundedSlice startKey endKey, slice => removeFromBounded startKey endKey slice
  | .compositeSlice slices, slice =>
      match slice with
      | .compositeSlice _ => .error cannotRemoveComposite
      | slice => do return composite (← removeFromEach slices slice)

def removeFromEach : List (Slice K) → Slice K → Except Failure (List (Slice K))
  | [], _ => .ok []
  | first :: rest, slice => do
      let left ← remove first slice
      return left.parts ++ (← removeFromEach rest slice)

end

/-- A slice that stands in the list of a composite one. -/
def Piece : Slice K → Prop
  | .boundedSlice startKey endKey => startKey < endKey
  | .compositeSlice _ => False
  | _ => True

def WellFormed : Slice K → Prop
  | .compositeSlice slices => ∀ slice ∈ slices, Piece slice
  | slice => Piece slice

/-- A slice made from its two ends. -/
structure Made (span : Span K) (slice : Slice K) : Prop where
  made : ofBounds span.lower span.upper = .ok slice
  proper : span.Proper

theorem bounded_eq_ok {startKey endKey : K} (less : startKey < endKey) :
    bounded startKey endKey = .ok (.boundedSlice startKey endKey) :=
  if_pos less

theorem ofBounds_made {span : Span K} (proper : span.Proper) : ∃ slice, Made span slice := by
  obtain ⟨_ | startKey, _ | endKey⟩ := span
  · exact ⟨_, rfl, proper⟩
  · exact ⟨_, rfl, proper⟩
  · exact ⟨_, rfl, proper⟩
  · exact ⟨_, bounded_eq_ok (proper startKey rfl endKey rfl), proper⟩

theorem ofBounds_improper {span : Span K} (improper : ¬ span.Proper) :
    ofBounds span.lower span.upper = .error (.assertion "assertion failed") := by
  obtain ⟨_ | startKey, _ | endKey⟩ := span
  · exact absurd (by simp [Span.Proper]) improper
  · exact absurd (by simp [Span.Proper]) improper
  · exact absurd (by simp [Span.Proper]) improper
  · exact if_neg fun less => improper (by simpa [Span.Proper] using less)

theorem Made.spans {span : Span K} {slice : Slice K} (made : Made span slice) : slice.spans = [span] := by
  obtain ⟨made, proper⟩ := made
  obtain ⟨_ | startKey, _ | endKey⟩ := span
  · cases made; simp [Slice.spans]
  · cases made; simp [Slice.spans]
  · cases made; simp [Slice.spans]
  · cases (bounded_eq_ok (proper startKey rfl endKey rfl)).symm.trans made
    simp [Slice.spans]

theorem Made.piece {span : Span K} {slice : Slice K} (made : Made span slice) : Piece slice := by
  obtain ⟨made, proper⟩ := made
  obtain ⟨_ | startKey, _ | endKey⟩ := span
  · cases made; trivial
  · cases made; trivial
  · cases made; trivial
  · cases (bounded_eq_ok (proper startKey rfl endKey rfl)).symm.trans made
    exact proper startKey rfl endKey rfl

theorem Piece.wellFormed {slice : Slice K} (piece : Piece slice) : slice.WellFormed := by
  cases slice with
  | compositeSlice slices => exact piece.elim
  | _ => exact piece

/-- The result of taking `removed` out of a slice. -/
structure Removed (slice : Slice K) (removed : Span K) (left : Slice K) : Prop where
  wellFormed : left.WellFormed
  difference : Span.Difference slice.spans removed left.spans

section

variable {slice left first second : Slice K} {given removed kept start stop : Span K}

theorem Removed.nothing (whole : slice.spans = [given])
    (covered : ∀ key, given.contains key → removed.contains key) : Removed slice removed .emptyRange := by
  refine ⟨trivial, ?_⟩
  rw [whole, spans_emptyRange]
  exact .nothing covered

theorem Removed.one (whole : slice.spans = [given]) (part : left.spans = [kept]) (piece : Piece left)
    (rest : ∀ key, kept.contains key ↔ given.contains key ∧ ¬ removed.contains key)
    (inside : kept.Inside given) : Removed slice removed left := by
  refine ⟨piece.wellFormed, ?_⟩
  rw [whole, part]
  exact .one rest inside

theorem Removed.two (whole : slice.spans = [given]) (firstPart : first.spans = [start])
    (secondPart : second.spans = [stop]) (firstPiece : Piece first) (secondPiece : Piece second)
    (rest : ∀ key, (start.contains key ∨ stop.contains key) ↔ given.contains key ∧ ¬ removed.contains key)
    (left : start.Inside given) (right : stop.Inside given) :
    Removed slice removed (.compositeSlice [first, second]) := by
  refine ⟨?_, ?_⟩
  · intro part member
    rcases List.mem_cons.mp member with rfl | member
    · exact firstPiece
    · cases List.mem_singleton.mp member
      exact secondPiece
  · rw [whole, spans_compositeSlice, List.flatMap_cons, List.flatMap_singleton, firstPart, secondPart]
    exact .two rest left right

end

theorem removeFromEntire_removed {span : Span K} {removed : Slice K} (made : Made span removed) :
    ∃ left, removeFromEntire removed = .ok left ∧ Removed .entireRange span left := by
  obtain ⟨made, proper⟩ := made
  have whole := @spans_entireRange K
  obtain ⟨_ | thatStartKey, _ | thatEndKey⟩ := span
  · cases made
    exact ⟨_, rfl, .nothing whole fun _ _ => rfl⟩
  · cases made
    refine ⟨_, rfl, .one whole (spans_toRight thatEndKey) trivial (fun key => ?_) ?_⟩
    · grind [Span.contains, Option.all]
    · simp [Span.Inside]
  · cases made
    refine ⟨_, rfl, .one whole (spans_fromLeft thatStartKey) trivial (fun key => ?_) ?_⟩
    · grind [Span.contains, Option.all]
    · simp [Span.Inside]
  · have less := proper thatStartKey rfl thatEndKey rfl
    cases (bounded_eq_ok less).symm.trans made
    refine ⟨_, rfl, .two whole (spans_fromLeft thatStartKey) (spans_toRight thatEndKey) trivial trivial
      (fun key => ?_) ?_ ?_⟩
    · grind [Span.contains, Option.all]
    · simp [Span.Inside]
    · simp [Span.Inside]

theorem removeFromLeft_removed {endKey : K} {span : Span K} {removed : Slice K}
    (made : Made span removed) :
    ∃ left, removeFromLeft endKey removed = .ok left ∧ Removed (.fromLeft endKey) span left := by
  obtain ⟨made, proper⟩ := made
  have whole := spans_fromLeft endKey
  obtain ⟨_ | thatStartKey, _ | thatEndKey⟩ := span
  · cases made
    exact ⟨_, rfl, .nothing whole fun _ _ => rfl⟩
  · cases made
    simp only [removeFromLeft]
    split
    · refine ⟨_, rfl, .nothing whole fun key => ?_⟩
      grind [Span.contains, Option.all]
    · rename_i beyond
      have less := not_le.mp beyond
      rw [min_eq_right less.le, max_eq_left less.le, bounded_eq_ok less]
      refine ⟨_, rfl, .one whole (spans_boundedSlice thatEndKey endKey) less (fun key => ?_) ?_⟩
      · grind [Span.contains, Option.all]
      · simp [Span.Inside]
  · cases made
    simp only [removeFromLeft]
    split
    · refine ⟨_, rfl, .one whole whole trivial (fun key => ?_) (.refl _)⟩
      grind [Span.contains, Option.all]
    · rename_i beyond
      refine ⟨_, rfl, .one whole (spans_fromLeft thatStartKey) trivial (fun key => ?_) ?_⟩
      · grind [Span.contains, Option.all]
      · simpa [Span.Inside] using (not_le.mp beyond).le
  · have less := proper thatStartKey rfl thatEndKey rfl
    cases (bounded_eq_ok less).symm.trans made
    simp only [removeFromLeft]
    split
    · refine ⟨_, rfl, .one whole whole trivial (fun key => ?_) (.refl _)⟩
      grind [Span.contains, Option.all]
    · rename_i early
      have inside := (not_le.mp early).le
      split
      · refine ⟨_, rfl, .one whole (spans_fromLeft thatStartKey) trivial (fun key => ?_) ?_⟩
        · grind [Span.contains, Option.all]
        · simpa [Span.Inside] using inside
      · rename_i late
        rw [bounded_eq_ok (not_le.mp late)]
        refine ⟨_, rfl, .two whole (spans_fromLeft thatStartKey) (spans_boundedSlice thatEndKey endKey) trivial
          (not_le.mp late) (fun key => ?_) ?_ ?_⟩
        · grind [Span.contains, Option.all]
        · simpa [Span.Inside] using inside
        · simp [Span.Inside]

theorem removeToRight_removed {startKey : K} {span : Span K} {removed : Slice K}
    (made : Made span removed) :
    ∃ left, removeToRight startKey removed = .ok left ∧ Removed (.toRight startKey) span left := by
  obtain ⟨made, proper⟩ := made
  have whole := spans_toRight startKey
  obtain ⟨_ | thatStartKey, _ | thatEndKey⟩ := span
  · cases made
    exact ⟨_, rfl, .nothing whole fun _ _ => rfl⟩
  · cases made
    simp only [removeToRight]
    split
    · refine ⟨_, rfl, .one whole whole trivial (fun key => ?_) (.refl _)⟩
      grind [Span.contains, Option.all]
    · rename_i apart
      refine ⟨_, rfl, .one whole (spans_toRight thatEndKey) trivial (fun key => ?_) ?_⟩
      · grind [Span.contains, Option.all]
      · simpa [Span.Inside] using (not_le.mp apart).le
  · cases made
    simp only [removeToRight]
    split
    · refine ⟨_, rfl, .nothing whole fun key => ?_⟩
      grind [Span.contains, Option.all]
    · rename_i apart
      have less := not_le.mp apart
      rw [min_eq_left less.le, max_eq_right less.le, bounded_eq_ok less]
      refine ⟨_, rfl, .one whole (spans_boundedSlice startKey thatStartKey) less (fun key => ?_) ?_⟩
      · grind [Span.contains, Option.all]
      · simp [Span.Inside]
  · have less := proper thatStartKey rfl thatEndKey rfl
    cases (bounded_eq_ok less).symm.trans made
    simp only [removeToRight]
    split
    · refine ⟨_, rfl, .one whole whole trivial (fun key => ?_) (.refl _)⟩
      grind [Span.contains, Option.all]
    · rename_i late
      have inside := (not_le.mp late).le
      split
      · refine ⟨_, rfl, .one whole (spans_toRight thatEndKey) trivial (fun key => ?_) ?_⟩
        · grind [Span.contains, Option.all]
        · simpa [Span.Inside] using inside
      · rename_i early
        rw [bounded_eq_ok (not_le.mp early)]
        refine ⟨_, rfl, .two whole (spans_boundedSlice startKey thatStartKey) (spans_toRight thatEndKey)
          (not_le.mp early) trivial (fun key => ?_) ?_ ?_⟩
        · grind [Span.contains, Option.all]
        · simp [Span.Inside]
        · simpa [Span.Inside] using inside

theorem removeFromBounded_bounded {startKey endKey thatStartKey thatEndKey : K} (room : startKey < endKey) :
    ∃ left, removeFromBounded startKey endKey (.boundedSlice thatStartKey thatEndKey) = .ok left ∧
      Removed (.boundedSlice startKey endKey) ⟨some thatStartKey, some thatEndKey⟩ left := by
  have whole := spans_boundedSlice startKey endKey
  simp only [removeFromBounded]
  split
  · refine ⟨_, rfl, .nothing whole fun key => ?_⟩
    grind [Span.contains, Option.all]
  · split
    · refine ⟨_, rfl, .one whole whole room (fun key => ?_) (.refl _)⟩
      grind [Span.contains, Option.all]
    · rename_i meets
      obtain ⟨begins, ends⟩ := not_or.mp meets
      have low := (not_le.mp ends).le
      have high := (not_le.mp begins).le
      split
      · split
        · rename_i early
          rw [bounded_eq_ok early]
          refine ⟨_, rfl, .one whole (spans_boundedSlice thatEndKey endKey) early (fun key => ?_) ?_⟩
          · grind [Span.contains, Option.all]
          · simpa [Span.Inside] using low
        · refine ⟨_, rfl, .nothing whole fun key => ?_⟩
          grind [Span.contains, Option.all]
      · rename_i late
        have before := not_le.mp late
        split
        · rename_i early
          rw [bounded_eq_ok early, bounded_eq_ok before]
          refine ⟨_, rfl, .two whole (spans_boundedSlice startKey thatStartKey)
            (spans_boundedSlice thatEndKey endKey) before early (fun key => ?_) ?_ ?_⟩
          · grind [Span.contains, Option.all]
          · simpa [Span.Inside] using high
          · simpa [Span.Inside] using low
        · rw [bounded_eq_ok before]
          refine ⟨_, rfl, .one whole (spans_boundedSlice startKey thatStartKey) before (fun key => ?_) ?_⟩
          · grind [Span.contains, Option.all]
          · simpa [Span.Inside] using high

theorem removeFromBounded_removed {startKey endKey : K} {span : Span K} {removed : Slice K}
    (room : startKey < endKey) (made : Made span removed) :
    ∃ left, removeFromBounded startKey endKey removed = .ok left ∧
      Removed (.boundedSlice startKey endKey) span left := by
  obtain ⟨made, proper⟩ := made
  have whole := spans_boundedSlice startKey endKey
  obtain ⟨_ | thatStartKey, _ | thatEndKey⟩ := span
  · cases made
    exact ⟨_, rfl, .nothing whole fun _ _ => rfl⟩
  · cases made
    simp only [removeFromBounded]
    split
    · refine ⟨_, rfl, .one whole whole room (fun key => ?_) (.refl _)⟩
      grind [Span.contains, Option.all]
    · rename_i late
      split
      · rename_i early
        rw [bounded_eq_ok early]
        refine ⟨_, rfl, .one whole (spans_boundedSlice thatEndKey endKey) early (fun key => ?_) ?_⟩
        · grind [Span.contains, Option.all]
        · simpa [Span.Inside] using (not_le.mp late).le
      · refine ⟨_, rfl, .nothing whole fun key => ?_⟩
        grind [Span.contains, Option.all]
  · cases made
    simp only [removeFromBounded]
    split
    · refine ⟨_, rfl, .one whole whole room (fun key => ?_) (.refl _)⟩
      grind [Span.contains, Option.all]
    · rename_i early
      split
      · rename_i late
        rw [bounded_eq_ok late]
        refine ⟨_, rfl, .one whole (spans_boundedSlice startKey thatStartKey) late (fun key => ?_) ?_⟩
        · grind [Span.contains, Option.all]
        · simpa [Span.Inside] using (not_le.mp early).le
      · refine ⟨_, rfl, .nothing whole fun key => ?_⟩
        grind [Span.contains, Option.all]
  · have less := proper thatStartKey rfl thatEndKey rfl
    cases (bounded_eq_ok less).symm.trans made
    exact removeFromBounded_bounded room

theorem piece_removed {slice removed : Slice K} {span : Span K} (piece : Piece slice)
    (made : Made span removed) : ∃ left, slice.remove removed = .ok left ∧ Removed slice span left := by
  cases slice with
  | entireRange => simpa only [remove] using removeFromEntire_removed made
  | emptyRange =>
      refine ⟨.emptyRange, by simp only [remove], trivial, ?_, ?_⟩
      all_goals simp [spans, Span.covers]
  | fromLeft endKey => simpa only [remove] using removeFromLeft_removed made
  | toRight startKey => simpa only [remove] using removeToRight_removed made
  | boundedSlice startKey endKey => simpa only [remove] using removeFromBounded_removed piece made
  | compositeSlice slices => exact piece.elim

theorem WellFormed.parts {slice : Slice K} (wellFormed : slice.WellFormed) :
    ∀ part ∈ slice.parts, Piece part := by
  cases slice with
  | emptyRange => simp [Slice.parts]
  | compositeSlice slices => exact wellFormed
  | _ => simpa [Slice.parts, WellFormed] using wellFormed

omit [LinearOrder K] in
theorem parts_spans (slice : Slice K) : slice.parts.flatMap spans = slice.spans := by
  cases slice <;> simp [parts, spans]

theorem composite_wellFormed {slices : List (Slice K)} (pieces : ∀ slice ∈ slices, Piece slice) :
    (composite slices).WellFormed := by
  match slices with
  | [] => trivial
  | [slice] => exact (pieces slice (by simp)).wellFormed
  | _ :: _ :: _ => exact pieces

omit [LinearOrder K] in
theorem composite_spans (slices : List (Slice K)) : (composite slices).spans = slices.flatMap spans := by
  match slices with
  | [] => simp [composite, spans]
  | [slice] => simp [composite]
  | _ :: _ :: _ => simp [composite, spans]

theorem removeFromEach_removed {slices : List (Slice K)} {removed : Slice K} {span : Span K}
    (pieces : ∀ slice ∈ slices, Piece slice) (made : Made span removed) :
    ∃ left, removeFromEach slices removed = .ok left ∧ (∀ slice ∈ left, Piece slice) ∧
      Span.Difference (slices.flatMap spans) span (left.flatMap spans) := by
  induction slices with
  | nil =>
      refine ⟨[], by simp only [removeFromEach], by simp, ⟨?_, ?_⟩⟩
      all_goals simp [Span.covers]
  | cons first rest ih =>
      obtain ⟨left, taken, result⟩ := piece_removed (pieces first (by simp)) made
      obtain ⟨others, each, kept, difference⟩ := ih fun slice member => pieces slice (by simp [member])
      refine ⟨left.parts ++ others, by simp [removeFromEach, taken, each], ?_, ?_⟩
      · intro slice member
        rcases List.mem_append.mp member with member | member
        · exact result.wellFormed.parts slice member
        · exact kept slice member
      · rw [List.flatMap_append, parts_spans, List.flatMap_cons]
        exact result.difference.append difference

/-- Taking a range out of a well-formed slice succeeds and leaves the rest of it. -/
theorem remove_removed {slice removed : Slice K} {span : Span K} (wellFormed : slice.WellFormed)
    (made : Made span removed) : ∃ left, slice.remove removed = .ok left ∧ Removed slice span left := by
  cases slice with
  | compositeSlice slices =>
      obtain ⟨left, each, pieces, difference⟩ := removeFromEach_removed wellFormed made
      refine ⟨composite left, ?_, composite_wellFormed pieces, ?_⟩
      · cases removed with
        | compositeSlice slices => exact made.piece.elim
        | _ => simp only [remove, each, ok_bind, pure_eq_ok]
      · rw [composite_spans]
        simpa only [spans] using difference
  | _ => exact piece_removed wellFormed made

end Slice

end Scads.Util
