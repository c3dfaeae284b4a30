import Mathlib.Order.Lattice

namespace Scads.Data

/-! Half-open spans of a line, from a lower end on and up to an upper end.

An end that is `none` is open, so a span reaches as far as the line does there.
-/

structure Span (K : Type u) where
  lower : Option K
  upper : Option K
deriving DecidableEq, Repr

namespace Span

variable {K : Type u} [LinearOrder K] {span other outer : Span K} {key : K}

def contains (span : Span K) (key : K) : Bool :=
  span.lower.all (· ≤ key) && span.upper.all (key < ·)

/-- A span with both ends has room between them. -/
def Proper (span : Span K) : Prop :=
  ∀ low ∈ span.lower, ∀ high ∈ span.upper, low < high

/-- The ends of a span lie between those of another one. -/
def Inside (span outer : Span K) : Prop :=
  (∀ low ∈ outer.lower, ∃ start ∈ span.lower, low ≤ start) ∧
    ∀ high ∈ outer.upper, ∃ stop ∈ span.upper, stop ≤ high

theorem Inside.refl (span : Span K) : span.Inside span :=
  ⟨fun low given => ⟨low, given, le_refl low⟩, fun high given => ⟨high, given, le_refl high⟩⟩

theorem Inside.trans (first : span.Inside other) (second : other.Inside outer) : span.Inside outer := by
  constructor
  · intro low given
    obtain ⟨middle, known, below⟩ := second.1 low given
    obtain ⟨start, found, above⟩ := first.1 middle known
    exact ⟨start, found, below.trans above⟩
  · intro high given
    obtain ⟨middle, known, above⟩ := second.2 high given
    obtain ⟨stop, found, below⟩ := first.2 middle known
    exact ⟨stop, found, below.trans above⟩

/-- A list of spans taken together. -/
def covers (spans : List (Span K)) (key : K) : Bool :=
  spans.any (·.contains key)

theorem covers_append (first second : List (Span K)) (key : K) :
    covers (first ++ second) key = (covers first key || covers second key) :=
  List.any_append

/-- The parts of `spans` that a removed span leaves. -/
structure Difference (spans : List (Span K)) (removed : Span K) (left : List (Span K)) : Prop where
  covers_iff : ∀ key, covers left key ↔ covers spans key ∧ ¬ removed.contains key
  inside : ∀ span ∈ left, ∃ outer ∈ spans, span.Inside outer

section

variable {given removed kept first second : Span K}

theorem Difference.nothing (covered : ∀ key, given.contains key → removed.contains key) :
    Difference [given] removed [] where
  covers_iff key := by
    simp only [covers, List.any_nil, List.any_cons, Bool.or_false, Bool.false_eq_true, false_iff, not_and,
      not_not]
    exact covered key
  inside span member := by cases member

theorem Difference.one (rest : ∀ key, kept.contains key ↔ given.contains key ∧ ¬ removed.contains key)
    (inside : kept.Inside given) : Difference [given] removed [kept] where
  covers_iff key := by
    simp only [covers, List.any_nil, List.any_cons, Bool.or_false]
    exact rest key
  inside span member := by
    cases List.mem_singleton.mp member
    exact ⟨given, List.mem_singleton_self given, inside⟩

theorem Difference.two
    (rest : ∀ key, (first.contains key ∨ second.contains key) ↔ given.contains key ∧ ¬ removed.contains key)
    (left : first.Inside given) (right : second.Inside given) :
    Difference [given] removed [first, second] where
  covers_iff key := by
    simp only [covers, List.any_nil, List.any_cons, Bool.or_false, Bool.or_eq_true]
    exact rest key
  inside span member := by
    refine ⟨given, List.mem_singleton_self given, ?_⟩
    rcases List.mem_cons.mp member with rfl | member
    · exact left
    · cases List.mem_singleton.mp member
      exact right

end

theorem Difference.append {removed : Span K} {first second firstLeft secondLeft : List (Span K)}
    (one : Difference first removed firstLeft) (two : Difference second removed secondLeft) :
    Difference (first ++ second) removed (firstLeft ++ secondLeft) where
  covers_iff key := by
    rw [covers_append, covers_append, Bool.or_eq_true, Bool.or_eq_true, one.covers_iff, two.covers_iff]
    exact or_and_right.symm
  inside span member := by
    rcases List.mem_append.mp member with member | member
    · obtain ⟨outer, known, within⟩ := one.inside span member
      exact ⟨outer, List.mem_append_left _ known, within⟩
    · obtain ⟨outer, known, within⟩ := two.inside span member
      exact ⟨outer, List.mem_append_right _ known, within⟩

end Span

end Scads.Data
