import Mathlib.Data.List.Infix
import Mathlib.Data.List.Forall2
import Mathlib.Data.List.TakeWhile

namespace Scads.Data

/-! # Words that are written one after the other

A sequence of words can be read back from the left if every word ends where what
follows it cannot belong to it any more.
-/

variable {χ : Type u}

/-- The words of one kind, and what may follow them so that they can be told apart from it. -/
structure Lexeme (χ : Type u) where
  words : List χ → Prop
  ends : List χ → Prop
  readable : ∀ {first second after later}, words first → words second → ends after → ends later →
    first ++ after = second ++ later → first = second ∧ after = later

namespace Lexeme

/-- Words of which none begins another one. -/
def prefixFree (words : List χ → Prop)
    (free : ∀ {first second}, words first → words second → first <+: second → first = second) : Lexeme χ where
  words := words
  ends := fun _ => True
  readable := by
    intro first second after later one other _ _ same
    have equal : first = second := by
      cases List.prefix_or_prefix_of_prefix (List.prefix_append first after) (same ▸ List.prefix_append second later) with
      | inl shorter => exact free one other shorter
      | inr longer => exact (free other one longer).symm
    subst equal
    exact ⟨rfl, List.append_cancel_left same⟩

/-- Words of some letters, which end at any other letter. -/
def spanning (letter : χ → Bool) : Lexeme χ where
  words := fun word => ∀ char ∈ word, letter char = true
  ends := fun after => ∀ char ∈ after.head?, letter char = false
  readable := by
    intro first second after later one other stops ends same
    have span : ∀ {word rest : List χ}, (∀ char ∈ word, letter char = true) →
        (∀ char ∈ rest.head?, letter char = false) → (word ++ rest).takeWhile letter = word := by
      intro word rest all stop
      rw [List.takeWhile_append_of_pos all]
      cases rest with
      | nil => exact List.append_nil _
      | cons char rest =>
          rw [List.takeWhile_cons_of_neg (Bool.eq_false_iff.mp (stop char rfl)), List.append_nil]
    have equal : first = second := by
      rw [← span one stops, same, span other ends]
    subst equal
    exact ⟨rfl, List.append_cancel_left same⟩

/-- A word of the first kind ends where one of the second begins. -/
def Before (first second : Lexeme χ) : Prop := ∀ word, second.words word → ∀ rest, first.ends (word ++ rest)

/-- A sequence of words can be read back if every word ends before the next one. -/
theorem read_all {lexemes : List (Lexeme χ)} (chain : lexemes.IsChain Before) {firsts seconds : List (List χ)}
    (one : List.Forall₂ words lexemes firsts) (other : List.Forall₂ words lexemes seconds) {after later : List χ}
    (stops : ∀ lexeme ∈ lexemes.getLast?, lexeme.ends after) (ends : ∀ lexeme ∈ lexemes.getLast?, lexeme.ends later)
    (same : firsts.flatten ++ after = seconds.flatten ++ later) : firsts = seconds ∧ after = later := by
  induction lexemes generalizing firsts seconds with
  | nil =>
      cases one
      cases other
      exact ⟨rfl, same⟩
  | cons lexeme rest ih =>
      cases one with
      | cons here theirs =>
          cases other with
          | cons also others =>
              rw [List.flatten_cons, List.flatten_cons, List.append_assoc, List.append_assoc] at same
              have delimited : ∀ {words : List (List χ)} {final : List χ}, List.Forall₂ Lexeme.words rest words →
                  (∀ last ∈ (lexeme :: rest).getLast?, last.ends final) → lexeme.ends (words.flatten ++ final) := by
                intro words final fit stop
                cases fit with
                | nil => exact stop lexeme rfl
                | cons next _ =>
                    rw [List.flatten_cons, List.append_assoc]
                    exact (List.isChain_cons_cons.mp chain).1 _ next _
              obtain ⟨equal, left⟩ := lexeme.readable here also (delimited theirs stops) (delimited others ends) same
              have last : ∀ {final : List χ}, (∀ last ∈ (lexeme :: rest).getLast?, last.ends final) →
                  ∀ last ∈ rest.getLast?, last.ends final := by
                intro final stop last member
                refine stop last ?_
                rw [List.getLast?_cons, Option.mem_def.mp member]
                rfl
              obtain ⟨words, finals⟩ := ih chain.of_cons theirs others (last stops) (last ends) left
              exact ⟨by rw [equal, words], finals⟩

end Lexeme

end Scads.Data
