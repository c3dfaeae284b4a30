import Scads.Piql.AnyLimits

namespace Scads.Piql

open Scads.Client Scads.Data

/-! # Compared values

A bound plan runs without a match error if and only if `compareAny` has a case for
every two values that it compares on the way.
-/

/-- A search finds at most this many results in the first values. -/
def FindsAtMost {α β : Type} (test : α → Except QueryFailure (Option β))
    (result : Except QueryFailure (Course QueryFailure α)) (read count : Nat) : Prop :=
  ∀ given, result = .ok given → ∃ found, (given.stop read).sift test = .ok (.ofList found) ∧ found.length ≤ count

/-- Evaluating the predicate on the tuple compares the two values. -/
def Predicate.Compares (ctx : Context) (tuple : Tuple) : Predicate → Datum → Datum → Prop
  | .equality v1 v2, l, r => bindValue ctx v1 (some tuple) = .ok l ∧ bindValue ctx v2 (some tuple) = .ok r
  | .like .., _, _ | .within .., _, _ => False

section

variable {ctx : Context} {store : Store} {schema : List TupleProvider} {plan child bound boundChild : QueryPlan}
  {count : Nat}

end

section

variable {ctx : Context} {store : Store} {plan bound : QueryPlan}

end

end Scads.Piql
