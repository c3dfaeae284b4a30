namespace Scads.Data

/-! Objects with calls.

`perform` gives the answer of a call and the state after it.  Two objects with the
same answers to all calls cannot be told apart.
-/

section

variable {σ τ ι ω : Type} {perform : σ → ι → ω × σ} {other : τ → ι → ω × τ}

/-- The answers to the calls, in their order, and the state after them. -/
def transcript (perform : σ → ι → ω × σ) : σ → List ι → List ω × σ
  | state, [] => ([], state)
  | state, call :: rest =>
      let (answers, final) := transcript perform (perform state call).2 rest
      ((perform state call).1 :: answers, final)

/-- Every state that the calls lead to is allowed. -/
def Throughout (perform : σ → ι → ω × σ) (allowed : σ → Prop) : σ → List ι → Prop
  | _, [] => True
  | state, call :: rest => allowed (perform state call).2 ∧ Throughout perform allowed (perform state call).2 rest

/-- An object gives the answers of another one if related states do, call by call. -/
theorem transcript_simulates {related : σ → τ → Prop} {allowed : τ → Prop}
    (each : ∀ {state abstract} (call : ι), related state abstract → allowed (other abstract call).2 →
      (perform state call).1 = (other abstract call).1 ∧ related (perform state call).2 (other abstract call).2)
    {state : σ} {abstract : τ} {calls : List ι} (start : related state abstract)
    (throughout : Throughout other allowed abstract calls) :
    (transcript perform state calls).1 = (transcript other abstract calls).1 ∧
      related (transcript perform state calls).2 (transcript other abstract calls).2 := by
  induction calls generalizing state abstract with
  | nil => exact ⟨rfl, start⟩
  | cons call rest ih =>
      obtain ⟨same, next⟩ := each call start throughout.1
      obtain ⟨answers, final⟩ := ih next throughout.2
      exact ⟨by simp only [transcript, same, answers], final⟩

end

end Scads.Data
