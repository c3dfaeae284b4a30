namespace Scads.Data

/-! Runs of a labelled transition function.

`step state event` is `none` where the event is not enabled.  A run takes a list
of events, and a property of all runs follows from one step.
-/

section

variable {σ ε : Type} {step : σ → ε → Option σ}

def run (step : σ → ε → Option σ) : σ → List ε → Option σ
  | state, [] => some state
  | state, event :: rest =>
      match step state event with
      | none => none
      | some next => run step next rest

theorem run_cons {state final : σ} {event : ε} {rest : List ε}
    (ran : run step state (event :: rest) = some final) :
    ∃ next, step state event = some next ∧ run step next rest = some final := by
  cases taken : step state event with
  | none => simp [run, taken] at ran
  | some next => exact ⟨next, rfl, by simpa [run, taken] using ran⟩

theorem run_append {state final : σ} {first second : List ε} :
    run step state (first ++ second) = some final ↔
      ∃ middle, run step state first = some middle ∧ run step middle second = some final := by
  induction first generalizing state with
  | nil => simp [run]
  | cons event rest ih =>
      cases taken : step state event with
      | none => simp [run, taken]
      | some next => simpa [run, taken] using ih

theorem run_snoc {state final : σ} {past : List ε} {event : ε} :
    run step state (past ++ [event]) = some final ↔
      ∃ middle, run step state past = some middle ∧ step middle event = some final := by
  rw [run_append]
  refine exists_congr fun middle => and_congr_right fun _ => ?_
  cases taken : step middle event <;> simp [run, taken]

/-- What every allowed step preserves holds at the end of every run of allowed
steps that starts with it. -/
theorem run_invariant {allowed : ε → Prop} {holds : σ → Prop} {state final : σ} {events : List ε}
    (preserved : ∀ {before event after}, allowed event → holds before →
      step before event = some after → holds after)
    (ran : run step state events = some final) (every : ∀ event ∈ events, allowed event)
    (start : holds state) : holds final := by
  induction events generalizing state with
  | nil => cases ran; exact start
  | cons event rest ih =>
      obtain ⟨next, taken, remaining⟩ := run_cons ran
      exact ih remaining (fun other member => every other (by simp [member]))
        (preserved (every event (by simp)) start taken)

/-- Every step of a run has the property. -/
def Along (step : σ → ε → Option σ) (holds : σ → ε → σ → Prop) : σ → List ε → Prop
  | _, [] => True
  | state, event :: rest =>
      match step state event with
      | none => True
      | some next => holds state event next ∧ Along step holds next rest

instance decidableAlong (holds : σ → ε → σ → Prop) [∀ before event after, Decidable (holds before event after)] :
    (state : σ) → (events : List ε) → Decidable (Along step holds state events)
  | _, [] => .isTrue trivial
  | state, event :: rest =>
      match taken : step state event with
      | none => .isTrue (by simp [Along, taken])
      | some next =>
          have := decidableAlong holds next rest
          decidable_of_iff (holds state event next ∧ Along step holds next rest) (by simp [Along, taken])

theorem along_of_forall {holds : σ → ε → σ → Prop} {state : σ} {events : List ε}
    (every : ∀ event ∈ events, ∀ before after, holds before event after) : Along step holds state events := by
  induction events generalizing state with
  | nil => trivial
  | cons event rest ih =>
      rw [Along]
      split
      · trivial
      · exact ⟨every event (by simp) _ _, ih fun other member => every other (by simp [member])⟩

/-- What holds of every event may be added to what holds along a run. -/
theorem Along.with_forall {holds : σ → ε → σ → Prop} {allowed : ε → Prop} {state : σ} {events : List ε}
    (along : Along step holds state events) (every : ∀ event ∈ events, allowed event) :
    Along step (fun before event after => allowed event ∧ holds before event after) state events := by
  induction events generalizing state with
  | nil => trivial
  | cons event rest ih =>
      cases taken : step state event with
      | none => simp [Along, taken]
      | some next =>
          simp only [Along, taken] at along ⊢
          exact ⟨⟨every event (by simp), along.1⟩,
            ih along.2 fun other member => every other (by simp [member])⟩

/-- Two properties of steps hold along the same runs if the first is the second
one wherever an invariant holds, and the second keeps the invariant. -/
theorem along_iff {first second : σ → ε → σ → Prop} {holds : σ → Prop} {state : σ} {events : List ε}
    (same : ∀ {before event after}, holds before → step before event = some after →
      (first before event after ↔ second before event after))
    (preserved : ∀ {before event after}, holds before → step before event = some after →
      second before event after → holds after)
    (start : holds state) : Along step first state events ↔ Along step second state events := by
  induction events generalizing state with
  | nil => exact Iff.rfl
  | cons event rest ih =>
      cases taken : step state event with
      | none => simp [Along, taken]
      | some next =>
          simp only [Along, taken]
          rw [same start taken]
          exact and_congr_right fun allowed => ih (preserved start taken allowed)

theorem along_invariant {allowed : σ → ε → σ → Prop} {holds : σ → Prop} {state final : σ} {events : List ε}
    (preserved : ∀ {before event after}, holds before → step before event = some after →
      allowed before event after → holds after)
    (start : holds state) (every : Along step allowed state events)
    (ran : run step state events = some final) : holds final := by
  induction events generalizing state with
  | nil => cases ran; exact start
  | cons event rest ih =>
      obtain ⟨next, taken, remaining⟩ := run_cons ran
      simp only [Along, taken] at every
      exact ih (preserved start taken every.1) every.2 remaining

/-- Where each step follows one of a specification, a run follows the run of the specification. -/
theorem along_refines {τ : Type} {allowed : σ → ε → σ → Prop} {follow : τ → ε → τ} {stands : τ → σ → Prop}
    {spec : τ} {state final : σ} {events : List ε}
    (followed : ∀ {spec before event after}, stands spec before → step before event = some after →
      allowed before event after → stands (follow spec event) after)
    (start : stands spec state) (every : Along step allowed state events)
    (ran : run step state events = some final) : stands (events.foldl follow spec) final := by
  induction events generalizing spec state with
  | nil => cases ran; exact start
  | cons event rest ih =>
      obtain ⟨next, taken, remaining⟩ := run_cons ran
      simp only [Along, taken] at every
      exact ih (followed start taken every.1) every.2 remaining

end

end Scads.Data
