import Mathlib.Logic.Function.Basic
import Scads.Data.Runs

namespace Scads.Data

/-! # Scripts that run side by side

The parties of a protocol take their steps on one shared state, in any order.  What a party
relies on is what it lets the others do between two of its own steps, and what it
guarantees is what its steps do to the state themselves.
-/

/-- The steps of a party.  A wait ends when the state is ready or when it is late. -/
inductive Script (ε σ α : Type) where
  | done (value : α)
  | failed (failure : ε)
  | act (change : σ → σ) (next : σ → Script ε σ α)
  | await (ready : σ → Bool) (next late : Script ε σ α)

namespace Script

variable {ε σ α β : Type}

def bind : Script ε σ α → (α → Script ε σ β) → Script ε σ β
  | .done value, next => next value
  | .failed failure, _ => .failed failure
  | .act change rest, next => .act change fun state => (rest state).bind next
  | .await ready rest late, next => .await ready (rest.bind next) (late.bind next)

def handle : Script ε σ α → (ε → Script ε σ α) → Script ε σ α
  | .done value, _ => .done value
  | .failed failure, handler => handler failure
  | .act change rest, handler => .act change fun state => (rest state).handle handler
  | .await ready rest late, handler => .await ready (rest.handle handler) (late.handle handler)

instance : Monad (Script ε σ) where
  pure := .done
  bind := Script.bind

instance : MonadExceptOf ε (Script ε σ) where
  throw := .failed
  tryCatch := Script.handle

/-- One step that may fail. -/
def perform (operation : σ → Except ε α × σ) : Script ε σ α :=
  .act (fun state => (operation state).2) fun state =>
    match (operation state).1 with
    | .ok value => .done value
    | .error failure => .failed failure

def step (late : Bool) : Script ε σ α → σ → Option (Script ε σ α × σ)
  | .done _, _ => none
  | .failed _, _ => none
  | .act change next, state => some (next state, change state)
  | .await ready next other, state =>
      if late then some (other, state) else if ready state then some (next, state) else none

/-- Whatever the others do that the script relies on, its own steps are as it guarantees
and it ends as promised. -/
def Safe (rely guarantee : σ → σ → Prop) (ends : α → σ → Prop) (fails : ε → σ → Prop) : Script ε σ α → σ → Prop
  | .done value, state => ∀ later, rely state later → ends value later
  | .failed failure, state => ∀ later, rely state later → fails failure later
  | .act change next, state => ∀ later, rely state later →
      guarantee later (change later) ∧ Safe rely guarantee ends fails (next later) (change later)
  | .await ready next late, state => ∀ later, rely state later →
      (ready later = true → Safe rely guarantee ends fails next later) ∧ Safe rely guarantee ends fails late later

section

variable {rely guarantee : σ → σ → Prop} {ends : α → σ → Prop} {fails : ε → σ → Prop} {state later : σ}
  {script : Script ε σ α}

theorem Safe.relied (transitive : ∀ {a b c}, rely a b → rely b c → rely a c)
    (safe : Safe rely guarantee ends fails script state) (others : rely state later) :
    Safe rely guarantee ends fails script later := by
  cases script with
  | done value => exact fun last more => safe last (transitive others more)
  | failed failure => exact fun last more => safe last (transitive others more)
  | act change next => exact fun last more => safe last (transitive others more)
  | await ready next late => exact fun last more => safe last (transitive others more)

theorem Safe.step {next : Script ε σ α} {late : Bool} (reflexive : ∀ state, rely state state)
    (idle : ∀ state, guarantee state state) (safe : Safe rely guarantee ends fails script state)
    (taken : script.step late state = some (next, later)) :
    guarantee state later ∧ Safe rely guarantee ends fails next later := by
  cases script with
  | done value => cases taken
  | failed failure => cases taken
  | act change rest =>
      cases taken
      exact safe state (reflexive state)
  | await ready rest other =>
      rw [Script.step] at taken
      split at taken
      · cases taken
        exact ⟨idle state, (safe state (reflexive state)).2⟩
      · split at taken
        · rename_i is
          cases taken
          exact ⟨idle state, (safe state (reflexive state)).1 is⟩
        · cases taken

theorem safe_done {value : α} (stable : ∀ later, rely state later → ends value later) :
    Safe rely guarantee ends fails (.done value) state := stable

theorem safe_failed {failure : ε} (stable : ∀ later, rely state later → fails failure later) :
    Safe rely guarantee ends fails (.failed failure) state := stable

/-- After a script come the scripts that its values lead to. -/
theorem Safe.bind {next : α → Script ε σ β} {after : β → σ → Prop} (reflexive : ∀ state, rely state state)
    (safe : Safe rely guarantee ends fails script state)
    (rest : ∀ value later, ends value later → Safe rely guarantee after fails (next value) later) :
    Safe rely guarantee after fails (script >>= next) state := by
  induction script generalizing state with
  | done value => exact rest value state (safe state (reflexive state))
  | failed failure => exact safe
  | act change tail ih =>
      intro later others
      obtain ⟨allowed, safe⟩ := safe later others
      exact ⟨allowed, ih later safe⟩
  | await ready tail late ihTail ihLate =>
      intro later others
      obtain ⟨safe, other⟩ := safe later others
      exact ⟨fun is => ihTail (safe is), ihLate other⟩

theorem Safe.handle {handler : ε → Script ε σ α} {caught : ε → σ → Prop} (reflexive : ∀ state, rely state state)
    (safe : Safe rely guarantee ends caught script state)
    (rest : ∀ failure later, caught failure later → Safe rely guarantee ends fails (handler failure) later) :
    Safe rely guarantee ends fails (tryCatch script handler) state := by
  induction script generalizing state with
  | done value => exact safe
  | failed failure => exact rest failure state (safe state (reflexive state))
  | act change tail ih =>
      intro later others
      obtain ⟨allowed, safe⟩ := safe later others
      exact ⟨allowed, ih later safe⟩
  | await ready tail late ihTail ihLate =>
      intro later others
      obtain ⟨safe, other⟩ := safe later others
      exact ⟨fun is => ihTail (safe is), ihLate other⟩

theorem Safe.mono {other : α → σ → Prop} {caught : ε → σ → Prop}
    (safe : Safe rely guarantee ends fails script state) (weaker : ∀ value later, ends value later → other value later)
    (milder : ∀ failure later, fails failure later → caught failure later) :
    Safe rely guarantee other caught script state := by
  induction script generalizing state with
  | done value => exact fun later others => weaker value later (safe later others)
  | failed failure => exact fun later others => milder failure later (safe later others)
  | act change tail ih =>
      intro later others
      obtain ⟨allowed, safe⟩ := safe later others
      exact ⟨allowed, ih later safe⟩
  | await ready tail late ihTail ihLate =>
      intro later others
      obtain ⟨safe, other⟩ := safe later others
      exact ⟨fun is => ihTail (safe is), ihLate other⟩

/-- A step is safe if it is allowed wherever the others may have left the state. -/
theorem safe_perform {operation : σ → Except ε α × σ}
    (allowed : ∀ later, rely state later → guarantee later (operation later).2 ∧
      ∀ last, rely (operation later).2 last →
        match (operation later).1 with
        | .ok value => ends value last
        | .error failure => fails failure last) :
    Safe rely guarantee ends fails (perform operation) state := by
  intro later others
  obtain ⟨guaranteed, outcome⟩ := allowed later others
  refine ⟨guaranteed, ?_⟩
  dsimp only
  split
  · rename_i value result
    rw [result] at outcome
    exact safe_done outcome
  · rename_i failure result
    rw [result] at outcome
    exact safe_failed outcome

/-- What the others do leaves the property alone. -/
def Stable (rely : σ → σ → Prop) (holds : σ → Prop) : Prop :=
  ∀ ⦃before after⦄, holds before → rely before after → holds after

theorem safe_perform_of_stable {operation : σ → Except ε α × σ} {holds : σ → Prop} (stable : Stable rely holds)
    (ended : ∀ value, Stable rely (ends value)) (failed : ∀ failure, Stable rely (fails failure))
    (allowed : ∀ later, holds later → guarantee later (operation later).2 ∧
      match (operation later).1 with
      | .ok value => ends value (operation later).2
      | .error failure => fails failure (operation later).2)
    (start : holds state) : Safe rely guarantee ends fails (perform operation) state := by
  refine safe_perform fun later others => ?_
  obtain ⟨guaranteed, outcome⟩ := allowed later (stable start others)
  refine ⟨guaranteed, fun last more => ?_⟩
  cases result : (operation later).1 with
  | ok value =>
      rw [result] at outcome
      exact ended value outcome more
  | error failure =>
      rw [result] at outcome
      exact failed failure outcome more

end

end Script

/-- The scripts of all parties, and the state they share. -/
structure Parties (C ε σ α : Type) where
  scripts : C → Script ε σ α
  shared : σ

/-- A party takes a step, or something happens to the state from outside. -/
inductive Turn (C ω : Type) where
  | party (client : C) (late : Bool)
  | outside (event : ω)

namespace Parties

variable {C ε σ α ω : Type} [DecidableEq C] {outside : ω → σ → σ}

def step (outside : ω → σ → σ) (parties : Parties C ε σ α) : Turn C ω → Option (Parties C ε σ α)
  | .party client late =>
      ((parties.scripts client).step late parties.shared).map fun next =>
        ⟨Function.update parties.scripts client next.1, next.2⟩
  | .outside event => some { parties with shared := outside event parties.shared }

theorem step_party {parties next : Parties C ε σ α} {client : C} {late : Bool}
    (taken : parties.step outside (.party client late) = some next) :
    ∃ script, (parties.scripts client).step late parties.shared = some (script, next.shared) ∧
      next.scripts = Function.update parties.scripts client script := by
  obtain ⟨⟨script, shared⟩, moved, rfl⟩ := Option.map_eq_some_iff.mp taken
  exact ⟨script, moved, rfl⟩

variable {rely guarantee : C → σ → σ → Prop} {ends : C → α → σ → Prop} {fails : C → ε → σ → Prop}

/-- Every party is safe. -/
def AllSafe (rely guarantee : C → σ → σ → Prop) (ends : C → α → σ → Prop) (fails : C → ε → σ → Prop)
    (parties : Parties C ε σ α) : Prop :=
  ∀ client, (parties.scripts client).Safe (rely client) (guarantee client) (ends client) (fails client) parties.shared

/-- Parties rely on no more than the others guarantee. -/
structure Compatible (outside : ω → σ → σ) (rely guarantee : C → σ → σ → Prop) : Prop where
  reflexive : ∀ client state, rely client state state
  transitive : ∀ client {first second third}, rely client first second → rely client second third →
    rely client first third
  idle : ∀ client state, guarantee client state state
  others : ∀ {client other before after}, other ≠ client → guarantee client before after → rely other before after
  outer : ∀ client event state, rely client state (outside event state)

/-- What a party relies on, the steps of the others keep to. -/
theorem step_allSafe {parties next : Parties C ε σ α} {turn : Turn C ω}
    (compatible : Compatible outside rely guarantee) (safe : AllSafe rely guarantee ends fails parties)
    (taken : parties.step outside turn = some next) : AllSafe rely guarantee ends fails next := by
  intro other
  cases turn with
  | party client late =>
      obtain ⟨script, moved, same⟩ := step_party taken
      obtain ⟨guaranteed, rest⟩ :=
        (safe client).step (compatible.reflexive client) (compatible.idle client) moved
      rw [same, Function.update_apply]
      split
      · rename_i equal
        rw [equal]
        exact rest
      · rename_i different
        exact (safe other).relied (compatible.transitive other) (compatible.others different guaranteed)
  | outside event =>
      cases taken
      exact (safe other).relied (compatible.transitive other) (compatible.outer other event parties.shared)

theorem run_allSafe {parties final : Parties C ε σ α} {turns : List (Turn C ω)}
    (compatible : Compatible outside rely guarantee) (safe : AllSafe rely guarantee ends fails parties)
    (ran : run (step outside) parties turns = some final) : AllSafe rely guarantee ends fails final :=
  @run_invariant _ _ _ (fun _ => True) (AllSafe rely guarantee ends fails) _ _ _
    (fun _ safe taken => step_allSafe compatible safe taken) ran (fun _ _ => trivial) safe

omit [DecidableEq C] in
/-- A party that has ended is where it promised to be. -/
theorem AllSafe.ended {parties : Parties C ε σ α} {client : C} {value : α}
    (compatible : Compatible outside rely guarantee) (safe : AllSafe rely guarantee ends fails parties)
    (ended : parties.scripts client = .done value) : ends client value parties.shared := by
  have final := safe client
  rw [ended] at final
  exact final parties.shared (compatible.reflexive client parties.shared)

/-- A run in which a party takes no step is one of the others, as far as the party can tell. -/
theorem run_others {parties final : Parties C ε σ α} {turns : List (Turn C ω)} {client : C}
    (compatible : Compatible outside rely guarantee) (safe : AllSafe rely guarantee ends fails parties)
    (ran : run (step outside) parties turns = some final)
    (quiet : ∀ turn ∈ turns, ∀ late, turn ≠ .party client late) :
    rely client parties.shared final.shared := by
  have kept := @run_invariant _ _ (step outside) (fun turn : Turn C ω => ∀ late, turn ≠ .party client late)
    (fun state => AllSafe rely guarantee ends fails state ∧ rely client parties.shared state.shared)
    parties final turns ?_ ran quiet ⟨safe, compatible.reflexive client parties.shared⟩
  · exact kept.2
  · intro before turn after allowed held taken
    refine ⟨step_allSafe compatible held.1 taken, compatible.transitive client held.2 ?_⟩
    cases turn with
    | party other late =>
        obtain ⟨script, moved, _⟩ := step_party taken
        have guaranteed := ((held.1 other).step (compatible.reflexive other) (compatible.idle other) moved).1
        exact compatible.others (fun same => allowed late (same ▸ rfl)) guaranteed
    | outside event =>
        cases taken
        exact compatible.outer client event before.shared

/-- What every guarantee and every event from outside keep holds throughout a run. -/
theorem run_keeps {holds : σ → Prop} {parties final : Parties C ε σ α} {turns : List (Turn C ω)}
    (compatible : Compatible outside rely guarantee) (safe : AllSafe rely guarantee ends fails parties)
    (kept : ∀ {client before after}, guarantee client before after → holds before → holds after)
    (outer : ∀ {event before}, holds before → holds (outside event before))
    (ran : run (step outside) parties turns = some final) (start : holds parties.shared) : holds final.shared := by
  have always := @run_invariant _ _ (step outside) (fun _ : Turn C ω => True)
    (fun state => AllSafe rely guarantee ends fails state ∧ holds state.shared)
    parties final turns ?_ ran (fun _ _ => trivial) ⟨safe, start⟩
  · exact always.2
  · intro before turn after _ held taken
    refine ⟨step_allSafe compatible held.1 taken, ?_⟩
    cases turn with
    | party other late =>
        obtain ⟨script, moved, _⟩ := step_party taken
        exact kept ((held.1 other).step (compatible.reflexive other) (compatible.idle other) moved).1 held.2
    | outside event =>
        cases taken
        exact outer held.2

end Parties

end Scads.Data
