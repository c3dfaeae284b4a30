import Mathlib.Data.List.Forall2
import Scads.Data.Machines

namespace Scads.Data

/-! # Iterators one after the other

`Machine.append` is an iterator that changes over to a second one when the first has
come to its end, and `Machine.map` applies a function to each value as it is read.
-/

section

variable {ε α β : Type}

namespace Course

def append : Course ε α → Course ε α → Course ε α
  | .done, second => second
  | .fails failure, _ => .fails failure
  | .more value rest, second => .more value (rest.append second)

theorem append_ofList (first second : List α) :
    (ofList first : Course ε α).append (ofList second) = ofList (first ++ second) := by
  induction first with
  | nil => rfl
  | cons value rest ih => rw [ofList, append, ih, List.cons_append, ofList]

end Course

namespace Machine

/-- `Iterator.empty`, of which `absent` is the failure of `next`. -/
def empty (absent : ε) : Machine ε α where
  State := Unit
  initial := ()
  opened _ state := .ok state
  hasNext _ state := .ok (false, state)
  next _ _ := .error absent

theorem empty_opens (absent : ε) : (empty absent : Machine ε α).Opens (.ok (.ofList [])) := by
  refine ⟨(), .const _, fun _ course => course = .done, ⟨?_, nofun, nofun⟩, rfl⟩
  intro state _ same
  subst same
  exact ⟨state, .const _, rfl⟩

/-- `first ++ second`. -/
def append (first second : Machine ε α) : Machine ε α where
  State := first.State × second.State ⊕ second.State
  initial := .inl (first.initial, second.initial)
  opened rounds state :=
    match state with
    | .inl (state, later) => do
        let state ← first.opened rounds state
        let later ← second.opened rounds later
        return .inl (state, later)
    | .inr state => return .inr (← second.opened rounds state)
  hasNext := hasNext
  next rounds state := do
    match ← hasNext rounds state with
    | (_, .inl (state, later)) =>
        let (value, state) ← first.next rounds state
        return (value, .inl (state, later))
    | (_, .inr state) =>
        let (value, state) ← second.next rounds state
        return (value, .inr state)
where
  hasNext (rounds : Nat) (state : first.State × second.State ⊕ second.State) :
      Except ε (Bool × (first.State × second.State ⊕ second.State)) :=
    match state with
    | .inl (state, later) => do
        let (more, state) ← first.hasNext rounds state
        if more then return (true, .inl (state, later))
        else
          let (more, later) ← second.hasNext rounds later
          return (more, .inr later)
    | .inr state => do
        let (more, state) ← second.hasNext rounds state
        return (more, .inr state)

/-- `map(f)`. -/
def map (machine : Machine ε α) (f : α → Except ε β) : Machine ε β where
  State := machine.State
  initial := machine.initial
  opened := machine.opened
  hasNext := machine.hasNext
  next rounds state := do
    let (value, state) ← machine.next rounds state
    return (← f value, state)

section

variable {first second : Machine ε α}

/-- The course of a chain, before and after it has changed over. -/
def Chained (first second : Machine ε α) :
    first.State × second.State ⊕ second.State → Course ε α → Prop
  | .inl (state, later), course =>
      ∃ here there, first.Follows state here ∧ second.Follows later there ∧ course = here.append there
  | .inr state, course => second.Follows state course

/-- What `hasNext` says, with the state in which the value that it found is the next one. -/
theorem append_hasNext {state : first.State × second.State ⊕ second.State} {course : Course ε α}
    (chained : Chained first second state course) :
    ∃ after, Settles (append.hasNext first second · state) (.ok (course.pending, after)) ∧
      ((∃ here later rest there, after = .inl (here, later) ∧ first.Follows here rest ∧ rest.pending = true ∧
          second.Follows later there ∧ course = rest.append there) ∨
        ∃ later, after = .inr later ∧ second.Follows later course) := by
  cases state with
  | inl state =>
      obtain ⟨state, later⟩ := state
      obtain ⟨here, there, follows, followed, rfl⟩ := chained
      obtain ⟨after, answered, follows⟩ := follows.hasNext
      cases here with
      | done =>
          obtain ⟨afterwards, replied, followed⟩ := followed.hasNext
          exact ⟨.inr afterwards, answered.bind (replied.bind (.const _)), .inr ⟨_, rfl, followed⟩⟩
      | fails failure =>
          exact ⟨.inl (after, later), answered.bind (.const _), .inl ⟨_, _, _, _, rfl, follows, rfl, followed, rfl⟩⟩
      | more value rest =>
          exact ⟨.inl (after, later), answered.bind (.const _), .inl ⟨_, _, _, _, rfl, follows, rfl, followed, rfl⟩⟩
  | inr state =>
      obtain ⟨after, answered, follows⟩ := Follows.hasNext chained
      exact ⟨.inr after, answered.bind (.const _), .inr ⟨_, rfl, follows⟩⟩

theorem append_simulates (first second : Machine ε α) : (first.append second).Simulates (Chained first second) where
  hasNext := by
    intro state course chained
    obtain ⟨after, answered, ⟨here, later, rest, there, rfl, follows, -, followed, rfl⟩ | ⟨later, rfl, follows⟩⟩ :=
      append_hasNext chained
    · exact ⟨_, answered, rest, there, follows, followed, rfl⟩
    · exact ⟨_, answered, follows⟩
  next := by
    intro state value left chained
    obtain ⟨after, answered, ⟨here, later, rest, there, rfl, follows, more, followed, same⟩ | ⟨later, rfl, follows⟩⟩ :=
      append_hasNext chained
    · cases rest with
      | done => cases more
      | fails failure => cases same
      | more value rest =>
          cases same
          obtain ⟨after, given, follows⟩ := follows.next
          exact ⟨.inl (after, later), answered.bind (given.bind (.const _)), _, _, follows, followed, rfl⟩
    · obtain ⟨after, given, follows⟩ := follows.next
      exact ⟨.inr after, answered.bind (given.bind (.const _)), follows⟩
  fails := by
    intro state failure chained
    obtain ⟨after, answered, ⟨here, later, rest, there, rfl, follows, more, followed, same⟩ | ⟨later, rfl, follows⟩⟩ :=
      append_hasNext chained
    · cases rest with
      | done => cases more
      | fails failure =>
          cases same
          exact answered.bind follows.fails.bind_error
      | more value rest => cases same
    · exact answered.bind follows.fails.bind_error

theorem Opens.append {here there : Course ε α} (opens : first.Opens (.ok here)) (later : second.Opens (.ok there)) :
    (first.append second).Opens (.ok (here.append there)) := by
  obtain ⟨state, opened, follows⟩ := opens
  obtain ⟨other, openedLater, followed⟩ := later
  exact ⟨.inl (state, other), opened.bind (openedLater.bind (.const _)), _, append_simulates first second,
    here, there, follows, followed, rfl⟩

/-- A chain of iterators over lists gives the lists one after the other. -/
theorem opens_foldl {machines : List (Machine ε α)} {lists : List (List α)} {front : List α}
    (opens : first.Opens (.ok (.ofList front)))
    (each : List.Forall₂ (fun machine values => machine.Opens (.ok (.ofList values))) machines lists) :
    (machines.foldl Machine.append first).Opens (.ok (.ofList (front ++ lists.flatten))) := by
  induction each generalizing first front with
  | nil =>
      rw [List.flatten_nil, List.append_nil]
      exact opens
  | @cons machine values machines lists here others ih =>
      rw [List.foldl_cons, List.flatten_cons, ← List.append_assoc]
      refine ih ?_
      rw [← Course.append_ofList]
      exact opens.append here

end

variable {machine : Machine ε α}

theorem map_simulates (machine : Machine ε α) (f : α → Except ε β) :
    (machine.map f).Simulates fun state course => ∃ values results, machine.Follows state (.ofList values) ∧
      List.Forall₂ (fun value result => f value = .ok result) values results ∧ course = .ofList results where
  hasNext := by
    intro state _ found
    obtain ⟨values, results, follows, mapped, rfl⟩ := found
    obtain ⟨after, answered, follows⟩ := follows.hasNext
    refine ⟨after, answered.congr_outcome ?_, values, results, follows, mapped, rfl⟩
    cases mapped <;> rfl
  next := by
    intro state result left found
    obtain ⟨values, results, follows, mapped, same⟩ := found
    cases mapped with
    | nil => cases same
    | cons here others =>
        cases same
        obtain ⟨after, given, follows⟩ := follows.next
        refine ⟨after, given.bind ?_, _, _, follows, others, rfl⟩
        dsimp only
        rw [here]
        exact .const _
  fails := by
    intro state failure found
    obtain ⟨values, results, -, -, same⟩ := found
    exact absurd same.symm Course.ofList_ne_fails

theorem Opens.map {f : α → Except ε β} {values : List α} {results : List β}
    (opens : machine.Opens (.ok (.ofList values)))
    (mapped : List.Forall₂ (fun value result => f value = .ok result) values results) :
    (machine.map f).Opens (.ok (.ofList results)) := by
  obtain ⟨state, opened, follows⟩ := opens
  exact ⟨state, opened, _, map_simulates machine f, values, results, follows, mapped, rfl⟩

end Machine

end

end Scads.Data
