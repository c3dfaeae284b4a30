namespace Scads.Data

/-! Programs with a state that survives their failures.

A program of `EStateM` may throw, and what it has done to the state until then
remains.  What a program that returned has done follows from what its parts have
done.
-/

section

variable {ε σ τ α β : Type} {first : EStateM ε σ α} {next : α → EStateM ε σ β}
  {state middle final : σ}

theorem bind_ok {result : β} : (first >>= next) state = .ok result final ↔
    ∃ value middle, first state = .ok value middle ∧ next value middle = .ok result final := by
  change EStateM.bind first next state = _ ↔ _
  unfold EStateM.bind
  cases ran : first state with
  | ok value middle =>
      constructor
      · exact fun rest => ⟨value, middle, rfl, rest⟩
      · intro found
        obtain ⟨other, reached, same, rest⟩ := found
        cases same
        exact rest
  | error failure middle => simp

theorem ofExcept_ok {given : Except ε α} {value : α} :
    (ofExcept given : EStateM ε σ α) state = .ok value final ↔ given = .ok value ∧ state = final := by
  cases given with
  | ok other =>
      change EStateM.Result.ok other state = .ok value final ↔ _
      rw [EStateM.Result.ok.injEq, Except.ok.injEq]
  | error failure =>
      change EStateM.Result.error failure state = .ok value final ↔ _
      simp

theorem throw_ok {failure : ε} {value : α} : ¬ (throw failure : EStateM ε σ α) state = .ok value final := by
  intro returned
  cases returned

/-- The program returned, with this property. -/
def returns (holds : α → σ → Bool) : EStateM.Result ε σ α → Bool
  | .ok value next => holds value next
  | .error _ _ => false

theorem exists_ok {program : EStateM ε σ α} {holds : α → σ → Bool}
    (evaluated : returns holds (program state) = true) :
    ∃ value next, program state = .ok value next ∧ holds value next := by
  cases ran : program state with
  | ok value next =>
      rw [ran] at evaluated
      exact ⟨value, next, rfl, evaluated⟩
  | error failure next => simp [returns, ran] at evaluated

/-- What every step preserves holds after a loop that collects results. -/
theorem mapM_invariant {program : α → EStateM ε σ β} {holds : List β → σ → Prop} {values : List α}
    {done results : List β}
    (kept : ∀ {done value state result next}, value ∈ values → holds done state →
      program value state = .ok result next → holds (done ++ [result]) next)
    (start : holds done state) (ran : values.mapM program state = .ok results final) :
    holds (done ++ results) final := by
  induction values generalizing done results state with
  | nil =>
      cases ran
      simpa using start
  | cons value rest ih =>
      rw [List.mapM_cons] at ran
      obtain ⟨result, middle, one, ran⟩ := bind_ok.mp ran
      obtain ⟨others, last, rest, same⟩ := bind_ok.mp ran
      cases same
      have held := ih (fun member => kept (by simp [member])) (kept (by simp) start one) rest
      simpa using held

theorem forM_cons_ok {program : α → EStateM ε σ PUnit} {value : α} {rest : List α} :
    (value :: rest).forM program state = .ok .unit final ↔
      ∃ middle, program value state = .ok .unit middle ∧ rest.forM program middle = .ok .unit final := by
  change (program value >>= fun _ => rest.forM program) state = _ ↔ _
  rw [bind_ok]
  exact ⟨fun ⟨_, middle, one, ran⟩ => ⟨middle, one, ran⟩, fun ⟨middle, one, ran⟩ => ⟨_, middle, one, ran⟩⟩

theorem forM_invariant {program : α → EStateM ε σ PUnit} {holds : List α → σ → Prop} {values done : List α}
    (kept : ∀ {done value state next}, value ∈ values → holds done state →
      program value state = .ok .unit next → holds (done ++ [value]) next)
    (start : holds done state) (ran : values.forM program state = .ok .unit final) :
    holds (done ++ values) final := by
  induction values generalizing done state with
  | nil =>
      cases ran
      simpa using start
  | cons value rest ih =>
      obtain ⟨middle, one, ran⟩ := forM_cons_ok.mp ran
      have held := ih (fun member => kept (by simp [member])) (kept (by simp) start one) ran
      simpa using held

def attempt (program : EStateM ε σ α) : EStateM ε σ (Except ε α) := fun state =>
  match program state with
  | .ok value next => .ok (.ok value) next
  | .error failure next => .ok (.error failure) next

/-- All the programs run, and then the first failure among them is thrown. -/
def awaitAll (programs : List (EStateM ε σ α)) : EStateM ε σ (List α) := do
  let replies ← programs.mapM attempt
  replies.mapM fun reply => ofExcept reply

theorem attempt_ok {program : EStateM ε σ α} {value : α} :
    attempt program state = .ok (.ok value) final ↔ program state = .ok value final := by
  unfold attempt
  cases program state with
  | ok other next => simp
  | error failure next => simp

theorem mapM_ofExcept_ok {replies : List (Except ε α)} {values : List α}
    (thrown : (replies.mapM fun reply => (ofExcept reply : EStateM ε σ α)) state = .ok values final) :
    replies = values.map .ok ∧ final = state := by
  induction replies generalizing values state with
  | nil =>
      cases thrown
      exact ⟨rfl, rfl⟩
  | cons reply rest ih =>
      rw [List.mapM_cons] at thrown
      obtain ⟨value, middle, one, thrown⟩ := bind_ok.mp thrown
      obtain ⟨others, last, rest, same⟩ := bind_ok.mp thrown
      cases same
      obtain ⟨rfl, rfl⟩ := ofExcept_ok.mp one
      obtain ⟨rfl, rfl⟩ := ih rest
      exact ⟨rfl, rfl⟩

/-- If no failure is thrown, then the programs ran and returned one after the other. -/
theorem awaitAll_ok {programs : List (EStateM ε σ α)} {values : List α}
    (returned : awaitAll programs state = .ok values final) :
    programs.mapM id state = .ok values final := by
  obtain ⟨replies, middle, ran, thrown⟩ := bind_ok.mp returned
  obtain ⟨rfl, rfl⟩ := mapM_ofExcept_ok thrown
  clear returned thrown
  induction programs generalizing values state with
  | nil =>
      cases values with
      | nil =>
          cases ran
          rfl
      | cons value rest => cases ran
  | cons program rest ih =>
      rw [List.mapM_cons] at ran ⊢
      obtain ⟨reply, next, one, ran⟩ := bind_ok.mp ran
      obtain ⟨others, last, rest, same⟩ := bind_ok.mp ran
      cases values with
      | nil => cases same
      | cons value values =>
          cases same
          exact bind_ok.mpr ⟨value, next, attempt_ok.mp one, bind_ok.mpr ⟨values, _, ih rest, rfl⟩⟩

/-- Programs that return one after the other are awaited together. -/
theorem awaitAll_of_mapM {programs : List (EStateM ε σ α)} {values : List α}
    (ran : programs.mapM id state = .ok values final) : awaitAll programs state = .ok values final := by
  have attempted : programs.mapM attempt state = .ok (values.map .ok) final := by
    induction programs generalizing values state with
    | nil =>
        cases ran
        rfl
    | cons program rest ih =>
        rw [List.mapM_cons] at ran ⊢
        obtain ⟨value, middle, one, ran⟩ := bind_ok.mp ran
        obtain ⟨others, last, rest, same⟩ := bind_ok.mp ran
        cases same
        exact bind_ok.mpr ⟨.ok value, middle, attempt_ok.mpr one, bind_ok.mpr ⟨_, _, ih rest, rfl⟩⟩
  have thrown : ((values.map .ok).mapM fun reply => (ofExcept reply : EStateM ε σ α)) final = .ok values final := by
    clear ran attempted
    induction values with
    | nil => rfl
    | cons value rest ih =>
        rw [List.map_cons, List.mapM_cons]
        exact bind_ok.mpr ⟨value, final, rfl, bind_ok.mpr ⟨rest, final, ih, rfl⟩⟩
  exact bind_ok.mpr ⟨_, final, attempted, thrown⟩

theorem awaitAll_singleton {program : EStateM ε σ α} {value : α} (returned : program state = .ok value final) :
    awaitAll [program] state = .ok [value] final :=
  bind_ok.mpr ⟨[.ok value], final, bind_ok.mpr ⟨_, final, attempt_ok.mpr returned, rfl⟩, rfl⟩

/-- A program on a part of the state. -/
def zoom (view : σ → τ) (put : τ → σ → σ) (program : EStateM ε τ α) : EStateM ε σ α := fun state =>
  match program (view state) with
  | .ok value next => .ok value (put next state)
  | .error failure next => .error failure (put next state)

theorem zoom_ok {view : σ → τ} {put : τ → σ → σ} {program : EStateM ε τ α} {value : α} :
    zoom view put program state = .ok value final ↔
      ∃ next, program (view state) = .ok value next ∧ put next state = final := by
  unfold zoom
  cases program (view state) with
  | ok other next =>
      constructor
      · intro same
        cases same
        exact ⟨next, rfl, rfl⟩
      · intro found
        obtain ⟨after, same, rfl⟩ := found
        cases same
        rfl
  | error failure next => simp

theorem bind_error {failure : ε} : (first >>= next) state = .error failure final ↔
    first state = .error failure final ∨
      ∃ value middle, first state = .ok value middle ∧ next value middle = .error failure final := by
  change EStateM.bind first next state = _ ↔ _
  unfold EStateM.bind
  cases ran : first state with
  | ok value middle =>
      constructor
      · exact fun rest => .inr ⟨value, middle, rfl, rest⟩
      · intro found
        obtain failed | ⟨other, reached, same, rest⟩ := found
        · cases failed
        · cases same
          exact rest
  | error other middle =>
      constructor
      · intro failed
        cases failed
        exact .inl rfl
      · intro found
        obtain failed | ⟨_, _, same, _⟩ := found
        · cases failed
          rfl
        · cases same

/-- The program failed, with this property. -/
def throws (holds : ε → σ → Bool) : EStateM.Result ε σ α → Bool
  | .ok _ _ => false
  | .error failure next => holds failure next

theorem exists_error {program : EStateM ε σ α} {holds : ε → σ → Bool}
    (evaluated : throws holds (program state) = true) :
    ∃ failure next, program state = .error failure next ∧ holds failure next := by
  cases ran : program state with
  | ok value next => simp [throws, ran] at evaluated
  | error failure next =>
      rw [ran] at evaluated
      exact ⟨failure, next, rfl, evaluated⟩

/-- The state in which a program ends, also where it fails. -/
def ending : EStateM.Result ε σ α → σ
  | .ok _ final => final
  | .error _ final => final

/-- A program that leaves a part of the state as it is, also where it fails. -/
def Leaves (view : σ → τ) (program : EStateM ε σ α) : Prop :=
  ∀ state, view (ending (program state)) = view state

section

variable {view : σ → τ} {program : EStateM ε σ α}

theorem Leaves.of_ok {value : α} (leaves : Leaves view program) (ran : program state = .ok value final) :
    view final = view state := by
  have kept := leaves state
  rwa [ran] at kept

theorem Leaves.of_error {failure : ε} (leaves : Leaves view program)
    (failed : program state = .error failure final) : view final = view state := by
  have kept := leaves state
  rwa [failed] at kept

theorem leaves_pure (view : σ → τ) (value : α) : Leaves view (pure value : EStateM ε σ α) := fun _ => rfl

theorem leaves_throw (view : σ → τ) (failure : ε) : Leaves view (throw failure : EStateM ε σ α) := fun _ => rfl

theorem leaves_get (view : σ → τ) : Leaves view (get : EStateM ε σ σ) := fun _ => rfl

theorem leaves_modify {change : σ → σ} (kept : ∀ state, view (change state) = view state) :
    Leaves view (modify change : EStateM ε σ PUnit) := kept

theorem leaves_ofExcept (view : σ → τ) (given : Except ε α) :
    Leaves view (ofExcept given : EStateM ε σ α) := by
  intro state
  cases given <;> rfl

theorem Leaves.bind (leaves : Leaves view first) (rest : ∀ value, Leaves view (next value)) :
    Leaves view (first >>= next) := by
  intro state
  change view (ending (EStateM.bind first next state)) = _
  unfold EStateM.bind
  cases ran : first state with
  | ok value middle => exact (rest value middle).trans (leaves.of_ok ran)
  | error failure middle => exact leaves.of_error ran

/-- A program that leaves a part of the state as it is where it fails. -/
def FailsCleanly (view : σ → τ) (program : EStateM ε σ α) : Prop :=
  ∀ state failure final, program state = .error failure final → view final = view state

theorem Leaves.bind_failsCleanly (leaves : Leaves view first)
    (rest : ∀ value, FailsCleanly view (next value)) : FailsCleanly view (first >>= next) := by
  intro state failure final failed
  rcases bind_error.mp failed with early | ⟨value, middle, ran, late⟩
  · exact leaves.of_error early
  · exact (rest value _ _ _ late).trans (leaves.of_ok ran)

theorem failsCleanly_throw (view : σ → τ) (failure : ε) (next : α → EStateM ε σ β) :
    FailsCleanly view (throw failure >>= next) := by
  intro state other final failed
  cases failed
  rfl

/-- What follows may change the part, if it cannot fail. -/
theorem FailsCleanly.bind (cleanly : FailsCleanly view first)
    (never : ∀ value state failure final, next value state ≠ .error failure final) :
    FailsCleanly view (first >>= next) := by
  intro state failure final failed
  rcases bind_error.mp failed with early | ⟨value, middle, ran, late⟩
  · exact cleanly _ _ _ early
  · exact absurd late (never value middle failure final)

theorem Leaves.attempt (leaves : Leaves view program) : Leaves view (attempt program) := by
  intro state
  unfold Data.attempt
  cases ran : program state with
  | ok value middle => exact leaves.of_ok ran
  | error failure middle => exact leaves.of_error ran

theorem leaves_mapM {program : α → EStateM ε σ β} {values : List α}
    (leaves : ∀ value ∈ values, Leaves view (program value)) : Leaves view (values.mapM program) := by
  induction values with
  | nil => exact leaves_pure view []
  | cons value rest ih =>
      rw [List.mapM_cons]
      refine (leaves value (by simp)).bind fun result => ?_
      refine (ih fun other member => leaves other (by simp [member])).bind fun results => ?_
      exact leaves_pure view _

theorem mapM_stopped {program : α → EStateM ε σ β} {value : α} {failure : ε} (rest : List α)
    (failed : program value state = .error failure final) :
    (value :: rest).mapM program state = .error failure final := by
  rw [List.mapM_cons]
  exact bind_error.mpr (.inl failed)

theorem ending_mapM_cons {program : α → EStateM ε σ β} {value : α} {result : β} (rest : List α)
    (one : program value state = .ok result middle) :
    ending ((value :: rest).mapM program state) = ending (rest.mapM program middle) := by
  rw [List.mapM_cons]
  cases others : rest.mapM program middle with
  | ok results final =>
      have ran : (program value >>= fun result => rest.mapM program >>= fun results =>
          pure (result :: results)) state = .ok (result :: results) final :=
        bind_ok.mpr ⟨result, middle, one, bind_ok.mpr ⟨results, final, others, rfl⟩⟩
      rw [ran]
      rfl
  | error failure final =>
      have ran : (program value >>= fun result => rest.mapM program >>= fun results =>
          pure (result :: results)) state = .error failure final :=
        bind_error.mpr (.inr ⟨result, middle, one, bind_error.mpr (.inl others)⟩)
      rw [ran]

section

variable {program : α → EStateM ε σ β} (view : σ → τ) (moved : τ → τ → Prop)
  (trans : ∀ {first second third}, moved first second → moved second third → moved first third)
  (moves : ∀ {value state result final}, program value state = .ok result final →
    moved (view state) (view final))
  (cleanly : ∀ value, FailsCleanly view (program value))

include trans moves cleanly

/-- Every step of a loop that returns moves the part of the state on. -/
theorem mapM_moves (values : List α) (state : σ) :
    view (ending (values.mapM program state)) = view state ∨
      moved (view state) (view (ending (values.mapM program state))) := by
  induction values generalizing state with
  | nil => exact .inl rfl
  | cons value rest ih =>
      cases one : program value state with
      | error failure middle =>
          rw [mapM_stopped rest one]
          exact .inl (cleanly value state failure middle one)
      | ok result middle =>
          rw [ending_mapM_cons rest one]
          rcases ih middle with unmoved | further
          · exact .inr (unmoved ▸ moves one)
          · exact .inr (trans (moves one) further)

/-- A loop and what follows it fail without a step, or they have moved the part of the state. -/
theorem mapM_bind_error {last : List β → EStateM ε σ PUnit} {values : List α} {failure : ε}
    (lastly : ∀ results, FailsCleanly view (last results))
    (failed : (values.mapM program >>= last) state = .error failure final) :
    ((∀ value ∈ values.head?, ∃ failure middle, program value state = .error failure middle) ∧
        view final = view state) ∨
      ((∃ value ∈ values.head?, ∃ result middle, program value state = .ok result middle) ∧
        moved (view state) (view final)) := by
  have reached : view final = view (ending (values.mapM program state)) := by
    rcases bind_error.mp failed with early | ⟨results, middle, ran, late⟩
    · rw [early]
      rfl
    · rw [ran]
      exact lastly results middle failure final late
  rw [reached]
  cases values with
  | nil => exact .inl ⟨by simp, rfl⟩
  | cons value rest =>
      cases one : program value state with
      | error other middle =>
          rw [mapM_stopped rest one]
          refine .inl ⟨?_, cleanly value state other middle one⟩
          intro found head
          cases head
          exact ⟨other, middle, one⟩
      | ok result middle =>
          refine .inr ⟨⟨value, rfl, result, middle, one⟩, ?_⟩
          rw [ending_mapM_cons rest one]
          rcases mapM_moves view moved trans moves cleanly rest middle with unmoved | further
          · exact unmoved ▸ moves one
          · exact trans (moves one) further

end

theorem leaves_forM {program : α → EStateM ε σ PUnit} {values : List α}
    (leaves : ∀ value ∈ values, Leaves view (program value)) : Leaves view (values.forM program) := by
  induction values with
  | nil => exact leaves_pure view PUnit.unit
  | cons value rest ih =>
      exact (leaves value (by simp)).bind fun _ => ih fun other member => leaves other (by simp [member])

theorem leaves_awaitAll {programs : List (EStateM ε σ α)}
    (leaves : ∀ program ∈ programs, Leaves view program) : Leaves view (awaitAll programs) := by
  refine (leaves_mapM fun program member => (leaves program member).attempt).bind fun replies => ?_
  exact leaves_mapM fun reply _ => leaves_ofExcept view reply

/-- A program on a part of the state leaves what does not depend on this part. -/
theorem leaves_zoom {part : σ → τ} {put : τ → σ → σ} {seen : σ → β} (program : EStateM ε τ α)
    (kept : ∀ changed state, seen (put changed state) = seen state) : Leaves seen (zoom part put program) := by
  intro state
  unfold zoom
  cases program (part state) with
  | ok value changed => exact kept changed state
  | error failure changed => exact kept changed state

end

end

/-- Where the program returns, this still holds. -/
def Keeps {ε σ α : Type} (holds : σ → Prop) (program : EStateM ε σ α) : Prop :=
  ∀ state value final, program state = .ok value final → holds state → holds final

section

variable {ε σ τ α β : Type} {holds : σ → Prop} {program : EStateM ε σ α} {next : α → EStateM ε σ β}

theorem keeps_pure (holds : σ → Prop) (value : α) : Keeps holds (pure value : EStateM ε σ α) := by
  intro state result final returned held
  cases returned
  exact held

theorem keeps_get (holds : σ → Prop) : Keeps holds (get : EStateM ε σ σ) := by
  intro state result final returned held
  cases returned
  exact held

theorem keeps_throw (holds : σ → Prop) (failure : ε) : Keeps holds (throw failure : EStateM ε σ α) :=
  fun _ _ _ returned => absurd returned throw_ok

theorem keeps_ofExcept (holds : σ → Prop) (given : Except ε α) : Keeps holds (ofExcept given : EStateM ε σ α) := by
  intro state result final returned held
  obtain ⟨_, rfl⟩ := ofExcept_ok.mp returned
  exact held

theorem keeps_modify {change : σ → σ} (kept : ∀ state, holds state → holds (change state)) :
    Keeps holds (modify change : EStateM ε σ PUnit) := by
  intro state result final returned held
  cases returned
  exact kept state held

theorem Keeps.bind (keeps : Keeps holds program) (rest : ∀ value, Keeps holds (next value)) :
    Keeps holds (program >>= next) := by
  intro state result final returned held
  obtain ⟨value, middle, one, returned⟩ := bind_ok.mp returned
  exact rest value _ _ _ returned (keeps _ _ _ one held)

theorem keeps_mapM {program : α → EStateM ε σ β} {values : List α}
    (keeps : ∀ value ∈ values, Keeps holds (program value)) :
    Keeps holds (values.mapM program) :=
  fun _ _ _ returned held => @mapM_invariant _ _ _ _ _ _ program (fun _ state => holds state) values [] _
    (fun member held one => keeps _ member _ _ _ one held) held returned

theorem keeps_forM {program : α → EStateM ε σ PUnit} {values : List α}
    (keeps : ∀ value ∈ values, Keeps holds (program value)) : Keeps holds (values.forM program) :=
  fun _ _ _ returned held => @forM_invariant _ _ _ _ _ program (fun _ state => holds state) values []
    (fun member held one => keeps _ member _ _ _ one held) held returned

theorem keeps_awaitAll {programs : List (EStateM ε σ α)} (keeps : ∀ program ∈ programs, Keeps holds program) :
    Keeps holds (awaitAll programs) := by
  intro state result final returned held
  have kept := @keeps_mapM _ _ _ _ _ id programs keeps
  exact kept _ _ _ (awaitAll_ok returned) held

/-- A program on a part of the state keeps what it keeps of the part. -/
theorem keeps_zoom {view : σ → τ} {put : τ → σ → σ} {seen : τ → Prop} {program : EStateM ε τ α}
    (keeps : Keeps seen program) (put_view : ∀ part state, view (put part state) = part) :
    Keeps (fun state => seen (view state)) (zoom view put program) := by
  intro state result final returned held
  obtain ⟨part, ran, rfl⟩ := zoom_ok.mp returned
  rw [put_view]
  exact keeps _ _ _ ran held

end

end Scads.Data
