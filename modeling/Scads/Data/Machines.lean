namespace Scads.Data

/-! # Iterators

An iterator is a state with the calls `open`, `hasNext` and `next`.  A call may
loop, so it gets a number of rounds and fails with `default` when they are used up.
What an iterator has still to give is a `Course`, and the operators that read
another iterator are described by what they make of its course.
-/

universe u v

/-- The computation does not fail with `bad`, and what it comes to has the property. -/
def Spares {ε : Type} {α : Type u} (bad : ε) (holds : α → Prop) : Except ε α → Prop
  | .error failure => failure ≠ bad
  | .ok value => holds value

namespace Spares

variable {ε : Type} {α : Type u} {β : Type v} {bad : ε} {holds : α → Prop} {passes : β → Prop} {result : Except ε α}
  {next : α → Except ε β}

theorem bind (first : Spares bad holds result) (rest : ∀ value, holds value → Spares bad passes (next value)) :
    Spares bad passes (result.bind next) := by
  cases result with
  | error failure => exact first
  | ok value => exact rest value first

theorem imp {weaker : α → Prop} (spares : Spares bad holds result) (implies : ∀ value, holds value → weaker value) :
    Spares bad weaker result := by
  cases result with
  | error failure => exact spares
  | ok value => exact implies value spares

theorem map (spares : Spares bad holds result) (f : α → β) :
    Spares bad (fun _ => True) (result.bind fun value => .ok (f value)) := spares.bind fun _ _ => trivial

theorem self (spares : Spares bad holds result) : Spares bad (result = .ok ·) result := by
  cases result with
  | error failure => exact spares
  | ok value => exact rfl

end Spares

section

variable {ε α β : Type}

/-- The run comes to this outcome when it gets enough rounds. -/
def Settles (run : Nat → Except ε α) (outcome : Except ε α) : Prop :=
  ∃ enough, ∀ rounds, enough ≤ rounds → run rounds = outcome

namespace Settles

variable {run : Nat → Except ε α} {next : Nat → α → Except ε β} {outcome other : Except ε α}

theorem const (outcome : Except ε α) : Settles (fun _ => outcome) outcome := ⟨0, fun _ _ => rfl⟩

theorem unique (first : Settles run outcome) (second : Settles run other) : outcome = other := by
  obtain ⟨left, atLeft⟩ := first
  obtain ⟨right, atRight⟩ := second
  rw [← atLeft (max left right) (Nat.le_max_left ..), atRight (max left right) (Nat.le_max_right ..)]

/-- A loop spends one round on each turn. -/
theorem of_succ (settles : Settles (fun rounds => run (rounds + 1)) outcome) : Settles run outcome := by
  obtain ⟨enough, reached⟩ := settles
  refine ⟨enough + 1, fun rounds high => ?_⟩
  obtain ⟨before, rfl⟩ := Nat.exists_eq_add_of_le' (Nat.le_trans (Nat.le_add_left 1 enough) high)
  exact reached before (by omega)

theorem bind {value : α} {result : Except ε β} (first : Settles run (.ok value))
    (rest : Settles (fun rounds => next rounds value) result) :
    Settles (fun rounds => run rounds >>= next rounds) result := by
  obtain ⟨left, atLeft⟩ := first
  obtain ⟨right, atRight⟩ := rest
  refine ⟨max left right, fun rounds high => ?_⟩
  dsimp only
  rw [atLeft rounds (by omega)]
  exact atRight rounds (by omega)

theorem bind_error {failure : ε} (first : Settles run (.error failure)) :
    Settles (fun rounds => run rounds >>= next rounds) (.error failure) := by
  obtain ⟨enough, reached⟩ := first
  refine ⟨enough, fun rounds high => ?_⟩
  dsimp only
  rw [reached rounds high]
  rfl

theorem congr_outcome (settles : Settles run outcome) (equal : outcome = other) : Settles run other := by
  rw [← equal]
  exact settles

theorem congr {same : Nat → Except ε α} (settles : Settles run outcome)
    (equal : ∀ rounds, same rounds = run rounds) : Settles same outcome := by
  rw [show same = run from funext equal]
  exact settles

end Settles

/-- The run ends when it gets enough rounds, with a value or with a failure of its own. -/
def Ends [Inhabited ε] (run : Nat → Except ε α) : Prop :=
  ∃ outcome, Settles run outcome ∧ outcome ≠ .error default

namespace Ends

variable [Inhabited ε] {run : Nat → Except ε α} {value : α}

theorem of_ok (settles : Settles run (.ok value)) : Ends run := ⟨.ok value, settles, nofun⟩

theorem of_succ (ends : Ends fun rounds => run (rounds + 1)) : Ends run := by
  obtain ⟨outcome, settles, proper⟩ := ends
  exact ⟨outcome, settles.of_succ, proper⟩

theorem congr {same : Nat → Except ε α} (ends : Ends run) (equal : ∀ rounds, same rounds = run rounds) :
    Ends same := by
  obtain ⟨outcome, settles, proper⟩ := ends
  exact ⟨outcome, settles.congr equal, proper⟩

theorem map (ends : Ends run) (f : α → β) : Ends fun rounds => run rounds >>= fun value => .ok (f value) := by
  obtain ⟨outcome, settles, proper⟩ := ends
  cases outcome with
  | ok value => exact of_ok (settles.bind (.const (.ok (f value))))
  | error failure =>
      refine ⟨.error failure, settles.bind_error, fun same => proper ?_⟩
      cases same
      rfl

/-- A run that needs more rounds whatever it gets does not end. -/
theorem not_of_forall (unfinished : ∀ rounds, run rounds = .error default) : ¬ Ends run := by
  intro ⟨outcome, ⟨enough, reached⟩, proper⟩
  exact proper ((reached enough (Nat.le_refl enough)).symm.trans (unfinished enough))

end Ends

/-- What an iterator gives until it ends: values, and then its end or the failure of a `next`. -/
inductive Course (ε α : Type) where
  | done
  | fails (failure : ε)
  | more (value : α) (rest : Course ε α)

namespace Course

def pending : Course ε α → Bool
  | .done => false
  | .fails _ | .more .. => true

def ofList : List α → Course ε α
  | [] => .done
  | value :: rest => .more value (ofList rest)

/-- Values of which the reading may fail. -/
def ofResults : List (Except ε α) → Course ε α
  | [] => .done
  | .error failure :: _ => .fails failure
  | .ok value :: rest => .more value (ofResults rest)

theorem ofResults_ok (values : List α) : (ofResults (values.map .ok) : Course ε α) = ofList values := by
  induction values with
  | nil => rfl
  | cons value rest ih => rw [List.map_cons, ofResults, ih, ofList]

theorem ofList_ne_fails {values : List α} {failure : ε} : ofList values ≠ .fails failure := by
  cases values <;> nofun

/-- All the values, for a caller that reads to the end. -/
def outcome : Course ε α → Except ε (List α)
  | .done => .ok []
  | .fails failure => .error failure
  | .more value rest => do return value :: (← rest.outcome)

theorem outcome_ofList (values : List α) : (ofList values : Course ε α).outcome = .ok values := by
  induction values with
  | nil => rfl
  | cons value rest ih =>
      simp only [ofList, outcome, ih]
      rfl

theorem outcome_ok {course : Course ε α} {values : List α} (ends : course.outcome = .ok values) :
    course = ofList values := by
  induction course generalizing values with
  | done =>
      cases ends
      rfl
  | fails failure => cases ends
  | more value rest ih =>
      rw [outcome] at ends
      cases others : rest.outcome with
      | error failure =>
          rw [others] at ends
          cases ends
      | ok others' =>
          rw [others] at ends
          cases ends
          rw [ih others, ofList]

theorem pending_ofList (values : List α) : (ofList values : Course ε α).pending = !values.isEmpty := by
  cases values <;> rfl

/-- The next result, where the failure of a search comes from the `next` before it. -/
def following (value : α) : Except ε (Course ε α) → Course ε α
  | .error failure => .fails failure
  | .ok rest => .more value rest

theorem outcome_following (value : α) (rest : Except ε (Course ε α)) :
    (following value rest).outcome = (rest >>= outcome) >>= fun values => .ok (value :: values) := by
  cases rest <;> rfl

/-- The values that pass a test, when each is looked for as soon as the one before it is read. -/
def sift (test : α → Except ε (Option β)) : Course ε α → Except ε (Course ε β)
  | .done => .ok .done
  | .fails failure => .error failure
  | .more value rest =>
      match test value with
      | .error failure => .error failure
      | .ok none => rest.sift test
      | .ok (some result) => .ok (following result (rest.sift test))

theorem sift_ofList {test : α → Except ε (Option β)} {values : List α} {results : List (Option β)}
    (tested : values.mapM test = .ok results) :
    (ofList values).sift test = .ok (ofList (results.filterMap id)) := by
  induction values generalizing results with
  | nil =>
      cases tested
      rfl
  | cons value rest ih =>
      rw [List.mapM_cons] at tested
      rw [ofList, sift]
      cases first : test value with
      | error failure =>
          rw [first] at tested
          cases tested
      | ok passed =>
          rw [first] at tested
          cases others : rest.mapM test with
          | error failure =>
              rw [others] at tested
              cases tested
          | ok others' =>
              rw [others] at tested
              cases tested
              cases passed with
              | none =>
                  have passed := ih others
                  exact passed
              | some result =>
                  dsimp only
                  rw [ih others]
                  rfl

/-- The first values. -/
def stop : Nat → Course ε α → Course ε α
  | 0, _ => .done
  | _ + 1, .done => .done
  | _ + 1, .fails failure => .fails failure
  | count + 1, .more value rest => .more value (rest.stop count)

theorem stop_ofList (count : Nat) (values : List α) :
    (ofList values : Course ε α).stop count = ofList (values.take count) := by
  induction values generalizing count with
  | nil => cases count <;> rfl
  | cons value rest ih =>
      cases count with
      | zero => rfl
      | succ count => simp only [ofList, stop, List.take_succ_cons, ih]

theorem stop_stop (course : Course ε α) (first second : Nat) :
    (course.stop first).stop second = course.stop (min second first) := by
  induction course generalizing first second with
  | done => cases first <;> cases second <;> simp [stop, Nat.succ_min_succ]
  | fails failure => cases first <;> cases second <;> simp [stop, Nat.succ_min_succ]
  | more value rest ih =>
      cases first with
      | zero => cases second <;> simp [stop]
      | succ first =>
          cases second with
          | zero => simp [stop]
          | succ second =>
              rw [Nat.succ_min_succ, stop, stop, stop, ih]

/-- A stop that is late enough changes nothing. -/
theorem exists_stop_eq (course : Course ε α) : ∃ enough, ∀ count, enough ≤ count → course.stop count = course := by
  induction course with
  | done => exact ⟨0, fun count _ => by cases count <;> rfl⟩
  | fails failure =>
      refine ⟨1, fun count high => ?_⟩
      obtain ⟨before, rfl⟩ := Nat.exists_eq_add_of_le' high
      rfl
  | more value rest ih =>
      obtain ⟨enough, stops⟩ := ih
      refine ⟨enough + 1, fun count high => ?_⟩
      obtain ⟨before, rfl⟩ := Nat.exists_eq_add_of_le' (Nat.le_trans (Nat.le_add_left 1 enough) high)
      rw [stop, stops before (by omega)]

/-- What holds of every value. -/
def Each (holds : α → Prop) : Course ε α → Prop
  | .done | .fails _ => True
  | .more value rest => holds value ∧ rest.Each holds

theorem each_ofList {holds : α → Prop} {values : List α} (each : ∀ value ∈ values, holds value) :
    (ofList values : Course ε α).Each holds := by
  induction values with
  | nil => trivial
  | cons value rest ih => exact ⟨each value (by simp), ih fun value member => each value (by simp [member])⟩

theorem Each.outcome {holds : α → Prop} {course : Course ε α} (each : course.Each holds) {values : List α}
    (ends : course.outcome = .ok values) : ∀ value ∈ values, holds value := by
  rw [outcome_ok ends] at each
  clear ends
  induction values with
  | nil => nofun
  | cons value rest ih =>
      intro other member
      obtain rfl | later := List.mem_cons.mp member
      · exact each.1
      · exact ih each.2 other later

theorem each_following {holds : α → Prop} {value : α} {rest : Except ε (Course ε α)} (here : holds value)
    (later : ∀ course, rest = .ok course → course.Each holds) : (following value rest).Each holds := by
  cases rest with
  | error failure => trivial
  | ok course => exact ⟨here, later course rfl⟩

theorem Each.sift {holds : α → Prop} {passes : β → Prop} {test : α → Except ε (Option β)}
    (tested : ∀ {value result}, holds value → test value = .ok (some result) → passes result)
    {course : Course ε α} (each : course.Each holds) {sifted : Course ε β}
    (given : course.sift test = .ok sifted) : sifted.Each passes := by
  induction course generalizing sifted with
  | done =>
      cases given
      trivial
  | fails failure => cases given
  | more value rest ih =>
      rw [Course.sift] at given
      cases passed : test value with
      | error failure =>
          rw [passed] at given
          cases given
      | ok found =>
          rw [passed] at given
          cases found with
          | none => exact ih each.2 given
          | some result =>
              cases given
              exact each_following (tested each.1 passed) fun course => ih each.2

theorem Each.both {holds other : α → Prop} {course : Course ε α} (first : course.Each holds)
    (second : course.Each other) : course.Each fun value => holds value ∧ other value := by
  induction course with
  | done => trivial
  | fails failure => trivial
  | more value rest ih => exact ⟨⟨first.1, second.1⟩, ih first.2 second.2⟩

theorem Each.stop {holds : α → Prop} {course : Course ε α} (each : course.Each holds) (count : Nat) :
    (course.stop count).Each holds := by
  induction course generalizing count with
  | done => cases count <;> trivial
  | fails failure => cases count <;> trivial
  | more value rest ih =>
      cases count with
      | zero => trivial
      | succ count => exact ⟨each.1, ih each.2 count⟩

/-- The results of a function on every value, which is applied as the values are read. -/
def gather (f : α → Except ε β) : Course ε α → Except ε (List β)
  | .done => .ok []
  | .fails failure => .error failure
  | .more value rest => do
      let result ← f value
      return result :: (← rest.gather f)

theorem gather_pure (course : Course ε α) : course.gather pure = course.outcome := by
  induction course with
  | done => rfl
  | fails failure => rfl
  | more value rest ih =>
      simp only [gather, outcome, ih]
      rfl

theorem Each.gather {holds : α → Prop} {passes : β → Prop} {f : α → Except ε β}
    (mapped : ∀ {value result}, holds value → f value = .ok result → passes result)
    {course : Course ε α} (each : course.Each holds) {results : List β} (given : course.gather f = .ok results) :
    ∀ result ∈ results, passes result := by
  induction course generalizing results with
  | done =>
      cases given
      nofun
  | fails failure => cases given
  | more value rest ih =>
      rw [Course.gather] at given
      cases first : f value with
      | error failure =>
          rw [first] at given
          cases given
      | ok result =>
          cases others : rest.gather f with
          | error failure =>
              rw [first, others] at given
              cases given
          | ok others' =>
              rw [first, others] at given
              cases given
              intro other member
              obtain rfl | later := List.mem_cons.mp member
              · exact mapped each.1 first
              · exact ih each.2 others other later

/-- A function that takes every value takes those of a list. -/
theorem exists_ofList_of_gather {f : α → Except ε β} {course : Course ε α} {results : List β}
    (given : course.gather f = .ok results) : ∃ values, course = .ofList values ∧ values.mapM f = .ok results := by
  induction course generalizing results with
  | done =>
      cases given
      exact ⟨[], rfl, rfl⟩
  | fails failure => cases given
  | more value rest ih =>
      rw [gather] at given
      cases first : f value with
      | error failure =>
          rw [first] at given
          cases given
      | ok result =>
          cases others : rest.gather f with
          | error failure =>
              rw [first, others] at given
              cases given
          | ok later =>
              rw [first, others] at given
              cases given
              obtain ⟨values, rfl, mapped⟩ := ih others
              refine ⟨value :: values, rfl, ?_⟩
              rw [List.mapM_cons, first, mapped]
              rfl

/-- Every value is in order with those that come after it. -/
def Ordered (le : α → α → Prop) : Course ε α → Prop
  | .done | .fails _ => True
  | .more value rest => rest.Each (le value) ∧ rest.Ordered le

section

variable {le : α → α → Prop} {course : Course ε α}

theorem ordered_ofList {values : List α} (sorted : values.Pairwise le) : (ofList values : Course ε α).Ordered le := by
  induction sorted with
  | nil => trivial
  | cons here _ ih => exact ⟨each_ofList here, ih⟩

theorem Ordered.outcome (ordered : course.Ordered le) {values : List α} (ends : course.outcome = .ok values) :
    values.Pairwise le := by
  rw [outcome_ok ends] at ordered
  clear ends
  induction values with
  | nil => exact .nil
  | cons value rest ih => exact .cons (ordered.1.outcome (outcome_ofList rest)) (ih ordered.2)

theorem Ordered.stop (ordered : course.Ordered le) (count : Nat) : (course.stop count).Ordered le := by
  induction course generalizing count with
  | done => cases count <;> trivial
  | fails failure => cases count <;> trivial
  | more value rest ih =>
      cases count with
      | zero => trivial
      | succ count => exact ⟨ordered.1.stop count, ih ordered.2 count⟩

theorem ordered_following {value : α} {rest : Except ε (Course ε α)}
    (here : ∀ course, rest = .ok course → course.Each (le value) ∧ course.Ordered le) :
    (following value rest).Ordered le := by
  cases rest with
  | error failure => trivial
  | ok course => exact here course rfl

theorem Ordered.sift {below : β → β → Prop} {holds : α → Prop} {test : α → Except ε (Option β)}
    (tested : ∀ {first second firstResult secondResult}, holds first → holds second → le first second →
      test first = .ok (some firstResult) → test second = .ok (some secondResult) → below firstResult secondResult)
    (ordered : course.Ordered le) (each : course.Each holds) {sifted : Course ε β}
    (given : course.sift test = .ok sifted) : sifted.Ordered below := by
  induction course generalizing sifted with
  | done =>
      cases given
      trivial
  | fails failure => cases given
  | more value rest ih =>
      rw [Course.sift] at given
      cases passed : test value with
      | error failure =>
          rw [passed] at given
          cases given
      | ok found =>
          rw [passed] at given
          cases found with
          | none => exact ih ordered.2 each.2 given
          | some result =>
              cases given
              refine ordered_following fun course later => ⟨?_, ih ordered.2 each.2 later⟩
              refine (each.2.both ordered.1).sift ?_ later
              intro second secondResult ⟨holds, inOrder⟩ secondPassed
              exact tested each.1 holds inOrder passed secondPassed

end

/-- The course gives no more values than this. -/
def AtMost : Nat → Course ε α → Prop
  | _, .done | _, .fails _ => True
  | 0, .more .. => False
  | count + 1, .more _ rest => rest.AtMost count

section

variable {course : Course ε α} {count : Nat}

theorem AtMost.mono {more : Nat} (atMost : course.AtMost count) (fewer : count ≤ more) : course.AtMost more := by
  induction course generalizing count more with
  | done | fails => cases more <;> trivial
  | more value rest ih =>
      cases count with
      | zero => cases atMost
      | succ count =>
          cases more with
          | zero => cases fewer
          | succ more => exact ih atMost (Nat.le_of_succ_le_succ fewer)

theorem atMost_stop (course : Course ε α) (count : Nat) : (course.stop count).AtMost count := by
  induction course generalizing count with
  | done | fails => cases count <;> trivial
  | more value rest ih =>
      cases count with
      | zero => trivial
      | succ count => exact ih count

theorem AtMost.stop (atMost : course.AtMost count) (taken : Nat) : (course.stop taken).AtMost count := by
  induction course generalizing count taken with
  | done | fails => cases taken <;> cases count <;> trivial
  | more value rest ih =>
      cases count with
      | zero => cases atMost
      | succ count =>
          cases taken with
          | zero => trivial
          | succ taken => exact ih atMost taken

/-- One value is in order. -/
theorem AtMost.ordered {le : α → α → Prop} (alone : course.AtMost 1) : course.Ordered le := by
  cases course with
  | done => trivial
  | fails failure => trivial
  | more value rest =>
      cases rest with
      | done => exact ⟨trivial, trivial⟩
      | fails failure => exact ⟨trivial, trivial⟩
      | more other rest => cases alone

theorem atMost_following {value : α} {rest : Except ε (Course ε α)}
    (later : ∀ course, rest = .ok course → course.AtMost count) : (following value rest).AtMost (count + 1) := by
  cases rest with
  | error failure => trivial
  | ok course => exact later course rfl

theorem AtMost.sift {test : α → Except ε (Option β)} (atMost : course.AtMost count) {sifted : Course ε β}
    (given : course.sift test = .ok sifted) : sifted.AtMost count := by
  induction course generalizing count sifted with
  | done =>
      cases given
      cases count <;> trivial
  | fails failure => cases given
  | more value rest ih =>
      cases count with
      | zero => cases atMost
      | succ count =>
          rw [Course.sift] at given
          cases passed : test value with
          | error failure =>
              rw [passed] at given
              cases given
          | ok found =>
              rw [passed] at given
              cases found with
              | none => exact (ih atMost given).mono (Nat.le_succ count)
              | some result =>
                  cases given
                  exact atMost_following fun course => ih atMost

theorem AtMost.gather {f : α → Except ε β} (atMost : course.AtMost count) {results : List β}
    (given : course.gather f = .ok results) : results.length ≤ count := by
  induction course generalizing count results with
  | done =>
      cases given
      exact Nat.zero_le count
  | fails failure => cases given
  | more value rest ih =>
      cases count with
      | zero => cases atMost
      | succ count =>
          rw [Course.gather] at given
          cases first : f value with
          | error failure =>
              rw [first] at given
              cases given
          | ok result =>
              cases others : rest.gather f with
              | error failure =>
                  rw [first, others] at given
                  cases given
              | ok others' =>
                  rw [first, others] at given
                  cases given
                  exact Nat.succ_le_succ (ih atMost others)

/-- At most nothing comes out of a course in which no value can be. -/
theorem Each.atMost {holds : α → Prop} (each : course.Each holds) (none : ∀ value, ¬ holds value) :
    course.AtMost 0 := by
  cases course with
  | done | fails => trivial
  | more value rest => exact none value each.1

end

/-- The course does not come to this failure. -/
def Avoids (bad : ε) : Course ε α → Prop
  | .done => True
  | .fails failure => failure ≠ bad
  | .more _ rest => rest.Avoids bad

section

variable {bad : ε} {holds : α → Prop} {course : Course ε α}

theorem avoids_following {value : α} {rest : Except ε (Course ε α)} (later : Spares bad (Avoids bad) rest) :
    (following value rest).Avoids bad := by
  cases rest with
  | error failure => exact later
  | ok course => exact later

theorem Avoids.sift {test : α → Except ε (Option β)} (avoids : course.Avoids bad) (each : course.Each holds)
    (tested : ∀ value, holds value → test value ≠ .error bad) : Spares bad (Avoids bad) (course.sift test) := by
  induction course with
  | done => trivial
  | fails failure => exact avoids
  | more value rest ih =>
      have others := ih avoids each.2
      rw [Course.sift]
      cases passed : test value with
      | error failure =>
          intro same
          subst same
          exact tested value each.1 passed
      | ok found =>
          cases found with
          | none => exact others
          | some result => exact avoids_following others

theorem Avoids.gather {f : α → Except ε β} (avoids : course.Avoids bad) (each : course.Each holds)
    (mapped : ∀ value, holds value → f value ≠ .error bad) :
    Spares bad (fun _ => True) (course.gather f) := by
  induction course with
  | done => trivial
  | fails failure => exact avoids
  | more value rest ih =>
      rw [Course.gather]
      cases first : f value with
      | error failure =>
          intro same
          subst same
          exact mapped value each.1 first
      | ok result => exact (ih avoids each.2).bind fun _ _ => trivial

theorem Avoids.stop (avoids : course.Avoids bad) (count : Nat) : (course.stop count).Avoids bad := by
  induction course generalizing count with
  | done => cases count <;> trivial
  | fails failure =>
      cases count with
      | zero => trivial
      | succ count => exact avoids
  | more value rest ih =>
      cases count with
      | zero => trivial
      | succ count => exact ih avoids count

theorem Avoids.outcome (avoids : course.Avoids bad) : Spares bad (fun _ => True) course.outcome := by
  induction course with
  | done => trivial
  | fails failure => exact avoids
  | more value rest ih => exact (ih avoids).bind fun _ _ => trivial

end

theorem gather_ofList (f : α → Except ε β) (values : List α) : (ofList values).gather f = values.mapM f := by
  induction values with
  | nil => rfl
  | cons value rest ih =>
      rw [ofList, gather, ih, List.mapM_cons]

section

variable {bad : ε} {course : Course ε α}

end

end Course

end

/-- An iterator.  `opened` is the state that `open` leaves. -/
structure Machine (ε α : Type) where
  State : Type
  initial : State
  opened : Nat → State → Except ε State
  hasNext : Nat → State → Except ε (Bool × State)
  next : Nat → State → Except ε (α × State)

/-- An iterator that looks for its next result as soon as it has given the one before.
`absent` is the failure of a caller that reads past the end. -/
def Machine.holding {ε σ β : Type} (initial : σ) (opened : Nat → σ → Except ε σ)
    (getNext : Nat → σ → Except ε (Option β × σ)) (absent : ε) : Machine ε β where
  State := σ × Option β
  initial := (initial, none)
  opened rounds state := do
    let state ← opened rounds state.1
    let (found, state) ← getNext rounds state
    return (state, found)
  hasNext _ state := .ok (state.2.isSome, state)
  next rounds state :=
    match state.2 with
    | none => .error absent
    | some result => do
        let (found, state) ← getNext rounds state.1
        return (result, (state, found))

namespace Machine

variable {ε α β : Type} (machine : Machine ε α)

section

variable [Inhabited ε]

/-- `while (hasNext) test(next)`, until a test gives a result. -/
def search (test : α → Except ε (Option β)) : Nat → machine.State → Except ε (Option β × machine.State)
  | 0, _ => .error default
  | rounds + 1, state => do
      let (more, state) ← machine.hasNext rounds state
      if more then
        let (value, state) ← machine.next rounds state
        match ← test value with
        | some result => return (some result, state)
        | none => search test rounds state
      else return (none, state)

/-- `map(f).toSeq`. -/
def gather (f : α → Except ε β) : Nat → machine.State → Except ε (List β)
  | 0, _ => .error default
  | rounds + 1, state => do
      let (more, state) ← machine.hasNext rounds state
      if more then
        let (value, state) ← machine.next rounds state
        let result ← f value
        return result :: (← gather f rounds state)
      else return []

/-- `open` and `toList`. -/
def drain (rounds : Nat) : Except ε (List α) := do
  machine.gather pure rounds (← machine.opened rounds machine.initial)

end

inductive Call where
  | hasNext
  | next
deriving DecidableEq

inductive Reply (α : Type) where
  | has (more : Bool)
  | value (given : α)

/-- The replies to calls that are made one after the other. -/
def replies (rounds : Nat) : List Call → machine.State → Except ε (List (Reply α))
  | [], _ => .ok []
  | .hasNext :: calls, state => do
      let (more, state) ← machine.hasNext rounds state
      return .has more :: (← replies rounds calls state)
  | .next :: calls, state => do
      let (value, state) ← machine.next rounds state
      return .value value :: (← replies rounds calls state)

/-- The replies of an iterator over a list. -/
def listReplies : List Call → List α → List (Reply α)
  | [], _ => []
  | .hasNext :: calls, values => .has (!values.isEmpty) :: listReplies calls values
  | .next :: calls, value :: values => .value value :: listReplies calls values
  | .next :: _, [] => []

def openReplies (calls : List Call) (rounds : Nat) : Except ε (List (Reply α)) := do
  machine.replies rounds calls (← machine.opened rounds machine.initial)

/-- A relation between states and courses that the calls keep. -/
structure Simulates (related : machine.State → Course ε α → Prop) : Prop where
  hasNext : ∀ {state course}, related state course →
    ∃ after, Settles (machine.hasNext · state) (.ok (course.pending, after)) ∧ related after course
  next : ∀ {state value rest}, related state (.more value rest) →
    ∃ after, Settles (machine.next · state) (.ok (value, after)) ∧ related after rest
  fails : ∀ {state failure}, related state (.fails failure) →
    Settles (machine.next · state) (.error failure)

/-- The calls on this state give the course, in whatever order they are made. -/
def Follows (state : machine.State) (course : Course ε α) : Prop :=
  ∃ related, machine.Simulates related ∧ related state course

/-- The course begins with a call of `hasNext`, which may be what fails. -/
def Answers (state : machine.State) : Except ε (Course ε α) → Prop
  | .ok course =>
      ∃ after, Settles (machine.hasNext · state) (.ok (course.pending, after)) ∧ machine.Follows after course
  | .error failure => Settles (machine.hasNext · state) (.error failure)

/-- The opened iterator gives the course. -/
def Opens : Except ε (Course ε α) → Prop
  | .ok course => ∃ state, Settles (machine.opened · machine.initial) (.ok state) ∧ machine.Follows state course
  | .error failure => Settles (machine.opened · machine.initial) (.error failure)

/-- The opened iterator gives the course to a caller that begins with `hasNext`. -/
inductive Begins : Except ε (Course ε α) → Prop where
  | answers {state : machine.State} {result : Except ε (Course ε α)}
      (opened : Settles (machine.opened · machine.initial) (.ok state))
      (answers : machine.Answers state result) : Begins result
  | fails {failure : ε} (opened : Settles (machine.opened · machine.initial) (.error failure)) :
      Begins (.error failure)

variable {machine} {state : machine.State} {course rest : Course ε α} {result : Except ε (Course ε α)}
  {value : α} {failure : ε}

theorem Follows.hasNext (follows : machine.Follows state course) :
    ∃ after, Settles (machine.hasNext · state) (.ok (course.pending, after)) ∧ machine.Follows after course := by
  obtain ⟨related, simulates, here⟩ := follows
  obtain ⟨after, answered, there⟩ := simulates.hasNext here
  exact ⟨after, answered, related, simulates, there⟩

theorem Follows.next (follows : machine.Follows state (.more value rest)) :
    ∃ after, Settles (machine.next · state) (.ok (value, after)) ∧ machine.Follows after rest := by
  obtain ⟨related, simulates, here⟩ := follows
  obtain ⟨after, answered, there⟩ := simulates.next here
  exact ⟨after, answered, related, simulates, there⟩

theorem Follows.fails (follows : machine.Follows state (.fails failure)) :
    Settles (machine.next · state) (.error failure) := by
  obtain ⟨related, simulates, here⟩ := follows
  exact simulates.fails here

theorem Follows.answers (follows : machine.Follows state course) : machine.Answers state (.ok course) :=
  follows.hasNext

theorem Opens.begins (opens : machine.Opens result) : machine.Begins result := by
  cases result with
  | error failure => exact .fails opens
  | ok course =>
      obtain ⟨state, opened, follows⟩ := opens
      exact .answers opened follows.answers

theorem Follows.replies {values : List α} (follows : machine.Follows state (.ofList values)) {calls : List Call}
    (enough : calls.count .next ≤ values.length) :
    Settles (machine.replies · calls state) (.ok (listReplies calls values)) := by
  induction calls generalizing state values with
  | nil => exact .const _
  | cons call calls ih =>
      cases call with
      | hasNext =>
          rw [List.count_cons_of_ne (by nofun)] at enough
          obtain ⟨after, answered, follows⟩ := follows.hasNext
          rw [Course.pending_ofList] at answered
          exact answered.bind ((ih follows enough).bind (.const _))
      | next =>
          rw [List.count_cons_self] at enough
          cases values with
          | nil => cases enough
          | cons value values =>
              obtain ⟨after, given, follows⟩ := follows.next
              exact given.bind ((ih follows (Nat.le_of_succ_le_succ enough)).bind (.const _))

/-- Whatever calls are made, as long as there is a value for each `next`. -/
theorem Opens.replies {values : List α} (opens : machine.Opens (.ok (.ofList values))) {calls : List Call}
    (enough : calls.count .next ≤ values.length) :
    Settles (machine.openReplies calls) (.ok (listReplies calls values)) := by
  obtain ⟨state, opened, follows⟩ := opens
  exact opened.bind (follows.replies enough)

/-- Where a `next` past the end fails, all patterns of calls are accounted for. -/
theorem Simulates.replies {related : machine.State → Course ε α → Prop} (simulates : machine.Simulates related)
    {absent : ε} (ends : ∀ {state}, related state .done → Settles (machine.next · state) (.error absent))
    {values : List α} (here : related state (.ofList values)) (calls : List Call) :
    Settles (machine.replies · calls state)
      (if calls.count .next ≤ values.length then .ok (listReplies calls values) else .error absent) := by
  induction calls generalizing state values with
  | nil => exact .const _
  | cons call calls ih =>
      cases call with
      | hasNext =>
          obtain ⟨after, answered, there⟩ := simulates.hasNext here
          rw [Course.pending_ofList] at answered
          have rest := ih there
          rw [List.count_cons_of_ne (by nofun)]
          refine answered.bind ?_
          by_cases enough : calls.count .next ≤ values.length
          · rw [if_pos enough] at rest ⊢
            exact rest.bind (.const _)
          · rw [if_neg enough] at rest ⊢
            exact rest.bind_error
      | next =>
          rw [List.count_cons_self]
          cases values with
          | nil => exact (ends here).bind_error
          | cons value values =>
              obtain ⟨after, given, there⟩ := simulates.next here
              have rest := ih there
              refine given.bind ?_
              by_cases enough : calls.count .next ≤ values.length
              · rw [if_pos enough] at rest
                have room : calls.count .next + 1 ≤ (value :: values).length := Nat.succ_le_succ enough
                rw [if_pos room]
                exact rest.bind (.const _)
              · rw [if_neg enough] at rest
                have short : ¬ calls.count .next + 1 ≤ (value :: values).length := fun room =>
                  enough (Nat.le_of_succ_le_succ room)
                rw [if_neg short]
                exact rest.bind_error

/-- The state after these calls. -/
def afterCalls (machine : Machine ε α) (rounds : Nat) : List Call → machine.State → Except ε machine.State
  | [], state => .ok state
  | .hasNext :: calls, state => do
      let (_, state) ← machine.hasNext rounds state
      machine.afterCalls rounds calls state
  | .next :: calls, state => do
      let (_, state) ← machine.next rounds state
      machine.afterCalls rounds calls state

theorem afterCalls_keeps {holds : machine.State → Prop} {rounds : Nat}
    (hasNext : ∀ {state more after}, holds state → machine.hasNext rounds state = .ok (more, after) → holds after)
    (next : ∀ {state value after}, holds state → machine.next rounds state = .ok (value, after) → holds after)
    {calls : List Call} {after : machine.State} (here : holds state)
    (reached : machine.afterCalls rounds calls state = .ok after) : holds after := by
  induction calls generalizing state with
  | nil =>
      cases reached
      exact here
  | cons call calls ih =>
      cases call with
      | hasNext =>
          rw [afterCalls] at reached
          cases answered : machine.hasNext rounds state with
          | error failure =>
              rw [answered] at reached
              cases reached
          | ok answer =>
              rw [answered] at reached
              exact ih (hasNext here answered) reached
      | next =>
          rw [afterCalls] at reached
          cases given : machine.next rounds state with
          | error failure =>
              rw [given] at reached
              cases reached
          | ok result =>
              rw [given] at reached
              exact ih (next here given) reached

/-- Wherever the calls of a user that opened the iterator lead, `hasNext` ends. -/
def HasNextEnds [Inhabited ε] (machine : Machine ε α) : Prop :=
  ∀ rounds calls state,
    (machine.opened rounds machine.initial).bind (machine.afterCalls rounds calls) = .ok state →
      Ends (machine.hasNext · state)

/-- `hasNext` ends in every state. -/
def Ending [Inhabited ε] (machine : Machine ε α) : Prop := ∀ state, Ends (machine.hasNext · state)

/-- Once the iterator is opened, `hasNext` does not end. -/
def Unending [Inhabited ε] (machine : Machine ε α) : Prop :=
  ∃ state, (∀ rounds, machine.opened rounds machine.initial = .ok state) ∧
    ∀ rounds, machine.hasNext rounds state = .error default

/-- A caller that opens the iterator and asks for a value never gets an answer. -/
def Stuck [Inhabited ε] (machine : Machine ε α) : Prop :=
  ∀ rounds, machine.opened rounds machine.initial = .error default ∨
    ∃ state, machine.opened rounds machine.initial = .ok state ∧ ∀ turns, machine.hasNext turns state = .error default

/-- If the iterator gives anything at all, it gives a course with the property. -/
def Comes [Inhabited ε] (machine : Machine ε α) (holds : Course ε α → Prop) : Prop :=
  machine.Stuck ∨ ∃ result, machine.Opens result ∧ ∀ course, result = .ok course → holds course

theorem Ending.hasNextEnds [Inhabited ε] (ending : machine.Ending) : machine.HasNextEnds :=
  fun _ _ state _ => ending state

theorem Unending.not_hasNextEnds [Inhabited ε] (unending : machine.Unending) : ¬ machine.HasNextEnds := by
  intro ends
  obtain ⟨state, opened, unfinished⟩ := unending
  refine Ends.not_of_forall unfinished (ends 0 [] state ?_)
  rw [opened]
  rfl

/-- What a caller that opens the iterator and goes on from there comes to. -/
theorem Begins.bind {γ : Type} {rest : Nat → machine.State → Except ε γ} {outcome : Except ε γ}
    (begins : machine.Begins result)
    (refuse : ∀ failure, result = .error failure → outcome = .error failure)
    (goesOn : ∀ state, machine.Answers state result → Settles (rest · state) outcome) :
    Settles (fun rounds => machine.opened rounds machine.initial >>= rest rounds) outcome := by
  cases begins with
  | answers opened answers => exact opened.bind (goesOn _ answers)
  | fails opened =>
      rw [refuse _ rfl]
      exact opened.bind_error

section

variable [Inhabited ε]

theorem gather_ends {after : machine.State} {f : α → Except ε β}
    (answered : Settles (machine.hasNext · state) (.ok (false, after))) :
    Settles (machine.gather f · state) (.ok []) := .of_succ (answered.bind (.const _))

theorem gather_fails {f : α → Except ε β} (answered : Settles (machine.hasNext · state) (.error failure)) :
    Settles (machine.gather f · state) (.error failure) := .of_succ answered.bind_error

theorem gather_more {after later : machine.State} {f : α → Except ε β} {outcome : Except ε (List β)}
    (answered : Settles (machine.hasNext · state) (.ok (true, after)))
    (given : Settles (machine.next · after) (.ok (value, later)))
    (rest : Settles (machine.gather f · later) outcome) :
    Settles (machine.gather f · state) (do
      let result ← f value
      return result :: (← outcome)) := by
  refine .of_succ (answered.bind (given.bind ?_))
  dsimp only
  cases f value with
  | error failure => exact .const _
  | ok result =>
      refine (Settles.const (.ok result)).bind ?_
      cases outcome with
      | error failure => exact rest.bind_error
      | ok results => exact rest.bind (.const _)

theorem Answers.gather (f : α → Except ε β) (answers : machine.Answers state result) :
    Settles (machine.gather f · state) (result >>= Course.gather f) := by
  cases result with
  | error failure => exact gather_fails answers
  | ok course =>
      induction course generalizing state with
      | done =>
          obtain ⟨after, answered, -⟩ := answers
          exact gather_ends answered
      | fails failure =>
          obtain ⟨after, answered, follows⟩ := answers
          exact .of_succ (answered.bind follows.fails.bind_error)
      | more value rest ih =>
          obtain ⟨after, answered, follows⟩ := answers
          obtain ⟨later, given, follows⟩ := follows.next
          exact gather_more answered given (ih follows.answers)

theorem Begins.gather (begins : machine.Begins result) (f : α → Except ε β) :
    Settles (fun rounds => machine.opened rounds machine.initial >>= machine.gather f rounds)
      (result >>= Course.gather f) := by
  refine begins.bind ?_ fun state answers => answers.gather f
  intro failure refused
  rw [refused]
  rfl

theorem Begins.drain (begins : machine.Begins result) :
    Settles machine.drain (result >>= Course.outcome) := by
  have settles := begins.gather pure
  cases result with
  | error failure => exact settles
  | ok course =>
      rw [show (Except.ok course >>= Course.gather pure) = course.gather pure from rfl,
        Course.gather_pure] at settles
      exact settles

/-- A caller that applies a function to the values it reads makes the calls of one that keeps them. -/
theorem gather_of_pure (f : α → Except ε β) {rounds : Nat} {state : machine.State} {values : List α}
    (kept : machine.gather pure rounds state = .ok values) : machine.gather f rounds state = values.mapM f := by
  induction rounds generalizing state values with
  | zero => cases kept
  | succ rounds ih =>
      rw [gather] at kept ⊢
      cases answered : machine.hasNext rounds state with
      | error failure =>
          rw [answered] at kept
          cases kept
      | ok reply =>
          obtain ⟨more, after⟩ := reply
          rw [answered] at kept
          cases more with
          | false =>
              cases kept
              rfl
          | true =>
              cases given : machine.next rounds after with
              | error failure =>
                  change (machine.next rounds after >>= _) = _ at kept
                  rw [given] at kept
                  cases kept
              | ok reply =>
                  obtain ⟨value, later⟩ := reply
                  change (machine.next rounds after >>= _) = _ at kept
                  change (machine.next rounds after >>= _) = _
                  rw [given] at kept ⊢
                  cases rest : machine.gather pure rounds later with
                  | error failure =>
                      change (machine.gather pure rounds later >>= _) = _ at kept
                      rw [rest] at kept
                      cases kept
                  | ok others =>
                      change (machine.gather pure rounds later >>= _) = _ at kept
                      rw [rest] at kept
                      cases kept
                      change (f value >>= fun result => machine.gather f rounds later >>= _) = _
                      rw [ih rest, List.mapM_cons]

theorem gather_of_drain (f : α → Except ε β) {values : List α} (drained : Settles machine.drain (.ok values)) :
    Settles (fun rounds => do machine.gather f rounds (← machine.opened rounds machine.initial)) (values.mapM f) := by
  obtain ⟨least, settled⟩ := drained
  refine ⟨least, fun rounds enough => ?_⟩
  have kept := settled rounds enough
  rw [drain] at kept
  cases opened : machine.opened rounds machine.initial with
  | error failure =>
      rw [opened] at kept
      cases kept
  | ok state =>
      rw [opened] at kept
      dsimp only
      rw [opened]
      exact gather_of_pure f kept

theorem Unending.stuck (unending : machine.Unending) : machine.Stuck := by
  obtain ⟨state, opened, unfinished⟩ := unending
  exact fun rounds => .inr ⟨state, opened rounds, unfinished⟩

theorem Stuck.gather (stuck : machine.Stuck) (f : α → Except ε β) (rounds : Nat) :
    (machine.opened rounds machine.initial >>= machine.gather f rounds) = .error default := by
  obtain refused | ⟨state, opened, unfinished⟩ := stuck rounds
  · rw [refused]
    rfl
  · rw [opened]
    change machine.gather f rounds state = _
    cases rounds with
    | zero => rfl
    | succ rounds =>
        rw [Machine.gather, unfinished]
        rfl

theorem Stuck.search (stuck : machine.Stuck) (test : α → Except ε (Option β)) (rounds : Nat) :
    (machine.opened rounds machine.initial >>= machine.search test rounds) = .error default := by
  obtain refused | ⟨state, opened, unfinished⟩ := stuck rounds
  · rw [refused]
    rfl
  · rw [opened]
    change machine.search test rounds state = _
    cases rounds with
    | zero => rfl
    | succ rounds =>
        rw [Machine.search, unfinished]
        rfl

theorem Comes.imp {holds weaker : Course ε α → Prop} (comes : machine.Comes holds)
    (implies : ∀ course, holds course → weaker course) : machine.Comes weaker := by
  obtain stuck | ⟨result, opens, given⟩ := comes
  · exact .inl stuck
  · exact .inr ⟨result, opens, fun course same => implies course (given course same)⟩

theorem Comes.drained {holds : Course ε α → Prop} (comes : machine.Comes holds) {values : List α}
    (drained : Settles machine.drain (.ok values)) : holds (.ofList values) := by
  obtain stuck | ⟨result, opens, given⟩ := comes
  · obtain ⟨enough, reached⟩ := drained
    have unfinished := stuck.gather pure enough
    cases (reached enough (Nat.le_refl enough)).symm.trans unfinished
  · have outcome := opens.begins.drain.unique drained
    cases result with
    | error failure => cases outcome
    | ok course =>
        rw [← Course.outcome_ok outcome]
        exact given course rfl

end

end Machine

section

variable {ε σ β : Type}

/-- What a search for the next result comes to, with what is left after it. -/
inductive Sought (getNext : Nat → σ → Except ε (Option β × σ)) (related : σ → Except ε (Course ε β) → Prop)
    (state : σ) : Except ε (Course ε β) → Prop where
  | fails {failure : ε} (settles : Settles (getNext · state) (.error failure)) :
      Sought getNext related state (.error failure)
  | done {after : σ} (settles : Settles (getNext · state) (.ok (none, after))) :
      Sought getNext related state (.ok .done)
  | found {value : β} {after : σ} {rest : Except ε (Course ε β)}
      (settles : Settles (getNext · state) (.ok (some value, after))) (left : related after rest) :
      Sought getNext related state (.ok (.following value rest))

theorem Sought.of_settles {getNext : Nat → σ → Except ε (Option β × σ)}
    {related : σ → Except ε (Course ε β) → Prop} {state later : σ} {result : Except ε (Course ε β)}
    (sought : Sought getNext related later result)
    (settles : ∀ {outcome}, Settles (getNext · later) outcome → Settles (getNext · state) outcome) :
    Sought getNext related state result := by
  cases sought with
  | fails failed => exact .fails (settles failed)
  | done ended => exact .done (settles ended)
  | found given left => exact .found (settles given) left

/-- The value that is held, and what the next searches come to. -/
def Holds (related : σ → Except ε (Course ε β) → Prop) (state : σ × Option β) (course : Course ε β) : Prop :=
  match state.2 with
  | none => course = .done
  | some result => ∃ rest, related state.1 rest ∧ course = .following result rest

variable {initial : σ} {opened : Nat → σ → Except ε σ} {getNext : Nat → σ → Except ε (Option β × σ)}
  {related : σ → Except ε (Course ε β) → Prop} {absent : ε}

theorem Machine.holding_simulates
    (seeks : ∀ {state result}, related state result → Sought getNext related state result) :
    (Machine.holding initial opened getNext absent).Simulates (Holds related) where
  hasNext := by
    intro state course holds
    refine ⟨state, ?_, holds⟩
    obtain ⟨inner, held⟩ := state
    cases held with
    | none =>
        cases holds
        exact .const _
    | some result =>
        obtain ⟨rest, -, same⟩ := holds
        have pending : course.pending = true := by
          rw [same]
          cases rest <;> rfl
        rw [pending]
        exact .const _
  next := by
    intro state value left holds
    obtain ⟨inner, held⟩ := state
    cases held with
    | none => cases holds
    | some result =>
        obtain ⟨rest, here, same⟩ := holds
        cases seeks here with
        | fails settles => cases same
        | done settles =>
            cases same
            exact ⟨_, settles.bind (.const _), rfl⟩
        | found settles left =>
            cases same
            exact ⟨_, settles.bind (.const _), _, left, rfl⟩
  fails := by
    intro state failure holds
    obtain ⟨inner, held⟩ := state
    cases held with
    | none => cases holds
    | some result =>
        obtain ⟨rest, here, same⟩ := holds
        cases seeks here with
        | fails settles =>
            cases same
            exact settles.bind_error
        | done settles => cases same
        | found settles left => cases same

/-- The first result is looked for when the iterator is opened. -/
theorem Machine.holding_opens
    (seeks : ∀ {state result}, related state result → Sought getNext related state result)
    {state : σ} {result : Except ε (Course ε β)}
    (opens : Settles (opened · initial) (.ok state)) (sought : Sought getNext related state result) :
    (Machine.holding initial opened getNext absent).Opens result := by
  cases sought with
  | fails settles => exact opens.bind settles.bind_error
  | done settles => exact ⟨_, opens.bind (settles.bind (.const _)), _, holding_simulates seeks, rfl⟩
  | found settles left =>
      exact ⟨_, opens.bind (settles.bind (.const _)), _, holding_simulates seeks, _, left, rfl⟩

variable {α : Type} [Inhabited ε] {machine : Machine ε α} {state : machine.State} {result : Except ε (Course ε α)}

/-- What the tests make of the rest of another iterator. -/
def Machine.Sifted (machine : Machine ε α) (test : α → Except ε (Option β)) (state : machine.State)
    (result : Except ε (Course ε β)) : Prop :=
  ∃ rest, machine.Follows state rest ∧ result = rest.sift test

theorem Machine.Answers.sought (test : α → Except ε (Option β)) (answers : machine.Answers state result) :
    Sought (machine.search test) (machine.Sifted test) state (result >>= Course.sift test) := by
  cases result with
  | error failure => exact .fails (.of_succ (Settles.bind_error answers))
  | ok course =>
      change Sought _ _ _ (course.sift test)
      induction course generalizing state with
      | done =>
          obtain ⟨after, answered, -⟩ := answers
          exact .done (.of_succ (answered.bind (.const _)))
      | fails failure =>
          obtain ⟨after, answered, follows⟩ := answers
          exact .fails (.of_succ (answered.bind follows.fails.bind_error))
      | more value rest ih =>
          obtain ⟨after, answered, follows⟩ := answers
          obtain ⟨later, given, follows⟩ := follows.next
          have tests {outcome : Except ε (Option β × machine.State)}
              (settles : Settles (fun rounds => do
                match ← test value with
                | some result => return (some result, later)
                | none => machine.search test rounds later) outcome) :
              Settles (machine.search test · state) outcome := .of_succ (answered.bind (given.bind settles))
          rw [Course.sift]
          cases tested : test value with
          | error failure =>
              rw [tested] at tests
              exact .fails (tests (.const _))
          | ok passed =>
              rw [tested] at tests
              cases passed with
              | some found => exact .found (tests (.const _)) ⟨rest, follows, rfl⟩
              | none => exact (ih follows.answers).of_settles tests

/-- The values of another iterator that pass a test. -/
def Machine.lookahead (machine : Machine ε α) (test : α → Except ε (Option β)) (absent : ε) : Machine ε β :=
  .holding machine.initial machine.opened (machine.search test) absent

theorem Machine.sifted_sought (test : α → Except ε (Option β)) {state : machine.State}
    {result : Except ε (Course ε β)} (sifted : machine.Sifted test state result) :
    Sought (machine.search test) (machine.Sifted test) state result := by
  obtain ⟨rest, follows, rfl⟩ := sifted
  exact follows.answers.sought test

theorem Machine.Begins.lookahead (test : α → Except ε (Option β)) (absent : ε) (begins : machine.Begins result) :
    (machine.lookahead test absent).Opens (result >>= Course.sift test) := by
  cases begins with
  | fails opened => exact Settles.bind_error opened
  | answers opened answers => exact holding_opens (machine.sifted_sought test) opened (answers.sought test)

/-- An iterator that looks ahead in a stuck one is stuck, and any other one it sifts. -/
theorem Machine.Stuck.lookahead (stuck : machine.Stuck) (test : α → Except ε (Option β)) (absent : ε) :
    (machine.lookahead test absent).Stuck := by
  refine fun rounds => .inl ?_
  have unfinished := stuck.search test rounds
  change (do
    let state ← machine.opened rounds machine.initial
    let (found, state) ← machine.search test rounds state
    return (state, found)) = _
  cases opened : machine.opened rounds machine.initial with
  | error failure =>
      rw [opened] at unfinished
      cases unfinished
      rfl
  | ok state =>
      rw [opened] at unfinished
      change (machine.search test rounds state >>= _) = _
      rw [show machine.search test rounds state = .error default from unfinished]
      rfl

theorem Machine.Comes.lookahead {holds : Course ε α → Prop} {passes : Course ε β → Prop}
    (comes : machine.Comes holds) (test : α → Except ε (Option β)) (absent : ε)
    (sifted : ∀ course result, holds course → course.sift test = .ok result → passes result) :
    (machine.lookahead test absent).Comes passes := by
  obtain stuck | ⟨result, opens, given⟩ := comes
  · exact .inl (stuck.lookahead test absent)
  · refine .inr ⟨_, opens.begins.lookahead test absent, fun course passed => ?_⟩
    cases result with
    | error failure => cases passed
    | ok whole => exact sifted whole course (given whole rfl) passed

end

section

variable {ε α : Type} {inner outer : Machine ε α} {f : inner.State → outer.State}

/-- The calls on some states of an iterator are those of another one. -/
structure Embeds (inner outer : Machine ε α) (f : inner.State → outer.State) : Prop where
  hasNext : ∀ rounds state, outer.hasNext rounds (f state) =
    inner.hasNext rounds state >>= fun result => .ok (result.1, f result.2)
  next : ∀ rounds state, outer.next rounds (f state) =
    inner.next rounds state >>= fun result => .ok (result.1, f result.2)

theorem Embeds.follows (embeds : Embeds inner outer f) {state : inner.State} {course : Course ε α}
    (follows : inner.Follows state course) : outer.Follows (f state) course := by
  refine ⟨fun state course => ∃ held, state = f held ∧ inner.Follows held course, ?_, state, rfl, follows⟩
  constructor
  · intro state course found
    obtain ⟨held, rfl, follows⟩ := found
    obtain ⟨after, settles, follows⟩ := follows.hasNext
    exact ⟨f after, (settles.bind (.const _)).congr fun rounds => embeds.hasNext rounds held, after, rfl, follows⟩
  · intro state value rest found
    obtain ⟨held, rfl, follows⟩ := found
    obtain ⟨after, settles, follows⟩ := follows.next
    exact ⟨f after, (settles.bind (.const _)).congr fun rounds => embeds.next rounds held, after, rfl, follows⟩
  · intro state failure found
    obtain ⟨held, rfl, follows⟩ := found
    exact follows.fails.bind_error.congr fun rounds => embeds.next rounds held

theorem Embeds.replies (embeds : Embeds inner outer f) (rounds : Nat) (calls : List Machine.Call)
    (state : inner.State) :
    outer.replies rounds calls (f state) = inner.replies rounds calls state := by
  induction calls generalizing state with
  | nil => rfl
  | cons call calls ih =>
      cases call with
      | hasNext =>
          rw [Machine.replies, Machine.replies, embeds.hasNext]
          cases inner.hasNext rounds state with
          | error failure => rfl
          | ok answer => exact congrArg (· >>= fun others => .ok (.has answer.1 :: others)) (ih answer.2)
      | next =>
          rw [Machine.replies, Machine.replies, embeds.next]
          cases inner.next rounds state with
          | error failure => rfl
          | ok result => exact congrArg (· >>= fun others => .ok (.value result.1 :: others)) (ih result.2)

/-- An iterator whose first `hasNext` opens the other one. -/
theorem Embeds.answers (embeds : Embeds inner outer f) {start : outer.State} {result : Except ε (Course ε α)}
    (opens : inner.Opens result)
    (begins : ∀ rounds, outer.hasNext rounds start = (do
      let state ← inner.opened rounds inner.initial
      let result ← inner.hasNext rounds state
      return (result.1, f result.2))) : outer.Answers start result := by
  cases result with
  | error failure => exact (Settles.bind_error opens).congr begins
  | ok course =>
      obtain ⟨state, opened, follows⟩ := opens
      obtain ⟨after, settles, follows⟩ := follows.hasNext
      exact ⟨f after, (opened.bind (settles.bind (.const _))).congr begins, embeds.follows follows⟩

end

end Scads.Data
