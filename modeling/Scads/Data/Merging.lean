import Mathlib.Algebra.GroupWithZero.Nat
import Mathlib.Data.List.Forall2
import Scads.Data.Machines

namespace Scads.Data

/-! # Merging

Several sources are merged by taking the best of their heads, the first of them
when there are several.  The comparison may fail.
-/

section

variable {ε σ α : Type} (better : α → α → Except ε Bool)

/-- The better of the head of one source and the best of those before it. -/
def challenge (index : Nat) : Option α → Option (Nat × α) → Except ε (Option (Nat × α))
  | none, best => .ok best
  | some value, none => .ok (some (index, value))
  | some value, some (held, best) => do
      if ← better value best then return some (index, value) else return some (held, best)

/-- The best of the heads, with its index. -/
def contest : List (Option α) → Nat → Option (Nat × α) → Except ε (Option (Nat × α))
  | [], _, best => .ok best
  | head :: rest, index, best => do contest rest (index + 1) (← challenge better index head best)

/-- What merging the lists gives, when each value is looked for as soon as the one before it is read. -/
def merge : Nat → List (List α) → Except ε (Course ε α)
  | 0, _ => .ok .done
  | count + 1, lists =>
      match contest better (lists.map List.head?) 0 none with
      | .error failure => .error failure
      | .ok none => .ok .done
      | .ok (some (index, value)) => .ok (.following value (merge count (lists.modify index List.tail)))

def total (lists : List (List α)) : Nat := (lists.map List.length).sum

variable (refresh : σ → σ) (head : σ → Option α) (advance : σ → σ)

/-- One pass over the sources.  A source that has used up its buffer is refilled before it is looked at. -/
def select : List σ → Nat → Option (Nat × α) → Except ε (List σ × Option (Nat × α))
  | [], _, best => .ok ([], best)
  | source :: rest, index, best => do
      let source := refresh source
      let best ← challenge better index (head source) best
      let (rest, best) ← select rest (index + 1) best
      return (source :: rest, best)

def takeBest (sources : List σ) : Except ε (Option α × List σ) := do
  let (sources, best) ← select better refresh head sources 0 none
  match best with
  | none => return (none, sources)
  | some (index, value) => return (some value, sources.modify index advance)

end

section

variable {ε σ α : Type} {better : α → α → Except ε Bool} {refresh : σ → σ} {head : σ → Option α}
  {advance : σ → σ}

theorem challenge_ok {index : Nat} {first : Option α} {best result : Option (Nat × α)}
    (chosen : challenge better index first best = .ok result) :
    result = best ∨ ∃ value, first = some value ∧ result = some (index, value) := by
  cases first with
  | none =>
      cases chosen
      exact .inl rfl
  | some value =>
      cases best with
      | none =>
          cases chosen
          exact .inr ⟨value, rfl, rfl⟩
      | some best =>
          rw [challenge] at chosen
          cases compared : better value best.2 with
          | error failure =>
              rw [compared] at chosen
              cases chosen
          | ok goesFirst =>
              rw [compared] at chosen
              cases goesFirst with
              | true =>
                  cases chosen
                  exact .inr ⟨value, rfl, rfl⟩
              | false =>
                  cases chosen
                  exact .inl rfl

theorem contest_cons {first : Option α} {heads : List (Option α)} {index : Nat} {best : Option (Nat × α)} :
    contest better (first :: heads) index best =
      (challenge better index first best >>= contest better heads (index + 1)) := rfl

/-- The best is a head of one of the sources. -/
theorem contest_some {heads : List (Option α)} {index found : Nat} {best : Option (Nat × α)} {value : α}
    (chosen : contest better heads index best = .ok (some (found, value))) :
    best = some (found, value) ∨ ∃ place, found = index + place ∧ heads[place]? = some (some value) := by
  induction heads generalizing index best with
  | nil =>
      cases chosen
      exact .inl rfl
  | cons first heads ih =>
      rw [contest_cons] at chosen
      cases challenged : challenge better index first best with
      | error failure =>
          rw [challenged] at chosen
          cases chosen
      | ok held =>
          rw [challenged] at chosen
          obtain kept | ⟨place, there, isHead⟩ := ih chosen
          · obtain kept' | ⟨other, rfl, kept'⟩ := challenge_ok challenged
            · exact .inl (kept'.symm.trans kept)
            · cases kept'.symm.trans kept
              exact .inr ⟨0, rfl, rfl⟩
          · exact .inr ⟨place + 1, by omega, isHead⟩

theorem contest_none {heads : List (Option α)} {index : Nat}
    (empty : ∀ first ∈ heads, first = none) : contest better heads index none = .ok none := by
  induction heads generalizing index with
  | nil => rfl
  | cons first heads ih =>
      rw [contest_cons, empty first (by simp)]
      exact ih fun first member => empty first (by simp [member])

/-- A head is chosen if there is one. -/
theorem contest_ne_none {heads : List (Option α)} {index : Nat} {best : Option (Nat × α)}
    (offered : best ≠ none ∨ ∃ value, some value ∈ heads) : contest better heads index best ≠ .ok none := by
  induction heads generalizing index best with
  | nil =>
      obtain held | ⟨value, absurd⟩ := offered
      · intro chosen
        cases chosen
        exact held rfl
      · cases absurd
  | cons first heads ih =>
      rw [contest_cons]
      cases challenged : challenge better index first best with
      | error failure => nofun
      | ok kept =>
          refine ih ?_
          obtain held | ⟨value, member⟩ := offered
          · obtain rfl | ⟨other, -, rfl⟩ := challenge_ok challenged
            · exact .inl held
            · exact .inl (Option.some_ne_none _)
          · obtain rfl | later := List.mem_cons.mp member
            · refine .inl fun gone => ?_
              subst gone
              cases best with
              | none => cases challenged
              | some best =>
                  obtain absurd | ⟨other, -, absurd⟩ := challenge_ok challenged <;> cases absurd
            · exact .inr ⟨value, later⟩

theorem select_eq (sources : List σ) (index : Nat) (best : Option (Nat × α)) :
    select better refresh head sources index best =
      (contest better (sources.map fun source => head (refresh source)) index best >>=
        fun best => .ok (sources.map refresh, best)) := by
  induction sources generalizing index best with
  | nil => rfl
  | cons source rest ih =>
      rw [select, List.map_cons, contest_cons]
      dsimp only
      cases challenge better index (head (refresh source)) best with
      | error failure => rfl
      | ok held =>
          change (select better refresh head rest (index + 1) held >>= _) =
            (contest better _ (index + 1) held >>= _)
          rw [ih]
          cases contest better (rest.map fun source => head (refresh source)) (index + 1) held <;> rfl

/-- How the sources stand for the lists that they have still to give. -/
structure Reads (refresh : σ → σ) (head : σ → Option α) (advance : σ → σ) (holds : σ → List α → Prop) :
    Prop where
  refresh : ∀ {source list}, holds source list →
    holds (refresh source) list ∧ head (refresh source) = list.head?
  advance : ∀ {source value rest}, holds source (value :: rest) → head source = some value →
    holds (advance source) rest

variable {holds : σ → List α → Prop} {sources : List σ} {lists : List (List α)}

theorem Reads.heads (reads : Reads refresh head advance holds) (stand : List.Forall₂ holds sources lists) :
    sources.map (fun source => head (refresh source)) = lists.map List.head? := by
  induction stand with
  | nil => rfl
  | cons here rest ih =>
      rw [List.map_cons, List.map_cons, ih, (reads.refresh here).2]

theorem Reads.modify (reads : Reads refresh head advance holds) (stand : List.Forall₂ holds sources lists)
    {index : Nat} {value : α} (isHead : (lists.map List.head?)[index]? = some (some value)) :
    List.Forall₂ holds ((sources.map refresh).modify index advance) (lists.modify index List.tail) := by
  induction stand generalizing index with
  | nil => simp at isHead
  | @cons source list sources lists here rest ih =>
      obtain ⟨kept, first⟩ := reads.refresh here
      cases index with
      | zero =>
          cases list with
          | nil => simp at isHead
          | cons other list =>
              refine .cons (reads.advance kept first) ?_
              exact List.forall₂_map_left_iff.mpr (rest.imp fun _ _ holds => (reads.refresh holds).1)
      | succ index => exact .cons kept (ih isHead)

theorem total_modify {index : Nat} {value : α} (isHead : (lists.map List.head?)[index]? = some (some value)) :
    total (lists.modify index List.tail) + 1 = total lists := by
  induction lists generalizing index with
  | nil => simp at isHead
  | cons list lists ih =>
      cases index with
      | zero =>
          cases list with
          | nil => simp at isHead
          | cons other list =>
              simp only [List.modify_zero_cons, total, List.map_cons, List.sum_cons, List.tail_cons,
                List.length_cons]
              omega
      | succ index =>
          have rest := @ih index (by simpa using isHead)
          simp only [List.modify_succ_cons, total, List.map_cons, List.sum_cons] at rest ⊢
          omega

theorem heads_of_total_zero (empty : total lists = 0) : ∀ first ∈ lists.map List.head?, first = none := by
  intro first member
  obtain ⟨list, there, rfl⟩ := List.mem_map.mp member
  have none := List.sum_eq_zero_iff_forall_eq_nat.mp empty list.length (List.mem_map.mpr ⟨list, there, rfl⟩)
  rw [List.eq_nil_of_length_eq_zero none]
  rfl

/-- What is left of the lists that the sources stand for. -/
def Merges (better : α → α → Except ε Bool) (holds : σ → List α → Prop) (sources : List σ)
    (result : Except ε (Course ε α)) : Prop :=
  ∃ lists count, List.Forall₂ holds sources lists ∧ total lists ≤ count ∧ result = merge better count lists

theorem Reads.takeBest (better : α → α → Except ε Bool) (reads : Reads refresh head advance holds)
    (stand : List.Forall₂ holds sources lists) :
    takeBest better refresh head advance sources =
      match contest better (lists.map List.head?) 0 none with
      | .error failure => .error failure
      | .ok none => .ok (none, sources.map refresh)
      | .ok (some (index, value)) => .ok (some value, (sources.map refresh).modify index advance) := by
  rw [Data.takeBest, select_eq, reads.heads stand]
  cases contest better (lists.map List.head?) 0 none with
  | error failure => rfl
  | ok best => cases best <;> rfl

/-- One step of a merge that goes on until the lists are empty. -/
theorem merge_of_total {count : Nat} (enough : total lists ≤ count) :
    merge better count lists =
      match contest better (lists.map List.head?) 0 none with
      | .error failure => .error failure
      | .ok none => .ok .done
      | .ok (some (index, value)) =>
          .ok (.following value (merge better (count - 1) (lists.modify index List.tail))) := by
  cases count with
  | zero =>
      rw [contest_none (heads_of_total_zero (Nat.le_zero.mp enough))]
      rfl
  | succ count => rfl

theorem contest_head {index : Nat} {value : α}
    (chosen : contest better (lists.map List.head?) 0 none = .ok (some (index, value))) :
    (lists.map List.head?)[index]? = some (some value) := by
  obtain absurd | ⟨place, rfl, isHead⟩ := contest_some chosen
  · cases absurd
  · rwa [Nat.zero_add]

theorem Reads.sought (reads : Reads refresh head advance holds) {result : Except ε (Course ε α)}
    (merges : Merges better holds sources result) :
    Sought (fun _ => Data.takeBest better refresh head advance) (Merges better holds) sources result := by
  obtain ⟨lists, count, stand, enough, rfl⟩ := merges
  have taken := reads.takeBest better stand
  rw [merge_of_total enough]
  cases chosen : contest better (lists.map List.head?) 0 none with
  | error failure =>
      rw [chosen] at taken
      exact .fails ((Settles.const _).congr fun _ => taken)
  | ok best =>
      rw [chosen] at taken
      cases best with
      | none => exact .done ((Settles.const _).congr fun _ => taken)
      | some best =>
          have isHead := contest_head chosen
          have fewer := total_modify isHead
          exact .found ((Settles.const _).congr fun _ => taken)
            ⟨lists.modify best.1 List.tail, count - 1, reads.modify stand isHead, by omega, rfl⟩

theorem sublist_of_modify_tail {index : Nat} {other : List α} (member : other ∈ lists.modify index List.tail) :
    ∃ list ∈ lists, other.Sublist list := by
  obtain ⟨place, read⟩ := List.mem_iff_getElem?.mp member
  rw [List.getElem?_modify, Option.map_eq_map, Option.map_eq_some_iff] at read
  obtain ⟨original, there, rfl⟩ := read
  refine ⟨original, List.mem_of_getElem? there, ?_⟩
  split
  · exact List.tail_sublist _
  · exact List.Sublist.refl _

theorem mem_of_modify_tail {index : Nat} {other : List α} (member : other ∈ lists.modify index List.tail) {value : α}
    (inside : value ∈ other) : ∃ list ∈ lists, value ∈ list := by
  obtain ⟨list, there, shorter⟩ := sublist_of_modify_tail member
  exact ⟨list, there, shorter.subset inside⟩

theorem merge_each {passes : α → Prop} {count : Nat} (all : ∀ list ∈ lists, ∀ value ∈ list, passes value)
    {merged : Course ε α} (given : merge better count lists = .ok merged) : merged.Each passes := by
  induction count generalizing lists merged with
  | zero =>
      cases given
      trivial
  | succ count ih =>
      rw [merge] at given
      cases chosen : contest better (lists.map List.head?) 0 none with
      | error failure =>
          rw [chosen] at given
          cases given
      | ok best =>
          rw [chosen] at given
          cases best with
          | none =>
              cases given
              trivial
          | some best =>
              cases given
              obtain ⟨list, there, isHead⟩ := List.mem_map.mp (List.mem_of_getElem? (contest_head chosen))
              refine Course.each_following (all list there _ (List.mem_of_head? isHead)) fun course => ih ?_
              intro other member value inside
              obtain ⟨original, there, isIn⟩ := mem_of_modify_tail member inside
              exact all original there value isIn

section

variable {le : α → α → Prop}

/-- The comparisons of the next heads are answered by the order. -/
def AnsweredBy (better : α → α → Except ε Bool) (le : α → α → Prop) (value best : α) : Prop :=
  (better value best = .ok true → le value best) ∧ (better value best = .ok false → le best value)

/-- Merging the lists compares the two values within this many rounds: one is a head and the other the best of the
heads before it. -/
def Compares (better : α → α → Except ε Bool) : Nat → List (List α) → α → α → Prop
  | 0, _, _, _ => False
  | rounds + 1, lists, value, best =>
      (∃ before after held, lists.map List.head? = before ++ some value :: after ∧
        contest better before 0 none = .ok (some (held, best))) ∨
      ∃ index chosen, contest better (lists.map List.head?) 0 none = .ok (some (index, chosen)) ∧
        Compares better rounds (lists.modify index List.tail) value best

/-- The values of one list are not compared. -/
theorem Compares.several {rounds : Nat} {value best : α} (compares : Compares better rounds lists value best) :
    2 ≤ lists.length := by
  induction rounds generalizing lists with
  | zero => cases compares
  | succ rounds ih =>
      obtain ⟨before, after, held, heads, chosen⟩ | ⟨index, first, -, later⟩ := compares
      · have length := congrArg List.length heads
        rw [List.length_map, List.length_append, List.length_cons] at length
        cases before with
        | nil => cases chosen
        | cons other before =>
            rw [List.length_cons] at length
            omega
      · have more := ih later
        rwa [List.length_modify] at more

/-- What is chosen goes before all that it was chosen from. -/
def Least (le : α → α → Prop) (seen : List α) (best : Option (Nat × α)) : Prop :=
  ∀ kept, best = some kept → ∀ value ∈ seen, le kept.2 value

theorem challenge_least (refl : ∀ a, le a a) (trans : ∀ a b c, le a b → le b c → le a c) {seen : List α} {index : Nat}
    {first : Option α} {best result : Option (Nat × α)} (least : Least le seen best)
    (unseen : best = none → seen = [])
    (answers : ∀ value kept, first = some value → best = some kept → AnsweredBy better le value kept.2)
    (chosen : challenge better index first best = .ok result) :
    Least le (seen ++ first.toList) result ∧ (result = none → seen ++ first.toList = []) := by
  cases first with
  | none =>
      cases chosen
      rw [Option.toList_none, List.append_nil]
      exact ⟨least, unseen⟩
  | some value =>
      cases best with
      | none =>
          cases chosen
          rw [unseen rfl]
          refine ⟨fun kept isKept => ?_, nofun⟩
          cases isKept
          exact List.forall_mem_singleton.mpr (refl value)
      | some best =>
          have lower := least best rfl
          obtain ⟨first, second⟩ := answers value best rfl rfl
          rw [Data.challenge] at chosen
          cases compared : better value best.2 with
          | error failure =>
              rw [compared] at chosen
              cases chosen
          | ok goesFirst =>
              rw [compared] at chosen
              cases goesFirst with
              | true =>
                  cases chosen
                  refine ⟨fun kept isKept => ?_, nofun⟩
                  cases isKept
                  refine List.forall_mem_append.mpr ⟨fun other member => ?_, ?_⟩
                  · exact trans _ _ _ (first compared) (lower other member)
                  · exact List.forall_mem_singleton.mpr (refl value)
              | false =>
                  cases chosen
                  refine ⟨fun kept isKept => ?_, nofun⟩
                  cases isKept
                  exact List.forall_mem_append.mpr ⟨lower, List.forall_mem_singleton.mpr (second compared)⟩

theorem contest_append (before after : List (Option α)) (index : Nat) (best : Option (Nat × α)) :
    contest better (before ++ after) index best =
      (contest better before index best >>= contest better after (index + before.length)) := by
  induction before generalizing index best with
  | nil => rfl
  | cons first before ih =>
      rw [List.cons_append, contest_cons, contest_cons, bind_assoc]
      refine congrArg _ (funext fun held => ?_)
      rw [ih, List.length_cons, Nat.add_right_comm, Nat.add_assoc]

/-- The best of the heads goes before them all, when each is compared with the best of those before it. -/
theorem contest_least (refl : ∀ a, le a a) (trans : ∀ a b c, le a b → le b c → le a c) {before after : List (Option α)}
    {best result : Option (Nat × α)} (reached : contest better before 0 none = .ok best)
    (least : Least le (before.flatMap Option.toList) best) (unseen : best = none → before.flatMap Option.toList = [])
    (answers : ∀ first value second held kept, before ++ after = first ++ some value :: second →
      contest better first 0 none = .ok (some (held, kept)) → AnsweredBy better le value kept)
    (chosen : contest better after before.length best = .ok result) :
    Least le ((before ++ after).flatMap Option.toList) result := by
  induction after generalizing before best with
  | nil =>
      cases chosen
      rw [List.append_nil]
      exact least
  | cons first after ih =>
      rw [contest_cons] at chosen
      cases challenged : Data.challenge better before.length first best with
      | error failure =>
          rw [challenged] at chosen
          cases chosen
      | ok held =>
          rw [challenged] at chosen
          have asked : ∀ value kept, first = some value → best = some kept → AnsweredBy better le value kept.2 := by
            intro value kept isFirst isBest
            subst isFirst isBest
            exact answers before value after kept.1 kept.2 rfl reached
          obtain ⟨least, unseen⟩ := challenge_least refl trans least unseen asked challenged
          have same : (before ++ [first]).flatMap Option.toList = before.flatMap Option.toList ++ first.toList := by
            rw [List.flatMap_append, List.flatMap_cons, List.flatMap_nil, List.append_nil]
          have further : before ++ first :: after = (before ++ [first]) ++ after := by
            rw [List.append_assoc, List.singleton_append]
          rw [further] at answers ⊢
          refine ih ?_ (same ▸ least) (same ▸ unseen) answers ?_
          · rw [contest_append, reached, Nat.zero_add]
            change contest better [first] before.length best = _
            rw [contest_cons, challenged]
            rfl
          · rwa [List.length_append]

/-- Merging lists that are in order keeps the order of what is read in the first rounds, if their comparisons are
answered by it. -/
theorem merge_ordered (refl : ∀ a, le a a) (trans : ∀ a b c, le a b → le b c → le a c) {rounds count : Nat}
    (all : ∀ list ∈ lists, list.Pairwise le)
    (answers : ∀ value best, Compares better rounds lists value best → AnsweredBy better le value best)
    {merged : Course ε α} (given : merge better count lists = .ok merged) : (merged.stop rounds).Ordered le := by
  induction rounds generalizing count lists merged with
  | zero => trivial
  | succ rounds ih =>
      cases count with
      | zero =>
          cases given
          trivial
      | succ count =>
          rw [Data.merge] at given
          cases chosen : Data.contest better (lists.map List.head?) 0 none with
          | error failure =>
              rw [chosen] at given
              cases given
          | ok best =>
              rw [chosen] at given
              cases best with
              | none =>
                  cases given
                  trivial
              | some best =>
                  cases given
                  have least : Least le ((lists.map List.head?).flatMap Option.toList) (some best) := by
                    refine @contest_least _ _ _ _ refl trans [] (lists.map List.head?) none _ rfl nofun (fun _ => rfl)
                      (fun first value second held kept same reached => ?_) chosen
                    exact answers value kept (.inl ⟨first, second, held, same, reached⟩)
                  have lowest : ∀ list ∈ lists, ∀ value ∈ list, le best.2 value := by
                    intro list there value member
                    obtain ⟨first, rest, rfl⟩ := List.exists_cons_of_ne_nil (List.ne_nil_of_mem member)
                    have head := least best rfl first
                      (List.mem_flatMap.mpr ⟨some first, List.mem_map.mpr ⟨_, there, rfl⟩, by simp⟩)
                    obtain rfl | later := List.mem_cons.mp member
                    · exact head
                    · exact trans _ _ _ head ((List.pairwise_cons.mp (all _ there)).1 value later)
                  cases later : Data.merge better count (lists.modify best.1 List.tail) with
                  | error failure => trivial
                  | ok rest =>
                      refine ⟨(merge_each (fun other member value inside => ?_) later).stop rounds,
                        ih (fun other member => ?_) (fun value kept asked => ?_) later⟩
                      · obtain ⟨list, there, isIn⟩ := mem_of_modify_tail member inside
                        exact lowest list there value isIn
                      · obtain ⟨list, there, shorter⟩ := sublist_of_modify_tail member
                        exact (all list there).sublist shorter
                      · exact answers value kept (.inr ⟨_, _, chosen, asked⟩)

end

section

variable {bad : ε} {passes : α → Prop}

end

end

section

/-- Two computations that fail alike or come to related values. -/
inductive Agree {ε β γ : Type*} (related : β → γ → Prop) : Except ε β → Except ε γ → Prop where
  | error (failure : ε) : Agree related (.error failure) (.error failure)
  | ok {left : β} {right : γ} (here : related left right) : Agree related (.ok left) (.ok right)

theorem Agree.bind {ε β γ β' γ' : Type*} {related : β → γ → Prop} {related' : β' → γ' → Prop}
    {left : Except ε β} {right : Except ε γ} {f : β → Except ε β'} {g : γ → Except ε γ'}
    (agree : Agree related left right)
    (next : ∀ {first second}, related first second → Agree related' (f first) (g second)) :
    Agree related' (left.bind f) (right.bind g) := by
  cases agree with
  | error failure => exact .error failure
  | ok here => exact next here

variable {ε α β γ : Type} {related : β → γ → Prop}

theorem Course.gather_agree {f : α → Except ε β} {g : α → Except ε γ}
    (agree : ∀ value, Agree related (f value) (g value)) (course : Course ε α) :
    Agree (List.Forall₂ related) (course.gather f) (course.gather g) := by
  induction course with
  | done => exact .ok .nil
  | fails failure => exact .error failure
  | more value rest ih =>
      rw [gather, gather]
      have first := agree value
      revert first ih
      generalize f value = left
      generalize g value = right
      generalize rest.gather f = lefts
      generalize rest.gather g = rights
      intro ih first
      cases first with
      | error failure => exact .error failure
      | ok here =>
          cases ih with
          | error failure => exact .error failure
          | ok there => exact .ok (.cons here there)

theorem mapM_forall₂ {f : α → Except ε β} {values : List α} {results : List β} :
    values.mapM f = .ok results ↔ List.Forall₂ (fun value result => f value = .ok result) values results := by
  induction values generalizing results with
  | nil =>
      rw [List.forall₂_nil_left_iff, List.mapM_nil]
      exact ⟨fun same => (Except.ok.inj same).symm, fun same => by rw [same]; rfl⟩
  | cons value rest ih =>
      rw [List.forall₂_cons_left_iff, List.mapM_cons]
      constructor
      · intro mapped
        cases first : f value with
        | error failure =>
            rw [first] at mapped
            cases mapped
        | ok result =>
            cases others : rest.mapM f with
            | error failure =>
                rw [first, others] at mapped
                cases mapped
            | ok results =>
                rw [first, others] at mapped
                cases mapped
                exact ⟨result, results, rfl, ih.mp others, rfl⟩
      · intro ⟨result, results, first, others, same⟩
        rw [first, ih.mpr others, same]
        rfl

theorem forall₂_of_mapM_some {f : α → Option β} {values : List α} {results : List β}
    (mapped : values.mapM f = some results) :
    List.Forall₂ (fun value result => f value = some result) values results := by
  induction values generalizing results with
  | nil =>
      cases mapped
      exact .nil
  | cons value rest ih =>
      rw [List.mapM_cons] at mapped
      obtain ⟨result, first, mapped⟩ := Option.bind_eq_some_iff.mp mapped
      obtain ⟨others, later, same⟩ := Option.bind_eq_some_iff.mp mapped
      cases same
      exact .cons first (ih later)

theorem forall₂_mem_left {values : List β} {results : List γ} (each : List.Forall₂ related values results) {value : β}
    (member : value ∈ values) : ∃ result ∈ results, related value result := by
  induction each with
  | nil => cases member
  | cons here rest ih =>
      obtain rfl | later := List.mem_cons.mp member
      · exact ⟨_, by simp, here⟩
      · obtain ⟨result, there, holds⟩ := ih later
        exact ⟨result, by simp [there], holds⟩

theorem forall₂_mem_right {values : List β} {results : List γ} (each : List.Forall₂ related values results)
    {result : γ} (member : result ∈ results) : ∃ value ∈ values, related value result :=
  forall₂_mem_left each.flip member

theorem mapM_mem {f : α → Except ε β} {values : List α} {results : List β} (mapped : values.mapM f = .ok results)
    {value : α} (member : value ∈ values) : ∃ result ∈ results, f value = .ok result :=
  forall₂_mem_left (mapM_forall₂.mp mapped) member

theorem mapM_agree {f : α → Except ε β} {g : α → Except ε γ} {values : List α}
    (agree : ∀ value ∈ values, Agree related (f value) (g value)) :
    Agree (List.Forall₂ related) (values.mapM f) (values.mapM g) := by
  induction values with
  | nil => exact .ok .nil
  | cons value rest ih =>
      rw [List.mapM_cons, List.mapM_cons]
      have first := agree value (by simp)
      have others := ih fun value member => agree value (by simp [member])
      revert first others
      generalize f value = left
      generalize g value = right
      generalize rest.mapM f = lefts
      generalize rest.mapM g = rights
      intro first others
      cases first with
      | error failure => exact .error failure
      | ok here =>
          cases others with
          | error failure => exact .error failure
          | ok there => exact .ok (.cons here there)

end

end Scads.Data
