import Scads.Data.Merging

namespace Scads.Data

/-! # Stable merging

Where the comparison ranks all the values, a merge is stable: values that tie come in
the order of their lists.
-/

variable {ε α : Type} {better : α → α → Except ε Bool} {passes : α → Prop} {le : α → α → Bool}

/-- The comparison ranks the values that pass: it finds one of two values the better one
exactly when the other may not stand before it. -/
structure Ranks (better : α → α → Except ε Bool) (passes : α → Prop) (le : α → α → Bool) : Prop where
  better : ∀ {a b}, passes a → passes b → better a b = .ok (!le b a)
  total : ∀ {a b}, passes a → passes b → le a b = true ∨ le b a = true
  trans : ∀ {a b c}, passes a → passes b → passes c → le a b = true → le b c = true → le a c = true

/-- A list that the comparison can rank, and that is in order. -/
def RankedList (passes : α → Prop) (le : α → α → Bool) (list : List α) : Prop :=
  (∀ value ∈ list, passes value) ∧ list.Pairwise fun earlier later => le earlier later = true

def tied (le : α → α → Bool) (value other : α) : Bool := le value other && le other value

/-- All values of the lists in order, each as often as in the lists.  Values that tie
stand in the order of the lists, and the values of one list in the order of the list. -/
structure StableMerge (passes : α → Prop) (le : α → α → Bool) (lists : List (List α)) (merged : List α) : Prop where
  perm : merged.Perm lists.flatten
  ordered : merged.Pairwise fun earlier later => le earlier later = true
  ties : ∀ {value}, passes value → merged.filter (tied le value) = lists.flatten.filter (tied le value)
  sources : ∀ list ∈ lists, list.Sublist merged

/-- The first of the best among the heads that were seen. -/
def Leads (le : α → α → Bool) (seen : List (Option α)) : Option (Nat × α) → Prop
  | none => ∀ head ∈ seen, head = none
  | some (index, value) => ∃ before after, seen = before ++ some value :: after ∧ before.length = index ∧
      (∀ other, some other ∈ before → le other value = false) ∧ ∀ other, some other ∈ after → le value other = true

theorem Ranks.challenge (ranks : Ranks better passes le) {seen : List (Option α)} {first : Option α}
    {best : Option (Nat × α)} (offered : ∀ value, some value ∈ seen ++ [first] → passes value)
    (leads : Leads le seen best) :
    ∃ result, challenge better seen.length first best = .ok result ∧ Leads le (seen ++ [first]) result := by
  cases first with
  | none =>
      refine ⟨best, rfl, ?_⟩
      cases best with
      | none =>
          intro head member
          obtain member | member := List.mem_append.mp member
          · exact leads head member
          · exact List.mem_singleton.mp member
      | some best =>
          obtain ⟨before, after, rfl, isIndex, strict, weak⟩ := leads
          refine ⟨before, after ++ [none], by simp, isIndex, strict, fun other member => weak other ?_⟩
          simpa using member
  | some value =>
      cases best with
      | none =>
          refine ⟨_, rfl, seen, [], rfl, rfl, fun other member => ?_, nofun⟩
          cases leads _ member
      | some best =>
          obtain ⟨index, held⟩ := best
          obtain ⟨before, after, rfl, isIndex, strict, weak⟩ := leads
          have passed := offered value (by simp)
          have heldPasses := offered held (by simp)
          rw [Data.challenge, ranks.better passed heldPasses]
          cases stays : le held value with
          | true =>
              refine ⟨some (index, held), rfl, before, after ++ [some value], by simp, isIndex, strict,
                fun other member => ?_⟩
              obtain member | member := List.mem_append.mp member
              · exact weak other member
              · cases List.mem_singleton.mp member
                exact stays
          | false =>
              refine ⟨_, rfl, before ++ some held :: after, [], rfl, rfl, fun other member => ?_, nofun⟩
              have below : le value held = true :=
                (ranks.total passed heldPasses).resolve_right (by rw [stays]; exact Bool.false_ne_true)
              have otherPasses := offered other (List.mem_append_left _ member)
              rw [Bool.eq_false_iff]
              intro before'
              obtain member | member := List.mem_append.mp member
              · have absurd := ranks.trans otherPasses passed heldPasses before' below
                rw [strict other member] at absurd
                cases absurd
              · have inOrder : le held other = true := by
                  obtain same | member := List.mem_cons.mp member
                  · cases same
                    exact (ranks.total heldPasses heldPasses).elim id id
                  · exact weak other member
                have absurd := ranks.trans heldPasses otherPasses passed inOrder before'
                rw [stays] at absurd
                cases absurd

theorem Ranks.contest (ranks : Ranks better passes le) {seen heads : List (Option α)} {best : Option (Nat × α)}
    (offered : ∀ value, some value ∈ seen ++ heads → passes value) (leads : Leads le seen best) :
    ∃ result, contest better heads seen.length best = .ok result ∧ Leads le (seen ++ heads) result := by
  induction heads generalizing seen best with
  | nil => exact ⟨best, rfl, by rwa [List.append_nil]⟩
  | cons first heads ih =>
      rw [List.append_cons] at offered ⊢
      obtain ⟨held, challenged, leads⟩ :=
        ranks.challenge (fun value member => offered value (List.mem_append_left _ member)) leads
      obtain ⟨result, chosen, leads⟩ := ih offered leads
      refine ⟨result, ?_, leads⟩
      rw [contest_cons, challenged]
      rwa [List.length_append] at chosen

theorem modify_append {before after : List (List α)} {list : List α} (change : List α → List α) :
    (before ++ list :: after).modify before.length change = before ++ change list :: after := by
  induction before with
  | nil => rfl
  | cons first before ih => exact congrArg (first :: ·) ih

/-- Where the best of the heads stands among the lists. -/
theorem split_of_leads {lists : List (List α)} {index : Nat} {value : α}
    (leads : Leads le (lists.map List.head?) (some (index, value))) :
    ∃ before rest after, lists = before ++ (value :: rest) :: after ∧ before.length = index ∧
      (∀ list ∈ before, ∀ head ∈ list.head?, le head value = false) ∧
      ∀ list ∈ after, ∀ head ∈ list.head?, le value head = true := by
  obtain ⟨heads, others, split, isIndex, strict, weak⟩ := leads
  obtain ⟨before, behind, rfl, rfl, headed⟩ := List.map_eq_append_iff.mp split
  obtain ⟨list, after, rfl, isHead, rfl⟩ := List.map_eq_cons_iff.mp headed
  obtain ⟨rest, rfl⟩ := List.head?_eq_some_iff.mp isHead
  rw [List.length_map] at isIndex
  refine ⟨before, rest, after, rfl, isIndex, fun list member head isHead => ?_, fun list member head isHead => ?_⟩
  · exact strict head (List.mem_map.mpr ⟨list, member, isHead⟩)
  · exact weak head (List.mem_map.mpr ⟨list, member, isHead⟩)

variable {before after lists : List (List α)} {rest merged : List α} {value : α}

theorem flatten_split :
    (before ++ (value :: rest) :: after).flatten = before.flatten ++ value :: (rest ++ after.flatten) := by
  rw [List.flatten_append, List.flatten_cons, List.cons_append]

/-- The best value goes before what is merged from the rest. -/
theorem StableMerge.cons (stable : StableMerge passes le (before ++ rest :: after) merged)
    (first : ∀ other ∈ merged, le value other = true)
    (untied : ∀ other, passes other → tied le other value = true →
      ∀ earlier ∈ before.flatten, tied le other earlier = false) :
    StableMerge passes le (before ++ (value :: rest) :: after) (value :: merged) where
  perm := by
    rw [flatten_split]
    refine (stable.perm.cons value).trans ?_
    rw [List.flatten_append, List.flatten_cons]
    exact List.perm_middle.symm
  ordered := List.pairwise_cons.mpr ⟨first, stable.ordered⟩
  ties := by
    intro other passed
    have later := stable.ties passed
    rw [List.flatten_append, List.flatten_cons, List.filter_append] at later
    rw [flatten_split, List.filter_append]
    cases here : tied le other value with
    | true =>
        have none : before.flatten.filter (tied le other) = [] :=
          List.filter_eq_nil_iff.mpr fun earlier member => by simp [untied other passed here earlier member]
        rw [none, List.nil_append] at later
        rw [none, List.nil_append, List.filter_cons_of_pos here, List.filter_cons_of_pos here, later]
    | false =>
        have skipped : ¬ tied le other value = true := by rw [here]; exact Bool.false_ne_true
        rw [List.filter_cons_of_neg skipped, List.filter_cons_of_neg skipped, later]
  sources := by
    intro list member
    obtain member | member := List.mem_append.mp member
    · exact (stable.sources list (List.mem_append_left _ member)).cons value
    · obtain rfl | member := List.mem_cons.mp member
      · exact (stable.sources rest (by simp)).cons_cons value
      · exact (stable.sources list (by simp [member])).cons value

theorem StableMerge.nil (empty : ∀ list ∈ lists, list = []) : StableMerge passes le lists [] := by
  have none : lists.flatten = [] := List.flatten_eq_nil_iff.mpr empty
  refine ⟨?_, .nil, fun _ => ?_, fun list member => ?_⟩
  · rw [none]
  · rw [none]
  · rw [empty list member]

/-- Nothing in a list stands before its head. -/
theorem Ranks.head_le (ranks : Ranks better passes le) {list : List α} (ranked : RankedList passes le list)
    (member : value ∈ list) : ∃ head ∈ list.head?, passes head ∧ le head value = true := by
  cases list with
  | nil => cases member
  | cons head list =>
      have passed := ranked.1 head (by simp)
      refine ⟨head, rfl, passed, ?_⟩
      obtain rfl | later := List.mem_cons.mp member
      · exact (ranks.total passed passed).elim id id
      · exact (List.pairwise_cons.mp ranked.2).1 value later

/-- `value` leads its list and the lists around it, the first of those whose heads tie with it. -/
structure Leading (passes : α → Prop) (le : α → α → Bool) (before : List (List α)) (value : α) (rest : List α)
    (after : List (List α)) : Prop where
  ranked : ∀ list ∈ before ++ (value :: rest) :: after, RankedList passes le list
  strict : ∀ list ∈ before, ∀ head ∈ list.head?, le head value = false
  weak : ∀ list ∈ after, ∀ head ∈ list.head?, le value head = true

theorem Leading.behind (leading : Leading passes le before value rest after) :
    ∀ list ∈ before ++ rest :: after, RankedList passes le list := by
  intro list member
  obtain member | member := List.mem_append.mp member
  · exact leading.ranked list (by simp [member])
  · obtain rfl | member := List.mem_cons.mp member
    · have here := leading.ranked (value :: list) (by simp)
      exact ⟨fun other inside => here.1 other (by simp [inside]), (List.pairwise_cons.mp here.2).2⟩
    · exact leading.ranked list (by simp [member])

/-- The value that leads stands before all the others. -/
theorem Leading.first_le (leading : Leading passes le before value rest after) (ranks : Ranks better passes le)
    {other : α} (member : other ∈ (before ++ rest :: after).flatten) : le value other = true := by
  obtain ⟨list, there, inside⟩ := List.mem_flatten.mp member
  have here := leading.ranked (value :: rest) (by simp)
  have passed := here.1 value (by simp)
  have otherPasses := (leading.behind list there).1 other inside
  obtain there | there := List.mem_append.mp there
  · obtain ⟨head, isHead, headPasses, below⟩ := ranks.head_le (leading.ranked list (by simp [there])) inside
    have above : le value head = true :=
      (ranks.total passed headPasses).resolve_right (by simp [leading.strict list there head isHead])
    exact ranks.trans passed headPasses otherPasses above below
  · obtain rfl | there := List.mem_cons.mp there
    · exact (List.pairwise_cons.mp here.2).1 other inside
    · obtain ⟨head, isHead, headPasses, below⟩ := ranks.head_le (leading.ranked list (by simp [there])) inside
      exact ranks.trans passed headPasses otherPasses (leading.weak list there head isHead) below

/-- Nothing in the lists before it ties with it. -/
theorem Leading.untied (leading : Leading passes le before value rest after) (ranks : Ranks better passes le)
    {other earlier : α} (otherPasses : passes other) (ties : tied le other value = true)
    (member : earlier ∈ before.flatten) : tied le other earlier = false := by
  obtain ⟨list, there, inside⟩ := List.mem_flatten.mp member
  have passed := (leading.ranked (value :: rest) (by simp)).1 value (by simp)
  have ranked := leading.ranked list (by simp [there])
  have earlierPasses := ranked.1 earlier inside
  obtain ⟨head, isHead, headPasses, below⟩ := ranks.head_le ranked inside
  rw [tied, Bool.and_eq_true] at ties
  rw [Bool.eq_false_iff, tied, Ne, Bool.and_eq_true]
  intro found
  obtain ⟨-, above⟩ := found
  have low := ranks.trans earlierPasses otherPasses passed above ties.1
  have absurd := ranks.trans headPasses earlierPasses passed below low
  rw [leading.strict list there head isHead] at absurd
  cases absurd

/-- Lists that are in order are merged to the end, and the merge is stable. -/
theorem Ranks.merge (ranks : Ranks better passes le) {count : Nat} (enough : Data.total lists ≤ count)
    (ranked : ∀ list ∈ lists, RankedList passes le list) :
    ∃ merged, merge better count lists = .ok (.ofList merged) ∧ StableMerge passes le lists merged := by
  induction count generalizing lists with
  | zero =>
      refine ⟨[], rfl, .nil fun list member => ?_⟩
      have none := List.sum_eq_zero_iff_forall_eq_nat.mp (Nat.le_zero.mp enough) list.length
        (List.mem_map.mpr ⟨list, member, rfl⟩)
      exact List.eq_nil_of_length_eq_zero none
  | succ count ih =>
      have offered : ∀ value, some value ∈ [] ++ lists.map List.head? → passes value := by
        intro value member
        obtain ⟨list, there, isHead⟩ := List.mem_map.mp member
        exact (ranked list there).1 value (List.mem_of_head? isHead)
      have start : Leads le ([] : List (Option α)) none := nofun
      obtain ⟨best, chosen, leads⟩ := ranks.contest offered start
      change Data.contest better (lists.map List.head?) 0 none = .ok best at chosen
      rw [List.nil_append] at leads
      rw [Data.merge, chosen]
      cases best with
      | none =>
          refine ⟨[], rfl, .nil fun list member => ?_⟩
          exact List.head?_eq_none_iff.mp (leads _ (List.mem_map.mpr ⟨list, member, rfl⟩))
      | some best =>
          obtain ⟨index, value⟩ := best
          obtain ⟨before, rest, after, rfl, rfl, strict, weak⟩ := split_of_leads leads
          have leading : Leading passes le before value rest after := ⟨ranked, strict, weak⟩
          have fewer := total_modify (contest_head chosen)
          have taken := @modify_append α before after (value :: rest) List.tail
          rw [List.tail_cons] at taken
          rw [taken] at fewer
          obtain ⟨merged, same, stable⟩ := ih (by omega) leading.behind
          refine ⟨value :: merged, ?_, stable.cons (fun other member => ?_) fun other passed ties earlier member => ?_⟩
          · dsimp only
            rw [taken, same]
            rfl
          · exact leading.first_le ranks (stable.perm.subset member)
          · exact leading.untied ranks passed ties member

end Scads.Data
