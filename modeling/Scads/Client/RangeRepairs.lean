import Scads.Client.RangeVotes
import Scads.Server.PartitionHandler

namespace Scads.Client

open Scads.Comm Scads.Server

/-! # The repairs of a range read

A server is repaired for a key when its answer was older than an earlier one, or when it
was the first to answer and a newer answer took its place.  Whoever took that place in
turn is not repaired, and neither is a server without an answer for the key.
-/

namespace Account

section

variable {S : Type}

/-- A repair with this data goes to the server. -/
def Sent (account : Account S) (server : S) (data : Value) : Prop :=
  ∃ owner servers, account.losers owner = some (data, servers) ∧ server ∈ servers

/-- The server gave an older answer than one before it. -/
def Late (answers : List (S × Value)) (server : S) : Prop :=
  ∃ early value late, answers = early ++ (server, value) :: late ∧ ∃ other ∈ early, version value < version other.2

def First (answers : List (S × Value)) (server : S) : Prop := ∃ value rest, answers = (server, value) :: rest

/-- How the winner of an account came to be it, and who is repaired. -/
inductive Standing (base : S) (answers : List (S × Value)) (account : Account S) (owner : S) (best : Value) : Prop
  | leading (begins : ∃ rest, answers = (owner, best) :: rest) (holder : account.holder owner = owner)
      (others : ∀ other, other ≠ owner → account.losers other = none)
      (sent : ∀ server data, account.Sent server data ↔ data = best ∧ Late answers server)
  | overtook (first : S) (begins : First answers first) (notFirst : first ≠ owner) (notBase : owner ≠ base)
      (holder : account.holder owner = base)
      (sent : ∀ server data, account.Sent server data ↔ data = best ∧ (server = first ∨ Late answers server))
  | missed (stale : S × Value) (answered : stale ∈ answers) (older : version stale.2 < version best)
      (notBase : stale.1 ≠ base) (notFirst : ¬ First answers stale.1) (notLate : ¬ Late answers stale.1)
      (unsent : ∀ data, ¬ account.Sent stale.1 data) (holder : account.holder owner = base)

variable {answers : List (S × Value)} {account : Account S} {owner server : S} {value : Value}

theorem mem_servers : server ∈ account.servers owner ↔
    ∃ data servers, account.losers owner = some (data, servers) ∧ server ∈ servers := by
  cases noted : account.losers owner with
  | none => simp [servers, noted]
  | some note =>
      obtain ⟨data, list⟩ := note
      simp [servers, noted]

theorem late_snoc {answer : S × Value} : Late (answers ++ [answer]) server ↔
    Late answers server ∨ server = answer.1 ∧ ∃ other ∈ answers, version answer.2 < version other.2 := by
  constructor
  · intro found
    obtain ⟨early, value, late, cut, older⟩ := found
    cases late using List.reverseRecOn with
    | nil =>
        obtain ⟨rfl, last⟩ := List.append_inj' cut rfl
        cases last
        exact .inr ⟨rfl, older⟩
    | append_singleton late final =>
        rw [← List.cons_append, ← List.append_assoc] at cut
        obtain ⟨rfl, -⟩ := List.append_inj' cut rfl
        exact .inl ⟨early, value, late, rfl, older⟩
  · intro found
    obtain ⟨early, value, late, rfl, older⟩ | ⟨rfl, older⟩ := found
    · exact ⟨early, value, late ++ [answer], by simp, older⟩
    · exact ⟨answers, answer.2, [], rfl, older⟩

/-- A newest answer is not late. -/
theorem not_late (distinct : (answers.map Prod.fst).Nodup) (member : (server, value) ∈ answers)
    (maximal : ∀ answer ∈ answers, version answer.2 ≤ version value) : ¬ Late answers server := by
  intro found
  obtain ⟨early, other, late, rfl, newer, within, less⟩ := found
  have same : (server, other) = (server, value) :=
    List.inj_on_of_nodup_map distinct (by simp) member rfl
  cases same
  have bound := maximal newer (List.mem_append_left _ within)
  omega

theorem owner_ne {owner source : S} {best : Value} (member : (owner, best) ∈ answers)
    (fresh : source ∉ answers.map Prod.fst) : source ≠ owner := by
  intro same
  rw [same] at fresh
  exact fresh (List.mem_map_of_mem member)

theorem late_newer {source : S} {best : Value} (maximal : ∀ answer ∈ answers, version answer.2 ≤ version best)
    (newer : version best ≤ version value) : Late (answers ++ [(source, value)]) server ↔ Late answers server := by
  rw [late_snoc]
  refine or_iff_left ?_
  intro found
  obtain ⟨-, other, known, less⟩ := found
  have bound := maximal other known
  dsimp only at less
  omega

theorem first_snoc {answer : S × Value} (some : answers ≠ []) :
    First (answers ++ [answer]) server ↔ First answers server := by
  cases answers with
  | nil => exact absurd rfl some
  | cons first rest => simp [First]

theorem standing_tie {base source : S} {best : Value} (member : (owner, best) ∈ answers)
    (maximal : ∀ answer ∈ answers, version answer.2 ≤ version best) (tie : version value = version best)
    (standing : Standing base answers account owner best) :
    Standing base (answers ++ [(source, value)]) account owner best := by
  have some : answers ≠ [] := List.ne_nil_of_mem member
  have late (server : S) : Late (answers ++ [(source, value)]) server ↔ Late answers server :=
    late_newer maximal tie.ge
  cases standing with
  | leading begins leader others sent =>
      obtain ⟨rest, first⟩ := begins
      refine .leading ⟨rest ++ [(source, value)], by rw [first, List.cons_append]⟩ leader others fun server data => ?_
      rw [sent, late]
  | overtook first begins notFirst ownerNotBase leader sent =>
      refine .overtook first ((first_snoc some).mpr begins) notFirst ownerNotBase leader fun server data => ?_
      rw [sent, late]
  | missed stale answered staleOlder staleNotBase notFirst notLate unsent leader =>
      exact .missed stale (List.mem_append_left _ answered) staleOlder staleNotBase (mt (first_snoc some).mp notFirst)
        (mt (late stale.1).mp notLate) unsent leader

theorem split_unique {early late other others : List (S × Value)} {first second : Value}
    (distinct : (answers.map Prod.fst).Nodup) (cut : answers = early ++ (server, first) :: late)
    (again : answers = other ++ (server, second) :: others) : first = second ∧ early = other := by
  have same : (server, first) = (server, second) :=
    List.inj_on_of_nodup_map distinct (by simp [cut]) (by simp [again]) rfl
  cases same
  rw [cut, List.map_append, List.map_cons] at distinct
  have apart := List.nodup_middle.mp distinct
  obtain ⟨absent, -⟩ := List.nodup_cons.mp apart
  rw [List.mem_append, not_or] at absent
  refine ⟨rfl, ?_⟩
  rw [again] at cut
  refine (List.append_cons_inj_of_notMem ?_ ?_).mp cut.symm |>.1
  · exact fun member => absent.1 (List.mem_map_of_mem member)
  · exact fun member => absent.2 (List.mem_map_of_mem member)

theorem late_iff {early late : List (S × Value)} (distinct : (answers.map Prod.fst).Nodup)
    (cut : answers = early ++ (server, value) :: late) :
    Late answers server ↔ ∃ other ∈ early, version value < version other.2 := by
  constructor
  · intro found
    obtain ⟨before, held, after, again, older⟩ := found
    obtain ⟨rfl, rfl⟩ := split_unique distinct cut again
    exact older
  · exact fun older => ⟨early, value, late, cut, older⟩

theorem first_iff {early late : List (S × Value)} (distinct : (answers.map Prod.fst).Nodup)
    (cut : answers = early ++ (server, value) :: late) : First answers server ↔ early = [] := by
  constructor
  · intro found
    obtain ⟨held, rest, again⟩ := found
    have same : answers = [] ++ (server, held) :: rest := again
    exact (split_unique distinct cut same).2
  · intro same
    subst same
    exact ⟨value, late, cut⟩

/-- Either the repairs bring the winner to whoever was late or first, or a server is
left behind. -/
theorem Standing.outcome {base : S} {best : Value} (standing : Standing base answers account owner best) :
    ((∀ server data, account.Sent server data → data = best) ∧
      (∀ server, Late answers server ∨ First answers server → account.Sent server best ∨ server = owner) ∧
      ∀ server data, account.Sent server data → Late answers server ∨ First answers server) ∨
    ∃ stale ∈ answers, version stale.2 < version best ∧ ¬ (Late answers stale.1 ∨ First answers stale.1) ∧
      ∀ data, ¬ account.Sent stale.1 data := by
  have firsts {one two : S} (oneFirst : First answers one) (twoFirst : First answers two) : one = two := by
    obtain ⟨_, _, rfl⟩ := oneFirst
    obtain ⟨_, _, same⟩ := twoFirst
    cases same
    rfl
  cases standing with
  | leading begins holder others sent =>
      obtain ⟨rest, cut⟩ := begins
      refine .inl ⟨fun server data known => ((sent server data).mp known).1, fun server mended => ?_,
        fun server data known => .inl ((sent server data).mp known).2⟩
      obtain late | first := mended
      · exact .inl ((sent server best).mpr ⟨rfl, late⟩)
      · exact .inr (firsts first ⟨best, rest, cut⟩)
  | overtook head begins notFirst notBase holder sent =>
      refine .inl ⟨fun server data known => ((sent server data).mp known).1, fun server mended => ?_,
        fun server data known => ?_⟩
      · obtain late | first := mended
        · exact .inl ((sent server best).mpr ⟨rfl, .inr late⟩)
        · exact .inl ((sent server best).mpr ⟨rfl, .inl (firsts first begins)⟩)
      · obtain rfl | late := ((sent server data).mp known).2
        · exact .inr begins
        · exact .inl late
  | missed stale answered older notBase notFirst notLate unsent holder =>
      exact .inr ⟨stale, answered, older, not_or.mpr ⟨notLate, notFirst⟩, unsent⟩

end

variable {S : Type} [DecidableEq S]

/-- What an account keeps to while it hears answers of different servers, the base server's
first if at all. -/
structure Tracks (base : S) (answers : List (S × Value)) (account : Account S) : Prop where
  fresh : ∀ server, server ∉ answers.map Prod.fst → account.losers server = none ∧ account.holder server = base
  silent : answers = [] → account = start base
  won : answers ≠ [] → ∃ owner best, account.winner = some (owner, best) ∧ (owner, best) ∈ answers ∧
    (∀ answer ∈ answers, version answer.2 ≤ version best) ∧ Standing base answers account owner best

variable {base : S} {answers : List (S × Value)} {account next : Account S} {owner server source : S}
  {best value data : Value} {servers : List S}

/-- The repairs after the note about one owner is replaced. -/
theorem sent_update (noted : next.losers = Function.update account.losers owner (some (data, servers)))
    (server : S) (sent : Value) : next.Sent server sent ↔ (sent = data ∧ server ∈ servers) ∨
      ∃ other servers, other ≠ owner ∧ account.losers other = some (sent, servers) ∧ server ∈ servers := by
  constructor
  · intro found
    obtain ⟨other, list, found, member⟩ := found
    rw [noted] at found
    by_cases same : other = owner
    · rw [same, Function.update_self] at found
      cases found
      exact .inl ⟨rfl, member⟩
    · rw [Function.update_of_ne same] at found
      exact .inr ⟨other, list, same, found, member⟩
  · intro found
    obtain ⟨rfl, member⟩ | ⟨other, list, different, found, member⟩ := found
    · exact ⟨owner, servers, by rw [noted, Function.update_self], member⟩
    · exact ⟨other, list, by rw [noted, Function.update_of_ne different, found], member⟩

/-- An older answer adds its server to the repairs, when all of them carry the winner. -/
theorem sent_older (noted : next.losers = Function.update account.losers owner
      (some (best, source :: account.servers owner)))
    (all : ∀ server data, account.Sent server data → data = best) (server : S) (data : Value) :
    next.Sent server data ↔ account.Sent server data ∨ data = best ∧ server = source := by
  rw [sent_update noted]
  constructor
  · intro found
    obtain ⟨rfl, member⟩ | ⟨other, list, -, found, member⟩ := found
    · cases List.mem_cons.mp member with
      | inl same => exact .inr ⟨rfl, same⟩
      | inr known =>
          obtain ⟨held, list, found, within⟩ := mem_servers.mp known
          have sent : account.Sent server held := ⟨owner, list, found, within⟩
          rw [all server held sent] at sent
          exact .inl sent
    · exact .inl ⟨other, list, found, member⟩
  · intro found
    obtain ⟨other, list, found, member⟩ | ⟨rfl, rfl⟩ := found
    · by_cases same : other = owner
      · subst same
        refine .inl ⟨all server data ⟨other, list, found, member⟩, List.mem_cons_of_mem _ ?_⟩
        exact mem_servers.mpr ⟨data, list, found, member⟩
      · exact .inr ⟨other, list, same, found, member⟩
    · exact .inl ⟨rfl, List.mem_cons_self⟩

/-- A server without repairs gets none from a note that does not add it. -/
theorem unsent_update (noted : next.losers = Function.update account.losers owner
      (some (value, source :: account.servers owner))) (different : server ≠ source)
    (unsent : ∀ data, ¬ account.Sent server data) (data : Value) : ¬ next.Sent server data := by
  rw [sent_update noted]
  intro found
  obtain ⟨rfl, member⟩ | ⟨other, list, -, found, member⟩ := found
  · obtain ⟨held, list, found, within⟩ := mem_servers.mp ((List.mem_cons.mp member).resolve_left different)
    exact unsent held ⟨owner, list, found, within⟩
  · exact unsent data ⟨other, list, found, member⟩

section Received

variable (won : account.winner = some (owner, best))
include won

theorem receive_newer (newer : version best < version value) : account.receive source value =
    { winner := some (source, value)
      losers := Function.update account.losers owner (some (value, account.holder owner :: account.servers owner))
      holder := Function.update account.holder owner source } := by
  simp only [receive, won, if_pos newer]

theorem receive_older (older : version value < version best) : account.receive source value =
    { account with
      losers := Function.update account.losers owner (some (best, source :: account.servers owner)) } := by
  simp only [receive, won, if_neg older.not_gt, if_pos older]

theorem receive_tie (tie : version value = version best) : account.receive source value = account := by
  simp only [receive, won, tie, lt_self_iff_false, if_false]

end Received

theorem standing_newer (member : (owner, best) ∈ answers)
    (maximal : ∀ answer ∈ answers, version answer.2 ≤ version best) (fresh : source ∉ answers.map Prod.fst)
    (distinct : (answers.map Prod.fst).Nodup) (notBase : source ≠ base)
    (held : account.holder source = base) (newer : version best < version value)
    (standing : Standing base answers account owner best)
    (noted : next.losers = Function.update account.losers owner
      (some (value, account.holder owner :: account.servers owner)))
    (holders : next.holder = Function.update account.holder owner source) :
    Standing base (answers ++ [(source, value)]) next source value := by
  have different := owner_ne member fresh
  have some : answers ≠ [] := List.ne_nil_of_mem member
  have holder : next.holder source = base := by rw [holders, Function.update_of_ne different, held]
  cases standing with
  | leading begins leader others sent =>
      obtain ⟨rest, first⟩ := begins
      refine .overtook owner ((first_snoc some).mpr ⟨best, rest, first⟩) different.symm notBase holder ?_
      intro server data
      rw [sent_update noted, late_newer maximal newer.le, leader, List.mem_cons]
      have listed : server ∈ account.servers owner ↔ Late answers server := by
        rw [mem_servers]
        constructor
        · intro found
          obtain ⟨data, list, found, within⟩ := found
          exact ((sent server data).mp ⟨owner, list, found, within⟩).2
        · intro late
          obtain ⟨other, list, found, within⟩ := (sent server best).mpr ⟨rfl, late⟩
          by_cases same : other = owner
          · exact ⟨best, list, same ▸ found, within⟩
          · rw [others other same] at found
            cases found
      rw [listed]
      refine or_iff_left ?_
      intro found
      obtain ⟨other, list, apart, found, -⟩ := found
      rw [others other apart] at found
      cases found
  | overtook first begins notFirst ownerNotBase leader sent =>
      have late := not_late distinct member maximal
      have ownerNotFirst : ¬ First answers owner := by
        intro found
        obtain ⟨value, rest, cut⟩ := found
        obtain ⟨other, tail, again⟩ := begins
        rw [cut] at again
        cases again
        exact notFirst rfl
      refine .missed (owner, best) (List.mem_append_left _ member) newer ownerNotBase
        (mt (first_snoc some).mp ownerNotFirst) (mt (late_newer maximal newer.le).mp late) ?_ holder
      refine unsent_update noted (by rw [leader]; exact ownerNotBase) fun data => ?_
      rw [sent]
      intro found
      obtain ⟨-, same | overdue⟩ := found
      · exact notFirst same.symm
      · exact late overdue
  | missed stale answered older staleNotBase notFirst notLate unsent leader =>
      refine .missed stale (List.mem_append_left _ answered) (older.trans newer) staleNotBase
        (mt (first_snoc some).mp notFirst) (mt (late_newer maximal newer.le).mp notLate) ?_ holder
      exact unsent_update noted (by rw [leader]; exact staleNotBase) unsent

theorem standing_older (member : (owner, best) ∈ answers) (fresh : source ∉ answers.map Prod.fst)
    (older : version value < version best) (standing : Standing base answers account owner best)
    (noted : next.losers = Function.update account.losers owner (some (best, source :: account.servers owner)))
    (holders : next.holder = account.holder) :
    Standing base (answers ++ [(source, value)]) next owner best := by
  have some : answers ≠ [] := List.ne_nil_of_mem member
  have late (server : S) : Late (answers ++ [(source, value)]) server ↔ Late answers server ∨ server = source := by
    rw [late_snoc]
    exact or_congr_right (and_iff_left ⟨(owner, best), member, older⟩)
  cases standing with
  | leading begins leader others sent =>
      obtain ⟨rest, first⟩ := begins
      refine .leading ⟨rest ++ [(source, value)], by rw [first, List.cons_append]⟩ (by rw [holders, leader]) ?_ ?_
      · intro other apart
        rw [noted, Function.update_of_ne apart, others other apart]
      · intro server data
        rw [sent_older noted (fun server data known => ((sent server data).mp known).1), sent, late, and_or_left]
  | overtook first begins notFirst ownerNotBase leader sent =>
      refine .overtook first ((first_snoc some).mpr begins) notFirst ownerNotBase (by rw [holders, leader]) ?_
      intro server data
      rw [sent_older noted (fun server data known => ((sent server data).mp known).1), sent, late, ← and_or_left,
        or_assoc]
  | missed stale answered staleOlder staleNotBase notFirst notLate unsent leader =>
      have staleFresh := owner_ne answered fresh
      refine .missed stale (List.mem_append_left _ answered) staleOlder staleNotBase (mt (first_snoc some).mp notFirst)
        ?_ (unsent_update noted staleFresh.symm unsent) (by rw [holders, leader])
      rw [late]
      exact not_or.mpr ⟨notLate, staleFresh.symm⟩

/-- An account hears the first answer. -/
theorem tracks_first (base : S) (answer : S × Value) :
    Tracks base [answer] ((start base).receive answer.1 answer.2) := by
  obtain ⟨source, value⟩ := answer
  have received : (start base).receive source value =
      ⟨some (source, value), fun _ => none, Function.update (fun _ => base) source source⟩ := rfl
  constructor
  case fresh =>
    intro server absent
    rw [received]
    have different : server ≠ source := by simpa using absent
    exact ⟨rfl, Function.update_of_ne different source fun _ => base⟩
  case silent => nofun
  case won =>
    intro _
    refine ⟨source, value, rfl, List.mem_singleton.mpr rfl, by simp, ?_⟩
    refine .leading ⟨[], rfl⟩ (Function.update_self _ _ _) (fun _ _ => rfl) fun server data => ?_
    refine iff_of_false (fun ⟨_, _, found, _⟩ => nomatch found) ?_
    intro found
    obtain ⟨-, early, other, late, cut, newer, within, -⟩ := found
    obtain ⟨rfl, -⟩ | ⟨rest, rfl, bad⟩ := List.cons_eq_append_iff.mp cut
    · cases within
    · simp at bad

theorem Tracks.receive (tracks : Tracks base answers account) (some : answers ≠ [])
    (distinct : (answers.map Prod.fst).Nodup) (fresh : source ∉ answers.map Prod.fst) (notBase : source ≠ base)
    (value : Value) : Tracks base (answers ++ [(source, value)]) (account.receive source value) := by
  obtain ⟨owner, best, won, member, maximal, standing⟩ := tracks.won some
  have known : owner ∈ answers.map Prod.fst := List.mem_map_of_mem member
  have absent {server : S} (unknown : server ∉ (answers ++ [(source, value)]).map Prod.fst) :
      server ∉ answers.map Prod.fst ∧ server ≠ owner := by
    rw [List.map_append, List.mem_append, not_or] at unknown
    exact ⟨unknown.1, fun same => unknown.1 (same ▸ known)⟩
  constructor
  case silent => simp
  case fresh =>
    intro server unknown
    obtain ⟨earlier, different⟩ := absent unknown
    obtain ⟨losers, holder⟩ := tracks.fresh server earlier
    obtain newer | tie | older := lt_trichotomy (version best) (version value)
    · rw [receive_newer won newer]
      exact ⟨(Function.update_of_ne different _ _).trans losers, (Function.update_of_ne different _ _).trans holder⟩
    · rw [receive_tie won tie.symm]
      exact ⟨losers, holder⟩
    · rw [receive_older won older]
      exact ⟨(Function.update_of_ne different _ _).trans losers, holder⟩
  case won =>
    intro _
    obtain newer | tie | older := lt_trichotomy (version best) (version value)
    · refine ⟨source, value, by rw [receive_newer won newer], by simp, ?_, ?_⟩
      · simp only [List.mem_append, List.mem_singleton]
        intro other found
        obtain earlier | rfl := found
        · exact (maximal other earlier).trans newer.le
        · exact le_refl _
      · rw [receive_newer won newer]
        exact standing_newer member maximal fresh distinct notBase (tracks.fresh source fresh).2 newer standing rfl rfl
    · refine ⟨owner, best, by rw [receive_tie won tie.symm, won], by simp [member], ?_, ?_⟩
      · simp only [List.mem_append, List.mem_singleton]
        intro other found
        obtain earlier | rfl := found
        · exact maximal other earlier
        · exact tie.ge
      · rw [receive_tie won tie.symm]
        exact standing_tie member maximal tie.symm standing
    · refine ⟨owner, best, by rw [receive_older won older]; exact won, by simp [member], ?_, ?_⟩
      · simp only [List.mem_append, List.mem_singleton]
        intro other found
        obtain earlier | rfl := found
        · exact maximal other earlier
        · exact older.le
      · rw [receive_older won older]
        exact standing_older member fresh older standing rfl rfl

/-- The base server answers first if at all. -/
def BaseFirst (base : S) (answers : List (S × Value)) : Prop :=
  ∀ early answer late, answers = early ++ answer :: late → early ≠ [] → answer.1 ≠ base

theorem hearAll_tracks (distinct : (answers.map Prod.fst).Nodup) (baseFirst : BaseFirst base answers) :
    Tracks base answers ((start base).hearAll answers) := by
  induction answers using List.reverseRecOn with
  | nil => exact ⟨fun _ _ => ⟨rfl, rfl⟩, fun _ => rfl, fun some => absurd rfl some⟩
  | append_singleton answers answer ih =>
      rw [List.map_append, List.nodup_append] at distinct
      have earlier : BaseFirst base answers := by
        intro early other late cut some
        exact baseFirst early other (late ++ [answer]) (by rw [cut, List.append_assoc, List.cons_append]) some
      have tracks := ih distinct.1 earlier
      rw [hearAll_snoc]
      by_cases some : answers = []
      · subst some
        exact tracks_first base answer
      · refine tracks.receive some distinct.1 (fun member => ?_) (baseFirst answers answer [] rfl some) answer.2
        exact distinct.2.2 _ member _ (List.mem_singleton.mpr rfl) rfl

end Account

namespace RangeHandle

section Stores

variable {S K : Type} [DecidableEq S] [LinearOrder K]

/-- A server works on a repair. -/
def deliver (stores : S → Database K Value) (message : S × PutRequest K Value) : S → Database K Value :=
  Function.update stores message.1 (process (stores message.1) none (.putRequest message.2)).1

def deliverAll (stores : S → Database K Value) (deliveries : List (S × PutRequest K Value)) : S → Database K Value :=
  deliveries.foldl deliver stores

variable {stores : S → Database K Value} {server : S} {key : K} {value : Value}

theorem get_deliver (message : S × PutRequest K Value) : (deliver stores message server).get key =
    if server = message.1 ∧ key = message.2.key then message.2.value else (stores server).get key := by
  rw [deliver]
  by_cases same : server = message.1
  · subst same
    rw [Function.update_self, process, Database.get_put]
    by_cases keyed : key = message.2.key <;> simp [keyed]
  · rw [Function.update_of_ne same, if_neg fun both => same both.1]

/-- Repairs for other servers and keys change nothing. -/
theorem get_deliverAll_other {deliveries : List (S × PutRequest K Value)}
    (others : ∀ message ∈ deliveries, ¬ (server = message.1 ∧ key = message.2.key)) :
    (deliverAll stores deliveries server).get key = (stores server).get key := by
  induction deliveries generalizing stores with
  | nil => rfl
  | cons message rest ih =>
      rw [deliverAll, List.foldl_cons]
      refine (ih fun other member => others other (List.mem_cons_of_mem _ member)).trans ?_
      rw [get_deliver, if_neg (others message List.mem_cons_self)]

/-- Repairs that agree on what they bring leave it there in any order. -/
theorem get_deliverAll {deliveries : List (S × PutRequest K Value)}
    (agree : ∀ message ∈ deliveries, server = message.1 → key = message.2.key → message.2.value = some value)
    (sent : (∃ message ∈ deliveries, server = message.1 ∧ key = message.2.key) ∨
      (stores server).get key = some value) :
    (deliverAll stores deliveries server).get key = some value := by
  induction deliveries generalizing stores with
  | nil =>
      obtain ⟨message, member, -⟩ | held := sent
      · cases member
      · exact held
  | cons message rest ih =>
      rw [deliverAll, List.foldl_cons]
      refine ih (fun other member => agree other (List.mem_cons_of_mem _ member)) ?_
      rw [get_deliver]
      by_cases here : server = message.1 ∧ key = message.2.key
      · rw [if_pos here]
        exact .inr (agree message List.mem_cons_self here.1 here.2)
      · rw [if_neg here]
        refine sent.imp_left ?_
        intro found
        obtain ⟨other, member, meant⟩ := found
        cases List.mem_cons.mp member with
        | inl same => exact absurd (same ▸ meant) here
        | inr later => exact ⟨other, later, meant⟩

end Stores

section Replies

variable {S K : Type} [LinearOrder K]

theorem answersFor_append (key : K) (early late : List (S × List (K × Value))) :
    answersFor key (early ++ late) = answersFor key early ++ answersFor key late := List.filterMap_append

theorem answersFor_cons (key : K) (reply : S × List (K × Value)) (late : List (S × List (K × Value))) :
    answersFor key (reply :: late) =
      ((answerIn (reply.2.map toRecord) key).map fun value => (reply.1, value)).toList ++ answersFor key late := by
  rw [answersFor, List.filterMap_cons]
  cases answerIn (reply.2.map toRecord) key <;> rfl

theorem answersFor_sources (key : K) (replies : List (S × List (K × Value))) :
    ((answersFor key replies).map Prod.fst).Sublist (replies.map Prod.fst) := by
  induction replies with
  | nil => exact .slnil
  | cons reply rest ih =>
      rw [answersFor_cons]
      cases answerIn (reply.2.map toRecord) key with
      | none => exact ih.cons _
      | some value => exact ih.cons_cons _

/-- The base server's answer comes before all others. -/
theorem answersFor_baseFirst {replies : List (S × List (K × Value))} {base : S × List (K × Value)}
    (distinct : (replies.map Prod.fst).Nodup) (based : baseReply replies = some base) (key : K) :
    Account.BaseFirst base.1 (answersFor key replies) := by
  intro early answer late cut some same
  obtain ⟨-, quiet, rest, split, silent⟩ := List.find?_eq_some_iff_append.mp based
  have blank : answersFor key quiet = [] := by
    refine List.filterMap_eq_nil_iff.mpr fun reply member => ?_
    have empty : reply.2 = [] := by simpa using silent reply member
    rw [empty]
    rfl
  rw [split, answersFor_append, blank, List.nil_append, answersFor_cons] at cut
  rw [split, List.map_append, List.map_cons] at distinct
  obtain ⟨fresh, -⟩ := List.nodup_cons.mp (List.nodup_append.mp distinct).2.1
  refine fresh ?_
  have later : answer ∈ answersFor key rest := by
    cases spoken : answerIn (base.2.map toRecord) key with
    | none =>
        rw [spoken, Option.map_none, Option.toList_none, List.nil_append] at cut
        simp [cut]
    | some value =>
        obtain ⟨first, others, rfl⟩ := List.exists_cons_of_ne_nil some
        rw [spoken, Option.map_some, Option.toList_some, List.singleton_append, List.cons_append,
          List.cons.injEq] at cut
        simp [cut.2]
  rw [← same]
  exact (answersFor_sources key rest).subset (List.mem_map_of_mem later)

/-- The answer of one reply among all. -/
theorem answersFor_split {early late : List (S × List (K × Value))} {reply : S × List (K × Value)} {key : K}
    {value : Value} (distinct : (reply.2.map Prod.fst).Nodup) (entry : (key, value) ∈ reply.2) :
    answersFor key (early ++ reply :: late) =
      answersFor key early ++ (reply.1, value) :: answersFor key late := by
  rw [answersFor_append, answersFor_cons, answerIn_of_mem distinct entry]
  rfl

end Replies

section Finishing

variable {S K : Type} [DecidableEq S] [LinearOrder K] {replies : List (S × List (K × Value))}
  {handle final : RangeHandle S K}

theorem processNext_ctr (processed : handle.processNext = .ok final) :
    final.ctr = handle.ctr + 1 ∧ final.futures = handle.futures := by
  unfold processNext at processed
  cases waiting : handle.responses with
  | nil =>
      simp only [waiting] at processed
      cases processed
      exact ⟨rfl, rfl⟩
  | cons response rest =>
      obtain ⟨source, message⟩ := response
      simp only [waiting] at processed
      split at processed
      · split at processed
        · cases processed
          exact ⟨rfl, rfl⟩
        · obtain ⟨merged, -, same⟩ := bind_eq_ok.mp processed
          cases same
          exact ⟨rfl, rfl⟩
        · cases processed
      · cases processed

theorem processTimes_ctr {count : Nat} (done : handle.processTimes count = .ok final) :
    final.ctr = handle.ctr + count ∧ final.futures = handle.futures := by
  induction count generalizing handle with
  | zero =>
      cases done
      exact ⟨rfl, rfl⟩
  | succ count ih =>
      obtain ⟨next, processed, rest⟩ := bind_eq_ok.mp done
      obtain ⟨ctr, futures⟩ := ih rest
      obtain ⟨one, same⟩ := processNext_ctr processed
      rw [ctr, futures, one, same]
      exact ⟨by omega, rfl⟩

/-- Polls that time out change nothing of it. -/
theorem processTimes_timeout (count : Nat) (ran : Ran true replies handle) (drained : handle.responses = []) :
    ∃ next, handle.processTimes count = .ok next ∧ Ran true replies next := by
  induction count generalizing handle with
  | zero => exact ⟨handle, rfl, ran⟩
  | succ count ih =>
      have later : Ran true replies { handle with ctr := handle.ctr + 1, failed := true } :=
        ⟨ran.waiting, fun base based =>
          let counted := ran.counted base based
          ⟨counted.server, counted.winners, counted.defined, counted.order, counted.same, counted.reach,
            counted.accounts⟩⟩
      obtain ⟨next, done, kept⟩ := ih later drained
      refine ⟨next, ?_, kept⟩
      rw [drained] at done
      simp only [processTimes, processNext, drained]
      exact done

/-- What the handle has come to when its repairs are sent. -/
theorem vote_then_rest (futures quorum : Nat) (complete : replies.length ≤ futures)
    (sorted : ∀ reply ∈ replies, InOrder true (reply.2.map Prod.fst)) :
    ∃ voted final, (opened futures (replies.map encode)).vote quorum = .ok voted ∧
      voted.processRest = .ok final ∧ Ran true replies final := by
  obtain ⟨all, done, ran, drained, -⟩ := @vote_ran S K _ _ true futures replies [] sorted
    fun _ _ _ _ ascending => nomatch ascending
  rw [List.append_nil] at done
  obtain ⟨final, timeouts, finalRan⟩ := processTimes_timeout (quorum + (futures - quorum) - replies.length) ran drained
  have whole : (opened futures (replies.map encode)).processTimes (quorum + (futures - quorum)) = .ok final := by
    have total : quorum + (futures - quorum) = replies.length + (quorum + (futures - quorum) - replies.length) := by
      omega
    rw [vote] at done
    rw [total, processTimes_add, done]
    exact timeouts
  rw [processTimes_add] at whole
  obtain ⟨voted, vote, rest⟩ := bind_eq_ok.mp whole
  obtain ⟨ctr, same⟩ := processTimes_ctr vote
  have counted : voted.ctr = quorum := ctr.trans (Nat.zero_add _)
  refine ⟨voted, final, vote, ?_, finalRan⟩
  rw [processRest, counted, same]
  exact rest

/-- The repairs of a handle are those of its accounts. -/
theorem mem_repairs (base server : S) (key : K) (data : Option Value) :
    (server, ⟨key, data⟩) ∈ (handle.conflicts.losers.entries.flatMap fun loser =>
        loser.2.2.map fun server => (server, (⟨loser.1.2, some loser.2.1⟩ : PutRequest K Value))) ↔
      ∃ value, data = some value ∧ (accountOf base key handle.winners handle.conflicts).Sent server value := by
  rw [List.mem_flatMap]
  constructor
  · intro found
    obtain ⟨⟨⟨owner, noted⟩, value, servers⟩, member, sent⟩ := found
    obtain ⟨loser, within, same⟩ := List.mem_map.mp sent
    cases same
    exact ⟨value, rfl, owner, servers, AList.mem_lookup_iff.mpr member, within⟩
  · intro found
    obtain ⟨value, rfl, owner, servers, found, within⟩ := found
    exact ⟨⟨(owner, key), value, servers⟩, AList.mem_lookup_iff.mp found, List.mem_map_of_mem within⟩

end Finishing

/-- The repairs that are delivered for this key are those of the account. -/
def Delivers {S K : Type} (deliveries : List (S × PutRequest K Value)) (key : K) (account : Account S) : Prop :=
  ∀ server data, (server, ⟨key, data⟩) ∈ deliveries ↔ ∃ value, data = some value ∧ account.Sent server value

theorem Delivers.sent {S K : Type} {deliveries : List (S × PutRequest K Value)} {key : K} {account : Account S}
    (delivers : Delivers deliveries key account) {message : S × PutRequest K Value}
    (member : message ∈ deliveries) {server : S} (here : server = message.1) (keyed : key = message.2.key) :
    ∃ value, message.2.value = some value ∧ account.Sent server value := by
  subst here keyed
  exact (delivers message.1 message.2.value).mp member

section Converging

variable {S K : Type} [LinearOrder K]

/-- The replies are what their servers hold. -/
def Held (stores : S → Database K Value) (replies : List (S × List (K × Value))) : Prop :=
  ∀ reply ∈ replies, ∀ entry ∈ reply.2, (stores reply.1).get entry.1 = some entry.2

/-- The value is as new as the newest answer for the key. -/
def Newest (replies : List (S × List (K × Value))) (key : K) (value : Value) : Prop :=
  (∃ reply ∈ replies, ∃ entry ∈ reply.2, entry.1 = key ∧ compareMetadata entry.2 value = 0) ∧
    ∀ reply ∈ replies, ∀ entry ∈ reply.2, entry.1 = key → compareMetadata entry.2 value ≤ 0

def Current (replies : List (S × List (K × Value))) (stores : S → Database K Value) (server : S) (key : K) : Prop :=
  ∃ value, (stores server).get key = some value ∧ Newest replies key value

/-- Every replica that answered holds the newest version of every winner. -/
def Converged (replies : List (S × List (K × Value))) (winners : List (Record K Value))
    (stores : S → Database K Value) : Prop :=
  ∀ reply ∈ replies, ∀ key ∈ winners.map Record.key, Current replies stores reply.1 key

/-- The key was answered, and not beyond the first reply with records. -/
def Reached (replies : List (S × List (K × Value))) (key : K) : Prop :=
  (∃ reply ∈ replies, key ∈ reply.2.map Prod.fst) ∧
    ∃ base, baseReply replies = some base ∧ ∃ last ∈ base.2, key ≤ last.1

/-- Every replica that is not up to date was the first to answer, or answered with an older
version than one before it. -/
def Mendable (stores : S → Database K Value) (replies : List (S × List (K × Value))) : Prop :=
  ∀ early reply late, replies = early ++ reply :: late → ∀ key, Reached replies key →
    Current replies stores reply.1 key ∨ ∃ value, (key, value) ∈ reply.2 ∧
      ((∀ other ∈ early, key ∉ other.2.map Prod.fst) ∨
        ∃ other ∈ early, ∃ entry ∈ other.2, entry.1 = key ∧ compareMetadata value entry.2 < 0)

variable {replies early late : List (S × List (K × Value))} {reply : S × List (K × Value)} {key : K}
  {stores : S → Database K Value}

theorem newest_iff (sorted : ∀ reply ∈ replies, InOrder true (reply.2.map Prod.fst)) {answer : S × Value}
    (member : answer ∈ answersFor key replies)
    (maximal : ∀ other ∈ answersFor key replies, version other.2 ≤ version answer.2) (value : Value) :
    Newest replies key value ↔ version value = version answer.2 := by
  constructor
  · intro found
    obtain ⟨⟨reply, known, entry, within, rfl, same⟩, bound⟩ := found
    have below := maximal (reply.1, entry.2) (answersFor_of_mem (sorted reply known).nodup known within)
    obtain ⟨other, found, -, there⟩ := mem_answersFor member
    have above := mt compareMetadata_pos.mpr (not_lt.mpr (bound other found _ there rfl))
    rw [compareMetadata_zero] at same
    dsimp only at below above
    omega
  · intro same
    constructor
    · obtain ⟨reply, known, -, within⟩ := mem_answersFor member
      exact ⟨reply, known, _, within, rfl, compareMetadata_zero.mpr same.symm⟩
    · intro reply known entry within same
      subst same
      have below := maximal (reply.1, entry.2) (answersFor_of_mem (sorted reply known).nodup known within)
      have positive := @compareMetadata_pos entry.2 value
      dsimp only at below
      omega

theorem mended_iff (sorted : ∀ reply ∈ replies, InOrder true (reply.2.map Prod.fst))
    (distinct : (replies.map Prod.fst).Nodup) (cut : replies = early ++ reply :: late) :
    (Account.Late (answersFor key replies) reply.1 ∨ Account.First (answersFor key replies) reply.1) ↔
      ∃ value, (key, value) ∈ reply.2 ∧ ((∀ other ∈ early, key ∉ other.2.map Prod.fst) ∨
        ∃ other ∈ early, ∃ entry ∈ other.2, entry.1 = key ∧ compareMetadata value entry.2 < 0) := by
  have known : reply ∈ replies := by simp [cut]
  have sources := distinct.sublist (answersFor_sources key replies)
  have sortedEarly : ∀ other ∈ early, InOrder true (other.2.map Prod.fst) := fun other member =>
    sorted other (by simp [cut, member])
  have each {value : Value} (entry : (key, value) ∈ reply.2) :
      (Account.Late (answersFor key replies) reply.1 ∨ Account.First (answersFor key replies) reply.1) ↔
        ((∀ other ∈ early, key ∉ other.2.map Prod.fst) ∨
          ∃ other ∈ early, ∃ entry ∈ other.2, entry.1 = key ∧ compareMetadata value entry.2 < 0) := by
    have split := @answersFor_split S K _ early late reply key value (sorted reply known).nodup entry
    rw [← cut] at split
    rw [Account.late_iff sources split, Account.first_iff sources split, or_comm]
    refine or_congr ?_ ?_
    · rw [List.eq_nil_iff_forall_not_mem]
      constructor
      · intro none other member within
        obtain ⟨held, inside, rfl⟩ := List.mem_map.mp within
        exact none _ (answersFor_of_mem (sortedEarly other member).nodup member inside)
      · intro none answer answered
        obtain ⟨other, member, -, inside⟩ := mem_answersFor answered
        exact none other member (List.mem_map_of_mem inside)
    · constructor
      · intro found
        obtain ⟨answer, answered, less⟩ := found
        obtain ⟨other, member, -, inside⟩ := mem_answersFor answered
        exact ⟨other, member, _, inside, rfl, compareMetadata_neg.mpr less⟩
      · intro found
        obtain ⟨other, member, held, inside, rfl, less⟩ := found
        exact ⟨_, answersFor_of_mem (sortedEarly other member).nodup member inside, compareMetadata_neg.mp less⟩
  constructor
  · intro mended
    have answered : ∃ value, (reply.1, value) ∈ answersFor key replies := by
      obtain ⟨before, value, after, split, -⟩ | ⟨value, rest, split⟩ := mended
      · exact ⟨value, by simp [split]⟩
      · exact ⟨value, by simp [split]⟩
    obtain ⟨value, member⟩ := answered
    obtain ⟨other, found, source, entry⟩ := mem_answersFor member
    rw [List.inj_on_of_nodup_map distinct found known source] at entry
    exact ⟨value, entry, (each entry).mp mended⟩
  · intro found
    obtain ⟨value, entry, mended⟩ := found
    exact (each entry).mpr mended

/-- A replica that is left behind. -/
theorem not_current (sorted : ∀ reply ∈ replies, InOrder true (reply.2.map Prod.fst)) (held : Held stores replies)
    {owner : S} {best : Value} (member : (owner, best) ∈ answersFor key replies)
    (maximal : ∀ other ∈ answersFor key replies, version other.2 ≤ version best) {stale : S × Value}
    (answered : stale ∈ answersFor key replies) (older : version stale.2 < version best) :
    ¬ Current replies stores stale.1 key := by
  intro found
  obtain ⟨value, stored, newest⟩ := found
  obtain ⟨reply, known, source, entry⟩ := mem_answersFor answered
  have there := held reply known _ entry
  rw [source, stored] at there
  cases there
  have same := (newest_iff sorted member maximal _).mp newest
  dsimp only at same
  omega

end Converging

section Repairs

variable {S K : Type} [DecidableEq S] [LinearOrder K] {replies : List (S × List (K × Value))}
  {stores : S → Database K Value} {deliveries : List (S × PutRequest K Value)} {base : S × List (K × Value)}
  {account : Account S} {key : K}

/-- One replica after the repairs. -/
theorem current_iff (sorted : ∀ reply ∈ replies, InOrder true (reply.2.map Prod.fst))
    (held : Held stores replies) (delivers : Delivers deliveries key account) {owner : S} {best : Value}
    (member : (owner, best) ∈ answersFor key replies)
    (maximal : ∀ other ∈ answersFor key replies, version other.2 ≤ version best)
    (agree : ∀ server data, account.Sent server data → data = best)
    (mends : ∀ server, Account.Late (answersFor key replies) server ∨ Account.First (answersFor key replies) server →
      account.Sent server best ∨ server = owner)
    (only : ∀ server data, account.Sent server data →
      Account.Late (answersFor key replies) server ∨ Account.First (answersFor key replies) server) (server : S) :
    Current replies (deliverAll stores deliveries) server key ↔ Current replies stores server key ∨
      (Account.Late (answersFor key replies) server ∨ Account.First (answersFor key replies) server) := by
  by_cases mended : Account.Late (answersFor key replies) server ∨ Account.First (answersFor key replies) server
  · refine iff_of_true ⟨best, get_deliverAll ?_ ?_, ?_⟩ (.inr mended)
    · intro message known here keyed
      obtain ⟨value, valued, sent⟩ := delivers.sent known here keyed
      rw [valued, agree _ _ sent]
    · obtain sent | rfl := mends server mended
      · exact .inl ⟨_, (delivers server (some best)).mpr ⟨best, rfl, sent⟩, rfl, rfl⟩
      · obtain ⟨reply, known, source, entry⟩ := mem_answersFor member
        refine .inr ?_
        have there := held reply known _ entry
        rwa [source] at there
    · exact (newest_iff sorted member maximal best).mpr rfl
  · have unchanged : (deliverAll stores deliveries server).get key = (stores server).get key := by
      refine get_deliverAll_other fun message known meant => ?_
      obtain ⟨value, -, sent⟩ := delivers.sent known meant.1 meant.2
      exact mended (only server value sent)
    simp only [Current, unchanged, mended, or_false]

theorem Ran.keys_iff (sorted : ∀ reply ∈ replies, InOrder true (reply.2.map Prod.fst)) {final : RangeHandle S K}
    (ran : Ran true replies final) (key : K) :
    key ∈ (final.winners.map Winner.record).map Record.key ↔ Reached replies key := by
  rw [List.map_map]
  change key ∈ (final.winners.map fun winner => winner.record.key) ↔ _
  cases based : baseReply replies with
  | none =>
      rw [(ran.waiting based).1]
      refine iff_of_false List.not_mem_nil ?_
      intro found
      obtain ⟨-, base, same, -⟩ := found
      rw [based] at same
      cases same
  | some base =>
      have counted := ran.counted base based
      constructor
      · intro known
        have reached := counted.of_key known
        obtain ⟨-, absent⟩ | ⟨winner, -, value, -, -, answered, -⟩ := counted.winner reached
        · exact absurd known absent
        · obtain ⟨reply, member, -, entry⟩ := mem_answersFor answered
          exact ⟨⟨reply, member, List.mem_map_of_mem entry⟩, base, based, reached⟩
      · intro found
        obtain ⟨⟨reply, member, known⟩, other, same, reached⟩ := found
        rw [based] at same
        cases same
        obtain ⟨entry, within, rfl⟩ := List.mem_map.mp known
        have answered := answersFor_of_mem (sorted reply member).nodup member within
        obtain ⟨silent, -⟩ | ⟨winner, there, value, named, -⟩ := counted.winner reached
        · rw [silent] at answered
          cases answered
        · rw [← named]
          exact List.mem_map_of_mem there

/-- The replicas after the repairs, for one key. -/
theorem key_current_iff (sorted : ∀ reply ∈ replies, InOrder true (reply.2.map Prod.fst))
    (distinct : (replies.map Prod.fst).Nodup) (held : Held stores replies) (based : baseReply replies = some base)
    (delivers : Delivers deliveries key ((Account.start base.1).hearAll (answersFor key replies)))
    (answered : answersFor key replies ≠ []) :
    (∀ reply ∈ replies, Current replies (deliverAll stores deliveries) reply.1 key) ↔
      ∀ reply ∈ replies, Current replies stores reply.1 key ∨
        (Account.Late (answersFor key replies) reply.1 ∨ Account.First (answersFor key replies) reply.1) := by
  have sources := distinct.sublist (answersFor_sources key replies)
  obtain ⟨owner, best, -, member, maximal, standing⟩ :=
    (Account.hearAll_tracks sources (answersFor_baseFirst distinct based key)).won answered
  obtain ⟨agree, mends, only⟩ | ⟨stale, known, older, unmended, unsent⟩ := standing.outcome
  · refine forall₂_congr fun reply _ => ?_
    exact current_iff sorted held delivers member maximal agree mends only reply.1
  · have behind := not_current sorted held member maximal known older
    obtain ⟨reply, there, source, -⟩ := mem_answersFor known
    rw [← source] at behind unmended unsent
    have unchanged : (deliverAll stores deliveries reply.1).get key = (stores reply.1).get key := by
      refine get_deliverAll_other fun message inside meant => ?_
      obtain ⟨value, -, sent⟩ := delivers.sent inside meant.1 meant.2
      exact unsent value sent
    refine iff_of_false (fun all => ?_) fun all => ?_
    · have current := all reply there
      simp only [Current, unchanged] at current
      exact behind current
    · exact (all reply there).elim behind unmended

theorem forall_split_iff {α : Type} {property : α → Prop} {values : List α} :
    (∀ value ∈ values, property value) ↔ ∀ early value late, values = early ++ value :: late → property value := by
  constructor
  · intro all early value late same
    subst same
    exact all value (by simp)
  · intro all value member
    obtain ⟨early, late, cut⟩ := List.append_of_mem member
    exact all early value late cut

/-- The repairs bring all replicas up to date exactly when each of them can be mended. -/
theorem converged_iff (sorted : ∀ reply ∈ replies, InOrder true (reply.2.map Prod.fst))
    (distinct : (replies.map Prod.fst).Nodup) (held : Held stores replies) {final : RangeHandle S K}
    (ran : Ran true replies final)
    (delivered : ∀ base key, Delivers deliveries key (accountOf base key final.winners final.conflicts)) :
    Converged replies (final.winners.map Winner.record) (deliverAll stores deliveries) ↔ Mendable stores replies := by
  have each (key : K) (reached : Reached replies key) :
      (∀ reply ∈ replies, Current replies (deliverAll stores deliveries) reply.1 key) ↔
        ∀ early reply late, replies = early ++ reply :: late → Current replies stores reply.1 key ∨
          ∃ value, (key, value) ∈ reply.2 ∧ ((∀ other ∈ early, key ∉ other.2.map Prod.fst) ∨
            ∃ other ∈ early, ∃ entry ∈ other.2, entry.1 = key ∧ compareMetadata value entry.2 < 0) := by
    obtain ⟨⟨reply, member, known⟩, base, based, beyond⟩ := reached
    have delivers := delivered base.1 key
    rw [(ran.counted base based).accounts key, if_pos beyond] at delivers
    obtain ⟨entry, within, rfl⟩ := List.mem_map.mp known
    have answered := List.ne_nil_of_mem (answersFor_of_mem (sorted reply member).nodup member within)
    rw [key_current_iff sorted distinct held based delivers answered, forall_split_iff]
    exact forall₃_congr fun early reply late => imp_congr_right fun cut =>
      or_congr_right (mended_iff sorted distinct cut)
  constructor
  · intro converged early reply late cut key reached
    have current := fun other member => converged other member key ((ran.keys_iff sorted key).mpr reached)
    exact (each key reached).mp current early reply late cut
  · intro mendable reply member key known
    have reached := (ran.keys_iff sorted key).mp known
    exact (each key reached).mpr (fun early reply late cut => mendable early reply late cut key reached) reply member

theorem repairs_sent (futures quorum : Nat) (sorted : ∀ reply ∈ replies, InOrder true (reply.2.map Prod.fst))
    (distinct : (replies.map Prod.fst).Nodup) (complete : replies.length ≤ futures) (held : Held stores replies) :
    ∃ voted final sent, (opened futures (replies.map encode)).vote quorum = .ok voted ∧
      voted.processRest = .ok final ∧ voted.finish = .ok sent ∧
      ∀ deliveries : List (S × PutRequest K Value), deliveries.Perm sent →
        (Converged replies (final.winners.map Winner.record) (deliverAll stores deliveries) ↔
          Mendable stores replies) := by
  obtain ⟨voted, final, vote, rest, ran⟩ := vote_then_rest futures quorum complete sorted
  refine ⟨voted, final, _, vote, rest, by rw [finish, rest]; rfl, fun deliveries order => ?_⟩
  refine converged_iff sorted distinct held ran fun base key server data => ?_
  rw [order.mem_iff]
  exact mem_repairs base server key data

/-- Read repair of a range brings every replica that answered up to date, in every order of
the repairs, exactly when each of them can be mended. -/
theorem range_repair_converges_iff (futures quorum : Nat) (replies : List (S × List (K × Value)))
    (stores : S → Database K Value) (sorted : ∀ reply ∈ replies, InOrder true (reply.2.map Prod.fst))
    (distinct : (replies.map Prod.fst).Nodup) (complete : replies.length ≤ futures) (held : Held stores replies) :
    ∃ voted final sent, (opened futures (replies.map encode)).vote quorum = .ok voted ∧
      voted.processRest = .ok final ∧ voted.finish = .ok sent ∧
      ((∀ deliveries : List (S × PutRequest K Value), deliveries.Perm sent →
          Converged replies (final.winners.map Winner.record) (deliverAll stores deliveries)) ↔
        Mendable stores replies) := by
  obtain ⟨voted, final, sent, vote, rest, finished, each⟩ := repairs_sent futures quorum sorted distinct complete held
  exact ⟨voted, final, sent, vote, rest, finished,
    fun converged => (each sent (List.Perm.refl _)).mp (converged sent (List.Perm.refl _)),
    fun mendable deliveries order => (each deliveries order).mpr mendable⟩

end Repairs

section Examples

def firstWrite : Value := createMetadata 1 0 []

def secondWrite : Value := createMetadata 2 0 []

def storesOf (first second : Database Nat Value) (server : String) : Database Nat Value :=
  if server = "first" then first else second

/-- The first replica has missed the second write. -/
def staleFirst : List (String × List (Nat × Value)) := [("first", [(1, firstWrite)]), ("second", [(1, secondWrite)])]

theorem staleFirst_mended :
    let stores := storesOf (Database.empty.insert 1 firstWrite) (Database.empty.insert 1 secondWrite)
    (∀ reply ∈ staleFirst, InOrder true (reply.2.map Prod.fst)) ∧ (staleFirst.map Prod.fst).Nodup ∧
      staleFirst.length ≤ 2 ∧ Held stores staleFirst ∧
      ∃ voted final sent, (opened 2 (staleFirst.map encode)).vote 1 = .ok voted ∧
        voted.processRest = .ok final ∧ voted.finish = .ok sent ∧
        ∀ deliveries : List (String × PutRequest Nat Value), deliveries.Perm sent →
          Converged staleFirst (final.winners.map Winner.record) (deliverAll stores deliveries) := by
  intro stores
  have sorted : ∀ reply ∈ staleFirst, InOrder true (reply.2.map Prod.fst) := by simp [staleFirst, InOrder]
  have distinct : (staleFirst.map Prod.fst).Nodup := by decide
  have complete : staleFirst.length ≤ 2 := by decide
  have held : Held stores staleFirst := by simp [Held, staleFirst, stores, storesOf, Database.get_insert]
  have mendable : Mendable stores staleFirst := by
    intro before reply after cut key reached
    have one : key = 1 := by simpa [staleFirst] using reached.1
    subst one
    cases before with
    | nil =>
        simp only [staleFirst, List.nil_append, List.cons.injEq] at cut
        obtain ⟨rfl, -⟩ := cut
        exact .inr ⟨firstWrite, List.mem_singleton.mpr rfl, .inl (List.forall_mem_nil _)⟩
    | cons first behind =>
        cases behind with
        | nil =>
            simp only [staleFirst, List.singleton_append, List.cons.injEq] at cut
            obtain ⟨-, rfl, -⟩ := cut
            refine .inl ⟨secondWrite, by simp [stores, storesOf, Database.get_insert], ?_⟩
            refine ⟨⟨_, List.mem_cons_of_mem _ List.mem_cons_self, _, List.mem_cons_self, rfl, by decide⟩, ?_⟩
            simp only [staleFirst, List.forall_mem_cons]
            decide
        | cons second more =>
            have length := congrArg List.length cut
            simp only [staleFirst, List.length_append, List.length_cons, List.length_nil] at length
            omega
  obtain ⟨voted, final, sent, vote, rest, finished, converged⟩ :=
    range_repair_converges_iff 2 1 staleFirst stores sorted distinct complete held
  exact ⟨sorted, distinct, complete, held, voted, final, sent, vote, rest, finished, converged.mpr mendable⟩

/-- The second replica has missed the only write. -/
def missingSecond : List (String × List (Nat × Value)) := [("first", [(1, firstWrite)]), ("second", [])]

theorem missing_record_not_repaired :
    let stores := storesOf (Database.empty.insert 1 firstWrite) Database.empty
    (∀ reply ∈ missingSecond, InOrder true (reply.2.map Prod.fst)) ∧ (missingSecond.map Prod.fst).Nodup ∧
      Held stores missingSecond ∧
      ∃ voted final sent, (opened 2 (missingSecond.map encode)).vote 1 = .ok voted ∧
        voted.processRest = .ok final ∧ voted.finish = .ok sent ∧
        ¬ Converged missingSecond (final.winners.map Winner.record) (deliverAll stores sent) := by
  intro stores
  have sorted : ∀ reply ∈ missingSecond, InOrder true (reply.2.map Prod.fst) := by simp [missingSecond, InOrder]
  have distinct : (missingSecond.map Prod.fst).Nodup := by decide
  have held : Held stores missingSecond := by simp [Held, missingSecond, stores, storesOf, Database.get_insert]
  obtain ⟨voted, final, sent, vote, rest, finished, each⟩ :=
    repairs_sent 2 1 sorted distinct (by decide) held
  refine ⟨sorted, distinct, held, voted, final, sent, vote, rest, finished, fun converged => ?_⟩
  have mendable := (each sent (List.Perm.refl _)).mp converged
  have reached : Reached missingSecond 1 := ⟨⟨_, List.mem_cons_self, by decide⟩, _, rfl, by decide⟩
  obtain ⟨value, stored, -⟩ | ⟨value, member, -⟩ := mendable [("first", [(1, firstWrite)])] ("second", []) []
    rfl 1 reached
  · cases stored
  · cases member

end Examples

end RangeHandle

end Scads.Client
