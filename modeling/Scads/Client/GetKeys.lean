import Scads.Client.RangeHandle
import Scads.Client.Routable

namespace Scads.Client

open Scads.Comm Scads.Server

/-! # Range reads over partitions

`network range request` is the list of replies to a request sent to all servers of
a range, in the order in which they arrive.
-/

section

variable {K : Type} [LinearOrder K]

abbrev Network (K : Type) := RangeDesc K → GetRangeRequest K → List (PartitionService × StorageMessage K Value)

/-- The futures of a request: how many there are and their replies. -/
structure Fetch (K : Type) where
  futures : Nat
  responses : List (PartitionService × StorageMessage K Value)

def sendRequest (network : Network K) (range : RangeDesc K) (limit offset : Option Int) (ascending : Bool) :
    Fetch K where
  futures := range.servers.length
  responses := network range ⟨range.startKey, range.endKey, limit, offset, ascending⟩

/-- The requests sent first, and the partitions left for later. -/
def startGetRangeRequest (routingTable : RoutingTable K) (network : Network K) (startKey endKey : Option K)
    (limit offset : Option Int) (ascending : Bool) :
    Except Failure (List (RangeDesc K) × List (Fetch K)) := do
  let partitions ← serversForKeyRange routingTable startKey endKey
  let partitions := Database.directed ascending partitions
  match limit with
  | some _ =>
      match partitions with
      | [] => .error (.noSuchElement "next on empty iterator")
      | range :: rest => return (rest, [sendRequest network range limit offset ascending])
  | none => return ([], partitions.map fun range => sendRequest network range limit offset ascending)

def newRangeHandle (fetch : Fetch K) : RangeHandle PartitionService K :=
  { futures := fetch.futures, responses := fetch.responses }

/-- The variables of `finishGetRangeRequest`.  No `openRec` is `Long.MAX_VALUE`,
more than a result can hold. -/
structure Progress (K : Type) where
  result : List (K × Bytes) := []
  openRec : Option Int
  servers : List (RangeDesc K)
  appended : List (RangeHandle PartitionService K) := []

def keyAndBytes (record : Record K Value) : List (K × Bytes) :=
  (record.value.map fun value => (record.key, extractRecordFromValue value)).toList

def takeOpen (openRec : Option Int) : List (Record K Value) → List (K × Bytes) × Option Int
  | [] => ([], openRec)
  | record :: rest =>
      if openRec.all (0 < ·) then
        let (taken, left) := takeOpen (openRec.map (· - 1)) rest
        (keyAndBytes record ++ taken, left)
      else takeOpen openRec rest

/-- Asks the next partition for more where these records are not too many. -/
def Progress.requestMore (network : Network K) (limit offset : Option Int) (ascending : Bool)
    (progress : Progress K) (records : List (Record K Value)) : Progress K :=
  match progress.servers with
  | [] => progress
  | range :: rest =>
      if progress.openRec.all ((records.length : Int) ≤ ·) then
        let newLimit := if limit.isSome then progress.openRec else none
        let handler := newRangeHandle (sendRequest network range newLimit offset ascending)
        { progress with appended := progress.appended ++ [handler], servers := rest }
      else progress

/-- One turn of the loop over the handlers. -/
def Progress.visit (config : QuorumProtocolConfig) (network : Network K) (limit offset : Option Int)
    (ascending : Bool) (progress : Progress K) (fetch : Fetch K) : Except Failure (Progress K) :=
  if progress.openRec.all (0 < ·) then do
    let handler ← (newRangeHandle fetch).vote (config.readQuorumFor fetch.futures)
    if handler.failed then
      .error (.runtime "Not enough servers responded. We need to throw better exceptions for that case")
    else
      let records := handler.winners.map Winner.record
      let progress := progress.requestMore network limit offset ascending records
      let (taken, openRec) := takeOpen progress.openRec records
      return { progress with result := progress.result ++ taken, openRec }
  else return progress

/-- The loop reads the number of handlers once, when it starts, so what it appends
to them is not visited. -/
def finishGetRangeRequest (config : QuorumProtocolConfig) (network : Network K)
    (partitions : List (RangeDesc K)) (ftchs : List (Fetch K)) (limit offset : Option Int)
    (ascending : Bool) : Except Failure (List (K × Bytes)) := do
  let progress : Progress K := { openRec := limit, servers := partitions }
  return (← ftchs.foldlM (Progress.visit config network limit offset ascending) progress).result

def getKeys (config : QuorumProtocolConfig) (routingTable : RoutingTable K) (network : Network K)
    (start last : Option K) (limit offset : Option Int) (ascending : Bool) :
    Except Failure (List (K × Bytes)) := do
  let (ptr, ftchs) ← startGetRangeRequest routingTable network start last limit offset ascending
  finishGetRangeRequest config network ptr ftchs limit offset ascending

omit [LinearOrder K] in
theorem takeOpen_eq (openRec : Option Int) (records : List (Record K Value)) :
    (takeOpen openRec records).1 = (Database.limited openRec records).flatMap keyAndBytes := by
  induction records generalizing openRec with
  | nil => cases openRec <;> simp [takeOpen, Database.limited]
  | cons record rest ih =>
      cases openRec with
      | none => simpa [takeOpen, Database.limited] using ih none
      | some count =>
          by_cases isOpen : 0 < count
          · have positive : count.toNat = (count - 1).toNat + 1 := by omega
            have taken := ih (some (count - 1))
            simp only [Database.limited] at taken ⊢
            rw [positive, List.take_succ_cons, List.flatMap_cons, ← taken]
            simp [takeOpen, isOpen]
          · have closed : count.toNat = 0 := by omega
            have taken := ih (some count)
            simp only [Database.limited, closed, List.take_zero] at taken ⊢
            rw [← taken]
            simp [takeOpen, isOpen]

omit [LinearOrder K] in
theorem takeOpen_none (records : List (Record K Value)) : (takeOpen none records).2 = none := by
  induction records with
  | nil => rfl
  | cons record rest ih => simpa [takeOpen] using ih

omit [LinearOrder K] in
/-- Asking for more changes neither the result nor what is still open. -/
theorem Progress.requestMore_keeps (network : Network K) (limit offset : Option Int) (ascending : Bool)
    (progress : Progress K) (records : List (Record K Value)) :
    (progress.requestMore network limit offset ascending records).openRec = progress.openRec ∧
      (progress.requestMore network limit offset ascending records).result = progress.result := by
  unfold Progress.requestMore
  split
  · exact ⟨rfl, rfl⟩
  · split
    · exact ⟨rfl, rfl⟩
    · exact ⟨rfl, rfl⟩

/-- The quorum of a fetch answers, and the vote over it gives these records. -/
def Voted (config : QuorumProtocolConfig) (fetch : Fetch K) (records : List (Record K Value)) : Prop :=
  ∃ handler, (newRangeHandle fetch).vote (config.readQuorumFor fetch.futures) = .ok handler ∧
    handler.failed = false ∧ handler.winners.map Winner.record = records

def Progress.add (progress : Progress K) (records : List (Record K Value)) : Progress K :=
  { progress with result := progress.result ++ records.flatMap keyAndBytes }

omit [LinearOrder K] in
theorem Progress.add_append (progress : Progress K) (records more : List (Record K Value)) :
    progress.add (records ++ more) = (progress.add records).add more := by
  simp [Progress.add]

variable {config : QuorumProtocolConfig} {routingTable : RoutingTable K} {network : Network K}
  {limit offset : Option Int} {ascending : Bool}

theorem visit_unlimited {progress next : Progress K} {fetch : Fetch K} (unlimited : progress.openRec = none)
    (alone : progress.servers = []) :
    progress.visit config network limit offset ascending fetch = .ok next ↔
      ∃ records, Voted config fetch records ∧ next = progress.add records := by
  have alike (records : List (Record K Value)) :
      progress.requestMore network limit offset ascending records = progress := by
    rw [Progress.requestMore, alone]
  have taken (records : List (Record K Value)) : takeOpen progress.openRec records =
      (records.flatMap keyAndBytes, progress.openRec) := by
    rw [unlimited]
    exact Prod.ext (takeOpen_eq none records) (takeOpen_none records)
  have isOpen : progress.openRec.all (0 < ·) = true := by rw [unlimited]; rfl
  rw [Progress.visit, if_pos isOpen]
  simp only [alike, taken]
  constructor
  · intro visited
    obtain ⟨handler, voted, rest⟩ := bind_eq_ok.mp visited
    cases answered : handler.failed with
    | true =>
        rw [answered, if_pos rfl] at rest
        cases rest
    | false =>
        rw [answered, if_neg Bool.false_ne_true] at rest
        exact ⟨_, ⟨handler, voted, answered, rfl⟩, (Except.ok.inj rest).symm⟩
  · intro found
    obtain ⟨_, ⟨handler, voted, answered, rfl⟩, rfl⟩ := found
    rw [voted, ok_bind, answered, if_neg Bool.false_ne_true]
    rfl

theorem fold_unlimited {ftchs : List (Fetch K)} {progress final : Progress K}
    (unlimited : progress.openRec = none) (alone : progress.servers = []) :
    ftchs.foldlM (Progress.visit config network limit offset ascending) progress = .ok final ↔
      ∃ lists, List.Forall₂ (Voted config) ftchs lists ∧ final = progress.add lists.flatten := by
  induction ftchs generalizing progress with
  | nil => simp [Progress.add, eq_comm]
  | cons fetch ftchs ih =>
      rw [List.foldlM_cons, bind_eq_ok]
      constructor
      · intro found
        obtain ⟨next, visited, rest⟩ := found
        obtain ⟨records, voted, rfl⟩ := (visit_unlimited unlimited alone).mp visited
        obtain ⟨lists, others, rfl⟩ := (@ih (progress.add records) unlimited alone).mp rest
        exact ⟨records :: lists, .cons voted others, by rw [List.flatten_cons, progress.add_append]⟩
      · intro found
        obtain ⟨_, voted, rfl⟩ := found
        cases voted with
        | @cons _ records _ lists first others =>
            refine ⟨_, (visit_unlimited unlimited alone).mpr ⟨records, first, rfl⟩, ?_⟩
            exact (@ih (progress.add records) unlimited alone).mpr
              ⟨lists, others, by rw [List.flatten_cons, progress.add_append]⟩

/-- Without a limit, `getKeys` concatenates the votes over all partitions. -/
theorem getKeys_unlimited {startKey endKey : Option K} {descs : List (RangeDesc K)}
    (routed : serversForKeyRange routingTable startKey endKey = .ok descs) {result : List (K × Bytes)} :
    getKeys config routingTable network startKey endKey none offset ascending = .ok result ↔
      ∃ lists, List.Forall₂ (Voted config)
          ((Database.directed ascending descs).map fun range =>
            sendRequest network range none offset ascending) lists ∧
        result = lists.flatten.flatMap keyAndBytes := by
  simp only [getKeys, startGetRangeRequest, routed, ok_bind, pure_eq_ok, finishGetRangeRequest, bind_eq_ok]
  constructor
  · intro found
    obtain ⟨final, folded, same⟩ := found
    obtain ⟨lists, voted, rfl⟩ := (fold_unlimited rfl rfl).mp folded
    cases same
    exact ⟨lists, voted, rfl⟩
  · intro found
    obtain ⟨lists, voted, rfl⟩ := found
    exact ⟨_, (fold_unlimited rfl rfl).mpr ⟨lists, voted, rfl⟩, rfl⟩

/-- With a limit, `getKeys` returns what the first partition gives. -/
theorem getKeys_limited {startKey endKey : Option K} {descs rest : List (RangeDesc K)}
    {first : RangeDesc K} {count : Int} {records : List (Record K Value)}
    (routed : serversForKeyRange routingTable startKey endKey = .ok descs)
    (visited : Database.directed ascending descs = first :: rest)
    (voted : Voted config (sendRequest network first (some count) offset ascending) records) :
    getKeys config routingTable network startKey endKey (some count) offset ascending =
      .ok ((Database.limited (some count) records).flatMap keyAndBytes) := by
  obtain ⟨handler, won, answered, rfl⟩ := voted
  rw [getKeys, startGetRangeRequest, routed]
  simp only [ok_bind, visited, pure_eq_ok, finishGetRangeRequest, List.foldlM_cons, List.foldlM_nil]
  by_cases isOpen : 0 < count
  · rw [Progress.visit, if_pos (by simpa using isOpen), won, ok_bind, answered,
      if_neg Bool.false_ne_true]
    simp only [pure_eq_ok, ok_bind, Progress.requestMore_keeps, takeOpen_eq, List.nil_append]
  · have closed : count.toNat = 0 := by omega
    rw [Progress.visit, if_neg (by simpa using isOpen)]
    simp [Database.limited, closed]

/-- With a limit, `getKeys` throws where there is no partition to ask. -/
theorem getKeys_nowhere {startKey endKey : Option K} {count : Int}
    (routed : serversForKeyRange routingTable startKey endKey = .ok []) :
    getKeys config routingTable network startKey endKey (some count) offset ascending =
      .error (.noSuchElement "next on empty iterator") := by
  cases ascending <;> simp [getKeys, startGetRangeRequest, routed, Database.directed]

end

end Scads.Client
