import Scads.Comm.Futures
import Scads.Client.Metadata
import Scads.Client.Quorum
import Scads.Server.PartitionHandler

namespace Scads.Client

open Scads.Comm Scads.Server

/-! # Acknowledged writes -/

/-- A `PutRequest` on its way to the replicas of its key: what each of them stores
when the request reaches it, and what its manager throws, if anything. -/
structure PutCall (N : Nat) (K : Type) [LinearOrder K] where
  request : PutRequest K Value
  store : Fin N → Database K Value
  thrown : Fin N → Option Fault

namespace PutCall

variable {N : Nat} {K : Type} [LinearOrder K]

def response (call : PutCall N K) (replica : Fin N) : StorageMessage K Value :=
  (process (call.store replica) (call.thrown replica) (.putRequest call.request)).2

/-- The replicas that applied the write, out of those that handled the request. -/
def applied (call : PutCall N K) (handled : Finset (Fin N)) : Finset (Fin N) :=
  handled.filter fun replica => (call.thrown replica).isNone

/-- `putBytes`, for replies that arrive in this order. -/
def putBytes (config : QuorumProtocolConfig) (call : PutCall N K) (arrival : List (Fin N)) :
    Except Failure Unit := do
  let _ ← blockFor (config.writeQuorumFor N) 5000 (arrival.map call.response)
  return ()

theorem putBytes_eq_ok (config : QuorumProtocolConfig) (call : PutCall N K) (arrival : List (Fin N)) :
    call.putBytes config arrival = .ok () ↔ config.writeQuorumFor N ≤ arrival.length := by
  rw [putBytes, blockFor_eq, List.length_map]
  by_cases enough : config.writeQuorumFor N ≤ arrival.length
  · simp [enough]
  · simp [enough]

/-- Whenever `putBytes` returns, a write quorum has applied the write: this holds
exactly when too few replies arrive for it to return or all that it counts
acknowledge the write. -/
theorem putBytes_acknowledged_iff (config : QuorumProtocolConfig) (call : PutCall N K)
    {arrival : List (Fin N)} (distinct : arrival.Nodup) :
    (∀ handled : Finset (Fin N), (∀ replica ∈ arrival.take (config.writeQuorumFor N), replica ∈ handled) →
      call.putBytes config arrival = .ok () →
        config.writeQuorumFor N ≤ (call.applied handled).card) ↔
    (arrival.length < config.writeQuorumFor N ∨
      ∀ replica ∈ arrival.take (config.writeQuorumFor N), call.response replica = .putResponse) := by
  have counted := (List.take_sublist (config.writeQuorumFor N) arrival).nodup distinct
  constructor
  · intro acknowledged
    by_cases few : arrival.length < config.writeQuorumFor N
    · exact .inl few
    · have quorum : config.writeQuorumFor N ≤ arrival.length := not_lt.mp few
      have size : (arrival.take (config.writeQuorumFor N)).toFinset.card = config.writeQuorumFor N := by
        rw [List.toFinset_card_of_nodup counted, List.length_take, Nat.min_eq_left quorum]
      -- nobody else has handled the request when the last counted reply arrives
      have enough := acknowledged (arrival.take (config.writeQuorumFor N)).toFinset (by simp)
        ((putBytes_eq_ok config call arrival).mpr quorum)
      have everyone : call.applied (arrival.take (config.writeQuorumFor N)).toFinset =
          (arrival.take (config.writeQuorumFor N)).toFinset :=
        Finset.eq_of_subset_of_card_le (Finset.filter_subset _ _) (size.trans_le enough)
      refine .inr fun replica member => ?_
      have applied : replica ∈ call.applied (arrival.take (config.writeQuorumFor N)).toFinset := by
        rw [everyone, List.mem_toFinset]
        exact member
      exact (process_putRequest _ _ _).1.mpr (by simpa using (Finset.mem_filter.mp applied).2)
  · intro condition handled included returned
    have quorum := (putBytes_eq_ok config call arrival).mp returned
    have all := condition.resolve_left (not_lt.mpr quorum)
    calc config.writeQuorumFor N = (arrival.take (config.writeQuorumFor N)).toFinset.card := by
          rw [List.toFinset_card_of_nodup counted, List.length_take, Nat.min_eq_left quorum]
      _ ≤ (call.applied handled).card := by
          refine Finset.card_le_card fun replica member => ?_
          have known := List.mem_toFinset.mp member
          refine Finset.mem_filter.mpr ⟨included replica known, ?_⟩
          have unthrown := (process_putRequest _ _ _).1.mp (all replica known)
          simp [unthrown]

theorem writeQuorum_of_three : QuorumProtocolConfig.writeQuorumFor ⟨3 / 5, 3 / 5⟩ 3 = 2 := by
  norm_num [QuorumProtocolConfig.writeQuorumFor, quorumOf, Nat.ceil_eq_iff]

/-- Two of three replicas acknowledge. -/
theorem putBytes_acknowledged_by_two :
    2 ≤ (applied (⟨⟨7, some (createMetadata 1 5 [42])⟩, fun _ => .empty, fun _ => none⟩ : PutCall 3 Nat)
      {0, 2}).card := by
  have acknowledged := (putBytes_acknowledged_iff ⟨3 / 5, 3 / 5⟩
    (⟨⟨7, some (createMetadata 1 5 [42])⟩, fun _ => .empty, fun _ => none⟩ : PutCall 3 Nat)
    (show [(2 : Fin 3), 0].Nodup by decide)).mpr (.inr fun _ _ => rfl) {0, 2}
  rw [putBytes_eq_ok, writeQuorum_of_three] at acknowledged
  exact acknowledged (by decide) (by decide)

/-- Two of three replicas answer with an exception, and `putBytes` returns. -/
theorem putBytes_counts_exceptions :
    ∃ (call : PutCall 3 Nat) (arrival : List (Fin 3)) (handled : Finset (Fin 3)),
      arrival.Nodup ∧ (∀ replica ∈ arrival, replica ∈ handled) ∧
      call.putBytes ⟨3 / 5, 3 / 5⟩ arrival = .ok () ∧
      (call.applied handled).card < QuorumProtocolConfig.writeQuorumFor ⟨3 / 5, 3 / 5⟩ 3 := by
  refine ⟨⟨⟨7, some (createMetadata 1 5 [42])⟩, fun _ => .empty,
    fun replica => if replica = 2 then none else some (.exception "database is closed" "")⟩,
    [0, 1], {0, 1}, by decide, by decide, ?_, ?_⟩
  · rw [putBytes_eq_ok, writeQuorum_of_three]
    decide
  · rw [writeQuorum_of_three]
    decide

end PutCall

end Scads.Client
