import Scads.Comm.Messages

namespace Scads.Comm

/-! # Waiting for replies -/

/-- `FutureCollection.blockFor`: takes `count` replies off the queue in the order
in which they arrive.  The list holds those that arrive in time. -/
def blockFor {α : Type} : Nat → Int → List α → Except Failure (List α)
  | 0, _, _ => .ok []
  | _ + 1, timeout, [] => .error (.runtime ("TIMEOUT " ++ toString timeout))
  | count + 1, timeout, first :: rest => do return first :: (← blockFor count timeout rest)

theorem blockFor_eq {α : Type} (count : Nat) (timeout : Int) (arrived : List α) :
    blockFor count timeout arrived =
      if count ≤ arrived.length then .ok (arrived.take count)
      else .error (.runtime ("TIMEOUT " ++ toString timeout)) := by
  induction count generalizing arrived with
  | zero => simp [blockFor]
  | succ count ih =>
      cases arrived with
      | nil => simp [blockFor]
      | cons first rest =>
          rw [blockFor, ih]
          by_cases enough : count ≤ rest.length
          · simp [enough]
          · simp [enough]

end Scads.Comm
