import Mathlib.Data.Rat.Floor
import Mathlib.Tactic.Linarith
import Mathlib.Tactic.Positivity
import Scads.Comm.Messages

namespace Scads.Client

open Scads.Comm

/-! # Quorum ratios

The ratios are validated once and turned into reply counts separately for every
replica set.  They are read here as exact rationals.
-/

structure QuorumProtocolConfig where
  readQuorum : ℚ
  writeQuorum : ℚ

/-- The ratios of a namespace on which no quorum was ever set. -/
def QuorumProtocolConfig.initial : QuorumProtocolConfig := ⟨1 / 1000, 1⟩

def setReadWriteQuorum (readQuorum writeQuorum : ℚ) : Except Failure QuorumProtocolConfig := do
  require (0 < readQuorum ∧ readQuorum ≤ 1)
    ("Read quorum has to be in the range 0 < RQ <= 1 but was " ++ toString readQuorum)
  require (0 < writeQuorum ∧ writeQuorum ≤ 1)
    ("Write quorum has to be in the range 0 < WQ <= 1 but was " ++ toString writeQuorum)
  require (writeQuorum + readQuorum ≥ 1)
    ("Read + write quorum has to be >= 1 but was " ++ toString (readQuorum + writeQuorum))
  return ⟨readQuorum, writeQuorum⟩

/-- `scala.math.ceil(nbServers * ratio).toInt`. -/
def quorumOf (ratio : ℚ) (nbServers : Nat) : Nat := ⌈(nbServers : ℚ) * ratio⌉₊

def QuorumProtocolConfig.readQuorumFor (config : QuorumProtocolConfig) (nbServers : Nat) : Nat :=
  quorumOf config.readQuorum nbServers

def QuorumProtocolConfig.writeQuorumFor (config : QuorumProtocolConfig) (nbServers : Nat) : Nat :=
  quorumOf config.writeQuorum nbServers

theorem setReadWriteQuorum_ok_iff {readQuorum writeQuorum : ℚ} {config : QuorumProtocolConfig} :
    setReadWriteQuorum readQuorum writeQuorum = .ok config ↔
      (0 < readQuorum ∧ readQuorum ≤ 1) ∧ (0 < writeQuorum ∧ writeQuorum ≤ 1) ∧
        1 ≤ writeQuorum + readQuorum ∧ config = ⟨readQuorum, writeQuorum⟩ := by
  simp only [setReadWriteQuorum, require, decide_eq_true_eq]
  by_cases read : 0 < readQuorum ∧ readQuorum ≤ 1
  · by_cases write : 0 < writeQuorum ∧ writeQuorum ≤ 1
    · by_cases total : writeQuorum + readQuorum ≥ 1
      · simp [read, write, total, bind, Except.bind, pure, Except.pure, eq_comm]
      · simp [read, write, total, bind, Except.bind]
    · simp [read, write, bind, Except.bind]
  · simp [read, bind, Except.bind]

theorem accepted_ones : setReadWriteQuorum 1 1 = .ok ⟨1, 1⟩ :=
  setReadWriteQuorum_ok_iff.mpr (by norm_num)

theorem quorumOf_pos {ratio : ℚ} {nbServers : Nat} (replicated : 1 ≤ nbServers) (positive : 0 < ratio) :
    1 ≤ quorumOf ratio nbServers := by
  apply Nat.ceil_pos.mpr
  have servers : (0 : ℚ) < nbServers := by exact_mod_cast replicated
  positivity

theorem quorumOf_le {ratio : ℚ} {nbServers : Nat} (bound : ratio ≤ 1) :
    quorumOf ratio nbServers ≤ nbServers := by
  apply Nat.ceil_le.mpr
  have servers : (0 : ℚ) ≤ nbServers := by positivity
  nlinarith

/-- Ratios that add up to more than one give overlapping quorums. -/
theorem quorumOf_overlap {readRatio writeRatio : ℚ} {nbServers : Nat} (replicated : 1 ≤ nbServers)
    (overlap : 1 < writeRatio + readRatio) :
    nbServers < quorumOf readRatio nbServers + quorumOf writeRatio nbServers := by
  have servers : (0 : ℚ) < nbServers := by exact_mod_cast replicated
  have read := Nat.le_ceil ((nbServers : ℚ) * readRatio)
  have write := Nat.le_ceil ((nbServers : ℚ) * writeRatio)
  have total : (nbServers : ℚ) < quorumOf readRatio nbServers + quorumOf writeRatio nbServers := by
    calc (nbServers : ℚ) = nbServers * 1 := by ring
      _ < nbServers * (writeRatio + readRatio) := by nlinarith
      _ = nbServers * readRatio + nbServers * writeRatio := by ring
      _ ≤ _ := add_le_add read write
  exact_mod_cast total

/-- On the boundary of the check the two counts are complementary roundings of
the same number, so they overlap only when rounding up gains something. -/
theorem quorumOf_complement {readRatio writeRatio : ℚ} (nbServers : Nat)
    (write : 0 < writeRatio) (exact : writeRatio + readRatio = 1) :
    nbServers < quorumOf readRatio nbServers + quorumOf writeRatio nbServers ↔
      ∀ count : Nat, (nbServers : ℚ) * readRatio ≠ count := by
  have complement : (nbServers : ℚ) * writeRatio = nbServers - nbServers * readRatio := by
    rw [show writeRatio = 1 - readRatio by linarith]
    ring
  have servers : (0 : ℚ) ≤ nbServers := by positivity
  constructor
  · intro overlap count integral
    have readCount : quorumOf readRatio nbServers = count := by
      rw [quorumOf, integral, Nat.ceil_natCast]
    have bound : count ≤ nbServers := by
      have : (count : ℚ) ≤ nbServers := by rw [← integral]; nlinarith
      exact_mod_cast this
    have writeCount : quorumOf writeRatio nbServers = nbServers - count := by
      rw [quorumOf, complement, integral, ← Nat.cast_sub bound, Nat.ceil_natCast]
    omega
  · intro fractional
    have readAbove : (nbServers : ℚ) * readRatio < quorumOf readRatio nbServers :=
      lt_of_le_of_ne (Nat.le_ceil _) (fractional _)
    have writeAbove := Nat.le_ceil ((nbServers : ℚ) * writeRatio)
    have total : (nbServers : ℚ) < quorumOf readRatio nbServers + quorumOf writeRatio nbServers := by
      calc (nbServers : ℚ) = nbServers * readRatio + nbServers * writeRatio := by
            rw [complement]
            ring
        _ < _ := add_lt_add_of_lt_of_le readAbove writeAbove
    exact_mod_cast total

/-- Accepted ratios give counts between one and the number of replicas.  The two
quorums are sure to intersect exactly when the ratios add up to more than one or
the read share of the replicas is not a whole number. -/
theorem quorums_intersect_iff {nbServers : Nat} {readQuorum writeQuorum : ℚ}
    {config : QuorumProtocolConfig} (replicated : 1 ≤ nbServers)
    (accepted : setReadWriteQuorum readQuorum writeQuorum = .ok config) :
    ((1 ≤ config.readQuorumFor nbServers ∧ config.readQuorumFor nbServers ≤ nbServers) ∧
      (1 ≤ config.writeQuorumFor nbServers ∧ config.writeQuorumFor nbServers ≤ nbServers) ∧
      nbServers < config.readQuorumFor nbServers + config.writeQuorumFor nbServers) ↔
    (1 < readQuorum + writeQuorum ∨ ∀ count : Nat, (nbServers : ℚ) * readQuorum ≠ count) := by
  obtain ⟨⟨readPos, readLe⟩, ⟨writePos, writeLe⟩, total, rfl⟩ :=
    setReadWriteQuorum_ok_iff.mp accepted
  have bounds : (1 ≤ quorumOf readQuorum nbServers ∧ quorumOf readQuorum nbServers ≤ nbServers) ∧
      (1 ≤ quorumOf writeQuorum nbServers ∧ quorumOf writeQuorum nbServers ≤ nbServers) :=
    ⟨⟨quorumOf_pos replicated readPos, quorumOf_le readLe⟩,
      quorumOf_pos replicated writePos, quorumOf_le writeLe⟩
  simp only [QuorumProtocolConfig.readQuorumFor, QuorumProtocolConfig.writeQuorumFor]
  rcases lt_or_eq_of_le total with above | boundary
  · have overlap := quorumOf_overlap replicated above
    exact ⟨fun _ => .inl (by linarith), fun _ => ⟨bounds.1, bounds.2, overlap⟩⟩
  · have complement := quorumOf_complement nbServers writePos boundary.symm
    constructor
    · intro found
      obtain ⟨_, _, overlap⟩ := found
      exact .inr (complement.mp overlap)
    · intro found
      obtain above | fractional := found
      · linarith
      · exact ⟨bounds.1, bounds.2, complement.mpr fractional⟩

theorem quorums_intersect_of_three :
    setReadWriteQuorum (3 / 5) (3 / 5) = .ok ⟨3 / 5, 3 / 5⟩ ∧
      3 < quorumOf (3 / 5) 3 + quorumOf (3 / 5) 3 := by
  have accepted : setReadWriteQuorum (3 / 5) (3 / 5) = .ok ⟨3 / 5, 3 / 5⟩ :=
    setReadWriteQuorum_ok_iff.mpr (by norm_num)
  exact ⟨accepted, ((quorums_intersect_iff (by decide) accepted).mpr (.inl (by norm_num))).2.2⟩

/-- Two halves pass the check, and on two replicas each quorum is one replica. -/
theorem accepted_halves_disjoint :
    ∃ config, setReadWriteQuorum (1 / 2) (1 / 2) = .ok config ∧
      ¬ 2 < config.readQuorumFor 2 + config.writeQuorumFor 2 := by
  refine ⟨⟨1 / 2, 1 / 2⟩, setReadWriteQuorum_ok_iff.mpr (by norm_num), ?_⟩
  norm_num [QuorumProtocolConfig.readQuorumFor, QuorumProtocolConfig.writeQuorumFor, quorumOf]

end Scads.Client
