import Mononium.Core.Types
import Mathlib.Data.List.Nodup
import Mathlib.Data.Nat.ModEq
import Mathlib.Order.Basic

/-! The proposer schedule of `consensus::proposer`: round robin over the active set of
an era, counted from the height at which the schedule starts. -/
namespace Mononium

open Rust Scale

/-- The proposer of a slot. The index is out of range only for an empty active set, which
the assertion refuses. -/
def RoundRobin.selectProposer (slot : U64) (activeSet : List Address) : Exec Address :=
  match activeSet[slot.toNat % activeSet.length]? with
  | some proposer => .ok proposer
  | none => .error (.assertion "RoundRobin requires non-empty active set")

structure ProposerSchedule where
  activeSet : List Address
  era : U64
  startHeight : U64
  deriving DecidableEq, Repr

namespace ProposerSchedule

/-- A height below the start counts as the first slot. The index is out of range only
for an empty active set, which the assertion refuses. -/
def proposerForHeight (self : ProposerSchedule) (height : U64) : Exec Address :=
  let slot := saturatingSub height self.startHeight
  match self.activeSet[slot.toNat % self.activeSet.length]? with
  | some proposer => .ok proposer
  | none => .error (.assertion "ProposerSchedule requires non-empty active set")

def isScheduledProposer (self : ProposerSchedule) (proposer : Address) (height : U64) : Exec Bool := do
  return (← self.proposerForHeight height) = proposer

theorem isScheduledProposer_eq_true {self : ProposerSchedule} {proposer : Address} {height : U64} :
    self.isScheduledProposer proposer height = .ok true ↔
      self.proposerForHeight height = .ok proposer := by
  rw [isScheduledProposer, bind_eq_ok]
  constructor
  · rintro ⟨scheduled, found, same⟩
    rw [found, ← of_decide_eq_true (pure_eq_ok.mp same)]
  · intro found
    exact ⟨proposer, found, by simp [pure, Except.pure]⟩

theorem proposerForHeight_returns {self : ProposerSchedule} {height : U64} :
    Returns (self.proposerForHeight height) ↔ self.activeSet ≠ [] := by
  unfold proposerForHeight
  by_cases empty : self.activeSet = []
  · simp [empty]
  · have inside := Nat.mod_lt (saturatingSub height self.startHeight).toNat
      (List.length_pos_iff.mpr empty)
    simp [List.getElem?_eq_getElem inside, empty]

theorem proposerForHeight_mem {self : ProposerSchedule} {height : U64} {proposer : Address}
    (found : self.proposerForHeight height = .ok proposer) : proposer ∈ self.activeSet := by
  unfold proposerForHeight at found
  dsimp only at found
  split at found
  next scheduled here =>
    cases found
    exact List.mem_of_getElem? here
  next => cases found

/-- The two index computations of the source agree from the start on. -/
theorem proposerForHeight_eq_selectProposer {self : ProposerSchedule} {height : U64}
    (nonempty : self.activeSet ≠ []) (started : self.startHeight ≤ height) :
    self.proposerForHeight height =
      RoundRobin.selectProposer (height - self.startHeight) self.activeSet := by
  have slot : saturatingSub height self.startHeight = height - self.startHeight :=
    if_pos (BitVec.le_def.mp started)
  have inside := Nat.mod_lt (height - self.startHeight).toNat (List.length_pos_iff.mpr nonempty)
  simp only [proposerForHeight, RoundRobin.selectProposer, slot, List.getElem?_eq_getElem inside]

theorem existsUnique_scheduled {self : ProposerSchedule} (nonempty : self.activeSet ≠ [])
    (height : U64) : ∃! proposer, self.isScheduledProposer proposer height = .ok true := by
  obtain ⟨proposer, found⟩ := proposerForHeight_returns.mpr nonempty
  refine ⟨proposer, isScheduledProposer_eq_true.mpr found, fun other scheduled => ?_⟩
  have again := isScheduledProposer_eq_true.mp scheduled
  rw [found] at again
  exact (Except.ok.inj again).symm

/-- Without doubles a validator proposes at the heights of its own residue. -/
theorem isScheduledProposer_getElem {self : ProposerSchedule} {height : U64} {i : Nat}
    (distinct : self.activeSet.Nodup) (inside : i < self.activeSet.length) :
    self.isScheduledProposer self.activeSet[i] height = .ok true ↔
      (height.toNat - self.startHeight.toNat) % self.activeSet.length = i := by
  have bound := Nat.mod_lt (height.toNat - self.startHeight.toNat) (Nat.zero_lt_of_lt inside)
  have slot := saturatingSub_toNat height self.startHeight
  simp only [isScheduledProposer_eq_true, proposerForHeight, slot,
    List.getElem?_eq_getElem bound, Except.ok.injEq]
  exact List.Nodup.getElem_inj_iff distinct

/-- Two heights with one residue are no less than the modulus apart. -/
theorem eq_of_residue {n a b : Nat} (near : a < b + n) (same : a % n = b % n) : a ≤ b := by
  by_contra above
  have zero := Nat.sub_mod_eq_zero_of_mod_eq same
  rw [Nat.mod_eq_of_lt (by omega)] at zero
  omega

/-- A window as long as the modulus meets every residue, wherever it begins. -/
theorem exists_residue {n r : Nat} (inside : r < n) (first : Nat) :
    ∃ k, first ≤ k ∧ k < first + n ∧ k % n = r := by
  have positive := Nat.zero_lt_of_lt inside
  have below := Nat.mod_lt first positive
  have shift := Nat.mod_lt (r + n - first % n) positive
  refine ⟨first + (r + n - first % n) % n, by omega, by omega, ?_⟩
  have sum : first % n + (r + n - first % n) = r + n := by omega
  rw [Nat.add_mod_mod, ← Nat.mod_add_mod, sum, Nat.add_mod_right, Nat.mod_eq_of_lt inside]

/-- Every validator proposes once in as many consecutive heights as there are validators;
the window need not begin with a round of the schedule. -/
theorem existsUnique_turn {self : ProposerSchedule} (distinct : self.activeSet.Nodup)
    {first : U64} (started : self.startHeight ≤ first)
    (room : first.toNat + self.activeSet.length ≤ 2 ^ 64) {validator : Address}
    (active : validator ∈ self.activeSet) :
    ∃! height : U64, first ≤ height ∧ height.toNat < first.toNat + self.activeSet.length ∧
      self.isScheduledProposer validator height = .ok true := by
  obtain ⟨i, inside, rfl⟩ := List.getElem_of_mem active
  have after : self.startHeight.toNat ≤ first.toNat := BitVec.le_def.mp started
  obtain ⟨slot, low, high, residue⟩ :=
    exists_residue inside (first.toNat - self.startHeight.toNat)
  have value : (BitVec.ofNat 64 (self.startHeight.toNat + slot)).toNat =
      self.startHeight.toNat + slot := by
    rw [BitVec.toNat_ofNat, Nat.mod_eq_of_lt (by omega)]
  refine ⟨BitVec.ofNat 64 (self.startHeight.toNat + slot), ⟨?_, ?_, ?_⟩, ?_⟩
  · rw [BitVec.le_def, value]
    omega
  · rw [value]
    omega
  · rw [isScheduledProposer_getElem distinct, value, Nat.add_sub_cancel_left, residue]
  · rintro height ⟨lower, upper, turn⟩
    have begun : first.toNat ≤ height.toNat := BitVec.le_def.mp lower
    rw [isScheduledProposer_getElem distinct] at turn
    have same := turn.trans residue.symm
    apply BitVec.eq_of_toNat_eq
    have up := eq_of_residue (by omega) same
    have down := eq_of_residue (by omega) same.symm
    omega

/-- The schedule is fair in every window of one round, has one proposer at each height,
and is round robin over the slots since its start. -/
theorem fair (self : ProposerSchedule) (nonempty : self.activeSet ≠ [])
    (distinct : self.activeSet.Nodup) :
    (∀ first : U64, self.startHeight ≤ first →
      first.toNat + self.activeSet.length ≤ 2 ^ 64 →
      ∀ validator ∈ self.activeSet, ∃! height : U64, first ≤ height ∧
        height.toNat < first.toNat + self.activeSet.length ∧
        self.isScheduledProposer validator height = .ok true) ∧
    (∀ height : U64, ∃! proposer, self.isScheduledProposer proposer height = .ok true) ∧
    ∀ height : U64, self.startHeight ≤ height → self.proposerForHeight height =
      RoundRobin.selectProposer (height - self.startHeight) self.activeSet :=
  ⟨fun _ started room _ active => existsUnique_turn distinct started room active,
    existsUnique_scheduled nonempty, fun _ => proposerForHeight_eq_selectProposer nonempty⟩

section Sample

/-- Three validators from height 5 on. -/
def rotation : ProposerSchedule := ⟨[repeated 1, repeated 2, repeated 3], 0, 5⟩

theorem rotation_fair : rotation.activeSet.Nodup ∧
    ∃! height : U64, 9 ≤ height ∧ height.toNat < (9 : U64).toNat + rotation.activeSet.length ∧
      rotation.isScheduledProposer (repeated 1) height = .ok true :=
  ⟨by decide, (fair rotation (by simp [rotation]) (by decide)).1 9 (by decide) (by decide)
    (repeated 1) (by decide)⟩

end Sample

end ProposerSchedule

end Mononium
