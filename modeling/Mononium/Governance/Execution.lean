import Mononium.Consensus.Engine
import Mononium.Governance.Bounds
import Mononium.Lib.LastWrite

/-! The execution of approved proposals, as a function of the set of their ids. The ids are sorted,
so that their order does not matter; a second execution of a proposal writes what the first has
written; and of all that is written to a parameter the last counts. -/
namespace Mononium

open Rust Scale

def GovernanceAction.valueFor (param : GovernanceParam) : GovernanceAction → Option U256
  | .updateParam named newValue => if named = param then some newValue else none
  | .increaseShards _ _ => none

/-- Lists with the same ids are the same in order and without repetition. -/
theorem sorted_dedup_eq {ids others : List Digest}
    (same : ∀ proposalId, proposalId ∈ ids ↔ proposalId ∈ others) :
    (ids.insertionSort hashOrder).dedup = (others.insertionSort hashOrder).dedup := by
  have ordered (ids : List Digest) : (ids.insertionSort hashOrder).dedup.Pairwise hashOrder :=
    (List.pairwise_insertionSort hashOrder ids).sublist (List.dedup_sublist _)
  refine List.Perm.eq_of_pairwise' (ordered ids) (ordered others) ?_
  rw [List.perm_ext_iff_of_nodup (List.nodup_dedup _) (List.nodup_dedup _)]
  simpa using same

theorem newest_actions {param : GovernanceParam} (actions : List GovernanceAction) (before : Option Bytes) :
    newest (actions.flatMap actionWrites) (.param param) before =
      ((actions.filterMap (GovernanceAction.valueFor param)).getLast?.map Codec.u256.encode).or
        before := by
  induction actions generalizing before with
  | nil => rfl
  | cons action actions ih =>
    rw [List.flatMap_cons, newest_append, ih]
    cases action with
    | updateParam named newValue =>
      by_cases here : named = param
      · have own : GovernanceAction.valueFor param (.updateParam named newValue) = some newValue :=
          if_pos here
        rw [List.filterMap_cons_some own, List.getLast?_cons]
        cases (actions.filterMap (GovernanceAction.valueFor param)).getLast? <;>
          simp [actionWrites, here]
      · simp [actionWrites, GovernanceAction.valueFor, here]
    | increaseShards newCount seed => simp [actionWrites, GovernanceAction.valueFor]

namespace StateMachine

section

variable [Blake3] {I : Finset Digest} {A : Finset Address} {s : StateMachine}
  {ids others : List Digest} {param : GovernanceParam}

def approvedValue (s : StateMachine) (param : GovernanceParam) (proposalId : Digest) : Option U256 :=
  (s.getProposal proposalId).bind fun p =>
    if p.status = .approved then (p.actions.filterMap (GovernanceAction.valueFor param)).getLast?
    else none

def updates (s : StateMachine) (proposalId : Digest) : List (GovKey × Bytes) :=
  (s.approvedActions proposalId).flatMap actionWrites

theorem executedWrites_eq (ids : List Digest) : s.executedWrites ids =
    (ids.insertionSort hashOrder).flatMap s.updates := by
  rw [executedWrites, List.flatMap_assoc]
  rfl

def leafPairs (writes : List (GovKey × Bytes)) : List (Digest × Bytes) :=
  writes.map fun write => (blake3 (governanceKey write.1.subKey), write.2)

theorem writeRecords_eq (writes : List (GovKey × Bytes)) : s.writeRecords writes =
    { s with state :=
        ⟨HashMap.insertAll s.state.leaves (leafPairs writes),
          if writes = [] then s.state.cachedRoot else none⟩ } := by
  induction writes generalizing s with
  | nil => rfl
  | cons write writes ih =>
    rw [writeRecords_cons, ih]
    split <;> rfl

/-- Writes to records that are all written again leave no trace in the machine. -/
theorem writeRecords_of_covered {writes later : List (GovKey × Bytes)}
    (covered : ∀ write ∈ writes, ∃ again ∈ later, again.1 = write.1) :
    s.writeRecords (writes ++ later) = s.writeRecords later := by
  have leaves : HashMap.insertAll s.state.leaves (leafPairs (writes ++ later)) =
      HashMap.insertAll s.state.leaves (leafPairs later) := by
    rw [leafPairs, List.map_append]
    apply HashMap.insertAll_of_covered
    intro pair member
    obtain ⟨write, listed, rfl⟩ := List.mem_map.mp member
    obtain ⟨again, there, own⟩ := covered write listed
    exact ⟨_, List.mem_map_of_mem there, by rw [own]⟩
  have none : writes ++ later = [] ↔ later = [] := by
    rw [List.append_eq_nil_iff, and_iff_right_iff_imp]
    rintro rfl
    rw [List.eq_nil_iff_forall_not_mem]
    intro write member
    obtain ⟨again, there, -⟩ := covered write member
    cases there
  simp only [writeRecords_eq, leaves, none]

/-- Of rounds with the same id the last one is enough. -/
theorem writeRecords_dedup (updates : Digest → List (GovKey × Bytes)) (ids : List Digest) :
    s.writeRecords (ids.dedup.flatMap updates) = s.writeRecords (ids.flatMap updates) := by
  induction ids generalizing s with
  | nil => rfl
  | cons proposalId ids ih =>
    rw [List.flatMap_cons]
    by_cases later : proposalId ∈ ids
    · rw [List.dedup_cons_of_mem later, ih, writeRecords_of_covered]
      intro write member
      exact ⟨write, List.mem_flatMap.mpr ⟨proposalId, later, member⟩, rfl⟩
    · rw [List.dedup_cons_of_notMem later, List.flatMap_cons, writeRecords_append, writeRecords_append, ih]

theorem newest_updates (proposalId : Digest) (before : Option Bytes) :
    newest (s.updates proposalId) (.param param) before =
      ((s.approvedValue param proposalId).map Codec.u256.encode).or before := by
  rw [updates, newest_actions, approvedActions, approvedValue]
  cases s.getProposal proposalId with
  | none => rfl
  | some p =>
    by_cases approved : p.status = .approved
    · simp [approved]
    · simp [approved]

theorem newest_rounds (ids : List Digest) (before : Option Bytes) :
    newest (ids.flatMap s.updates) (.param param) before =
      ids.foldl (fun found proposalId =>
        ((s.approvedValue param proposalId).map Codec.u256.encode).or found) before := by
  induction ids generalizing before with
  | nil => rfl
  | cons proposalId ids ih => rw [List.flatMap_cons, newest_append, newest_updates, ih, List.foldl_cons]

theorem executeApproved_getProposal (apart : RecordsApart I A)
    (within : ∀ proposalId ∈ ids, proposalId ∈ I) {proposalId : Digest} (member : proposalId ∈ I) :
    (s.executeApproved ids).2.getProposal proposalId = s.getProposal proposalId := by
  rw [executeApproved_eq apart within]
  refine getProposal_congr (record_writeRecords_of_ne apart ?_ member ?_)
  · intro write here
    obtain ⟨_, -, _, -, -, _, _, -, rfl⟩ := mem_executedWrites here
    trivial
  · intro write here
    obtain ⟨_, -, _, -, -, _, _, -, rfl⟩ := mem_executedWrites here
    simp

/-- The ids as a set decide. -/
theorem executeApproved_congr (apart : RecordsApart I A) (within : ∀ proposalId ∈ ids, proposalId ∈ I)
    (same : ∀ proposalId, proposalId ∈ ids ↔ proposalId ∈ others) :
    s.executeApproved ids = s.executeApproved others := by
  have inside : ∀ proposalId ∈ others, proposalId ∈ I :=
    fun proposalId member => within proposalId ((same proposalId).mpr member)
  rw [executeApproved_eq apart within, executeApproved_eq apart inside, executedWrites_eq,
    executedWrites_eq, ← writeRecords_dedup, sorted_dedup_eq same, writeRecords_dedup]

/-- A second execution writes what the first has written. -/
theorem executeApproved_idem (apart : RecordsApart I A) (within : ∀ proposalId ∈ ids, proposalId ∈ I) :
    (s.executeApproved ids).2.executeApproved ids = s.executeApproved ids := by
  have again : (s.executeApproved ids).2.executedWrites ids = s.executedWrites ids := by
    rw [executedWrites_eq, executedWrites_eq]
    refine List.flatMap_congr fun proposalId member => ?_
    have listed := within proposalId ((List.mem_insertionSort _).mp member)
    rw [updates, approvedActions, executeApproved_getProposal apart within listed]
    rfl
  have first : (s.executeApproved ids).2 = s.writeRecords (s.executedWrites ids) := by
    rw [executeApproved_eq apart within]
  rw [executeApproved_eq apart within, again, first, ← writeRecords_append,
    writeRecords_of_covered fun write member => ⟨write, member, rfl⟩, executeApproved_eq apart within]

theorem executeApproved_param (apart : RecordsApart I A) (within : ∀ proposalId ∈ ids, proposalId ∈ I)
    (param : GovernanceParam) :
    (∃ proposalId ∈ ids, ∃ value, s.approvedValue param proposalId = some value ∧
      (∀ other ∈ ids, (s.approvedValue param other).isSome →
        beValue other.bytes ≤ beValue proposalId.bytes) ∧
      (s.executeApproved ids).2.governanceGet (paramKey param) = some (Codec.u256.encode value)) ∨
    (∀ proposalId ∈ ids, s.approvedValue param proposalId = none) ∧
      (s.executeApproved ids).2.governanceGet (paramKey param) = s.governanceGet (paramKey param) := by
  have stored : (s.executeApproved ids).2.governanceGet (paramKey param) =
      (ids.insertionSort hashOrder).foldl (fun found proposalId =>
        ((s.approvedValue param proposalId).map Codec.u256.encode).or found)
          (s.governanceGet (paramKey param)) := by
    rw [← newest_rounds, ← executedWrites_eq, executeApproved_eq apart within]
    refine record_writeRecords (k := .param param) apart (fun write member => ?_) trivial
    obtain ⟨_, -, _, -, -, _, _, -, rfl⟩ := mem_executedWrites member
    trivial
  have sorted := List.pairwise_insertionSort hashOrder ids
  rcases foldl_or_cases (f := fun proposalId =>
      (s.approvedValue param proposalId).map Codec.u256.encode) sorted with
    ⟨proposalId, member, bytes, own, greatest, folded⟩ | ⟨nothing, folded⟩
  · obtain ⟨value, named, rfl⟩ := Option.map_eq_some_iff.mp own
    refine .inl ⟨proposalId, (List.mem_insertionSort _).mp member, value, named, ?_, stored.trans folded⟩
    intro other listed present
    exact greatest other ((List.mem_insertionSort _).mpr listed) (by simpa using present)
  · refine .inr ⟨fun proposalId member => ?_, stored.trans folded⟩
    simpa using nothing proposalId ((List.mem_insertionSort _).mpr member)

/-- What an execution leaves is decided by the set of the ids and is left by it again: every
parameter that an approved proposal among them names has the value of the last action for it in
the greatest of these, and every other parameter is as it was. -/
theorem execution_canonical (apart : RecordsApart I A) (within : ∀ proposalId ∈ ids, proposalId ∈ I)
    (same : ∀ proposalId, proposalId ∈ ids ↔ proposalId ∈ others) :
    s.executeApproved ids = s.executeApproved others ∧
    (s.executeApproved ids).2.executeApproved ids = s.executeApproved ids ∧
    ∀ param,
      (∃ proposalId ∈ ids, ∃ value, s.approvedValue param proposalId = some value ∧
        (∀ other ∈ ids, (s.approvedValue param other).isSome →
          beValue other.bytes ≤ beValue proposalId.bytes) ∧
        (s.executeApproved ids).2.governanceGet (paramKey param) = some (Codec.u256.encode value)) ∨
      (∀ proposalId ∈ ids, s.approvedValue param proposalId = none) ∧
        (s.executeApproved ids).2.governanceGet (paramKey param) = s.governanceGet (paramKey param) :=
  ⟨executeApproved_congr apart within same, executeApproved_idem apart within,
    executeApproved_param apart within⟩

end

section Sample

attribute [local instance] foldedBlake3

set_option maxRecDepth 4096

def laterId : Digest := FixedBytes.replicate 32 2

/-- Alice's proposal and a later one of Bob for the same parameter are approved. -/
def approvedPetitions : List GovernanceOp :=
  [.call (petition alice 50), .call (.submit bob laterId [] [] [.updateParam .maxValidators 60] 0),
    .call (.setStatus firstId .approved), .call (.setStatus laterId .approved)]

def approvedState : StateMachine := valueD ((new endowed).govern approvedPetitions) (new [])

theorem approvedPetitions_computed : Returns ((new endowed).govern approvedPetitions) ∧
    approvedState.approvedValue .maxValidators firstId = some 50 ∧
    approvedState.approvedValue .maxValidators laterId = some 60 := by decide

theorem laterId_apart : RecordsApart {firstId, laterId} {alice, bob} := by decide

/-- Named in either order, and once or twice, the two are executed alike, and Bob's value stays. -/
theorem approvedPetition_canonical : (new endowed).govern approvedPetitions = .ok approvedState ∧
    approvedState.executeApproved [laterId, firstId, laterId] =
      approvedState.executeApproved [firstId, laterId] ∧
    (approvedState.executeApproved [laterId, firstId, laterId]).2.governanceGet
      (paramKey .maxValidators) = some (Codec.u256.encode 60) := by
  obtain ⟨returns, early, late⟩ := approvedPetitions_computed
  have within : ∀ proposalId ∈ [laterId, firstId, laterId],
      proposalId ∈ ({firstId, laterId} : Finset Digest) := by decide
  have members : ∀ proposalId,
      proposalId ∈ [laterId, firstId, laterId] ↔ proposalId ∈ [firstId, laterId] := by simp [or_comm]
  obtain ⟨same, -, params⟩ := execution_canonical (s := approvedState) laterId_apart within members
  refine ⟨returns.eq_ok (new []), same, ?_⟩
  rcases params .maxValidators with ⟨proposalId, listed, value, own, greatest, stored⟩ | ⟨nothing, -⟩
  · obtain rfl | rfl : proposalId = firstId ∨ proposalId = laterId := by
      simpa using (members proposalId).mp listed
    · -- the greater id has a value
      have above := greatest laterId List.mem_cons_self (by rw [late]; rfl)
      exact absurd above (by decide)
    · rw [late] at own
      cases own
      exact stored
  · rw [nothing laterId List.mem_cons_self] at late
    cases late

end Sample

end StateMachine

end Mononium
