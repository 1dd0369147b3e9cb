import Mononium.Governance.Bounds

/-! What may happen to a proposal while it is active. Nobody looks whether the id of a
submission is taken, and votes are stored under the id alone. -/
namespace Mononium

open Rust Scale

namespace StateMachine

section

variable [Blake3] {I : Finset Digest} {A : Finset Address} {s t : StateMachine} {r : Result Unit}
  {c : GovernanceCall} {calls : List GovernanceCall}

def IsActive (s : StateMachine) (proposalId : Digest) : Prop :=
  ∃ p, s.getProposal proposalId = some p ∧ p.status = .active

/-- The call leaves every active proposal as it is, but that its own proposer may cancel it
and that its status may be set. -/
def Preserves (I : Finset Digest) (s : StateMachine) (c : GovernanceCall) : Prop :=
  ∀ r t, s.call c = .ok (r, t) → ∀ proposalId ∈ I, ∀ p, s.getProposal proposalId = some p →
    p.status = .active → t.getProposal proposalId = some p ∨
      (c = .cancel proposalId p.proposer ∧
        t.getProposal proposalId = some { p with status := .cancelled }) ∨
      ∃ status, c = .setStatus proposalId status ∧ t.getProposal proposalId = some { p with status }

/-- The call is a submission that is accepted, under the id of an active proposal from which it
differs. -/
def TakesOver (s : StateMachine) : GovernanceCall → Prop
  | .submit proposer proposalId title description actions currentEra =>
    s.Admits proposer title description actions ∧ ∃ p, s.getProposal proposalId = some p ∧
      p.status = .active ∧ p ≠ ⟨proposalId, proposer, title, description, actions, proposalDeposit,
        currentEra, .active⟩
  | _ => False

theorem preserves_iff (apart : RecordsApart I A) (within : c.Within I A) (h : s.call c = .ok (r, t)) :
    s.Preserves I c ↔ ¬s.TakesOver c := by
  constructor
  · intro preserves takes
    cases c with
    | submit proposer proposalId title description actions currentEra =>
      obtain ⟨admits, p, found, active, different⟩ := takes
      rcases call_cases apart within h with ⟨refused, -, -⟩ | ⟨-, accepted⟩
      · exact refused admits
      cases accepted with
      | submits q made _ fits =>
        have stored := counted_getProposal (s := s) (n := s.proposerActiveCount proposer)
          (m := s.globalActiveCount) raised_own apart within.1 within.2 within.1 fits
        rw [if_pos rfl] at stored
        rcases preserves _ _ h proposalId within.1 p found active with same | ⟨other, -⟩ | ⟨_, other, -⟩
        · cases stored.symm.trans same
          exact different made
        · cases other
        · cases other
    | _ => exact takes
  · intro keeps r' t' again proposalId member p found active
    cases h.symm.trans again
    rcases call_cases apart within h with ⟨-, -, rfl⟩ | ⟨-, accepted⟩
    · exact .inl found
    have revision := accepted.revision apart within member
    generalize t.getProposal proposalId = after at revision ⊢
    cases revision with
    | kept same => exact .inl (same.trans found)
    | submitted admits =>
      refine .inl (congrArg some ?_)
      by_contra different
      exact keeps ⟨admits, p, found, active, fun same => different same.symm⟩
    | cancelled before _ =>
      cases found.symm.trans before
      exact .inr (.inl ⟨rfl, rfl⟩)
    | marked before =>
      cases found.symm.trans before
      exact .inr (.inr ⟨_, rfl, rfl⟩)

theorem getProposal_of_stays_active {proposalId : Digest} {p : Proposal} (member : proposalId ∈ I)
    (preserves : s.Throughout (Preserves I) calls) (found : s.getProposal proposalId = some p)
    (stays : s.Throughout (fun u _ => u.IsActive proposalId) calls) (ends : t.IsActive proposalId)
    (ran : s.callAll calls = .ok t) : t.getProposal proposalId = some p := by
  induction calls generalizing s with
  | nil =>
    cases ran
    exact found
  | cons c calls ih =>
    obtain ⟨r, m, called, rest⟩ := callAll_cons.mp ran
    obtain ⟨step, later⟩ := (throughout_cons called).mp preserves
    obtain ⟨⟨q, same, active⟩, onward⟩ := (throughout_cons called).mp stays
    cases found.symm.trans same
    have next : m.IsActive proposalId := by
      cases calls with
      | nil =>
        cases rest
        exact ends
      | cons d calls => exact onward.1
    obtain ⟨q, stored, open_⟩ := next
    apply ih later ?_ onward rest
    rcases step r m called proposalId member p found active with kept | ⟨-, cancelled⟩ | ⟨status, -, marked⟩
    · exact kept
    · cases stored.symm.trans cancelled
      cases open_
    · cases stored.symm.trans marked
      cases (open_ : status = .active)
      rw [marked, ← active]

/-- Along every run of calls, active proposals are preserved exactly if no accepted submission
under the id of one differs from it; then a proposal that stays active stays what it is. -/
theorem proposals_immutable_iff (apart : RecordsApart I A) (within : ∀ c ∈ calls, c.Within I A)
    (ran : s.callAll calls = .ok t) :
    (s.Throughout (Preserves I) calls ↔ s.Throughout (fun u c => ¬u.TakesOver c) calls) ∧
    (s.Throughout (fun u c => ¬u.TakesOver c) calls → ∀ proposalId ∈ I, ∀ p,
      s.getProposal proposalId = some p →
      s.Throughout (fun u _ => u.IsActive proposalId) calls → t.IsActive proposalId →
      t.getProposal proposalId = some p) := by
  have law : s.Throughout (Preserves I) calls ↔ s.Throughout (fun u c => ¬u.TakesOver c) calls :=
    throughout_congr (fun _ => True) trivial (fun _ _ _ _ _ _ _ => trivial)
      (fun _ _ _ c member _ called => preserves_iff apart (within c member) called) ran
  refine ⟨law, fun keeps proposalId member p found stays ends => ?_⟩
  exact getProposal_of_stays_active member (law.mpr keeps) found stays ends ran

end

section Sample

attribute [local instance] foldedBlake3

set_option maxRecDepth 2048

def takenOver : StateMachine := (valueD (submitted.call (petition bob 60)) (.ok (), submitted)).2

/-- Bob's proposal takes the place of Alice's, and both are active. -/
theorem petition_taken_over : RecordsApart {firstId} {alice, bob} ∧
    submitted.call (petition bob 60) = .ok (.ok (), takenOver) ∧
    submitted.getProposal firstId =
      some ⟨firstId, alice, [], [], [.updateParam .maxValidators 50], proposalDeposit, 0, .active⟩ ∧
    takenOver.getProposal firstId =
      some ⟨firstId, bob, [], [], [.updateParam .maxValidators 60], proposalDeposit, 0, .active⟩ := by
  have computed : Returns (submitted.call (petition bob 60)) ∧
      (valueD (submitted.call (petition bob 60)) (.ok (), submitted)).1 = .ok () ∧
      submitted.getProposal firstId =
        some ⟨firstId, alice, [], [], [.updateParam .maxValidators 50], proposalDeposit, 0, .active⟩ ∧
      takenOver.getProposal firstId =
        some ⟨firstId, bob, [], [], [.updateParam .maxValidators 60], proposalDeposit, 0, .active⟩ := by
    decide
  obtain ⟨returns, accepted, stored⟩ := computed
  exact ⟨firstId_apart, call_eq_ok returns accepted, stored⟩

theorem cancellation_computed : Returns (submitted.callAll [.cancel firstId alice]) := by decide

theorem cancellation_preserves : submitted.Throughout (Preserves {firstId}) [.cancel firstId alice] := by
  have ran := cancellation_computed.eq_ok submitted
  have within : ∀ c ∈ [GovernanceCall.cancel firstId alice], c.Within {firstId} {alice, bob} :=
    List.forall_mem_singleton.mpr ⟨Finset.mem_singleton_self firstId, by decide⟩
  exact (proposals_immutable_iff firstId_apart within ran).1.mpr ⟨id, fun _ _ _ => trivial⟩

end Sample

end StateMachine

end Mononium
