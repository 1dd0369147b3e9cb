import Mononium.Governance.Counters

/-! The deposits of proposals. A submission takes its deposit from a copy of the proposer's
account and a cancellation returns it to one, and neither copy is written back. -/
namespace Mononium

open Rust Scale

theorem proposalDeposit_ne_zero : proposalDeposit ≠ 0 := by decide

namespace StateMachine

section

variable [Blake3] {I : Finset Digest} {A : Finset Address} {s t : StateMachine} {r : Result Unit}
  {c : GovernanceCall} {calls : List GovernanceCall}

/-- The call would move a deposit: it is a submission or a cancellation that is accepted. -/
def MovesDeposit (s : StateMachine) : GovernanceCall → Prop
  | .submit proposer _ title description actions _ => s.Admits proposer title description actions
  | .cancel proposalId caller => s.Passes (.cancel proposalId caller)
  | _ => False

def Moved (s t : StateMachine) : GovernanceCall → Prop
  | .submit proposer _ _ _ _ _ => t.balance proposer + proposalDeposit.toNat = s.balance proposer
  | .cancel proposalId caller => ∃ p, s.getProposal proposalId = some p ∧
    t.balance caller = s.balance caller + p.deposit.toNat
  | _ => True

/-- A call that succeeds moves its deposit, and one that fails changes nothing. -/
def Escrows (s : StateMachine) (c : GovernanceCall) : Prop :=
  ∀ r t, s.call c = .ok (r, t) → (r = .ok () → s.Moved t c) ∧ ((∃ e, r = .error e) → t = s)

/-- Every stored proposal has a deposit. -/
def Funded (I : Finset Digest) (s : StateMachine) : Prop :=
  ∀ proposalId ∈ I, ∀ p, s.getProposal proposalId = some p → p.deposit ≠ 0

/-- What the accounts hold, and the deposits of the active proposals. -/
def escrow (I : Finset Digest) (A : Finset Address) (s : StateMachine) : Nat :=
  ∑ a ∈ A, s.balance a + proposalDeposit.toNat * activeProposals I s

theorem call_balance (apart : RecordsApart I A) (within : c.Within I A) (h : s.call c = .ok (r, t))
    {a : Address} (ha : a ∈ A) : t.balance a = s.balance a :=
  balance_congr (call_account_kept apart within h ha)

/-- A submission records the deposit, and no change of status affects it. -/
theorem Funded.call (funded : Funded I s) (apart : RecordsApart I A) (within : c.Within I A)
    (h : s.call c = .ok (r, t)) : Funded I t := by
  intro proposalId member p present
  rcases call_cases apart within h with ⟨-, -, rfl⟩ | ⟨-, accepted⟩
  · exact funded proposalId member p present
  have revision := accepted.revision apart within member
  rw [present] at revision
  cases revision with
  | kept same => exact funded proposalId member p same.symm
  | submitted _ => exact proposalDeposit_ne_zero
  | cancelled found _ | marked found =>
    have before := funded proposalId member _ found
    exact before

/-- No balance ever changes, so a call escrows only if it has nothing to move. -/
theorem Escrows.still (escrows : s.Escrows c) (funded : Funded I s) (apart : RecordsApart I A)
    (within : c.Within I A) (h : s.call c = .ok (r, t)) : ¬s.MovesDeposit c := by
  intro moves
  obtain ⟨moved, -⟩ := escrows r t h
  rcases call_cases apart within h with ⟨refused, -, -⟩ | ⟨accepted, -⟩
  · cases c with
    | submit | cancel => exact refused moves
    | _ => exact moves
  cases c with
  | submit proposer proposalId title description actions currentEra =>
    have taken : t.balance proposer + proposalDeposit.toNat = s.balance proposer := moved accepted
    rw [call_balance apart within h within.2, Nat.add_eq_left] at taken
    exact proposalDeposit_ne_zero (BitVec.eq_of_toNat_eq taken)
  | cancel proposalId caller =>
    obtain ⟨p, found, returned⟩ : ∃ p, s.getProposal proposalId = some p ∧
      t.balance caller = s.balance caller + p.deposit.toNat := moved accepted
    rw [call_balance apart within h within.2, Nat.left_eq_add] at returned
    exact funded proposalId within.1 p found (BitVec.eq_of_toNat_eq returned)
  | _ => exact moves

theorem escrows_of_still (still : ¬s.MovesDeposit c) (apart : RecordsApart I A)
    (within : c.Within I A) : s.Escrows c := by
  intro r t h
  rcases call_cases apart within h with ⟨-, ⟨e, rfl⟩, same⟩ | ⟨rfl, accepted⟩
  · refine ⟨fun succeeded => ?_, fun _ => same⟩
    cases succeeded
  · refine ⟨fun _ => ?_, fun ⟨e, failed⟩ => ?_⟩
    · cases c with
      | submit | cancel => exact absurd accepted.passes still
      | _ => trivial
    · cases failed

/-- Where no deposit is to be moved, no proposal changes either. -/
theorem call_proposals_kept (apart : RecordsApart I A) (within : c.Within I A) (user : c.OfUser)
    (still : ¬s.MovesDeposit c) (h : s.call c = .ok (r, t)) {proposalId : Digest}
    (member : proposalId ∈ I) : t.getProposal proposalId = s.getProposal proposalId := by
  rcases call_cases apart within h with ⟨-, -, rfl⟩ | ⟨-, accepted⟩
  · rfl
  have passes := accepted.passes
  have revision := accepted.revision apart within member
  generalize t.getProposal proposalId = after at revision ⊢
  cases revision with
  | kept same => exact same
  | submitted _ | cancelled _ _ => exact absurd passes still
  | marked _ => cases user

theorem callAll_balance (apart : RecordsApart I A) (within : ∀ c ∈ calls, c.Within I A)
    (ran : s.callAll calls = .ok t) {a : Address} (ha : a ∈ A) : t.balance a = s.balance a := by
  induction calls generalizing s with
  | nil =>
    cases ran
    rfl
  | cons c calls ih =>
    obtain ⟨r, m, called, rest⟩ := callAll_cons.mp ran
    rw [ih (fun c member => within c (List.mem_cons_of_mem _ member)) rest,
      call_balance apart (within c List.mem_cons_self) called ha]

theorem callAll_activeProposals (apart : RecordsApart I A) (within : ∀ c ∈ calls, c.Within I A)
    (user : ∀ c ∈ calls, c.OfUser) (still : s.Throughout (fun u c => ¬u.MovesDeposit c) calls)
    (ran : s.callAll calls = .ok t) : activeProposals I t = activeProposals I s := by
  induction calls generalizing s with
  | nil =>
    cases ran
    rfl
  | cons c calls ih =>
    obtain ⟨r, m, called, rest⟩ := callAll_cons.mp ran
    obtain ⟨here, later⟩ := (throughout_cons called).mp still
    have kept : activeProposals I m = activeProposals I s :=
      standing_congr fun proposalId member => call_proposals_kept apart (within c List.mem_cons_self)
        (user c List.mem_cons_self) here called member
    rw [ih (fun c member => within c (List.mem_cons_of_mem _ member))
      (fun c member => user c (List.mem_cons_of_mem _ member)) later rest, kept]

/-- Along a run of user calls in which no submission and no cancellation is accepted, deposits
are escrowed, and balances and deposits add up to what they did. They are escrowed in no other
run from a state whose proposals have deposits. In any run the sum stays exactly if as many
proposals are active as before. -/
theorem deposits_escrowed_iff (apart : RecordsApart I A) (within : ∀ c ∈ calls, c.Within I A)
    (user : ∀ c ∈ calls, c.OfUser) (ran : s.callAll calls = .ok t) :
    (s.Throughout (fun u c => ¬u.MovesDeposit c) calls →
      s.Throughout Escrows calls ∧ escrow I A t = escrow I A s) ∧
    (Funded I s → s.Throughout Escrows calls → s.Throughout (fun u c => ¬u.MovesDeposit c) calls) ∧
    (escrow I A t = escrow I A s ↔ activeProposals I t = activeProposals I s) := by
  have sums : ∑ a ∈ A, t.balance a = ∑ a ∈ A, s.balance a :=
    Finset.sum_congr rfl fun a ha => callAll_balance apart within ran ha
  have adds : escrow I A t = escrow I A s ↔ activeProposals I t = activeProposals I s := by
    have positive : proposalDeposit.toNat ≠ 0 := fun zero =>
      proposalDeposit_ne_zero (BitVec.eq_of_toNat_eq zero)
    rw [escrow, escrow, sums, Nat.add_left_cancel_iff]
    exact Nat.mul_right_inj positive
  refine ⟨fun still => ⟨?_, adds.mpr (callAll_activeProposals apart within user still ran)⟩, ?_, adds⟩
  · exact still.mono fun u c member here => escrows_of_still here apart (within c member)
  · intro funded escrows
    refine (throughout_congr (Funded I) funded ?_ ?_ ran).mp escrows
    · exact fun u r m c member funded called => funded.call apart (within c member) called
    · intro u r m c member funded called
      exact ⟨fun escrows => escrows.still funded apart (within c member) called,
        fun still => escrows_of_still still apart (within c member)⟩

end

section Sample

attribute [local instance] foldedBlake3

set_option maxRecDepth 2048

/-- Alice's submission is accepted, and her balance stays: the sum is off by her deposit. -/
theorem petition_unpaid : RecordsApart {firstId} {alice, bob} ∧
    (new endowed).call (petition alice 50) = .ok (.ok (), submitted) ∧
    submitted.balance alice = (new endowed).balance alice ∧
    escrow {firstId} {alice, bob} submitted =
      escrow {firstId} {alice, bob} (new endowed) + proposalDeposit.toNat := by
  have computed : submitted.balance alice = (new endowed).balance alice ∧
      escrow {firstId} {alice, bob} submitted =
        escrow {firstId} {alice, bob} (new endowed) + proposalDeposit.toNat := by decide
  exact ⟨firstId_apart, submitted_eq, computed⟩

def refusals : List GovernanceCall := [.vote firstId bob true 0 100, .cancel firstId bob]

theorem refusals_computed : Returns ((new endowed).callAll refusals) := by decide

theorem refusals_escrowed : ∃ t, (new endowed).callAll refusals = .ok t ∧
    (new endowed).Throughout Escrows refusals ∧
    escrow {firstId} {alice, bob} t = escrow {firstId} {alice, bob} (new endowed) := by
  have ran := refusals_computed.eq_ok (new [])
  have within : ∀ c ∈ refusals, c.Within {firstId} {alice, bob} := by
    simp [refusals, GovernanceCall.Within]
  have user : ∀ c ∈ refusals, c.OfUser := by simp [refusals, GovernanceCall.OfUser]
  obtain ⟨law, -⟩ := deposits_escrowed_iff firstId_apart within user ran
  have still : (new endowed).Throughout (fun u c => ¬u.MovesDeposit c) refusals := by
    refine ⟨id, fun r m voted => ⟨?_, fun _ _ _ => trivial⟩⟩
    rintro ⟨p, found, -⟩
    have same : m.record (.proposal firstId) = (new endowed).record (.proposal firstId) :=
      call_record firstId_apart (within _ List.mem_cons_self) voted
        (Finset.mem_singleton_self firstId) (by simp [Owns])
    rw [getProposal_congr same,
      getProposal_new firstId_apart endowed_within (Finset.mem_singleton_self firstId)] at found
    cases found
  exact ⟨_, ran, law still⟩

end Sample

end StateMachine

end Mononium
