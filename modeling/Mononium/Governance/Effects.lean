import Mononium.Governance.Calls

/-! What a call of the governance engine leaves alone. -/
namespace Mononium

open Rust Scale

namespace StateMachine

section

variable [Blake3] {I : Finset Digest} {A : Finset Address} {s t : StateMachine} {r : Result Unit}
  {c : GovernanceCall}

/-- The records of a call. An execution has those of the parameters that the approved
proposals among its ids name. -/
def Owns (s : StateMachine) : GovernanceCall → GovKey → Prop
  | .submit proposer proposalId _ _ _ _, k | .cancel proposalId proposer, k =>
    k = .proposal proposalId ∨ k = .proposerCount proposer ∨ k = .globalCount
  | .vote proposalId voter _ _ _, k => k = .vote proposalId voter
  | .tally _, _ => False
  | .execute proposalIds, k => ∃ proposalId ∈ proposalIds, ∃ p, s.getProposal proposalId = some p ∧
    p.status = .approved ∧ ∃ param newValue, .updateParam param newValue ∈ p.actions ∧ k = .param param
  | .setStatus proposalId _, k => k = .proposal proposalId

theorem mem_approvedActions {proposalId : Digest} {action : GovernanceAction}
    (member : action ∈ s.approvedActions proposalId) :
    ∃ p, s.getProposal proposalId = some p ∧ p.status = .approved ∧ action ∈ p.actions := by
  unfold approvedActions at member
  split at member
  next => cases member
  next p found =>
    split at member
    next => cases member
    next approved => exact ⟨p, found, not_not.mp approved, member⟩

theorem mem_executedWrites {proposalIds : List Digest} {write : GovKey × Bytes}
    (member : write ∈ s.executedWrites proposalIds) : ∃ proposalId ∈ proposalIds, ∃ p,
      s.getProposal proposalId = some p ∧ p.status = .approved ∧ ∃ param newValue,
        .updateParam param newValue ∈ p.actions ∧ write = (.param param, Codec.u256.encode newValue) := by
  obtain ⟨param, newValue, listed, rfl⟩ := actionWrites_param member
  obtain ⟨proposalId, sorted, here⟩ := List.mem_flatMap.mp listed
  obtain ⟨p, found, approved, named⟩ := mem_approvedActions here
  exact ⟨proposalId, (List.perm_insertionSort _ _).mem_iff.mp sorted, p, found, approved, param,
    newValue, named, rfl⟩

/-- An accepted call writes to its own records. -/
theorem Accepted.writes (accepted : Accepted s c t) (within : c.Within I A) :
    ∃ writes, t = s.writeRecords writes ∧ ∀ write ∈ writes, write.1.Within I A ∧ s.Owns c write.1 := by
  cases accepted with
  | submits p _ _ _ =>
    refine ⟨_, rfl, fun write member => ?_⟩
    rcases List.mem_cons.mp member with rfl | member
    · exact ⟨within.1, .inl rfl⟩
    rcases List.mem_append.mp member with member | member
    · rw [raised_own _ _ _ member]
      exact ⟨within.2, .inr (.inl rfl)⟩
    · rw [raised_own _ _ _ member]
      exact ⟨trivial, .inr (.inr rfl)⟩
  | votes =>
    refine ⟨_, rfl, fun write member => ?_⟩
    cases List.mem_singleton.mp member
    exact ⟨within, rfl⟩
  | cancels =>
    refine ⟨_, rfl, fun write member => ?_⟩
    rcases List.mem_cons.mp member with rfl | member
    · exact ⟨within.1, .inl rfl⟩
    rcases List.mem_append.mp member with member | member
    · rw [lowered_own _ _ _ member]
      exact ⟨within.2, .inr (.inl rfl)⟩
    · rw [lowered_own _ _ _ member]
      exact ⟨trivial, .inr (.inr rfl)⟩
  | tallies | skips _ => exact ⟨[], rfl, by simp⟩
  | executes =>
    refine ⟨_, rfl, fun write member => ?_⟩
    obtain ⟨proposalId, listed, p, found, approved, param, newValue, named, rfl⟩ :=
      mem_executedWrites member
    exact ⟨trivial, proposalId, listed, p, found, approved, param, newValue, named, rfl⟩
  | marks =>
    refine ⟨_, rfl, fun write member => ?_⟩
    cases List.mem_singleton.mp member
    exact ⟨within, rfl⟩

/-- The call changes the store at the keys of its own records only. -/
theorem call_framed (apart : RecordsApart I A) (within : c.Within I A) (h : s.call c = .ok (r, t)) :
    Framed A ((recordKeys I A).image GovKey.subKey)
      {key | ∃ k, s.Owns c k ∧ key = governanceKey k.subKey} ∅ s t := by
  rcases call_cases apart within h with ⟨-, -, rfl⟩ | ⟨-, accepted⟩
  · exact .refl t
  · obtain ⟨writes, rfl, own⟩ := accepted.writes within
    have framed : Framed A _ (writtenKeys writes) ∅ s (s.writeRecords writes) :=
      writeRecords_framed apart fun write member => (own write member).1
    refine framed.mono ?_ (Set.Subset.refl _)
    rintro _ ⟨write, member, rfl⟩
    exact ⟨write.1, (own write member).2, rfl⟩

theorem call_record (apart : RecordsApart I A) (within : c.Within I A) (h : s.call c = .ok (r, t))
    {k : GovKey} (hk : k.Within I A) (foreign : ¬s.Owns c k) : t.record k = s.record k := by
  apply (call_framed apart within h).kept _ (mem_storeKeys_record hk)
  rintro ⟨own, owned, same⟩
  exact foreign (GovKey.subKey_injective (governanceKey_injective same) ▸ owned)

theorem call_account_kept (apart : RecordsApart I A) (within : c.Within I A)
    (h : s.call c = .ok (r, t)) {a : Address} (ha : a ∈ A) :
    t.state.get (accountKey a) = s.state.get (accountKey a) := by
  apply (call_framed apart within h).kept _ (mem_storeKeys_account ha)
  rintro ⟨k, -, same⟩
  exact accountKey_ne_governanceKey a _ same

theorem call_getAccount (apart : RecordsApart I A) (within : c.Within I A)
    (h : s.call c = .ok (r, t)) {a : Address} (ha : a ∈ A) : t.getAccount a = s.getAccount a := by
  rw [getAccount, getAccount, call_account_kept apart within h ha]

theorem call_getValidator (apart : RecordsApart I A) (within : c.Within I A)
    (h : s.call c = .ok (r, t)) {a : Address} (ha : a ∈ A) : t.getValidator a = s.getValidator a := by
  have kept : t.state.get (validatorKey a) = s.state.get (validatorKey a) := by
    apply (call_framed apart within h).kept _ (mem_storeKeys_validator ha)
    rintro ⟨k, -, same⟩
    exact validatorKey_ne_governanceKey a _ same
  rw [getValidator, getValidator, kept]

theorem getProposal_of_record {proposalId : Digest} {p : Proposal}
    (stored : s.record (.proposal proposalId) = some (Codec.proposal.encode p))
    (fits : Codec.proposal.fits p = true) : s.getProposal proposalId = some p := by
  have found : s.governanceGet (propKey proposalId) = some (Codec.proposal.encode p) := stored
  simp [getProposal, found, Codec.decode_encode_nil _ fits]

/-- The first write is of a proposal, and the others are not. -/
theorem getProposal_writeRecords {proposalId other : Digest} {p : Proposal}
    {writes : List (GovKey × Bytes)} (apart : RecordsApart I A) (hp : proposalId ∈ I) (ho : other ∈ I)
    (inside : ∀ write ∈ writes, write.1.Within I A)
    (plain : ∀ write ∈ writes, write.1 ≠ .proposal other) (fits : Codec.proposal.fits p = true) :
    (s.writeRecords ((.proposal proposalId, Codec.proposal.encode p) :: writes)).getProposal other =
      if other = proposalId then some p else s.getProposal other := by
  have all : ∀ write ∈ (.proposal proposalId, Codec.proposal.encode p) :: writes,
      write.1.Within I A := by
    intro write member
    rcases List.mem_cons.mp member with rfl | later
    · exact hp
    · exact inside write later
  have stored := record_writeRecords (s := s) apart all (k := .proposal other) ho
  rw [newest_cons, newest_of_forall_ne plain] at stored
  split
  next same =>
    subst same
    rw [if_pos rfl] at stored
    exact getProposal_of_record stored fits
  next different =>
    rw [if_neg (by simpa using fun same => different same.symm)] at stored
    exact getProposal_congr stored

theorem counted_getProposal {proposalId other : Digest} {proposer : Address} {p : Proposal} {n m : U64}
    {change : GovKey → U64 → List (GovKey × Bytes)}
    (own : ∀ k count, ∀ write ∈ change k count, write.1 = k) (apart : RecordsApart I A)
    (hI : proposalId ∈ I) (hA : proposer ∈ A) (ho : other ∈ I) (fits : Codec.proposal.fits p = true) :
    (s.writeRecords ((.proposal proposalId, Codec.proposal.encode p) ::
      (change (.proposerCount proposer) n ++ change .globalCount m))).getProposal other =
      if other = proposalId then some p else s.getProposal other := by
  refine getProposal_writeRecords apart hI ho (fun write member => ?_) (fun write member => ?_) fits
  · exact counted_inside [] own hI hA write (List.mem_cons_of_mem _ member)
  · rcases List.mem_append.mp member with member | member
    · rw [own _ _ write member]
      simp
    · rw [own _ _ write member]
      simp

/-- What a call can do to a stored proposal. -/
inductive Revision (s : StateMachine) (proposalId : Digest) : GovernanceCall → Option Proposal → Prop
  | kept {unrelated after} (same : after = s.getProposal proposalId) :
    Revision s proposalId unrelated after
  | submitted {proposer title description actions currentEra}
    (admits : s.Admits proposer title description actions) :
    Revision s proposalId (.submit proposer proposalId title description actions currentEra)
      (some ⟨proposalId, proposer, title, description, actions, proposalDeposit, currentEra, .active⟩)
  | cancelled {p} (found : s.getProposal proposalId = some p) (active : p.status = .active) :
    Revision s proposalId (.cancel proposalId p.proposer) (some { p with status := .cancelled })
  | marked {status p} (found : s.getProposal proposalId = some p) :
    Revision s proposalId (.setStatus proposalId status) (some { p with status })

theorem Accepted.revision (accepted : Accepted s c t) (apart : RecordsApart I A) (within : c.Within I A)
    {proposalId : Digest} (member : proposalId ∈ I) :
    Revision s proposalId c (t.getProposal proposalId) := by
  have idle {writes : List (GovKey × Bytes)} (inside : ∀ write ∈ writes, write.1.Within I A)
      (plain : ∀ write ∈ writes, write.1 ≠ .proposal proposalId) :
      (s.writeRecords writes).getProposal proposalId = s.getProposal proposalId :=
    getProposal_congr (record_writeRecords_of_ne apart inside member plain)
  cases accepted with
  | @submits proposer written title description actions currentEra p made admits fits =>
    rw [counted_getProposal raised_own apart within.1 within.2 member fits]
    split
    next same =>
      subst same made
      exact .submitted admits
    next => exact .kept rfl
  | votes =>
    rw [idle]
    · exact .kept rfl
    · exact List.forall_mem_singleton.mpr within
    · simp
  | @cancels written caller p acct found own active account fits =>
    rw [counted_getProposal lowered_own apart within.1 within.2 member fits]
    split
    next same =>
      subst same own
      exact .cancelled found active
    next => exact .kept rfl
  | tallies | skips _ => exact .kept rfl
  | executes =>
    rw [idle]
    · exact .kept rfl
    · intro write here
      obtain ⟨_, -, _, -, -, param, newValue, -, rfl⟩ := mem_executedWrites here
      trivial
    · intro write here
      obtain ⟨_, -, _, -, -, param, newValue, -, rfl⟩ := mem_executedWrites here
      simp
  | @marks written status p found fits =>
    rw [getProposal_writeRecords apart within member (by simp) (by simp) fits]
    split
    next same =>
      subst same
      exact .marked found
    next => exact .kept rfl

/-- A parameter holds what it held, or the value that an action of a stored proposal names. -/
theorem call_param (apart : RecordsApart I A) (within : c.Within I A) (h : s.call c = .ok (r, t))
    {param : GovernanceParam} {bytes : Bytes} (stored : t.record (.param param) = some bytes) :
    s.record (.param param) = some bytes ∨
    ∃ proposalId ∈ I, ∃ p newValue, s.getProposal proposalId = some p ∧
      .updateParam param newValue ∈ p.actions ∧ bytes = Codec.u256.encode newValue := by
  have hk : (GovKey.param param).Within I A := trivial
  cases c with
  | execute proposalIds =>
    rcases call_cases apart within h with ⟨-, -, rfl⟩ | ⟨-, accepted⟩
    · exact .inl stored
    cases accepted
    rw [record_writeRecords apart ?_ hk] at stored
    · rcases newest_eq_some stored with written | before
      · obtain ⟨proposalId, listed, p, found, -, other, newValue, named, same⟩ :=
          mem_executedWrites written
        cases same
        exact .inr ⟨proposalId, within proposalId listed, p, newValue, found, named, rfl⟩
      · exact .inl before
    · intro write member
      obtain ⟨_, -, _, -, -, _, _, -, rfl⟩ := mem_executedWrites member
      trivial
  | _ =>
    refine .inl ?_
    rw [← call_record apart within h hk (by simp [Owns])]
    exact stored

/-- No two governance records share a key. A call changes its own records and nothing else:
no account, no validator entry, not the active set. A vote that is accepted holds the stake of
the voter. -/
theorem call_effects (apart : RecordsApart I A) (within : c.Within I A) (h : s.call c = .ok (r, t)) :
    Function.Injective GovKey.subKey ∧
    (∀ k : GovKey, k.Within I A → ¬s.Owns c k →
      t.governanceGet k.subKey = s.governanceGet k.subKey) ∧
    (∀ a ∈ A, t.getAccount a = s.getAccount a ∧ t.getValidator a = s.getValidator a) ∧
    t.activeSet = s.activeSet ∧
    ∀ proposalId voter approve currentEra blockHeight,
      c = .vote proposalId voter approve currentEra blockHeight → r = .ok () →
      ∃ e, s.getValidator voter = some e ∧ 0 < e.stake.toNat ∧
        t.governanceGet (voteKey proposalId voter) = some (Codec.governanceVote.encode
          ⟨proposalId, voter, approve, e.stake, blockHeight⟩) := by
  refine ⟨GovKey.subKey_injective, fun k hk foreign => call_record apart within h hk foreign, ?_,
    (call_framed apart within h).activeSet, ?_⟩
  · exact fun a ha => ⟨call_getAccount apart within h ha, call_getValidator apart within h ha⟩
  · rintro proposalId voter approve currentEra blockHeight rfl rfl
    rcases call_cases apart within h with ⟨-, ⟨e, impossible⟩, -⟩ | ⟨-, accepted⟩
    · cases impossible
    cases accepted with
    | @votes _ _ _ _ _ p e _ _ _ _ entry staked =>
      refine ⟨e, entry, ?_, ?_⟩
      · exact Nat.pos_of_ne_zero fun zero => staked (BitVec.eq_of_toNat_eq zero)
      · have written : (s.writeRecords [(.vote proposalId voter, Codec.governanceVote.encode
            ⟨proposalId, voter, approve, e.stake, blockHeight⟩)]).record (.vote proposalId voter) = _ :=
          record_governanceInsert apart within within
        rwa [if_pos rfl] at written

end

section Sample

attribute [local instance] foldedBlake3

set_option maxRecDepth 4096

def petitioned : StateMachine :=
  (valueD (((new endowed).setValidator bob
    ⟨bob, FixedBytes.replicate 897 0x42, 1000 * oneMonex, .active, 0⟩).call (petition alice 50))
      (.ok (), new [])).2

def ballot : GovernanceCall := .vote firstId bob true 0 100

theorem ballot_computed : Returns (petitioned.call ballot) ∧
    (valueD (petitioned.call ballot) (.ok (), petitioned)).1 = .ok () := by decide

/-- The vote leaves the proposal, the counters and Bob's account alone, and has Bob's stake as
its weight. -/
theorem ballot_effects : ∃ t e, petitioned.call ballot = .ok (.ok (), t) ∧
    t.governanceGet (propKey firstId) = petitioned.governanceGet (propKey firstId) ∧
    t.governanceGet govActiveCount = petitioned.governanceGet govActiveCount ∧
    t.getAccount bob = petitioned.getAccount bob ∧ petitioned.getValidator bob = some e ∧
    t.governanceGet (voteKey firstId bob) = some (Codec.governanceVote.encode
      ⟨firstId, bob, true, e.stake, 100⟩) := by
  obtain ⟨returns, accepted⟩ := ballot_computed
  have cast := call_eq_ok returns accepted
  have within : ballot.Within {firstId} {alice, bob} := ⟨Finset.mem_singleton_self firstId, by decide⟩
  obtain ⟨-, records, people, -, vote⟩ := call_effects firstId_apart within cast
  obtain ⟨e, entry, -, stored⟩ := vote firstId bob true 0 100 rfl rfl
  have proposal := records (.proposal firstId) (Finset.mem_singleton_self firstId)
    (fun own => by cases own)
  have total := records .globalCount trivial (fun own => by cases own)
  exact ⟨_, e, cast, proposal, total, (people bob (by decide)).1, entry, stored⟩

end Sample

end StateMachine

end Mononium
