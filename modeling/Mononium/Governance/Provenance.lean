import Mononium.Governance.Board

/-! Where votes and parameters come from. A vote that is stored is the last that its voter has cast;
a parameter that is set was proposed, approved and executed, in this order, and nothing but the
status of a proposal can approve it. -/
namespace Mononium

open Rust Scale

def Proposal.submission (p : Proposal) : GovernanceCall :=
  .submit p.proposer p.proposalId p.title p.description p.actions p.submissionEra

def GovernanceCall.voteOn (proposalId : Digest) (voter : Address) (stake : U256) :
    GovernanceCall → Option Governance.Vote
  | .vote named caller approve _ blockHeight =>
    if named = proposalId ∧ caller = voter then
      some ⟨named, caller, approve, stake, blockHeight⟩ else none
  | _ => none

namespace StateMachine

section

variable [Blake3] {I : Finset Digest} {A : Finset Address} {s t : StateMachine} {proposalId : Digest}
  {voter : Address} {param : GovernanceParam} {deeds : List Deed}

/-- The call that is made, if it is accepted. -/
def verdict (s : StateMachine) : Deed → Option GovernanceCall
  | .op _ => none
  | .call c =>
    match s.call c with
    | .ok (.ok (), _) => some c
    | _ => none

def cast (proposalId : Digest) (voter : Address) (s : StateMachine) (d : Deed) : Option Governance.Vote :=
  (s.verdict d).bind (GovernanceCall.voteOn proposalId voter (s.means.stake voter))

def executedValue (s : StateMachine) (param : GovernanceParam) : GovernanceCall → Option U256
  | .execute proposalIds => (proposalIds.insertionSort hashOrder).foldl
      (fun found proposalId => (s.approvedValue param proposalId).or found) none
  | _ => none

/-- The value that an accepted call sets the parameter to. -/
def imposed (param : GovernanceParam) (s : StateMachine) (d : Deed) : Option U256 :=
  (s.verdict d).bind (s.executedValue param)

def board (s : StateMachine) : Board where
  proposals := s.getProposal
  ballots := s.storedVote
  params := s.paramValue
  own a := (s.proposerActiveCount a).toNat
  total := s.globalActiveCount.toNat

theorem shows_board (s : StateMachine) : Shows I A s s.board :=
  ⟨fun _ _ => rfl, fun _ _ _ _ => rfl, fun _ => rfl, fun _ _ => rfl, rfl⟩

/-- An operation has no verdict and leaves the records; a call has one exactly if it is accepted. -/
theorem perform_cases {d : Deed} (placed : Placed A s) (apart : RecordsApart I A)
    (within : d.Within I A) (h : s.perform d = .ok t) :
    Placed A t ∧
    ((s.verdict d = none ∧ ∀ k : GovKey, k.Within I A → t.record k = s.record k) ∨
      ∃ c, d = .call c ∧ s.verdict d = some c ∧ Accepted s c t) := by
  refine ⟨(s.shows_board.perform placed apart within h).1, ?_⟩
  cases d with
  | op op =>
    have touches := step_touches apart placed within h
    exact .inl ⟨rfl, fun k hk => touches.record apart hk⟩
  | call c =>
    obtain ⟨⟨r, m⟩, called, h⟩ := bind_eq_ok.mp h
    cases h
    rcases call_cases apart within called with ⟨-, ⟨e, rfl⟩, rfl⟩ | ⟨rfl, accepted⟩
    · exact .inl ⟨by simp [verdict, called], fun _ _ => rfl⟩
    · exact .inr ⟨c, rfl, by simp [verdict, called], accepted⟩

theorem perform_storedVote {d : Deed} (placed : Placed A s) (apart : RecordsApart I A)
    (within : d.Within I A) (h : s.perform d = .ok t) (hI : proposalId ∈ I) (hA : voter ∈ A) :
    t.storedVote proposalId voter = (cast proposalId voter s d).or (s.storedVote proposalId voter) := by
  obtain ⟨-, ⟨idle, same⟩ | ⟨c, rfl, passed, accepted⟩⟩ := perform_cases placed apart within h
  · rw [cast, idle, storedVote_congr (same _ ⟨hI, hA⟩)]
    rfl
  · have shown := (accepted.shows s.shows_board apart within).ballots proposalId hI voter hA
    rw [shown, cast, passed, Option.bind_some]
    cases c with
    | vote named caller approve currentEra blockHeight =>
      simp only [Board.enact, board, GovernanceCall.voteOn, Function.update_apply]
      by_cases here : proposalId = named
      · subst here
        by_cases same : voter = caller
        · subst same
          simp
        · simp [Function.update_of_ne same, Ne.symm same]
      · simp [here, Ne.symm here]
    | _ => rfl

theorem perform_paramValue {d : Deed} (placed : Placed A s) (apart : RecordsApart I A)
    (within : d.Within I A) (h : s.perform d = .ok t) :
    t.paramValue param = (imposed param s d).or (s.paramValue param) := by
  obtain ⟨-, ⟨idle, same⟩ | ⟨c, rfl, passed, accepted⟩⟩ := perform_cases placed apart within h
  · rw [imposed, idle, paramValue_congr (same _ trivial)]
    rfl
  · have shown := (accepted.shows s.shows_board apart within).params param
    rw [shown, imposed, passed, Option.bind_some]
    cases c with
    | execute proposalIds => exact foldl_or_none _ _ _
    | _ => rfl

/-- In every run, a stored vote is the last that its voter has cast on the proposal, with the
stake of that time, and a parameter has the value that the last execution to name it has set. -/
theorem performAll_last_word {accounts : List (Address × Account)} (apart : RecordsApart I A)
    (genesis : ∀ p ∈ accounts, p.1 ∈ A) (within : ∀ d ∈ deeds, d.Within I A)
    (ran : (new accounts).performAll deeds = .ok t) :
    (∀ proposalId ∈ I, ∀ voter ∈ A, t.storedVote proposalId voter =
      (emissions perform (cast proposalId voter) (new accounts) deeds).getLast?) ∧
    ∀ param, t.paramValue param = (emissions perform (imposed param) (new accounts) deeds).getLast? := by
  have placed := new_placed apart genesis
  have empty : Shows I A (new accounts) Board.empty := new_shows apart genesis
  refine ⟨fun proposalId hI voter hA => ?_, fun param => ?_⟩
  · rw [foldlM_last (fun s => storedVote s proposalId voter) (Placed A) ?_ placed ran,
      empty.ballots proposalId hI voter hA]
    · exact Option.or_none
    · intro s d member t before stepped
      exact ⟨(perform_cases before apart (within d member) stepped).1,
        perform_storedVote before apart (within d member) stepped hI hA⟩
  · rw [foldlM_last (fun s => paramValue s param) (Placed A) ?_ placed ran,
      empty.params param]
    · exact Option.or_none
    · intro s d member t before stepped
      exact ⟨(perform_cases before apart (within d member) stepped).1,
        perform_paramValue before apart (within d member) stepped⟩

end

section Sample

attribute [local instance] foldedBlake3

def stakingBlock : Block := testBlock [⟨0, 0, bob, 100, .registerAndStake bob (10 ^ 32), dummySig⟩]

def polledEnactment : List Deed :=
  [.op (.block stakingBlock), .call (petition alice 50), .call (.vote firstId bob true 0 100),
    .call (.vote firstId bob false 0 101), .call (.setStatus firstId .approved), .call (.execute [firstId])]

theorem polledEnactment_computed : Returns ((new endowed).performAll polledEnactment) ∧
    (valueD ((new endowed).performAll polledEnactment) (new [])).storedVote firstId bob =
      some ⟨firstId, bob, false, 10 ^ 32, 101⟩ ∧
    (valueD ((new endowed).performAll polledEnactment) (new [])).paramValue .maxValidators = some 50 := by
  decide +kernel

/-- Bob's second vote is the one that is stored. -/
theorem polledEnactment_last_word : ∃ t, (new endowed).performAll polledEnactment = .ok t ∧
    t.storedVote firstId bob = some ⟨firstId, bob, false, 10 ^ 32, 101⟩ ∧
    (emissions perform (cast firstId bob) (new endowed) polledEnactment).getLast? =
      some ⟨firstId, bob, false, 10 ^ 32, 101⟩ ∧
    t.paramValue .maxValidators = some 50 ∧
    (emissions perform (imposed .maxValidators) (new endowed) polledEnactment).getLast? = some 50 := by
  obtain ⟨returns, vote, value⟩ := polledEnactment_computed
  have ran := returns.eq_ok (new [])
  have registers : (Op.block stakingBlock).Within {alice, bob} := by decide
  have within : ∀ d ∈ polledEnactment, d.Within {firstId} {alice, bob} := by
    simp [polledEnactment, Deed.Within, registers, GovernanceCall.Within, petition]
  obtain ⟨votes, params⟩ := performAll_last_word firstId_apart endowed_within within ran
  have stored := votes firstId (Finset.mem_singleton_self firstId) bob (by decide)
  exact ⟨_, ran, vote, stored.symm.trans vote, value, (params .maxValidators).symm.trans value⟩

end Sample

/-! The way to a parameter. -/

section

variable [Blake3] {I : Finset Digest} {A : Finset Address} {s t : StateMachine} {c : GovernanceCall}
  {param : GovernanceParam} {log : List GovernanceCall} {deeds : List Deed}

/-- The log has the submission of every stored proposal, after it the approval of those that are
approved, and after these the execution that has set a parameter. -/
structure Traced (I : Finset Digest) (s : StateMachine) (log : List GovernanceCall) : Prop where
  named : ∀ proposalId ∈ I, ∀ p, s.getProposal proposalId = some p → p.proposalId = proposalId
  proposals : ∀ proposalId ∈ I, ∀ p, s.getProposal proposalId = some p →
    [p.submission].Sublist log
  approved : ∀ proposalId ∈ I, ∀ p, s.getProposal proposalId = some p → p.status = .approved →
    [p.submission, .setStatus proposalId .approved].Sublist log
  params : ∀ param value, s.paramValue param = some value → ∃ p : Proposal, ∃ proposalIds,
    .updateParam param value ∈ p.actions ∧ p.proposalId ∈ proposalIds ∧
    [p.submission, .setStatus p.proposalId .approved, .execute proposalIds].Sublist log

theorem executedValue_origin {value : U256} (set : s.executedValue param c = some value) :
    ∃ proposalIds, c = .execute proposalIds ∧ ∃ proposalId ∈ proposalIds, ∃ p,
      s.getProposal proposalId = some p ∧ p.status = .approved ∧ .updateParam param value ∈ p.actions := by
  cases c with
  | execute proposalIds =>
    refine ⟨proposalIds, rfl, ?_⟩
    have sorted := List.pairwise_insertionSort hashOrder proposalIds
    rw [executedValue] at set
    rcases foldl_or_cases sorted with ⟨proposalId, member, found, own, -, folded⟩ | ⟨-, folded⟩
    · cases folded.symm.trans set
      obtain ⟨p, stored, own⟩ := Option.bind_eq_some_iff.mp own
      split at own
      next approved =>
        obtain ⟨action, listed, valued⟩ := List.mem_filterMap.mp (List.mem_of_getLast? own)
        refine ⟨proposalId, (List.mem_insertionSort _).mp member, p, stored, approved, ?_⟩
        cases action with
        | updateParam target newValue =>
          rw [GovernanceAction.valueFor] at valued
          split at valued
          next same =>
            cases valued
            exact same ▸ listed
          next => cases valued
        | increaseShards _ _ => cases valued
      next => cases own
    · cases folded.symm.trans set
  | _ => cases set

theorem Traced.idle (traced : Traced I s log)
    (same : ∀ k : GovKey, k.Within I A → t.record k = s.record k) : Traced I t log where
  named proposalId member p found :=
    traced.named proposalId member p (getProposal_congr (same (.proposal proposalId) member) ▸ found)
  proposals proposalId member p found :=
    traced.proposals proposalId member p (getProposal_congr (same (.proposal proposalId) member) ▸ found)
  approved proposalId member p found :=
    traced.approved proposalId member p (getProposal_congr (same (.proposal proposalId) member) ▸ found)
  params param value set := traced.params param value (paramValue_congr (same (.param param) trivial) ▸ set)

theorem Traced.accepted (traced : Traced I s log) (apart : RecordsApart I A) (within : c.Within I A)
    (accepted : Accepted s c t) : Traced I t (log ++ [c]) := by
  have grown {l : List GovernanceCall} (before : l.Sublist log) : l.Sublist (log ++ [c]) :=
    before.trans (List.sublist_append_left _ _)
  have ends {l : List GovernanceCall} (before : l.Sublist log) : (l ++ [c]).Sublist (log ++ [c]) :=
    before.append (List.Sublist.refl _)
  have revised {proposalId : Digest} (member : proposalId ∈ I) {p : Proposal}
      (found : t.getProposal proposalId = some p) : p.proposalId = proposalId ∧
        [p.submission].Sublist (log ++ [c]) ∧ (p.status = .approved →
          [p.submission, .setStatus proposalId .approved].Sublist (log ++ [c])) := by
    have revision := accepted.revision apart within member
    rw [found] at revision
    cases revision with
    | kept same =>
      exact ⟨traced.named proposalId member p same.symm, grown (traced.proposals proposalId member p same.symm),
        fun approved => grown (traced.approved proposalId member p same.symm approved)⟩
    | submitted admits =>
      exact ⟨rfl, List.sublist_append_right _ _, fun approved => by cases approved⟩
    | cancelled before active =>
      have own := traced.named proposalId member _ before
      have submitted := traced.proposals proposalId member _ before
      exact ⟨own, grown submitted, fun approved => by cases approved⟩
    | marked before =>
      have own := traced.named proposalId member _ before
      have submitted := traced.proposals proposalId member _ before
      refine ⟨own, grown submitted, ?_⟩
      rintro rfl
      exact ends submitted
  refine ⟨fun _ member _ found => (revised member found).1,
    fun _ member _ found => (revised member found).2.1,
    fun _ member _ found => (revised member found).2.2, fun param value set => ?_⟩
  have shown := (accepted.shows s.shows_board apart within).params param
  rw [shown] at set
  have known (before : s.paramValue param = some value) : ∃ p : Proposal, ∃ proposalIds,
      .updateParam param value ∈ p.actions ∧ p.proposalId ∈ proposalIds ∧
      [p.submission, .setStatus p.proposalId .approved, .execute proposalIds].Sublist (log ++ [c]) := by
    obtain ⟨p, ids, action, listed, order⟩ := traced.params param value before
    exact ⟨p, ids, action, listed, grown order⟩
  cases c with
  | execute proposalIds =>
    have value_ : (s.executedValue param (.execute proposalIds)).or (s.paramValue param) = some value :=
      (foldl_or_none _ _ _).symm.trans set
    rcases Option.or_eq_some_iff.mp value_ with imposed | ⟨-, before⟩
    · obtain ⟨ids, same, proposalId, listed, p, found, approved, action⟩ := executedValue_origin imposed
      cases same
      have own := traced.named proposalId (within proposalId listed) p found
      have order := traced.approved proposalId (within proposalId listed) p found approved
      subst own
      exact ⟨p, proposalIds, action, listed, ends order⟩
    · exact known before
  | _ => exact known set

theorem mem_emissions_verdict (member : c ∈ emissions perform verdict s deeds) : .call c ∈ deeds := by
  induction deeds generalizing s with
  | nil => cases member
  | cons d deeds ih =>
    rw [emissions] at member
    rcases List.mem_append.mp member with here | later
    · cases d with
      | op op => cases here
      | call made =>
        rw [verdict] at here
        split at here
        next => exact List.mem_singleton.mp here ▸ List.mem_cons_self
        next => cases here
    · split at later
      next => exact List.mem_cons_of_mem _ (ih later)
      next => cases later

/-- In every run, a parameter that is set was named by a proposal that was submitted, then approved
by its status being set, and then executed, each by an accepted call; so without a call that sets
the status of a proposal no parameter is ever set. -/
theorem performAll_params_traced {accounts : List (Address × Account)} (apart : RecordsApart I A)
    (genesis : ∀ p ∈ accounts, p.1 ∈ A) (within : ∀ d ∈ deeds, d.Within I A)
    (ran : (new accounts).performAll deeds = .ok t) :
    (∀ param value, t.paramValue param = some value → ∃ p : Proposal, ∃ proposalIds,
      .updateParam param value ∈ p.actions ∧ p.proposalId ∈ proposalIds ∧
      [p.submission, .setStatus p.proposalId .approved, .execute proposalIds].Sublist
        (emissions perform verdict (new accounts) deeds)) ∧
    ((∀ proposalId status, .call (.setStatus proposalId status) ∉ deeds) →
      ∀ param, t.paramValue param = none) := by
  have empty : Shows I A (new accounts) Board.empty := new_shows apart genesis
  have start : Traced I (new accounts) [] := by
    refine ⟨fun proposalId member p found => ?_, fun proposalId member p found => ?_,
      fun proposalId member p found => ?_, fun param value set => ?_⟩
    · cases (empty.proposals proposalId member).symm.trans found
    · cases (empty.proposals proposalId member).symm.trans found
    · cases (empty.proposals proposalId member).symm.trans found
    · cases (empty.params param).symm.trans set
  have both := foldlM_logs verdict (fun s log => Placed A s ∧ Traced I s log) (fun s log d member t before stepped => ?_) ⟨new_placed apart genesis, start⟩ ran
  · refine ⟨both.2.params, fun quiet param => ?_⟩
    cases set : t.paramValue param with
    | none => rfl
    | some value =>
      obtain ⟨p, ids, -, -, order⟩ := both.2.params param value set
      exact absurd (mem_emissions_verdict (order.subset (by simp))) (quiet p.proposalId .approved)
  · obtain ⟨placed, ⟨idle, same⟩ | ⟨c, rfl, passed, accepted⟩⟩ :=
      perform_cases before.1 apart (within d member) stepped
    · rw [idle, Option.toList_none, List.append_nil]
      exact ⟨placed, before.2.idle same⟩
    · rw [passed]
      exact ⟨placed, before.2.accepted apart (within _ member) accepted⟩

end

section Sample

attribute [local instance] foldedBlake3

/-- What Alice has proposed was approved before it was executed. -/
theorem electedEnactment_traced : ∃ t, (new endowed).performAll electedEnactment = .ok t ∧
    t.paramValue .maxValidators = some 50 ∧ ∃ p : Proposal, ∃ proposalIds,
      .updateParam .maxValidators 50 ∈ p.actions ∧ p.proposalId ∈ proposalIds ∧
      [p.submission, .setStatus p.proposalId .approved, .execute proposalIds].Sublist
        (emissions perform verdict (new endowed) electedEnactment) := by
  obtain ⟨returns, value, -⟩ := electedEnactment_computed
  have ran := returns.eq_ok (new [])
  obtain ⟨traced, -⟩ :=
    performAll_params_traced firstId_apart endowed_within electedEnactment_within ran
  exact ⟨_, ran, value, traced _ _ value⟩

end Sample

end StateMachine

end Mononium
