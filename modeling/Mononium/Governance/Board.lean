import Mononium.Core.Touches
import Mononium.Governance.Counters
import Mononium.Governance.Execution
import Mononium.Lib.Emissions

/-! What governance means. A board has the proposals, the ballots, the parameters and the numbers of
active proposals, and hears one call after the other; the ledger decides no more than what the
callers own at the time. -/
namespace Mononium

open Rust Scale

/-- What callers own when a call is made. -/
structure Means where
  balance : Address → Option U256
  stake : Address → U256

structure Board where
  proposals : Digest → Option Proposal
  ballots : Digest → Address → Option Governance.Vote
  params : GovernanceParam → Option U256
  own : Address → Nat
  total : Nat

namespace Board

def empty : Board := ⟨fun _ => none, fun _ _ => none, fun _ => none, fun _ => 0, 0⟩

def approvedValue (b : Board) (param : GovernanceParam) (proposalId : Digest) : Option U256 :=
  (b.proposals proposalId).bind fun p =>
    if p.status = .approved then (p.actions.filterMap (GovernanceAction.valueFor param)).getLast?
    else none

/-- The call is accepted. -/
def Accepts (b : Board) (means : Means) : GovernanceCall → Prop
  | .submit proposer _ title description actions _ =>
    (∃ balance, means.balance proposer = some balance ∧ proposalDeposit ≤ balance) ∧
    title.length ≤ 256 ∧ description.length ≤ 4096 ∧ actions ≠ [] ∧
    (∀ action ∈ actions, validateAction action = .ok ()) ∧
    b.own proposer < maxActiveProposalsPerProposer ∧ b.total < maxProposalsPerEra
  | .vote proposalId voter _ currentEra _ => ∃ p, b.proposals proposalId = some p ∧
    p.status = .active ∧ p.submissionEra ≤ currentEra ∧
    currentEra.toNat < p.submissionEra.toNat + votingWindowEras.toNat ∧ means.stake voter ≠ 0
  | .cancel proposalId caller => ∃ p, b.proposals proposalId = some p ∧ p.proposer = caller ∧
    p.status = .active ∧ ∃ balance, means.balance caller = some balance
  | .tally _ | .execute _ | .setStatus _ _ => True

def enact (b : Board) (means : Means) : GovernanceCall → Board
  | .submit proposer proposalId title description actions currentEra => { b with
      proposals := Function.update b.proposals proposalId (some
        ⟨proposalId, proposer, title, description, actions, proposalDeposit, currentEra, .active⟩)
      own := Function.update b.own proposer (b.own proposer + 1)
      total := b.total + 1 }
  | .vote proposalId voter approve _ blockHeight => { b with
      ballots := Function.update b.ballots proposalId (Function.update (b.ballots proposalId) voter
        (some ⟨proposalId, voter, approve, means.stake voter, blockHeight⟩)) }
  | .cancel proposalId caller => { b with
      proposals := Function.update b.proposals proposalId
        ((b.proposals proposalId).map fun p => { p with status := .cancelled })
      own := Function.update b.own caller (b.own caller - 1)
      total := b.total - 1 }
  | .tally _ => b
  | .execute proposalIds => { b with
      params := fun param => (proposalIds.insertionSort hashOrder).foldl
        (fun found proposalId => (b.approvedValue param proposalId).or found) (b.params param) }
  | .setStatus proposalId status => { b with
      proposals := Function.update b.proposals proposalId
        ((b.proposals proposalId).map fun p => { p with status }) }

open Classical in
noncomputable def hear (b : Board) (heard : Means × GovernanceCall) : Board :=
  if b.Accepts heard.1 heard.2 then b.enact heard.1 heard.2 else b

noncomputable def hearAll (b : Board) (heard : List (Means × GovernanceCall)) : Board :=
  heard.foldl hear b

theorem hear_of_accepts {b : Board} {means : Means} {c : GovernanceCall}
    (accepts : b.Accepts means c) : b.hear (means, c) = b.enact means c := if_pos accepts

theorem hear_of_refuses {b : Board} {means : Means} {c : GovernanceCall}
    (refuses : ¬b.Accepts means c) : b.hear (means, c) = b := if_neg refuses

end Board

inductive Deed where
  | op (op : Op)
  | call (call : GovernanceCall)

def Deed.Within (I : Finset Digest) (A : Finset Address) : Deed → Prop
  | op o => o.Within A
  | call c => c.Within I A

namespace StateMachine

section

variable [Blake3] {I : Finset Digest} {A : Finset Address} {s t : StateMachine} {r : Result Unit}
  {c : GovernanceCall} {b : Board}

def perform (s : StateMachine) : Deed → Exec StateMachine
  | .op op => s.step op
  | .call c => do
    let (_, machine) ← s.call c
    return machine

def performAll (s : StateMachine) (deeds : List Deed) : Exec StateMachine := deeds.foldlM perform s

def means (s : StateMachine) : Means where
  balance a := (s.account a).map Account.balance
  stake a := ((s.getValidator a).map ValidatorEntry.stake).getD 0

theorem means_balance (a : Address) : s.means.balance a = (s.account a).map Account.balance := rfl

theorem means_stake (a : Address) :
    s.means.stake a = ((s.getValidator a).map ValidatorEntry.stake).getD 0 := rfl

/-- A call that is made, and what the callers own then. -/
def hearing (s : StateMachine) : Deed → Option (Means × GovernanceCall)
  | .op _ => none
  | .call c => some (s.means, c)

def storedVote (s : StateMachine) (proposalId : Digest) (voter : Address) : Option Governance.Vote :=
  (s.record (.vote proposalId voter)).bind fun bytes => (Codec.governanceVote.decode bytes).map Prod.fst

def paramValue (s : StateMachine) (param : GovernanceParam) : Option U256 :=
  (s.record (.param param)).bind fun bytes => (Codec.u256.decode bytes).map Prod.fst

/-- The records read as the board. -/
structure Shows (I : Finset Digest) (A : Finset Address) (s : StateMachine) (b : Board) : Prop where
  proposals : ∀ proposalId ∈ I, s.getProposal proposalId = b.proposals proposalId
  ballots : ∀ proposalId ∈ I, ∀ voter ∈ A, s.storedVote proposalId voter = b.ballots proposalId voter
  params : ∀ param, s.paramValue param = b.params param
  own : ∀ a ∈ A, (s.proposerActiveCount a).toNat = b.own a
  total : s.globalActiveCount.toNat = b.total

theorem storedVote_congr {proposalId : Digest} {voter : Address}
    (same : t.record (.vote proposalId voter) = s.record (.vote proposalId voter)) :
    t.storedVote proposalId voter = s.storedVote proposalId voter := by
  rw [storedVote, storedVote, same]

theorem paramValue_congr {param : GovernanceParam}
    (same : t.record (.param param) = s.record (.param param)) :
    t.paramValue param = s.paramValue param := by
  rw [paramValue, paramValue, same]

theorem approvedValue_congr {proposalId : Digest} (same : s.getProposal proposalId = b.proposals proposalId)
    (param : GovernanceParam) : s.approvedValue param proposalId = b.approvedValue param proposalId := by
  rw [approvedValue, Board.approvedValue, same]

/-- An execution leaves the value of the last approved proposal that names the parameter. -/
theorem paramValue_executed (apart : RecordsApart I A) (param : GovernanceParam) (ids : List Digest) :
    (s.writeRecords (s.executedWrites ids)).paramValue param = (ids.insertionSort hashOrder).foldl
      (fun found proposalId => (s.approvedValue param proposalId).or found) (s.paramValue param) := by
  have folded (ids : List Digest) (before : Option Bytes) :
      (ids.foldl (fun found proposalId =>
        ((s.approvedValue param proposalId).map Codec.u256.encode).or found) before).bind
          (fun bytes => (Codec.u256.decode bytes).map Prod.fst) =
      ids.foldl (fun found proposalId => (s.approvedValue param proposalId).or found)
        (before.bind fun bytes => (Codec.u256.decode bytes).map Prod.fst) := by
    induction ids generalizing before with
    | nil => rfl
    | cons proposalId ids ih =>
      rw [List.foldl_cons, List.foldl_cons, ih]
      cases s.approvedValue param proposalId with
      | none => rfl
      | some value => simp [Codec.decode_encode_nil Codec.u256 (a := value) rfl]
  rw [paramValue, record_writeRecords (k := .param param) apart ?_ trivial, executedWrites_eq,
    newest_rounds, folded]
  · rfl
  · intro write member
    obtain ⟨_, -, _, -, -, _, _, -, rfl⟩ := mem_executedWrites member
    trivial

theorem Shows.congr (shows_ : Shows I A s b)
    (same : ∀ k : GovKey, k.Within I A → t.record k = s.record k) : Shows I A t b where
  proposals proposalId member :=
    (getProposal_congr (same (.proposal proposalId) member)).trans (shows_.proposals proposalId member)
  ballots proposalId member voter inside :=
    (storedVote_congr (same (.vote proposalId voter) ⟨member, inside⟩)).trans
      (shows_.ballots proposalId member voter inside)
  params param := (paramValue_congr (same (.param param) trivial)).trans (shows_.params param)
  own a inside := by
    rw [← shows_.own a inside]
    exact congrArg BitVec.toNat (activeCount_congr (same (.proposerCount a) inside))
  total := by
    rw [← shows_.total]
    exact congrArg BitVec.toNat (activeCount_congr (same .globalCount trivial))

/-- The checks of the call are those of the board. -/
theorem Shows.passes_iff (shows_ : Shows I A s b) (within : c.Within I A) :
    s.Passes c ↔ b.Accepts s.means c := by
  have funded (a : Address) (P : U256 → Prop) :
      (∃ acct, s.account a = some acct ∧ P acct.balance) ↔
        ∃ balance, s.means.balance a = some balance ∧ P balance := by
    constructor
    · rintro ⟨acct, found, holds⟩
      exact ⟨acct.balance, by rw [means_balance, found, Option.map_some], holds⟩
    · rintro ⟨balance, found, holds⟩
      obtain ⟨acct, stored, rfl⟩ := Option.map_eq_some_iff.mp found
      exact ⟨acct, stored, holds⟩
  cases c with
  | submit proposer proposalId title description actions currentEra =>
    have deposit := funded proposer fun balance => proposalDeposit ≤ balance
    have own := shows_.own proposer within.2
    have total := shows_.total
    constructor
    · intro admits
      exact ⟨deposit.mp admits.funded, admits.title, admits.description, admits.nonempty, admits.valid,
        own ▸ admits.own, total ▸ admits.total⟩
    · rintro ⟨rich, short, brief, nonempty, valid, few, room⟩
      exact ⟨deposit.mpr rich, short, brief, nonempty, valid, own ▸ few, total ▸ room⟩
  | vote proposalId voter approve currentEra blockHeight =>
    have staked : s.means.stake voter ≠ 0 ↔ ∃ e, s.getValidator voter = some e ∧ e.stake ≠ 0 := by
      rw [means_stake]
      cases found : s.getValidator voter <;> simp
    rw [Passes, Board.Accepts, ← shows_.proposals proposalId within.1, staked]
    constructor
    · rintro ⟨p, e, found, active, began, lasts, entry, stake⟩
      exact ⟨p, found, active, began, lasts, e, entry, stake⟩
    · rintro ⟨p, found, active, began, lasts, e, entry, stake⟩
      exact ⟨p, e, found, active, began, lasts, entry, stake⟩
  | cancel proposalId caller =>
    have known := funded caller fun _ => True
    simp only [and_true] at known
    rw [Passes, Board.Accepts, ← shows_.proposals proposalId within.1, known]
  | tally _ | execute _ | setStatus _ _ => exact Iff.rfl

theorem Shows.counted {proposalId : Digest} {proposer : Address} {p : Proposal} {n m : U64}
    {own total : Nat} {change : GovKey → U64 → List (GovKey × Bytes)} (shows_ : Shows I A s b)
    (named : ∀ k count, ∀ write ∈ change k count, write.1 = k) (apart : RecordsApart I A)
    (hI : proposalId ∈ I) (hA : proposer ∈ A) (fits : Codec.proposal.fits p = true)
    (mine : (readCount (newest (change (.proposerCount proposer) n) (.proposerCount proposer)
      (s.record (.proposerCount proposer)))).toNat = own)
    (all : (readCount (newest (change .globalCount m) .globalCount (s.record .globalCount))).toNat = total) :
    Shows I A (s.writeRecords ((.proposal proposalId, Codec.proposal.encode p) ::
      (change (.proposerCount proposer) n ++ change .globalCount m)))
      { b with
        proposals := Function.update b.proposals proposalId (some p)
        own := Function.update b.own proposer own
        total } := by
  have inside := counted_inside (n := n) (m := m) (Codec.proposal.encode p) named hI hA
  have keys : ∀ write ∈ (GovKey.proposal proposalId, Codec.proposal.encode p) ::
      (change (.proposerCount proposer) n ++ change .globalCount m),
      write.1 = .proposal proposalId ∨ write.1 = .proposerCount proposer ∨ write.1 = .globalCount := by
    intro write member
    rcases List.mem_cons.mp member with rfl | member
    · exact .inl rfl
    rcases List.mem_append.mp member with member | member
    · exact .inr (.inl (named _ _ write member))
    · exact .inr (.inr (named _ _ write member))
  have kept {k : GovKey} (hk : k.Within I A) (noProposal : k ≠ .proposal proposalId)
      (noCount : k ≠ .proposerCount proposer) (noTotal : k ≠ .globalCount) :=
    record_writeRecords_of_ne (s := s) apart inside hk fun write member same => by
      rcases keys write member with key | key | key
      · exact noProposal (same.symm.trans key)
      · exact noCount (same.symm.trans key)
      · exact noTotal (same.symm.trans key)
  obtain ⟨total_, own_, others⟩ := counted_counts (s := s) (n := n) (m := m) named apart hI hA rfl
  refine ⟨fun other member => ?_, fun other member a ha => ?_, fun param => ?_, fun a ha => ?_, ?_⟩
  · rw [counted_getProposal named apart hI hA member fits]
    simp only [Function.update_apply, shows_.proposals other member]
  · rw [← shows_.ballots other member a ha]
    exact storedVote_congr (kept ⟨member, ha⟩ (by simp) (by simp) (by simp))
  · rw [← shows_.params param]
    exact paramValue_congr (kept trivial (by simp) (by simp) (by simp))
  · simp only [Function.update_apply]
    split
    next same =>
      subst same
      rw [own_, mine]
    next different => rw [others a ha different, shows_.own a ha]
  · rw [total_, all]

theorem Shows.voted {proposalId : Digest} {voter : Address} (vote : Governance.Vote)
    (shows_ : Shows I A s b) (apart : RecordsApart I A) (hI : proposalId ∈ I) (hA : voter ∈ A) :
    Shows I A (s.writeRecords [(.vote proposalId voter, Codec.governanceVote.encode vote)])
      { b with
        ballots := Function.update b.ballots proposalId
          (Function.update (b.ballots proposalId) voter (some vote)) } := by
  have stored {k : GovKey} (hk : k.Within I A) :
      (s.writeRecords [(.vote proposalId voter, Codec.governanceVote.encode vote)]).record k =
        if .vote proposalId voter = k then some (Codec.governanceVote.encode vote) else s.record k :=
    record_governanceInsert (k := .vote proposalId voter) apart ⟨hI, hA⟩ hk
  refine ⟨fun other member => ?_, fun other member a ha => ?_, fun param => ?_, fun a ha => ?_, ?_⟩
  · rw [← shows_.proposals other member]
    exact getProposal_congr (stored (k := .proposal other) member)
  · rw [storedVote, stored (k := .vote other a) ⟨member, ha⟩]
    simp only [Function.update_apply]
    by_cases here : other = proposalId
    · subst here
      by_cases same : a = voter
      · subst same
        simp [Codec.decode_encode_nil Codec.governanceVote (a := vote) rfl]
      · rw [if_neg (by simpa using Ne.symm same), if_pos rfl, Function.update_apply, if_neg same,
          ← shows_.ballots other member a ha, storedVote]
    · rw [if_neg (by simpa using fun same => absurd same.symm here), if_neg here,
        ← shows_.ballots other member a ha, storedVote]
  · rw [← shows_.params param]
    exact paramValue_congr (stored trivial)
  · rw [← shows_.own a ha]
    exact congrArg BitVec.toNat (activeCount_congr (stored (k := .proposerCount a) ha))
  · rw [← shows_.total]
    exact congrArg BitVec.toNat (activeCount_congr (stored (k := .globalCount) trivial))

theorem Shows.marked {proposalId : Digest} {p : Proposal} (shows_ : Shows I A s b)
    (apart : RecordsApart I A) (hI : proposalId ∈ I) (fits : Codec.proposal.fits p = true) :
    Shows I A (s.writeRecords [(.proposal proposalId, Codec.proposal.encode p)])
      { b with proposals := Function.update b.proposals proposalId (some p) } := by
  have kept {k : GovKey} (hk : k.Within I A) (other : .proposal proposalId ≠ k) :
      (s.writeRecords [(.proposal proposalId, Codec.proposal.encode p)]).record k = s.record k :=
    record_writeRecords_of_ne apart (by simpa [GovKey.Within] using hI) hk (by simpa using other)
  refine ⟨fun other member => ?_, fun other member a ha => ?_, fun param => ?_, fun a ha => ?_, ?_⟩
  · rw [getProposal_writeRecords apart hI member (by simp) (by simp) fits]
    simp only [Function.update_apply, shows_.proposals other member]
  · rw [← shows_.ballots other member a ha]
    exact storedVote_congr (kept ⟨member, ha⟩ (by simp))
  · rw [← shows_.params param]
    exact paramValue_congr (kept trivial (by simp))
  · rw [← shows_.own a ha]
    exact congrArg BitVec.toNat (activeCount_congr (kept (k := .proposerCount a) ha (by simp)))
  · rw [← shows_.total]
    exact congrArg BitVec.toNat (activeCount_congr (kept (k := .globalCount) trivial (by simp)))

theorem Shows.executed {ids : List Digest} (shows_ : Shows I A s b) (apart : RecordsApart I A)
    (within : ∀ proposalId ∈ ids, proposalId ∈ I) :
    Shows I A (s.writeRecords (s.executedWrites ids))
      { b with
        params := fun param => (ids.insertionSort hashOrder).foldl
          (fun found proposalId => (b.approvedValue param proposalId).or found) (b.params param) } := by
  have kept {k : GovKey} (hk : k.Within I A) (other : ∀ param, .param param ≠ k) :
      (s.writeRecords (s.executedWrites ids)).record k = s.record k := by
    refine record_writeRecords_of_ne apart (fun write member => ?_) hk fun write member => ?_
    · obtain ⟨_, -, _, -, -, _, _, -, rfl⟩ := mem_executedWrites member
      trivial
    · obtain ⟨_, -, _, -, -, param, _, -, rfl⟩ := mem_executedWrites member
      exact other param
  refine ⟨fun other member => ?_, fun other member a ha => ?_, fun param => ?_, fun a ha => ?_, ?_⟩
  · rw [← shows_.proposals other member]
    exact getProposal_congr (kept (k := .proposal other) member (by simp))
  · rw [← shows_.ballots other member a ha]
    exact storedVote_congr (kept ⟨member, ha⟩ (by simp))
  · rw [paramValue_executed apart, shows_.params]
    refine List.foldl_ext _ _ _ fun found proposalId member => ?_
    have listed := within proposalId ((List.mem_insertionSort _).mp member)
    rw [approvedValue_congr (shows_.proposals proposalId listed)]
  · rw [← shows_.own a ha]
    exact congrArg BitVec.toNat (activeCount_congr (kept (k := .proposerCount a) ha (by simp)))
  · rw [← shows_.total]
    exact congrArg BitVec.toNat (activeCount_congr (kept (k := .globalCount) trivial (by simp)))

/-- What an accepted call does to the records is what it does to the board. -/
theorem Accepted.shows (accepted : Accepted s c t) (shows_ : Shows I A s b) (apart : RecordsApart I A)
    (within : c.Within I A) : Shows I A t (b.enact s.means c) := by
  cases accepted with
  | @submits proposer _ _ _ _ _ p made admits fits =>
    have own := shows_.own proposer within.2
    have total := shows_.total
    subst made
    refine shows_.counted raised_own apart within.1 within.2 fits ?_ ?_
    · rw [readCount_raised, next_toNat admits.own (by decide), own]
    · rw [readCount_raised, next_toNat admits.total (by decide), total]
  | @votes proposalId voter _ _ _ p e _ _ _ _ entry _ =>
    have stake : s.means.stake voter = e.stake := by
      rw [means_stake, entry]
      rfl
    rw [Board.enact, stake]
    exact shows_.voted _ apart within.1 within.2
  | @cancels proposalId caller p acct found mine active account fits =>
    have own := shows_.own caller within.2
    have total := shows_.total
    have mineHeld : readCount (s.record (.proposerCount caller)) = s.proposerActiveCount caller := rfl
    have totalHeld : readCount (s.record .globalCount) = s.globalActiveCount := rfl
    rw [Board.enact, ← shows_.proposals proposalId within.1, found]
    refine shows_.counted lowered_own apart within.1 within.2 fits ?_ ?_
    · rw [readCount_lowered mineHeld, own]
    · rw [readCount_lowered totalHeld, total]
  | tallies => exact shows_
  | executes => exact shows_.executed apart within
  | @skips proposalId status absent =>
    have nothing := (shows_.proposals proposalId within).symm.trans absent
    have same : Function.update b.proposals proposalId none = b.proposals := by
      rw [← nothing, Function.update_eq_self]
    rw [Board.enact, nothing, Option.map_none, same]
    exact shows_
  | @marks proposalId status p found fits =>
    rw [Board.enact, ← shows_.proposals proposalId within, found]
    exact shows_.marked apart within fits

/-- The board hears a call as the machine does. -/
theorem Shows.call (shows_ : Shows I A s b) (apart : RecordsApart I A) (within : c.Within I A)
    (h : s.call c = .ok (r, t)) :
    Shows I A t (b.hear (s.means, c)) ∧ (r = .ok () ↔ b.Accepts s.means c) := by
  rcases call_cases apart within h with ⟨refused, ⟨e, rfl⟩, rfl⟩ | ⟨rfl, accepted⟩
  · rw [shows_.passes_iff within] at refused
    rw [Board.hear_of_refuses refused]
    exact ⟨shows_, by simp [refused]⟩
  · have passes := (shows_.passes_iff within).mp accepted.passes
    rw [Board.hear_of_accepts passes]
    exact ⟨accepted.shows shows_ apart within, by simp [passes]⟩

/-- An operation of the ledger leaves the governance records alone. -/
theorem Touches.record (touches : Touches A s t) (apart : RecordsApart I A) {k : GovKey}
    (hk : k.Within I A) : t.record k = s.record k :=
  touches.governance apart (Finset.mem_image_of_mem _ (mem_recordKeys.mpr hk))

theorem call_placed (placed : Placed A s) (apart : RecordsApart I A) (within : c.Within I A)
    (h : s.call c = .ok (r, t)) : Placed A t where
  entries a ha e found := by
    rw [call_getValidator apart within h ha] at found
    exact placed.entries a ha e found
  active := by
    rw [(call_framed apart within h).activeSet]
    exact placed.active

theorem Shows.perform {d : Deed} (shows_ : Shows I A s b) (placed : Placed A s)
    (apart : RecordsApart I A) (within : d.Within I A) (h : s.perform d = .ok t) :
    Placed A t ∧ Shows I A t ((s.hearing d).elim b b.hear) := by
  cases d with
  | op op =>
    have touches := step_touches apart placed within h
    exact ⟨touches.placed apart placed, shows_.congr fun k hk => touches.record apart hk⟩
  | call c =>
    obtain ⟨⟨r, m⟩, called, h⟩ := bind_eq_ok.mp h
    cases h
    exact ⟨call_placed placed apart within called, (shows_.call apart within called).1⟩

theorem new_placed {accounts : List (Address × Account)} (apart : RecordsApart I A)
    (genesis : ∀ p ∈ accounts, p.1 ∈ A) : Placed A (new accounts) := by
  have general (s : StateMachine) (placed : Placed A s) :
      Placed A (accounts.foldl (fun s p => s.setAccount p.1 p.2) s) := by
    induction accounts generalizing s with
    | nil => exact placed
    | cons p accounts ih =>
      have touch : Touch A s (s.setAccount p.1 p.2) := .account (genesis p List.mem_cons_self) p.2
      exact ih (fun p member => genesis p (List.mem_cons_of_mem _ member)) _ (touch.placed apart placed)
  rw [new_eq]
  refine general _ ⟨fun a ha e found => ?_, fun a member => ?_⟩
  · cases found
  · cases member

theorem new_shows {accounts : List (Address × Account)} (apart : RecordsApart I A)
    (genesis : ∀ p ∈ accounts, p.1 ∈ A) : Shows I A (new accounts) Board.empty where
  proposals proposalId member := getProposal_new apart genesis member
  ballots proposalId member voter inside := by
    rw [storedVote, record_new apart genesis (k := .vote proposalId voter) ⟨member, inside⟩]
    rfl
  params param := by
    rw [paramValue, record_new apart genesis (k := .param param) trivial]
    rfl
  own a inside := by
    have absent : (new accounts).governanceGet (proposerCountKey a) = none :=
      record_new apart genesis (k := .proposerCount a) inside
    simp [proposerActiveCount, activeCount, absent, Board.empty]
  total := by
    have absent : (new accounts).governanceGet govActiveCount = none :=
      record_new apart genesis (k := .globalCount) trivial
    simp [globalActiveCount, activeCount, absent, Board.empty]

theorem Shows.performAll {deeds : List Deed} (shows_ : Shows I A s b) (placed : Placed A s)
    (apart : RecordsApart I A) (within : ∀ d ∈ deeds, d.Within I A) (h : s.performAll deeds = .ok t) :
    Shows I A t (b.hearAll (emissions StateMachine.perform hearing s deeds)) := by
  have both := foldlM_emissions hearing Board.hear (fun s b => Placed A s ∧ Shows I A s b)
    (fun s b d member t before stepped =>
      before.2.perform before.1 apart (within d member) stepped) ⟨placed, shows_⟩ h
  exact both.2

/-- However operations of the ledger and calls come, the records are those of a board that has heard
the calls in their order, each with what the callers owned then; and the next call is accepted
exactly if the board accepts it. -/
theorem performAll_shows_board {accounts : List (Address × Account)} {deeds : List Deed}
    (apart : RecordsApart I A) (genesis : ∀ p ∈ accounts, p.1 ∈ A) (within : ∀ d ∈ deeds, d.Within I A)
    (ran : (new accounts).performAll deeds = .ok t) :
    Shows I A t (Board.empty.hearAll (emissions StateMachine.perform hearing (new accounts) deeds)) ∧
    ∀ c r u, c.Within I A → t.call c = .ok (r, u) →
      (r = .ok () ↔ (Board.empty.hearAll
        (emissions StateMachine.perform hearing (new accounts) deeds)).Accepts t.means c) := by
  have shown := (new_shows apart genesis).performAll (new_placed apart genesis) apart within ran
  exact ⟨shown, fun c r u inside called => (shown.call apart inside called).2⟩

end

section Sample

attribute [local instance] foldedBlake3

set_option maxRecDepth 4096

/-- Alice's proposal is approved and executed, with two elections in between. -/
def electedEnactment : List Deed :=
  [.call (petition alice 50), .op (.election [alice, bob] 2 0), .call (.setStatus firstId .approved),
    .op (.setActiveSet [bob]), .call (.execute [firstId])]

theorem electedEnactment_within : ∀ d ∈ electedEnactment, d.Within {firstId} {alice, bob} := by
  simp [electedEnactment, Deed.Within, Op.Within, GovernanceCall.Within, petition]

theorem electedEnactment_computed : Returns ((new endowed).performAll electedEnactment) ∧
    (valueD ((new endowed).performAll electedEnactment) (new [])).paramValue .maxValidators = some 50 ∧
    ∃ r u, (valueD ((new endowed).performAll electedEnactment) (new [])).call
      (.vote firstId bob true 0 100) = .ok (r, u) := by
  refine ⟨by decide, by decide, ?_⟩
  have returns : Returns ((valueD ((new endowed).performAll electedEnactment) (new [])).call
      (.vote firstId bob true 0 100)) := by decide
  obtain ⟨⟨r, u⟩, called⟩ := returns
  exact ⟨r, u, called⟩

/-- The board has the parameter, and a vote on what is no longer active is refused by both. -/
theorem electedEnactment_shown : ∃ t b, (new endowed).performAll electedEnactment = .ok t ∧
    b = Board.empty.hearAll (emissions perform hearing (new endowed) electedEnactment) ∧
    Shows {firstId} {alice, bob} t b ∧ b.params .maxValidators = some 50 ∧
    ∃ r u, t.call (.vote firstId bob true 0 100) = .ok (r, u) ∧
      (r = .ok () ↔ b.Accepts t.means (.vote firstId bob true 0 100)) := by
  obtain ⟨returns, value, r, u, called⟩ := electedEnactment_computed
  have ran := returns.eq_ok (new [])
  obtain ⟨shown, verdict⟩ :=
    performAll_shows_board firstId_apart endowed_within electedEnactment_within ran
  refine ⟨_, _, ran, rfl, shown, (shown.params .maxValidators).symm.trans value, r, u, called, ?_⟩
  exact verdict _ r u ⟨Finset.mem_singleton_self firstId, by decide⟩ called

end Sample

end StateMachine

end Mononium
