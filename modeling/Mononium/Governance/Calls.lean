import Mononium.Governance.Records

/-! The calls of the governance engine, each with the checks that it makes and the records
that it writes when they pass. -/
namespace Mononium

open Rust Scale

inductive GovernanceCall where
  | submit (proposer : Address) (proposalId : Digest) (title description : Bytes)
    (actions : List GovernanceAction) (currentEra : U64)
  | vote (proposalId : Digest) (voter : Address) (approve : Bool) (currentEra blockHeight : U64)
  | cancel (proposalId : Digest) (caller : Address)
  | tally (currentEra : U64)
  | execute (proposalIds : List Digest)
  | setStatus (proposalId : Digest) (status : ProposalStatus)

def GovernanceCall.Within (I : Finset Digest) (A : Finset Address) : GovernanceCall → Prop
  | submit proposer proposalId _ _ _ _ => proposalId ∈ I ∧ proposer ∈ A
  | vote proposalId voter _ _ _ => proposalId ∈ I ∧ voter ∈ A
  | cancel proposalId caller => proposalId ∈ I ∧ caller ∈ A
  | tally _ => True
  | execute proposalIds => ∀ proposalId ∈ proposalIds, proposalId ∈ I
  | setStatus proposalId _ => proposalId ∈ I

theorem forM_validateAction {actions : List GovernanceAction} :
    actions.forM validateAction = .ok () ↔ ∀ action ∈ actions, validateAction action = .ok () := by
  induction actions with
  | nil => simp [pure, Except.pure]
  | cons action actions ih =>
    rw [List.forM_eq_forM] at ih ⊢
    rw [List.forM_cons, List.forall_mem_cons, ← ih]
    cases validateAction action with
    | error e => simp [bind, Except.bind]
    | ok _ => simp [bind, Except.bind]

def raised (k : GovKey) (count : U64) : List (GovKey × Bytes) := [(k, Codec.u64.encode (count + 1))]

def lowered (k : GovKey) (count : U64) : List (GovKey × Bytes) :=
  if 0 < count then [(k, Codec.u64.encode (count - 1))] else []

def actionWrites : GovernanceAction → List (GovKey × Bytes)
  | .updateParam param newValue => [(.param param, Codec.u256.encode newValue)]
  | .increaseShards _ _ => []

theorem raised_own (k : GovKey) (count : U64) : ∀ write ∈ raised k count, write.1 = k := by
  simp [raised]

theorem lowered_own (k : GovKey) (count : U64) : ∀ write ∈ lowered k count, write.1 = k := by
  unfold lowered
  split <;> simp

theorem counted_inside {I : Finset Digest} {A : Finset Address} {proposalId : Digest}
    {proposer : Address} {n m : U64} {change : GovKey → U64 → List (GovKey × Bytes)} (bytes : Bytes)
    (own : ∀ k count, ∀ write ∈ change k count, write.1 = k) (hI : proposalId ∈ I) (hA : proposer ∈ A) :
    ∀ write ∈ (GovKey.proposal proposalId, bytes) ::
      (change (.proposerCount proposer) n ++ change .globalCount m), write.1.Within I A := by
  intro write member
  rcases List.mem_cons.mp member with rfl | member
  · exact hI
  rcases List.mem_append.mp member with member | member
  · rw [own _ _ write member]
    exact hA
  · rw [own _ _ write member]
    trivial

theorem actionWrites_param {actions : List GovernanceAction} {write : GovKey × Bytes}
    (member : write ∈ actions.flatMap actionWrites) : ∃ param newValue,
      .updateParam param newValue ∈ actions ∧ write = (.param param, Codec.u256.encode newValue) := by
  obtain ⟨action, listed, here⟩ := List.mem_flatMap.mp member
  cases action with
  | updateParam param newValue => exact ⟨param, newValue, listed, List.mem_singleton.mp here⟩
  | increaseShards _ _ => cases here

namespace StateMachine

section

variable [Blake3] {I : Finset Digest} {A : Finset Address} {s t : StateMachine} {r : Result Unit}

def call (s : StateMachine) : GovernanceCall → Exec (Result Unit × StateMachine)
  | .submit proposer proposalId title description actions currentEra =>
    s.submitProposal proposer proposalId title description actions currentEra
  | .vote proposalId voter approve currentEra blockHeight =>
    s.castVote proposalId voter approve currentEra blockHeight
  | .cancel proposalId caller => s.cancelProposal proposalId caller
  | .tally currentEra => return ((s.tallyProposals currentEra).map fun _ => (), s)
  | .execute proposalIds => return s.executeApproved proposalIds
  | .setStatus proposalId status => do
    let machine ← s.setProposalStatus proposalId status
    return (.ok (), machine)

def callAll (s : StateMachine) (calls : List GovernanceCall) : Exec StateMachine :=
  calls.foldlM (fun s c => do let (_, machine) ← s.call c; return machine) s

theorem callAll_cons {c : GovernanceCall} {calls : List GovernanceCall} :
    s.callAll (c :: calls) = .ok t ↔ ∃ r m, s.call c = .ok (r, m) ∧ m.callAll calls = .ok t := by
  unfold callAll
  rw [List.foldlM_cons]
  simp

theorem callAll_singleton {c : GovernanceCall} :
    s.callAll [c] = .ok t ↔ ∃ r, s.call c = .ok (r, t) := by
  rw [callAll_cons]
  constructor
  · rintro ⟨r, m, called, rest⟩
    cases rest
    exact ⟨r, called⟩
  · rintro ⟨r, called⟩
    exact ⟨r, t, called, rfl⟩

/-- `holds` is true of every call, in the state in which it is made. -/
def Throughout (holds : StateMachine → GovernanceCall → Prop) (s : StateMachine) :
    List GovernanceCall → Prop
  | [] => True
  | c :: calls => holds s c ∧ ∀ r m, s.call c = .ok (r, m) → m.Throughout holds calls

theorem throughout_cons {holds : StateMachine → GovernanceCall → Prop} {c : GovernanceCall}
    {calls : List GovernanceCall} (called : s.call c = .ok (r, t)) :
    s.Throughout holds (c :: calls) ↔ holds s c ∧ t.Throughout holds calls := by
  constructor
  · rintro ⟨here, later⟩
    exact ⟨here, later r t called⟩
  · rintro ⟨here, later⟩
    refine ⟨here, fun r' m again => ?_⟩
    cases called.symm.trans again
    exact later

theorem Throughout.mono {P Q : StateMachine → GovernanceCall → Prop} {calls : List GovernanceCall}
    (holds : s.Throughout P calls) (weaker : ∀ u, ∀ c ∈ calls, P u c → Q u c) :
    s.Throughout Q calls := by
  induction calls generalizing s with
  | nil => trivial
  | cons c calls ih =>
    refine ⟨weaker s c List.mem_cons_self holds.1, fun r m called => ih (holds.2 r m called) ?_⟩
    exact fun u c member => weaker u c (List.mem_cons_of_mem _ member)

/-- Two conditions that agree on the calls of a run agree throughout it. -/
theorem throughout_congr {P Q : StateMachine → GovernanceCall → Prop} {calls : List GovernanceCall}
    (invariant : StateMachine → Prop) (start : invariant s)
    (kept : ∀ u r m, ∀ c ∈ calls, invariant u → u.call c = .ok (r, m) → invariant m)
    (same : ∀ u r m, ∀ c ∈ calls, invariant u → u.call c = .ok (r, m) → (P u c ↔ Q u c))
    (ran : s.callAll calls = .ok t) : s.Throughout P calls ↔ s.Throughout Q calls := by
  induction calls generalizing s with
  | nil => exact iff_of_true trivial trivial
  | cons c calls ih =>
    obtain ⟨r, m, called, rest⟩ := callAll_cons.mp ran
    have next := kept s r m c List.mem_cons_self start called
    rw [throughout_cons called, throughout_cons called, same s r m c List.mem_cons_self start called,
      ih next (fun u r m c member => kept u r m c (List.mem_cons_of_mem _ member))
        (fun u r m c member => same u r m c (List.mem_cons_of_mem _ member)) rest]

/-- What a submission is checked for. -/
structure Admits (s : StateMachine) (proposer : Address) (title description : Bytes)
    (actions : List GovernanceAction) : Prop where
  funded : ∃ acct, s.account proposer = some acct ∧ proposalDeposit ≤ acct.balance
  title : title.length ≤ 256
  description : description.length ≤ 4096
  nonempty : actions ≠ []
  valid : ∀ action ∈ actions, validateAction action = .ok ()
  own : (s.proposerActiveCount proposer).toNat < maxActiveProposalsPerProposer
  total : s.globalActiveCount.toNat < maxProposalsPerEra

def Passes (s : StateMachine) : GovernanceCall → Prop
  | .submit proposer _ title description actions _ => s.Admits proposer title description actions
  | .vote proposalId voter _ currentEra _ => ∃ p e, s.getProposal proposalId = some p ∧
    p.status = .active ∧ p.submissionEra ≤ currentEra ∧
    currentEra.toNat < p.submissionEra.toNat + votingWindowEras.toNat ∧
    s.getValidator voter = some e ∧ e.stake ≠ 0
  | .cancel proposalId caller => ∃ p, s.getProposal proposalId = some p ∧ p.proposer = caller ∧
    p.status = .active ∧ ∃ acct, s.account caller = some acct
  | .tally _ | .execute _ | .setStatus _ _ => True

def approvedActions (s : StateMachine) (proposalId : Digest) : List GovernanceAction :=
  match s.getProposal proposalId with
  | none => []
  | some p => if p.status ≠ .approved then [] else p.actions

def executedWrites (s : StateMachine) (proposalIds : List Digest) : List (GovKey × Bytes) :=
  ((proposalIds.insertionSort fun a b => beValue a.bytes ≤ beValue b.bytes).flatMap
    s.approvedActions).flatMap actionWrites

/-- What an accepted call does. -/
inductive Accepted (s : StateMachine) : GovernanceCall → StateMachine → Prop
  | submits {proposer proposalId title description actions currentEra} (p : Proposal)
    (made : p = ⟨proposalId, proposer, title, description, actions, proposalDeposit, currentEra,
      .active⟩)
    (admits : s.Admits proposer title description actions) (fits : Codec.proposal.fits p = true) :
    Accepted s (.submit proposer proposalId title description actions currentEra)
      (s.writeRecords ((.proposal proposalId, Codec.proposal.encode p) ::
        (raised (.proposerCount proposer) (s.proposerActiveCount proposer) ++
          raised .globalCount s.globalActiveCount)))
  | votes {proposalId voter approve currentEra blockHeight p e}
    (found : s.getProposal proposalId = some p) (active : p.status = .active)
    (began : p.submissionEra ≤ currentEra)
    (lasts : currentEra.toNat < p.submissionEra.toNat + votingWindowEras.toNat)
    (entry : s.getValidator voter = some e) (staked : e.stake ≠ 0) :
    Accepted s (.vote proposalId voter approve currentEra blockHeight)
      (s.writeRecords [(.vote proposalId voter,
        Codec.governanceVote.encode ⟨proposalId, voter, approve, e.stake, blockHeight⟩)])
  | cancels {proposalId caller p acct} (found : s.getProposal proposalId = some p)
    (own : p.proposer = caller) (active : p.status = .active)
    (account : s.account caller = some acct)
    (fits : Codec.proposal.fits { p with status := .cancelled } = true) :
    Accepted s (.cancel proposalId caller)
      (s.writeRecords ((.proposal proposalId, Codec.proposal.encode { p with status := .cancelled }) ::
        (lowered (.proposerCount caller) (s.proposerActiveCount caller) ++
          lowered .globalCount s.globalActiveCount)))
  | tallies {currentEra} : Accepted s (.tally currentEra) s
  | executes {proposalIds} : Accepted s (.execute proposalIds)
      (s.writeRecords (s.executedWrites proposalIds))
  | skips {proposalId status} (absent : s.getProposal proposalId = none) :
    Accepted s (.setStatus proposalId status) s
  | marks {proposalId status p} (found : s.getProposal proposalId = some p)
    (fits : Codec.proposal.fits { p with status } = true) :
    Accepted s (.setStatus proposalId status)
      (s.writeRecords [(.proposal proposalId, Codec.proposal.encode { p with status })])

theorem Accepted.passes {c : GovernanceCall} (accepted : Accepted s c t) : s.Passes c := by
  cases accepted with
  | submits _ _ admits _ => exact admits
  | votes found active began lasts entry staked =>
    exact ⟨_, _, found, active, began, lasts, entry, staked⟩
  | cancels found own active account _ => exact ⟨_, found, own, active, _, account⟩
  | _ => trivial

/-! The counters. -/

theorem incrementCount_eq {k : GovKey} (h : s.incrementCount k.subKey = .ok t) :
    t = s.writeRecords (raised k (s.activeCount k.subKey)) := by
  obtain ⟨next, sum, h⟩ := bind_eq_ok.mp h
  cases h
  rw [eq_of_add sum]
  rfl

theorem decrementCount_eq {k : GovKey} (h : s.decrementCount k.subKey = .ok t) :
    t = s.writeRecords (lowered k (s.activeCount k.subKey)) := by
  unfold decrementCount at h
  unfold lowered
  split at h
  next positive =>
    obtain ⟨next, difference, h⟩ := bind_eq_ok.mp h
    cases h
    rw [if_pos positive, eq_of_sub difference]
    rfl
  next zero =>
    cases h
    rw [if_neg zero]
    rfl

/-! Each call is refused and changes nothing, or is accepted. -/

theorem submitProposal_cases {proposer : Address} {proposalId : Digest}
    {title description : Bytes} {actions : List GovernanceAction} {currentEra : U64}
    (h : s.submitProposal proposer proposalId title description actions currentEra = .ok (r, t)) :
    (¬s.Admits proposer title description actions ∧ (∃ e, r = .error e) ∧ t = s) ∨
    s.Admits proposer title description actions ∧ r = .ok () ∧ ∃ p bytes m,
      p = ⟨proposalId, proposer, title, description, actions, proposalDeposit, currentEra, .active⟩ ∧
      Codec.proposal.write p = .ok bytes ∧
      (s.governanceInsert (propKey proposalId) bytes).incrementProposerCount proposer = .ok m ∧
      m.incrementGlobalCount = .ok t := by
  obtain ⟨found, read, h⟩ := bind_eq_ok.mp h
  have known := account_of_getAccount read
  cases found with
  | none =>
    cases h
    refine .inl ⟨fun admits => ?_, ⟨_, rfl⟩, rfl⟩
    obtain ⟨acct, stored, -⟩ := admits.funded
    cases known.symm.trans stored
  | some acct =>
    rcases early_return h with ⟨poor, refused⟩ | ⟨rich, h⟩
    · cases refused
      refine .inl ⟨fun admits => ?_, ⟨_, rfl⟩, rfl⟩
      obtain ⟨found, stored, enough⟩ := admits.funded
      cases known.symm.trans stored
      exact BitVec.not_le.mpr poor enough
    rcases early_return h with ⟨long, refused⟩ | ⟨short, h⟩
    · cases refused
      exact .inl ⟨fun admits => by have := admits.title; omega, ⟨_, rfl⟩, rfl⟩
    rcases early_return h with ⟨long, refused⟩ | ⟨brief, h⟩
    · cases refused
      exact .inl ⟨fun admits => by have := admits.description; omega, ⟨_, rfl⟩, rfl⟩
    rcases early_return h with ⟨empty, refused⟩ | ⟨nonempty, h⟩
    · cases refused
      exact .inl ⟨fun admits => admits.nonempty empty, ⟨_, rfl⟩, rfl⟩
    split at h
    next valid =>
      rcases early_return h with ⟨many, refused⟩ | ⟨own, h⟩
      · cases refused
        exact .inl ⟨fun admits => by have := admits.own; omega, ⟨_, rfl⟩, rfl⟩
      rcases early_return h with ⟨many, refused⟩ | ⟨total, h⟩
      · cases refused
        exact .inl ⟨fun admits => by have := admits.total; omega, ⟨_, rfl⟩, rfl⟩
      rcases early_return h with ⟨locked, refused⟩ | ⟨-, h⟩
      · -- Nothing is ever locked.
        obtain ⟨action, -, targets⟩ := List.any_eq_true.mp locked
        cases action <;> cases targets
      obtain ⟨again, reread, h⟩ := bind_eq_ok.mp h
      cases read.symm.trans reread
      obtain ⟨nonce, -, h⟩ := bind_eq_ok.mp h
      obtain ⟨bytes, written, h⟩ := bind_eq_ok.mp h
      obtain ⟨m, first, h⟩ := bind_eq_ok.mp h
      obtain ⟨n, second, h⟩ := bind_eq_ok.mp h
      cases h
      have admits : s.Admits proposer title description actions :=
        ⟨⟨acct, known, BitVec.not_lt.mp rich⟩, by omega, by omega, nonempty,
          forM_validateAction.mp valid, by omega, by omega⟩
      exact .inr ⟨admits, rfl, _, bytes, m, rfl, written, first, second⟩
    next invalid =>
      cases h
      refine .inl ⟨fun admits => invalid (forM_validateAction.mpr admits.valid), ?_, rfl⟩
      cases outcome : actions.forM validateAction with
      | error e => exact ⟨e, rfl⟩
      | ok _ => exact absurd outcome invalid

theorem castVote_cases {proposalId : Digest} {voter : Address} {approve : Bool}
    {currentEra blockHeight : U64}
    (h : s.castVote proposalId voter approve currentEra blockHeight = .ok (r, t)) :
    (¬s.Passes (.vote proposalId voter approve currentEra blockHeight) ∧ (∃ e, r = .error e) ∧ t = s) ∨
    r = .ok () ∧ Accepted s (.vote proposalId voter approve currentEra blockHeight) t := by
  unfold castVote at h
  split at h
  next p found =>
    rcases early_return h with ⟨closed, refused⟩ | ⟨active, h⟩
    · cases refused
      refine .inl ⟨?_, ⟨_, rfl⟩, rfl⟩
      rintro ⟨q, _, same, active, -⟩
      cases found.symm.trans same
      exact closed active
    rw [ne_eq, not_not] at active
    obtain ⟨windowEnd, sum, h⟩ := bind_eq_ok.mp h
    have ends := add_eq_ok.mp sum
    rcases early_return h with ⟨outside, refused⟩ | ⟨inside, h⟩
    · cases refused
      refine .inl ⟨?_, ⟨_, rfl⟩, rfl⟩
      rintro ⟨q, _, same, -, began, lasts, -⟩
      cases found.symm.trans same
      rcases outside with early | late
      · exact BitVec.not_le.mpr early began
      · rw [BitVec.le_def] at late
        omega
    rw [not_or, BitVec.not_lt, BitVec.not_le, BitVec.lt_def, ends] at inside
    rcases early_return h with ⟨poor, refused⟩ | ⟨staked, h⟩
    · cases refused
      refine .inl ⟨?_, ⟨_, rfl⟩, rfl⟩
      rintro ⟨_, e, -, -, -, -, entry, staked⟩
      rw [entry] at poor
      exact staked poor
    cases h
    cases entry : s.getValidator voter with
    | none => simp [entry] at staked
    | some e =>
      rw [entry] at staked
      exact .inr ⟨rfl, .votes found active inside.1 inside.2 entry staked⟩
  next missing =>
    cases h
    refine .inl ⟨?_, ⟨_, rfl⟩, rfl⟩
    rintro ⟨q, _, same, -⟩
    exact missing q same

theorem cancelProposal_cases {proposalId : Digest} {caller : Address}
    (h : s.cancelProposal proposalId caller = .ok (r, t)) :
    (¬s.Passes (.cancel proposalId caller) ∧ (∃ e, r = .error e) ∧ t = s) ∨
    r = .ok () ∧ ∃ p acct bytes m, s.getProposal proposalId = some p ∧ p.proposer = caller ∧
      p.status = .active ∧ s.account caller = some acct ∧
      Codec.proposal.write { p with status := .cancelled } = .ok bytes ∧
      (s.governanceInsert (propKey proposalId) bytes).decrementProposerCount caller = .ok m ∧
      m.decrementGlobalCount = .ok t := by
  unfold cancelProposal at h
  split at h
  next p found =>
    rcases early_return h with ⟨foreign, refused⟩ | ⟨own, h⟩
    · cases refused
      refine .inl ⟨?_, ⟨_, rfl⟩, rfl⟩
      rintro ⟨q, same, own, -⟩
      cases found.symm.trans same
      exact foreign own
    rcases early_return h with ⟨closed, refused⟩ | ⟨active, h⟩
    · cases refused
      refine .inl ⟨?_, ⟨_, rfl⟩, rfl⟩
      rintro ⟨q, same, -, active, -⟩
      cases found.symm.trans same
      exact closed active
    rcases early_return h with ⟨voted, -⟩ | ⟨-, h⟩
    · cases voted
    obtain ⟨account, read, h⟩ := bind_eq_ok.mp h
    have known := account_of_getAccount read
    cases account with
    | none =>
      cases h
      refine .inl ⟨?_, ⟨_, rfl⟩, rfl⟩
      rintro ⟨q, -, -, -, acct, stored⟩
      cases known.symm.trans stored
    | some acct =>
      obtain ⟨bytes, written, h⟩ := bind_eq_ok.mp h
      obtain ⟨m, first, h⟩ := bind_eq_ok.mp h
      obtain ⟨n, second, h⟩ := bind_eq_ok.mp h
      cases h
      exact .inr ⟨rfl, p, acct, bytes, m, found, not_not.mp own, not_not.mp active, known, written,
        first, second⟩
  next missing =>
    cases h
    refine .inl ⟨?_, ⟨_, rfl⟩, rfl⟩
    rintro ⟨q, same, -⟩
    exact missing q same

theorem setProposalStatus_accepted {proposalId : Digest} {status : ProposalStatus}
    (h : s.setProposalStatus proposalId status = .ok t) : Accepted s (.setStatus proposalId status) t := by
  unfold setProposalStatus at h
  split at h
  next p found =>
    obtain ⟨bytes, written, h⟩ := bind_eq_ok.mp h
    cases h
    obtain ⟨fits, rfl⟩ := Codec.write_eq_ok.mp written
    exact .marks found fits
  next missing =>
    cases h
    exact .skips (Option.eq_none_iff_forall_ne_some.mpr missing)

/-! With the keys apart, what an accepted call writes does not affect what it reads later. -/

theorem writeRecords_append {writes more : List (GovKey × Bytes)} :
    s.writeRecords (writes ++ more) = (s.writeRecords writes).writeRecords more := by
  simp [writeRecords]

theorem record_writeRecords_of_ne {writes : List (GovKey × Bytes)} {k : GovKey}
    (apart : RecordsApart I A) (inside : ∀ write ∈ writes, write.1.Within I A) (hk : k.Within I A)
    (other : ∀ write ∈ writes, write.1 ≠ k) : (s.writeRecords writes).record k = s.record k := by
  rw [record_writeRecords apart inside hk, newest_of_forall_ne other]

theorem activeCount_congr {k : GovKey} (same : t.record k = s.record k) :
    t.activeCount k.subKey = s.activeCount k.subKey := by
  have stored : t.governanceGet k.subKey = s.governanceGet k.subKey := same
  rw [activeCount, activeCount, stored]

theorem getProposal_congr {proposalId : Digest}
    (same : t.record (.proposal proposalId) = s.record (.proposal proposalId)) :
    t.getProposal proposalId = s.getProposal proposalId := by
  have stored : t.governanceGet (propKey proposalId) = s.governanceGet (propKey proposalId) := same
  rw [getProposal, getProposal, stored]

/-- One record and two counters, of which the second is read after the first is written. -/
theorem counted_writes {bytes : Bytes} {proposalId : Digest} {proposer : Address}
    {change : GovKey → U64 → List (GovKey × Bytes)}
    (own : ∀ k count, ∀ write ∈ change k count, write.1 = k) (apart : RecordsApart I A)
    (hI : proposalId ∈ I) (hA : proposer ∈ A) {m : StateMachine}
    (first : m = (s.writeRecords [(.proposal proposalId, bytes)]).writeRecords
      (change (.proposerCount proposer)
        ((s.writeRecords [(.proposal proposalId, bytes)]).proposerActiveCount proposer)))
    (second : t = m.writeRecords (change .globalCount m.globalActiveCount)) :
    t = s.writeRecords ((.proposal proposalId, bytes) ::
      (change (.proposerCount proposer) (s.proposerActiveCount proposer) ++
        change .globalCount s.globalActiveCount)) := by
  have only {k : GovKey} (hk : k.Within I A) (different : .proposal proposalId ≠ k) :
      (s.writeRecords [(.proposal proposalId, bytes)]).activeCount k.subKey = s.activeCount k.subKey := by
    refine activeCount_congr (record_writeRecords_of_ne apart ?_ hk ?_)
    · simpa [GovKey.Within] using hI
    · simpa using different
  have mine : (s.writeRecords [(.proposal proposalId, bytes)]).proposerActiveCount proposer =
      s.proposerActiveCount proposer := only (k := .proposerCount proposer) hA (by simp)
  have everyones : m.globalActiveCount = s.globalActiveCount := by
    refine (activeCount_congr (k := .globalCount) ?_).trans (only (k := .globalCount) trivial (by simp))
    rw [first]
    refine record_writeRecords_of_ne apart ?_ trivial ?_
    · intro write member
      rw [own _ _ write member]
      exact hA
    · intro write member
      rw [own _ _ write member]
      simp
  rw [everyones] at second
  rw [second, first, mine]
  simp only [writeRecords_cons, writeRecords_nil, writeRecords_append]

theorem executeProposal_eq (proposalId : Digest) : s.executeProposal proposalId =
    s.writeRecords ((s.approvedActions proposalId).flatMap actionWrites) := by
  have all (actions : List GovernanceAction) (m : StateMachine) :
      actions.foldl applyAction m = m.writeRecords (actions.flatMap actionWrites) := by
    induction actions generalizing m with
    | nil => rfl
    | cons action actions ih =>
      rw [List.foldl_cons, ih, List.flatMap_cons, writeRecords_append]
      cases action <;> rfl
  rw [executeProposal, approvedActions]
  cases s.getProposal proposalId with
  | none => rfl
  | some p =>
    dsimp only
    split
    next => rfl
    next => exact all _ _

theorem executeApproved_eq {proposalIds : List Digest} (apart : RecordsApart I A)
    (within : ∀ proposalId ∈ proposalIds, proposalId ∈ I) :
    s.executeApproved proposalIds = (.ok (), s.writeRecords (s.executedWrites proposalIds)) := by
  have loop (ids : List Digest) (hI : ∀ proposalId ∈ ids, proposalId ∈ I) (m : StateMachine)
      (same : ∀ proposalId ∈ I, m.getProposal proposalId = s.getProposal proposalId) :
      ids.foldl executeProposal m =
        m.writeRecords ((ids.flatMap s.approvedActions).flatMap actionWrites) := by
    induction ids generalizing m with
    | nil => rfl
    | cons proposalId ids ih =>
      have actions : m.approvedActions proposalId = s.approvedActions proposalId := by
        rw [approvedActions, approvedActions, same proposalId (hI proposalId List.mem_cons_self)]
      rw [List.foldl_cons, executeProposal_eq, actions, List.flatMap_cons, List.flatMap_append,
        writeRecords_append]
      refine ih (fun later member => hI later (List.mem_cons_of_mem _ member)) _ ?_
      intro other hother
      rw [← same other hother]
      refine getProposal_congr (record_writeRecords_of_ne apart ?_ hother ?_)
      · intro write member
        obtain ⟨param, newValue, -, rfl⟩ := actionWrites_param member
        trivial
      · intro write member
        obtain ⟨param, newValue, -, rfl⟩ := actionWrites_param member
        simp
  refine congrArg (Prod.mk _) (loop _ ?_ s fun _ _ => rfl)
  intro proposalId member
  exact within proposalId ((List.perm_insertionSort _ _).mem_iff.mp member)

/-- A call is refused and changes nothing, or its checks pass and it writes its records. -/
theorem call_cases {c : GovernanceCall} (apart : RecordsApart I A) (within : c.Within I A)
    (h : s.call c = .ok (r, t)) :
    (¬s.Passes c ∧ (∃ e, r = .error e) ∧ t = s) ∨ r = .ok () ∧ Accepted s c t := by
  cases c with
  | submit proposer proposalId title description actions currentEra =>
    rcases submitProposal_cases h with refused | ⟨admits, rfl, p, bytes, m, made, written, first, second⟩
    · exact .inl refused
    obtain ⟨fits, rfl⟩ := Codec.write_eq_ok.mp written
    have done := counted_writes raised_own apart within.1 within.2
      (incrementCount_eq (k := .proposerCount proposer) first)
      (incrementCount_eq (k := .globalCount) second)
    exact .inr ⟨rfl, done ▸ .submits p made admits fits⟩
  | vote proposalId voter approve currentEra blockHeight => exact castVote_cases h
  | cancel proposalId caller =>
    rcases cancelProposal_cases h with refused | ⟨rfl, p, acct, bytes, m, found, own, active, account,
      written, first, second⟩
    · exact .inl refused
    obtain ⟨fits, rfl⟩ := Codec.write_eq_ok.mp written
    have done := counted_writes lowered_own apart within.1 within.2
      (decrementCount_eq (k := .proposerCount caller) first)
      (decrementCount_eq (k := .globalCount) second)
    exact .inr ⟨rfl, done ▸ .cancels found own active account fits⟩
  | tally currentEra =>
    cases h
    exact .inr ⟨rfl, .tallies⟩
  | execute proposalIds =>
    have done : s.executeApproved proposalIds = (r, t) := pure_eq_ok.mp h
    rw [executeApproved_eq apart within] at done
    cases done
    exact .inr ⟨rfl, .executes⟩
  | setStatus proposalId status =>
    obtain ⟨m, set, h⟩ := bind_eq_ok.mp h
    cases h
    exact .inr ⟨rfl, setProposalStatus_accepted set⟩

end

theorem call_eq_ok {outcome : Exec (Result Unit × StateMachine)} {default : Result Unit × StateMachine}
    (returns : Returns outcome) (accepted : (valueD outcome default).1 = .ok ()) :
    outcome = .ok (.ok (), (valueD outcome default).2) := by
  obtain ⟨⟨r, t⟩, rfl⟩ := returns
  cases (accepted : r = .ok ())
  rfl

section Sample

/-- A stand-in for BLAKE3 that keeps the records about a few ids and addresses apart. -/
abbrev foldedBlake3 : Blake3 :=
  ⟨fun input => ⟨leBytes 32 (input.foldl (fun sum b => (sum * 16777619 + b.toNat + 1) % 2 ^ 256) 0),
    by simp⟩⟩

attribute [local instance] foldedBlake3

set_option maxRecDepth 2048

def firstId : Digest := FixedBytes.replicate 32 1

def endowed : List (Address × Account) :=
  [(alice, Account.new (5 * proposalDeposit)), (bob, Account.new (5 * proposalDeposit))]

def petition (proposer : Address) (newValue : U256) : GovernanceCall :=
  .submit proposer firstId [] [] [.updateParam .maxValidators newValue] 0

theorem endowed_within : ∀ p ∈ endowed, p.1 ∈ ({alice, bob} : Finset Address) := by decide

theorem firstId_apart : RecordsApart {firstId} {alice, bob} := by decide

theorem petition_within {proposer : Address} (named : proposer ∈ ({alice, bob} : Finset Address))
    (newValue : U256) : (petition proposer newValue).Within {firstId} {alice, bob} :=
  ⟨Finset.mem_singleton_self firstId, named⟩

def submitted : StateMachine := (valueD ((new endowed).call (petition alice 50)) (.ok (), new [])).2

theorem submitted_eq : (new endowed).call (petition alice 50) = .ok (.ok (), submitted) := by
  have computed : Returns ((new endowed).call (petition alice 50)) ∧
      (valueD ((new endowed).call (petition alice 50)) (.ok (), new [])).1 = .ok () := by
    decide
  exact call_eq_ok computed.1 computed.2

end Sample

end StateMachine

end Mononium
