import Mononium.Governance.Bounds

/-! The counters of active proposals. They go up with every submission, also when it is stored
over a proposal that is still active. -/
namespace Mononium

open Rust Scale

/-- The calls that transactions are meant to make. -/
def GovernanceCall.OfUser : GovernanceCall → Prop
  | submit _ _ _ _ _ _ | vote _ _ _ _ _ | cancel _ _ => True
  | tally _ | execute _ | setStatus _ _ => False

def Proposal.isActive (p : Proposal) : Bool := p.status = .active

def Proposal.isActiveOf (proposer : Address) (p : Proposal) : Bool :=
  p.status = .active ∧ p.proposer = proposer

/-- The proposer of a proposal that is active. -/
def displaced (before : Option Proposal) : List Address :=
  (before.filter Proposal.isActive).toList.map Proposal.proposer

theorem displaced_length (before : Option Proposal) :
    (displaced before).length = (before.any Proposal.isActive).toNat := by
  cases before with
  | none => rfl
  | some p => cases active : p.isActive <;> simp [displaced, Option.filter, active]

theorem displaced_count (before : Option Proposal) (a : Address) :
    (displaced before).count a = (before.any (Proposal.isActiveOf a)).toNat := by
  cases before with
  | none => rfl
  | some p =>
    by_cases active : p.status = .active
    · by_cases same : p.proposer = a <;>
        simp [displaced, Option.filter, Proposal.isActive, Proposal.isActiveOf, active, same]
    · simp [displaced, Option.filter, Proposal.isActive, Proposal.isActiveOf, active]

theorem displaced_eq_nil {before : Option Proposal} :
    displaced before = [] ↔ ¬∃ p, before = some p ∧ p.status = .active := by
  cases before with
  | none => simp [displaced]
  | some p => by_cases active : p.status = .active <;> simp [displaced, Proposal.isActive, active]

theorem displaced_active {p : Proposal} (active : p.status = .active) :
    displaced (some p) = [p.proposer] := by
  simp [displaced, Option.filter, Proposal.isActive, active]

theorem displaced_inactive {p : Proposal} (inactive : p.status ≠ .active) : displaced (some p) = [] := by
  simp [displaced, Option.filter, Proposal.isActive, inactive]

def readCount (stored : Option Bytes) : U64 :=
  (stored.bind fun bytes => (Codec.u64.decode bytes).map Prod.fst).getD 0

@[simp] theorem readCount_encode (n : U64) : readCount (some (Codec.u64.encode n)) = n := by
  simp [readCount, Codec.decode_encode_nil Codec.u64 (a := n) rfl]

theorem next_toNat {n : U64} {bound : Nat} (below : n.toNat < bound) (small : bound < 2 ^ 64) :
    (n + 1).toNat = n.toNat + 1 := by
  have fits : n.toNat + 1 < 2 ^ 64 := by omega
  exact add_toNat fits

theorem readCount_raised (k : GovKey) (n : U64) (before : Option Bytes) :
    readCount (newest (raised k n) k before) = n + 1 := by
  simp [raised]

theorem readCount_lowered {k : GovKey} {n : U64} {before : Option Bytes} (held : readCount before = n) :
    (readCount (newest (lowered k n) k before)).toNat = n.toNat - 1 := by
  unfold lowered
  split
  next positive =>
    rw [newest_cons, if_pos rfl, newest_nil, readCount_encode]
    exact sub_toNat (BitVec.lt_def.mp positive)
  next zero =>
    rw [newest_nil, held]
    simp at zero
    simp [zero]

namespace StateMachine

section

variable [Blake3] {I : Finset Digest} {A : Finset Address} {s t : StateMachine} {r : Result Unit}
  {accounts : List (Address × Account)} {lost : List Address}

def standing (I : Finset Digest) (property : Proposal → Bool) (s : StateMachine) : Nat :=
  (I.filter fun proposalId => (s.getProposal proposalId).any property).card

theorem standing_congr {property : Proposal → Bool}
    (proposals : ∀ proposalId ∈ I, t.getProposal proposalId = s.getProposal proposalId) :
    standing I property t = standing I property s := by
  unfold standing
  congr 1
  apply Finset.filter_congr
  intro proposalId member
  rw [proposals proposalId member]

theorem standing_change {property : Proposal → Bool} {proposalId : Digest} (member : proposalId ∈ I)
    (elsewhere : ∀ other ∈ I, other ≠ proposalId → t.getProposal other = s.getProposal other) :
    standing I property t + ((s.getProposal proposalId).any property).toNat =
      standing I property s + ((t.getProposal proposalId).any property).toNat := by
  have card (u : StateMachine) : standing I property u =
      ∑ other ∈ I, ((u.getProposal other).any property).toNat := by
    rw [standing, Finset.card_filter]
    apply Finset.sum_congr rfl
    intro other _
    cases (u.getProposal other).any property <;> rfl
  rw [card, card]
  apply sum_add_of_single_change member
  intro other ho different
  rw [elsewhere other ho different]

def activeProposals (I : Finset Digest) (s : StateMachine) : Nat := standing I Proposal.isActive s

def activeProposalsOf (I : Finset Digest) (proposer : Address) (s : StateMachine) : Nat :=
  standing I (Proposal.isActiveOf proposer) s

theorem activeProposals_change {proposalId : Digest} (member : proposalId ∈ I)
    (elsewhere : ∀ other ∈ I, other ≠ proposalId → t.getProposal other = s.getProposal other) :
    activeProposals I t + (displaced (s.getProposal proposalId)).length =
      activeProposals I s + (displaced (t.getProposal proposalId)).length := by
  rw [displaced_length, displaced_length]
  exact standing_change member elsewhere

theorem activeProposalsOf_change {proposalId : Digest} (member : proposalId ∈ I)
    (elsewhere : ∀ other ∈ I, other ≠ proposalId → t.getProposal other = s.getProposal other)
    (a : Address) :
    activeProposalsOf I a t + (displaced (s.getProposal proposalId)).count a =
      activeProposalsOf I a s + (displaced (t.getProposal proposalId)).count a := by
  rw [displaced_count, displaced_count]
  exact standing_change member elsewhere

theorem counted_counts {proposalId : Digest} {proposer : Address} {bytes : Bytes} {n m : U64}
    {change : GovKey → U64 → List (GovKey × Bytes)}
    (own : ∀ k count, ∀ write ∈ change k count, write.1 = k) (apart : RecordsApart I A)
    (hI : proposalId ∈ I) (hA : proposer ∈ A)
    (made : t = s.writeRecords ((.proposal proposalId, bytes) ::
      (change (.proposerCount proposer) n ++ change .globalCount m))) :
    t.globalActiveCount = readCount (newest (change .globalCount m) .globalCount
      (s.record .globalCount)) ∧
    t.proposerActiveCount proposer = readCount (newest (change (.proposerCount proposer) n)
      (.proposerCount proposer) (s.record (.proposerCount proposer))) ∧
    ∀ a ∈ A, a ≠ proposer → t.proposerActiveCount a = s.proposerActiveCount a := by
  have inside := counted_inside (n := n) (m := m) bytes own hI hA
  have foreign {k other : GovKey} {count : U64} {before : Option Bytes} (different : k ≠ other) :
      newest (change k count) other before = before :=
    newest_of_forall_ne fun write member => by rwa [own _ _ write member]
  subst made
  refine ⟨?_, ?_, fun a ha different => ?_⟩
  · have stored := record_writeRecords (s := s) apart inside (k := .globalCount) trivial
    rw [newest_cons, if_neg (by simp), newest_append,
      foreign (k := .proposerCount proposer) (by simp)] at stored
    rw [← stored]
    rfl
  · have stored := record_writeRecords (s := s) apart inside (k := .proposerCount proposer) hA
    rw [newest_cons, if_neg (by simp), newest_append, foreign (k := .globalCount) (by simp)] at stored
    rw [← stored]
    rfl
  · have stored := record_writeRecords (s := s) apart inside (k := .proposerCount a) ha
    rw [newest_cons, if_neg (by simp), newest_append, foreign (k := .globalCount) (by simp),
      foreign (by simpa using different.symm)] at stored
    exact activeCount_congr (k := .proposerCount a) stored

/-- The counters are those of the active proposals and of the `lost` ones, which are still
counted for their proposers. -/
structure Tallied (I : Finset Digest) (A : Finset Address) (lost : List Address)
    (s : StateMachine) : Prop where
  total : s.globalActiveCount.toNat = activeProposals I s + lost.length
  own : ∀ a ∈ A, (s.proposerActiveCount a).toNat = activeProposalsOf I a s + lost.count a
  limit : ∀ a ∈ A, (s.proposerActiveCount a).toNat ≤ maxActiveProposalsPerProposer

theorem new_tallied (apart : RecordsApart I A) (genesis : ∀ p ∈ accounts, p.1 ∈ A) :
    Tallied I A [] (new accounts) := by
  have nothing {property : Proposal → Bool} : standing I property (new accounts) = 0 := by
    rw [standing, Finset.card_eq_zero, Finset.filter_eq_empty_iff]
    intro proposalId member
    simp [getProposal_new apart genesis member]
  have zero {k : GovKey} (hk : k.Within I A) : (new accounts).activeCount k.subKey = 0 := by
    have absent : (new accounts).governanceGet k.subKey = none := record_new apart genesis hk
    simp [activeCount, absent]
  have total : (new accounts).globalActiveCount = 0 := zero (k := .globalCount) trivial
  have own (a : Address) (ha : a ∈ A) : (new accounts).proposerActiveCount a = 0 :=
    zero (k := .proposerCount a) ha
  refine ⟨?_, fun a ha => ?_, fun a ha => ?_⟩
  · rw [total, activeProposals, nothing]
    rfl
  · rw [own a ha, activeProposalsOf, nothing]
    rfl
  · rw [own a ha]
    exact Nat.zero_le _

/-- The call is a submission that is accepted, and its id is that of an active proposal. -/
def Overwrites (s : StateMachine) : GovernanceCall → Prop
  | .submit proposer proposalId title description actions _ =>
    s.Admits proposer title description actions ∧
      ∃ p, s.getProposal proposalId = some p ∧ p.status = .active
  | _ => False

namespace Tallied

variable {c : GovernanceCall}

theorem raise {proposer : Address} {proposalId : Digest} (tallied : Tallied I A lost s)
    (hI : proposalId ∈ I)
    (own : (s.proposerActiveCount proposer).toNat < maxActiveProposalsPerProposer)
    (stored : displaced (t.getProposal proposalId) = [proposer])
    (elsewhere : ∀ other ∈ I, other ≠ proposalId → t.getProposal other = s.getProposal other)
    (total : t.globalActiveCount.toNat = s.globalActiveCount.toNat + 1)
    (counted : (t.proposerActiveCount proposer).toNat = (s.proposerActiveCount proposer).toNat + 1)
    (others : ∀ a ∈ A, a ≠ proposer → t.proposerActiveCount a = s.proposerActiveCount a) :
    Tallied I A (displaced (s.getProposal proposalId) ++ lost) t := by
  refine ⟨?_, fun a ha => ?_, fun a ha => ?_⟩
  · have change := activeProposals_change hI elsewhere
    have before := tallied.total
    rw [stored, List.length_singleton] at change
    rw [List.length_append]
    omega
  · have change := activeProposalsOf_change hI elsewhere a
    have before := tallied.own a ha
    rw [stored] at change
    rw [List.count_append]
    by_cases same : a = proposer
    · subst same
      rw [List.count_singleton_self] at change
      omega
    · have foreign : [proposer].count a = 0 := List.count_eq_zero_of_not_mem (by simpa using same)
      rw [foreign] at change
      rw [others a ha same]
      omega
  · by_cases same : a = proposer
    · rw [same, counted]
      exact own
    · rw [others a ha same]
      exact tallied.limit a ha

theorem lower {proposer : Address} {proposalId : Digest} (tallied : Tallied I A lost s)
    (hI : proposalId ∈ I) (hA : proposer ∈ A)
    (before : displaced (s.getProposal proposalId) = [proposer])
    (after : displaced (t.getProposal proposalId) = [])
    (elsewhere : ∀ other ∈ I, other ≠ proposalId → t.getProposal other = s.getProposal other)
    (total : t.globalActiveCount.toNat = s.globalActiveCount.toNat - 1)
    (counted : (t.proposerActiveCount proposer).toNat = (s.proposerActiveCount proposer).toNat - 1)
    (others : ∀ a ∈ A, a ≠ proposer → t.proposerActiveCount a = s.proposerActiveCount a) :
    Tallied I A lost t := by
  refine ⟨?_, fun a ha => ?_, fun a ha => ?_⟩
  · have change := activeProposals_change hI elsewhere
    have known := tallied.total
    rw [before, after, List.length_singleton, List.length_nil] at change
    omega
  · have change := activeProposalsOf_change hI elsewhere a
    have known := tallied.own a ha
    rw [before, after, List.count_nil] at change
    by_cases same : a = proposer
    · subst same
      rw [List.count_singleton_self] at change
      omega
    · have foreign : [proposer].count a = 0 := List.count_eq_zero_of_not_mem (by simpa using same)
      rw [foreign] at change
      rw [others a ha same]
      omega
  · by_cases same : a = proposer
    · have limit := tallied.limit proposer hA
      rw [same, counted]
      omega
    · rw [others a ha same]
      exact tallied.limit a ha

theorem congr (tallied : Tallied I A lost s)
    (proposals : ∀ proposalId ∈ I, t.getProposal proposalId = s.getProposal proposalId)
    (total : t.globalActiveCount = s.globalActiveCount)
    (own : ∀ a ∈ A, t.proposerActiveCount a = s.proposerActiveCount a) : Tallied I A lost t := by
  refine ⟨?_, fun a ha => ?_, fun a ha => ?_⟩
  · rw [total, activeProposals, standing_congr proposals]
    exact tallied.total
  · rw [own a ha, activeProposalsOf, standing_congr proposals]
    exact tallied.own a ha
  · rw [own a ha]
    exact tallied.limit a ha

theorem call (tallied : Tallied I A lost s) (apart : RecordsApart I A) (within : c.Within I A)
    (user : c.OfUser) (h : s.call c = .ok (r, t)) :
    ∃ more, Tallied I A (more ++ lost) t ∧ (more = [] ↔ ¬s.Overwrites c) := by
  rcases call_cases apart within h with ⟨refused, -, rfl⟩ | ⟨-, accepted⟩
  · refine ⟨[], tallied, iff_of_true rfl fun overwrites => refused ?_⟩
    cases c with
    | submit => exact overwrites.1
    | _ => trivial
  cases accepted with
  | @submits proposer proposalId title description actions currentEra p made admits fits =>
    have proposals {other : Digest} (ho : other ∈ I) :=
      counted_getProposal (s := s) (n := s.proposerActiveCount proposer) (m := s.globalActiveCount)
        raised_own apart within.1 within.2 ho fits
    obtain ⟨total, own, others⟩ := counted_counts raised_own apart within.1 within.2 rfl
    rw [readCount_raised] at total own
    refine ⟨displaced (s.getProposal proposalId), ?_, ?_⟩
    · refine tallied.raise within.1 admits.own ?_ (fun other ho different => ?_) ?_ ?_ others
      · rw [proposals within.1, if_pos rfl, made]
        exact displaced_active rfl
      · rw [proposals ho, if_neg different]
      · rw [total]
        exact next_toNat admits.total (by decide)
      · rw [own]
        exact next_toNat admits.own (by decide)
    · rw [displaced_eq_nil]
      exact ⟨fun none overwrites => none overwrites.2, fun free found => free ⟨admits, found⟩⟩
  | @votes proposalId voter =>
    have kept {k : GovKey} (hk : k.Within I A) (other : k ≠ .vote proposalId voter) :=
      call_record apart within h hk other
    refine ⟨[], tallied.congr (fun other ho => ?_) ?_ fun a ha => ?_, iff_of_true rfl id⟩
    · exact getProposal_congr (kept (k := .proposal other) ho (by simp))
    · exact activeCount_congr (kept (k := .globalCount) trivial (by simp))
    · exact activeCount_congr (kept (k := .proposerCount a) ha (by simp))
  | @cancels proposalId caller p acct found own active account fits =>
    have proposals {other : Digest} (ho : other ∈ I) :=
      counted_getProposal (s := s) (n := s.proposerActiveCount caller) (m := s.globalActiveCount)
        lowered_own apart within.1 within.2 ho fits
    obtain ⟨total, mine, others⟩ := counted_counts lowered_own apart within.1 within.2 rfl
    refine ⟨[], ?_, iff_of_true rfl id⟩
    refine tallied.lower within.1 within.2 ?_ ?_ (fun other ho different => ?_) ?_ ?_ others
    · rw [found, displaced_active active, own]
    · rw [proposals within.1, if_pos rfl]
      exact displaced_inactive (by simp)
    · rw [proposals ho, if_neg different]
    · rw [total]
      exact readCount_lowered rfl
    · rw [mine]
      exact readCount_lowered rfl
  | _ => cases user

theorem callAll {calls : List GovernanceCall} (tallied : Tallied I A lost s)
    (apart : RecordsApart I A) (within : ∀ c ∈ calls, c.Within I A) (user : ∀ c ∈ calls, c.OfUser)
    (h : s.callAll calls = .ok t) : ∃ more, Tallied I A (more ++ lost) t ∧
      (more = [] ↔ s.Throughout (fun u c => ¬u.Overwrites c) calls) := by
  induction calls generalizing s lost with
  | nil =>
    cases h
    exact ⟨[], tallied, iff_of_true rfl trivial⟩
  | cons c calls ih =>
    obtain ⟨r, m, called, rest⟩ := callAll_cons.mp h
    obtain ⟨first, middle, fresh⟩ :=
      tallied.call apart (within c List.mem_cons_self) (user c List.mem_cons_self) called
    obtain ⟨more, after, later⟩ := ih middle (fun c member => within c (List.mem_cons_of_mem _ member))
      (fun c member => user c (List.mem_cons_of_mem _ member)) rest
    refine ⟨more ++ first, ?_, ?_⟩
    · rw [List.append_assoc]
      exact after
    · rw [List.append_eq_nil_iff, throughout_cons called, fresh, later, and_comm]

end Tallied

/-- In every run of user calls from genesis the counters are those of the active proposals
exactly if no accepted submission named the id of a proposal that was active. No proposer ever
has more than five. -/
theorem counters_exact_iff {calls : List GovernanceCall} (apart : RecordsApart I A)
    (genesis : ∀ p ∈ accounts, p.1 ∈ A) (within : ∀ c ∈ calls, c.Within I A)
    (user : ∀ c ∈ calls, c.OfUser) (ran : (new accounts).callAll calls = .ok t) :
    (t.globalActiveCount.toNat = activeProposals I t ∧
      (∀ a ∈ A, (t.proposerActiveCount a).toNat = activeProposalsOf I a t) ↔
      (new accounts).Throughout (fun u c => ¬u.Overwrites c) calls) ∧
    ∀ a ∈ A, activeProposalsOf I a t ≤ maxActiveProposalsPerProposer := by
  obtain ⟨lost, tallied, fresh⟩ := (new_tallied apart genesis).callAll apart within user ran
  rw [List.append_nil] at tallied
  refine ⟨?_, fun a ha => ?_⟩
  · rw [← fresh]
    constructor
    · rintro ⟨total, -⟩
      have known := tallied.total
      exact List.length_eq_zero_iff.mp (by omega)
    · rintro rfl
      exact ⟨tallied.total, tallied.own⟩
  · have known := tallied.own a ha
    have limit := tallied.limit a ha
    omega

end

section Sample

attribute [local instance] foldedBlake3

set_option maxRecDepth 2048

def rewriting : List GovernanceCall := [petition alice 50, petition alice 60]

/-- One proposal is active, and both counters are at two. -/
theorem rewriting_counted_twice : RecordsApart {firstId} {alice, bob} ∧
    ∃ t, (new endowed).callAll rewriting = .ok t ∧ t.globalActiveCount = 2 ∧
      t.proposerActiveCount alice = 2 ∧ activeProposals {firstId} t = 1 ∧
      activeProposalsOf {firstId} alice t = 1 := by
  have computed : Returns ((new endowed).callAll rewriting) ∧
      (valueD ((new endowed).callAll rewriting) (new [])).globalActiveCount = 2 ∧
      (valueD ((new endowed).callAll rewriting) (new [])).proposerActiveCount alice = 2 ∧
      activeProposals {firstId} (valueD ((new endowed).callAll rewriting) (new [])) = 1 ∧
      activeProposalsOf {firstId} alice (valueD ((new endowed).callAll rewriting) (new [])) = 1 := by
    decide
  exact ⟨firstId_apart, _, computed.1.eq_ok (new []), computed.2⟩

theorem petition_counted : submitted.globalActiveCount.toNat = activeProposals {firstId} submitted ∧
    (submitted.proposerActiveCount alice).toNat = activeProposalsOf {firstId} alice submitted := by
  have within : ∀ c ∈ [petition alice 50], c.Within {firstId} {alice, bob} :=
    List.forall_mem_singleton.mpr (petition_within (by decide) 50)
  have law := (counters_exact_iff firstId_apart endowed_within within
    (List.forall_mem_singleton.mpr trivial) (callAll_singleton.mpr ⟨_, submitted_eq⟩)).1
  have clean : (new endowed).Throughout (fun u c => ¬u.Overwrites c) [petition alice 50] := by
    refine ⟨?_, fun r m _ => trivial⟩
    rintro ⟨-, p, found, -⟩
    rw [getProposal_new firstId_apart endowed_within (Finset.mem_singleton_self firstId)] at found
    cases found
  obtain ⟨total, own⟩ := law.mpr clean
  exact ⟨total, own alice (by decide)⟩

end Sample

end StateMachine

end Mononium
