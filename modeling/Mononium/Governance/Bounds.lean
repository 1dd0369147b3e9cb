import Mononium.Governance.Effects

/-! The bounds of the parameters. They are checked when a proposal is submitted; what is
written when it is executed is what its record reads then. -/
namespace Mononium

open Rust Scale

inductive GovernanceOp where
  | call (call : GovernanceCall)
  | block (block : Block)

def GovernanceOp.Within (I : Finset Digest) (A : Finset Address) : GovernanceOp → Prop
  | call c => c.Within I A
  | block b => ∀ tx ∈ b.body.transactions, tx.Within A

def InBounds (param : GovernanceParam) (bytes : Bytes) : Prop :=
  ∃ value low high, Codec.u256.decode bytes = some (value, []) ∧
    paramBoundsFor param = some (low, high) ∧ low ≤ value ∧ value ≤ high

theorem inBounds_of_validated {param : GovernanceParam} {newValue : U256}
    (valid : validateAction (.updateParam param newValue) = .ok ()) :
    InBounds param (Codec.u256.encode newValue) := by
  unfold validateAction at valid
  dsimp only at valid
  split at valid
  next => cases valid
  next bounds found =>
    split at valid
    next => cases valid
    next inside =>
      rw [not_or, BitVec.not_lt, BitVec.not_lt] at inside
      exact ⟨newValue, bounds.1, bounds.2, Codec.decode_encode_nil _ rfl, found, inside⟩

namespace StateMachine

section

variable [Blake3] {I : Finset Digest} {A : Finset Address} {s t : StateMachine} {r : Result Unit}
  {accounts : List (Address × Account)} {k : GovKey}

def operate (s : StateMachine) : GovernanceOp → Exec StateMachine
  | .call c => do
    let (_, machine) ← s.call c
    return machine
  | .block block => do
    let (_, machine) ← s.applyBlock block
    return machine

def govern (s : StateMachine) (ops : List GovernanceOp) : Exec StateMachine := ops.foldlM operate s

theorem record_new (apart : RecordsApart I A) (genesis : ∀ p ∈ accounts, p.1 ∈ A)
    (hk : k.Within I A) : (new accounts).record k = none := by
  have general (s : StateMachine) :
      (accounts.foldl (fun s p => s.setAccount p.1 p.2) s).record k = s.record k := by
    induction accounts generalizing s with
    | nil => rfl
    | cons p accounts ih =>
      rw [List.foldl_cons, ih fun p member => genesis p (List.mem_cons_of_mem _ member)]
      exact get_insert_of_ne apart s _ (mem_storeKeys_account (genesis p List.mem_cons_self))
        (mem_storeKeys_record hk) (accountKey_ne_governanceKey _ _).symm
  rw [new_eq, general]
  rfl

theorem getProposal_new (apart : RecordsApart I A) (genesis : ∀ p ∈ accounts, p.1 ∈ A)
    {proposalId : Digest} (member : proposalId ∈ I) : (new accounts).getProposal proposalId = none := by
  have absent : (new accounts).governanceGet (propKey proposalId) = none :=
    record_new apart genesis (k := .proposal proposalId) member
  simp [getProposal, absent]

theorem activeSet_new (accounts : List (Address × Account)) : (new accounts).activeSet = [] := rfl

theorem applyBlock_record {block : Block} {receipt : BlockReceipt} (apart : RecordsApart I A)
    (within : ∀ tx ∈ block.body.transactions, tx.Within A) (active : ∀ a ∈ s.activeSet, a ∈ A)
    (h : s.applyBlock block = .ok (receipt, t)) (hk : k.Within I A) : t.record k = s.record k :=
  (applyBlock_framed apart within active h).kept _ (mem_storeKeys_record hk)
    (governanceKey_not_written block _)

/-- Every stored proposal passed the check of its actions, and every parameter that is set is
within its bounds. -/
structure Vetted (I : Finset Digest) (A : Finset Address) (s : StateMachine) : Prop where
  active : ∀ a ∈ s.activeSet, a ∈ A
  proposals : ∀ proposalId ∈ I, ∀ p, s.getProposal proposalId = some p →
    ∀ action ∈ p.actions, validateAction action = .ok ()
  params : ∀ param bytes, s.record (.param param) = some bytes → InBounds param bytes

theorem new_vetted (apart : RecordsApart I A) (genesis : ∀ p ∈ accounts, p.1 ∈ A) :
    Vetted I A (new accounts) where
  active a member := absurd member (by rw [activeSet_new]; exact List.not_mem_nil)
  proposals proposalId member p found := by
    rw [getProposal_new apart genesis member] at found
    cases found
  params param bytes stored := by
    rw [record_new apart genesis (k := .param param) trivial] at stored
    cases stored

namespace Vetted

/-- Whatever a call makes of a proposal, its actions have been checked. -/
theorem revision {c : GovernanceCall} {proposalId : Digest} {after : Option Proposal}
    (vetted : Vetted I A s) (member : proposalId ∈ I) (revision : Revision s proposalId c after) :
    ∀ p, after = some p → ∀ action ∈ p.actions, validateAction action = .ok () := by
  intro p present
  cases revision with
  | kept same => exact vetted.proposals proposalId member p (same ▸ present)
  | submitted admits =>
    cases present
    exact admits.valid
  | cancelled found _ | marked found =>
    cases present
    have before := vetted.proposals proposalId member _ found
    exact before

theorem call {c : GovernanceCall} (vetted : Vetted I A s) (apart : RecordsApart I A)
    (within : c.Within I A) (h : s.call c = .ok (r, t)) : Vetted I A t where
  active := by
    rw [(call_framed apart within h).activeSet]
    exact vetted.active
  proposals proposalId member := by
    rcases call_cases apart within h with ⟨-, -, rfl⟩ | ⟨-, accepted⟩
    · exact vetted.proposals proposalId member
    · exact vetted.revision member (accepted.revision apart within member)
  params param bytes stored := by
    rcases call_param apart within h stored with before | ⟨proposalId, member, p, newValue, found,
      named, rfl⟩
    · exact vetted.params param bytes before
    · exact inBounds_of_validated (vetted.proposals proposalId member p found _ named)

theorem block {block : Block} {receipt : BlockReceipt} (vetted : Vetted I A s)
    (apart : RecordsApart I A) (within : ∀ tx ∈ block.body.transactions, tx.Within A)
    (h : s.applyBlock block = .ok (receipt, t)) : Vetted I A t where
  active := by
    rw [(applyBlock_framed apart within vetted.active h).activeSet]
    exact vetted.active
  proposals proposalId member := by
    rw [getProposal_congr (applyBlock_record apart within vetted.active h member)]
    exact vetted.proposals proposalId member
  params param bytes stored := by
    rw [applyBlock_record apart within vetted.active h (k := .param param) trivial] at stored
    exact vetted.params param bytes stored

theorem operate {op : GovernanceOp} (vetted : Vetted I A s) (apart : RecordsApart I A)
    (within : op.Within I A) (h : s.operate op = .ok t) : Vetted I A t := by
  cases op with
  | call c =>
    obtain ⟨⟨r, m⟩, called, h⟩ := bind_eq_ok.mp h
    cases h
    exact vetted.call apart within called
  | block b =>
    obtain ⟨⟨receipt, m⟩, applied, h⟩ := bind_eq_ok.mp h
    cases h
    exact vetted.block apart within applied

theorem govern {ops : List GovernanceOp} (vetted : Vetted I A s) (apart : RecordsApart I A)
    (within : ∀ op ∈ ops, op.Within I A) (h : s.govern ops = .ok t) : Vetted I A t :=
  foldlM_invariant (P := Vetted I A)
    (fun _ op member _ before stepped => before.operate apart (within op member) stepped) vetted h

end Vetted

/-- In every run from genesis, every parameter that is set is within its bounds. -/
theorem params_in_bounds {ops : List GovernanceOp} (apart : RecordsApart I A)
    (genesis : ∀ p ∈ accounts, p.1 ∈ A) (within : ∀ op ∈ ops, op.Within I A)
    (ran : (new accounts).govern ops = .ok t) {param : GovernanceParam} {bytes : Bytes}
    (stored : t.governanceGet (paramKey param) = some bytes) :
    ∃ value low high, Codec.u256.decode bytes = some (value, []) ∧
      paramBoundsFor param = some (low, high) ∧ low ≤ value ∧ value ≤ high :=
  ((new_vetted apart genesis).govern apart within ran).params param bytes stored

end

section Sample

attribute [local instance] foldedBlake3

set_option maxRecDepth 2048

def enactment : List GovernanceOp :=
  [.call (petition alice 50), .call (.setStatus firstId .approved), .call (.execute [firstId])]

theorem enactment_computed : Returns ((new endowed).govern enactment) ∧
    (valueD ((new endowed).govern enactment) (new [])).governanceGet (paramKey .maxValidators) =
      some (Codec.u256.encode 50) := by decide

theorem enactment_in_bounds : ∃ t bytes, (new endowed).govern enactment = .ok t ∧
    t.governanceGet (paramKey .maxValidators) = some bytes ∧
    ∃ value low high, Codec.u256.decode bytes = some (value, []) ∧
      paramBoundsFor .maxValidators = some (low, high) ∧ low ≤ value ∧ value ≤ high := by
  obtain ⟨returns, stored⟩ := enactment_computed
  have ran := returns.eq_ok (new [])
  have within : ∀ op ∈ enactment, op.Within {firstId} {alice, bob} := by
    simp [enactment, GovernanceOp.Within, GovernanceCall.Within, petition]
  exact ⟨_, _, ran, stored, params_in_bounds firstId_apart endowed_within within ran stored⟩

end Sample

end StateMachine

end Mononium
