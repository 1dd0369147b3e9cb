import Mononium.Core.State
import Mononium.Lib.Text

/-! The governance engine of `governance::engine`. The engine borrows the state machine, so
its methods are functions on the machine; all it stores lies in the governance namespace. The
balance that a submission and a cancellation compute is that of a local copy of the account. -/
namespace Mononium

open Rust Scale

def proposalDeposit : U256 := limbs 4003012203950112768 542101086242752 0 0

example : proposalDeposit.toNat = 100 * oneMonex.toNat := by decide

def votingWindowEras : U64 := 7
def maxActiveProposalsPerProposer : Nat := 5
def maxProposalsPerEra : Nat := 50

def paramBounds : HashMap GovernanceParam (U256 × U256) :=
  HashMap.insertAll ∅ [
    (.maxValidators, 1, 1000),
    (.eraLength, 100, 10000),
    (.blockSizeCapBytes, 1024, 2097152),
    (.blockTxCap, 1, 10000),
    (.flatFee, 0, 1000000000000000000000000000000000),
    (.perByteRate, 0, 10000000000000000000000000000000000),
    (.antiSpamDeposit, 0, 1000000000000000000000000000000000),
    (.missedSlotPenalty, 0, 100000000000000000000000000000000),
    (.supplyCeilingRate, 0, 20),
    (.supplyHeadroomRate, 0, 20)]

def paramBoundsFor (param : GovernanceParam) : Option (U256 × U256) := paramBounds.lookup param

/-- The name that `Debug` prints. -/
def GovernanceParam.debugName : GovernanceParam → String
  | maxValidators => "MaxValidators"
  | eraLength => "EraLength"
  | blockSizeCapBytes => "BlockSizeCapBytes"
  | blockTxCap => "BlockTxCap"
  | flatFee => "FlatFee"
  | perByteRate => "PerByteRate"
  | antiSpamDeposit => "AntiSpamDeposit"
  | missedSlotPenalty => "MissedSlotPenalty"
  | supplyCeilingRate => "SupplyCeilingRate"
  | supplyHeadroomRate => "SupplyHeadroomRate"

def propKey (proposalId : Digest) : Bytes := utf8 "prop_" ++ utf8 (hexEncode proposalId.bytes)

def voteKey (proposalId : Digest) (voter : Address) : Bytes :=
  utf8 "vote_" ++ utf8 (hexEncode proposalId.bytes) ++ utf8 "_" ++ utf8 (hexEncode voter.asBytes)

def paramKey (param : GovernanceParam) : Bytes := utf8 "gov_param_" ++ utf8 param.debugName

def govActiveCount : Bytes := utf8 "gov_active_count"

def proposerCountKey (proposer : Address) : Bytes :=
  utf8 "gov_proposer_count_" ++ utf8 (hexEncode proposer.asBytes)

def validateAction : GovernanceAction → Result Unit
  | .updateParam param newValue =>
    match paramBoundsFor param with
    | none => .error (.governanceRejected "unknown governance parameter")
    | some bounds =>
      if newValue < bounds.1 ∨ bounds.2 < newValue then
        .error (.governanceRejected "new value is out of bounds for this parameter")
      else .ok ()
  | .increaseShards newCount _ =>
    if newCount = 0 then .error (.governanceRejected "shard count must be at least 1") else .ok ()

namespace StateMachine

variable [Blake3]

def getProposal (self : StateMachine) (proposalId : Digest) : Option Proposal :=
  (self.governanceGet (propKey proposalId)).bind fun bytes => (Codec.proposal.decode bytes).map Prod.fst

/-- A stub: nothing is looked up. -/
def hasActiveProposalForParam (_self : StateMachine) (_param : GovernanceParam) : Bool := false

/-- A stub: nothing is looked up. -/
def hasAnyVotes (_self : StateMachine) (_proposalId : Digest) : Bool := false

/-- A counter that is absent or does not decode is 0. -/
def activeCount (self : StateMachine) (key : Bytes) : U64 :=
  ((self.governanceGet key).bind fun bytes => (Codec.u64.decode bytes).map Prod.fst).getD 0

def incrementCount (self : StateMachine) (key : Bytes) : Exec StateMachine := do
  let next ← add (self.activeCount key) 1
  return self.governanceInsert key (Codec.u64.encode next)

def decrementCount (self : StateMachine) (key : Bytes) : Exec StateMachine := do
  if 0 < self.activeCount key then
    let next ← sub (self.activeCount key) 1
    return self.governanceInsert key (Codec.u64.encode next)
  return self

def proposerActiveCount (self : StateMachine) (proposer : Address) : U64 :=
  self.activeCount (proposerCountKey proposer)

def globalActiveCount (self : StateMachine) : U64 := self.activeCount govActiveCount

def incrementProposerCount (self : StateMachine) (proposer : Address) : Exec StateMachine :=
  self.incrementCount (proposerCountKey proposer)

def decrementProposerCount (self : StateMachine) (proposer : Address) : Exec StateMachine :=
  self.decrementCount (proposerCountKey proposer)

def incrementGlobalCount (self : StateMachine) : Exec StateMachine := self.incrementCount govActiveCount

def decrementGlobalCount (self : StateMachine) : Exec StateMachine := self.decrementCount govActiveCount

def targetsLocked (self : StateMachine) : GovernanceAction → Bool
  | .updateParam param _ => self.hasActiveProposalForParam param
  | .increaseShards _ _ => false

def submitProposal (self : StateMachine) (proposer : Address) (proposalId : Digest)
    (title description : Bytes) (actions : List GovernanceAction) (currentEra : U64) :
    Exec (Result Unit × StateMachine) := do
  let some acct ← self.getAccount proposer
    | return (.error (.accountNotFound proposer.raw), self)
  if acct.balance < proposalDeposit then
    return (.error (.insufficientBalance acct.balance proposalDeposit), self)
  if 256 < title.length then
    return (.error (.governanceRejected "title exceeds 256 bytes"), self)
  if 4096 < description.length then
    return (.error (.governanceRejected "description exceeds 4096 bytes"), self)
  if actions = [] then
    return (.error (.governanceRejected "proposal must have at least one action"), self)
  let .ok () := actions.forM validateAction | return (actions.forM validateAction, self)
  if maxActiveProposalsPerProposer ≤ (self.proposerActiveCount proposer).toNat then
    return (.error (.governanceRejected "max 5 active proposals per proposer"), self)
  if maxProposalsPerEra ≤ self.globalActiveCount.toNat then
    return (.error (.governanceRejected "max 50 proposals per era reached"), self)
  if actions.any self.targetsLocked then
    return (.error (.governanceRejected "an active proposal already targets this parameter"), self)
  let some acct ← self.getAccount proposer
    | throw (.expect "called `Option::unwrap()` on a `None` value")
  -- This copy is not written back.
  let _acct := { acct with
    balance := saturatingSub acct.balance proposalDeposit
    nonce := ← add acct.nonce 1 }
  let proposal : Proposal :=
    ⟨proposalId, proposer, title, description, actions, proposalDeposit, currentEra, .active⟩
  let machine := self.governanceInsert (propKey proposalId) (← Codec.proposal.write proposal)
  let machine ← machine.incrementProposerCount proposer
  let machine ← machine.incrementGlobalCount
  return (.ok (), machine)

def castVote (self : StateMachine) (proposalId : Digest) (voter : Address) (approve : Bool)
    (currentEra blockHeight : U64) : Exec (Result Unit × StateMachine) := do
  let some proposal := self.getProposal proposalId
    | return (.error .proposalNotFound, self)
  if proposal.status ≠ .active then
    return (.error (.governanceRejected "proposal is not active"), self)
  let windowEnd ← add proposal.submissionEra votingWindowEras
  if currentEra < proposal.submissionEra ∨ windowEnd ≤ currentEra then
    return (.error (.governanceRejected "voting window is closed"), self)
  let stake := ((self.getValidator voter).map ValidatorEntry.stake).getD 0
  if stake = 0 then
    return (.error (.governanceRejected "voter has no stake"), self)
  let vote : Governance.Vote := ⟨proposalId, voter, approve, stake, blockHeight⟩
  return (.ok (), self.governanceInsert (voteKey proposalId voter) (Codec.governanceVote.encode vote))

def cancelProposal (self : StateMachine) (proposalId : Digest) (caller : Address) :
    Exec (Result Unit × StateMachine) := do
  let some proposal := self.getProposal proposalId
    | return (.error .proposalNotFound, self)
  if proposal.proposer ≠ caller then
    return (.error (.governanceRejected "only the proposer may cancel"), self)
  if proposal.status ≠ .active then
    return (.error (.governanceRejected "proposal is not active"), self)
  if self.hasAnyVotes proposalId then
    return (.error (.governanceRejected "cannot cancel after votes are cast"), self)
  let some acct ← self.getAccount caller
    | return (.error (.accountNotFound caller.raw), self)
  -- This copy is not written back.
  let _acct := { acct with balance := saturatingAdd acct.balance proposal.deposit }
  let cancelled ← Codec.proposal.write { proposal with status := .cancelled }
  let machine := self.governanceInsert (propKey proposalId) cancelled
  let machine ← machine.decrementProposerCount caller
  let machine ← machine.decrementGlobalCount
  return (.ok (), machine)

/-- A stub: it approves nothing. -/
def tallyProposals (_self : StateMachine) (_currentEra : U64) : Result (List Digest) := .ok []

def applyAction (self : StateMachine) : GovernanceAction → StateMachine
  | .updateParam param newValue => self.governanceInsert (paramKey param) (Codec.u256.encode newValue)
  | .increaseShards _ _ => self

def executeProposal (self : StateMachine) (proposalId : Digest) : StateMachine :=
  match self.getProposal proposalId with
  | none => self
  | some proposal =>
    if proposal.status ≠ .approved then self else proposal.actions.foldl applyAction self

def executeApproved (self : StateMachine) (proposalIds : List Digest) : Result Unit × StateMachine :=
  let sorted := proposalIds.insertionSort fun a b => beValue a.bytes ≤ beValue b.bytes
  (.ok (), sorted.foldl executeProposal self)

def setProposalStatus (self : StateMachine) (proposalId : Digest) (status : ProposalStatus) :
    Exec StateMachine := do
  let some proposal := self.getProposal proposalId | return self
  let updated ← Codec.proposal.write { proposal with status }
  return self.governanceInsert (propKey proposalId) updated

end StateMachine

end Mononium
