import Mononium.Core.State

/-! Block execution, the era-boundary hooks, the election and slashing, and the
runs they make up. An operation of a run names every address it touches, so that a
set of addresses closed under a run can be stated. -/
namespace Mononium

open Rust Scale

def burnDestination : BurnTarget → Address
  | .permanent => burnAddress
  | .capRefill => capRefillAddress

/-- The local variables of the block loop. -/
structure Progress where
  machine : StateMachine
  blockFees : U128
  txCount : U32
  failedCount : U32

namespace StateMachine

variable [Blake3]

/-- The dispatch on the transaction body. Unstaking runs with era 0. -/
def execute (self : StateMachine) (sender : Account) (tx : Transaction) : Exec Executed :=
  match tx.body with
  | .transfer recipient amount => self.tryTransfer sender recipient amount tx.fee tx.nonce
  | .burn target amount => self.tryTransfer sender (burnDestination target) amount tx.fee tx.nonce
  | .registerValidator publicKey =>
    self.applyRegisterValidator sender tx.sender publicKey tx.fee tx.nonce
  | .stake validator amount => self.applyStake sender validator amount tx.fee tx.nonce
  | .registerAndStake validator amount =>
    self.applyRegisterAndStake sender tx.sender validator amount tx.fee tx.nonce
  | .unstake validator amount => self.applyUnstake sender validator amount tx.fee tx.nonce 0
  | .propose _ _ _ _ => self.applyPropose sender tx.fee tx.nonce
  | .vote _ _ => self.applyGovVote sender tx.fee tx.nonce
  | .cancelProposal _ => self.applyCancelProposal sender tx.fee tx.nonce

def applyTx (chainId : U64) (p : Progress) (tx : Transaction) : Exec Progress := do
  if tx.chainId ≠ chainId then
    return { p with failedCount := ← add p.failedCount 1 }
  let some sender ← p.machine.getAccount tx.sender
    | return { p with failedCount := ← add p.failedCount 1 }
  let done ← p.machine.execute sender tx
  match done.result with
  | .ok () =>
    return {
      machine := done.machine.setAccount tx.sender done.sender
      blockFees := ← add p.blockFees (feeAsU128 tx.fee)
      txCount := ← add p.txCount 1
      failedCount := p.failedCount }
  | .error _ =>
    if tx.fee ≤ done.sender.balance then
      let balance ← sub done.sender.balance tx.fee
      return {
        machine := done.machine.setAccount tx.sender { done.sender with balance }
        blockFees := ← add p.blockFees (feeAsU128 tx.fee)
        txCount := p.txCount
        failedCount := ← add p.failedCount 1 }
    else
      return { p with machine := done.machine, failedCount := ← add p.failedCount 1 }

def applyTxs (chainId : U64) (p : Progress) (txs : List Transaction) : Exec Progress :=
  txs.foldlM (applyTx chainId) p

def applyBlock (self : StateMachine) (block : Block) : Exec (BlockReceipt × StateMachine) := do
  let p ← applyTxs block.header.chainId ⟨self, 0, 0, 0⟩ block.body.transactions
  let machine ← p.machine.distributeFees p.blockFees
  let (root, machine) ← machine.stateRoot
  return (⟨p.blockFees, p.txCount, p.failedCount, root⟩, machine)

def processUnstakingCooldown (self : StateMachine) (validator : Address) (currentEra : U64) :
    Exec StateMachine := do
  let some entry := self.getValidator validator | return self
  let .unstaking releaseEra amount := entry.status | return self
  if currentEra < releaseEra then
    return self
  if entry.stake ≤ amount then
    return self.setValidator validator { entry with stake := 0, status := .registered }
  let newStake ← sub entry.stake amount
  let status := if minStake ≤ newStake then .staked newStake else .registered
  return self.setValidator validator { entry with stake := newStake, status }

/-- The flag tells whether the validator was thawed. -/
def processThaw (self : StateMachine) (validator : Address) (currentEra : U64) :
    StateMachine × Bool :=
  match self.getValidator validator with
  | none => (self, false)
  | some entry =>
    match entry.status with
    | .frozen frozenUntil =>
      if currentEra < frozenUntil then (self, false)
      else
        let status := if minStake ≤ entry.stake then .thawed else .registered
        (self.setValidator validator { entry with status }, true)
    | _ => (self, false)

def thawAll (self : StateMachine) (addrs : List Address) (currentEra : U64) : StateMachine × Nat :=
  addrs.foldl (fun (machine, count) a =>
    let (machine, thawed) := machine.processThaw a currentEra
    (machine, if thawed then count + 1 else count)) (self, 0)

/-- Stake descending, then registration era ascending. -/
def electionOrder (a b : ValidatorEntry) : Prop :=
  b.stake < a.stake ∨ a.stake = b.stake ∧ a.registrationEra ≤ b.registrationEra

instance : DecidableRel electionOrder := fun _ _ => inferInstanceAs (Decidable (_ ∨ _ ∧ _))

def eligible (self : StateMachine) (candidates : List Address) : List ValidatorEntry :=
  candidates.filterMap fun a => (self.getValidator a).filter fun e => !e.status.isFrozenOrUnstaking

def elected (self : StateMachine) (candidates : List Address) (max : Nat) (era : U64) :
    List ValidatorEntry :=
  if era = 0 then (self.eligible candidates).take max
  else (((self.eligible candidates).insertionSort electionOrder).filter
    fun e => minStake ≤ e.stake).take max

def activated (entry : ValidatorEntry) : ValidatorEntry :=
  match entry.status with
  | .registered | .staked _ | .thawed => { entry with status := .active }
  | _ => entry

def runElection (self : StateMachine) (candidates : List Address) (max : Nat) (era : U64) :
    List Address × StateMachine :=
  let elected := self.elected candidates max era
  (elected.map (·.address),
    elected.foldl (fun machine e => machine.setValidator (activated e).address (activated e)) self)

/-- Slash and burn write the account of the burn address, then of the reporter. -/
def applySlash (self : StateMachine) (proposer reporter : Address) (currentEra : U64) :
    Exec (Result SlashResult × StateMachine) := do
  let some entry := self.getValidator proposer
    | return (.error (.validatorNotFound proposer.raw), self)
  if entry.status.isFrozen then
    return (.error .alreadyFrozen, self)
  let slashed ← div (← mul entry.stake 90) 100
  let burnAmount ← div (← mul slashed 90) 100
  let bounty ← div (← mul slashed 10) 100
  let remaining ← sub entry.stake slashed
  let machine ← self.creditBalance burnAddress burnAmount
  let machine ← machine.creditBalance reporter bounty
  let frozenUntil ← add currentEra 72
  let machine := machine.setValidator proposer
    { entry with stake := remaining, status := .frozen frozenUntil }
  return (.ok ⟨slashed, burnAmount, bounty, remaining⟩, machine)

end StateMachine

end Mononium
