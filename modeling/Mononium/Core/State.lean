import Mononium.Core.Codec
import Mononium.Crypto.Trie
import Mathlib.Data.Finset.Insert
import Mathlib.Data.List.Sort

/-! The state machine of `core::state`. Accounts and validator entries live in the
sparse Merkle tree under namespaced keys; the active set and the validator index
live beside it. A handler receives the sender's account by value, as the block loop
holds it in a local: what it returns for the account is written back by the loop,
whether or not the handler succeeded. -/
namespace Mononium

open Rust Scale

structure StateMachine where
  state : SparseMerkleTree
  activeSet : List Address
  validators : Finset Address

structure BlockReceipt where
  totalFees : U128
  txCount : U32
  failedCount : U32
  stateRoot : Digest
  deriving DecidableEq, Repr

structure SlashResult where
  slashedAmount : U256
  burnAmount : U256
  bountyAmount : U256
  remainingStake : U256
  deriving DecidableEq, Repr

structure Executed where
  machine : StateMachine
  sender : Account
  result : Result Unit

/-- `scale_decode_account`; trailing bytes are not looked at. -/
def scaleDecodeAccount (bytes : Bytes) : Exec Account :=
  match Codec.account.decode bytes with
  | some (account, _) => .ok account
  | none => .error (.expect "valid SCALE-encoded Account")

/-- The fee as far as it fits 128 bits. -/
def feeAsU128 (fee : U256) : U128 :=
  let cap : U256 := (BitVec.allOnes 128).setWidth 256
  (if fee ≤ cap then fee else cap).setWidth 128

def accountKey (a : Address) : Bytes := namespaceKey nsAccounts a.asBytes
def validatorKey (a : Address) : Bytes := namespaceKey nsValidators a.asBytes
def governanceKey (subKey : Bytes) : Bytes := namespaceKey nsGovernance subKey

namespace StateMachine

variable [Blake3]

def stateRoot (self : StateMachine) : Exec (Digest × StateMachine) := do
  let (root, state) ← self.state.root
  return (root, { self with state })

def getAccount (self : StateMachine) (a : Address) : Exec (Option Account) :=
  match self.state.get (accountKey a) with
  | none => .ok none
  | some bytes => some <$> scaleDecodeAccount bytes

/-- An entry that does not decode counts as absent. -/
def getValidator (self : StateMachine) (a : Address) : Option ValidatorEntry :=
  (self.state.get (validatorKey a)).bind fun bytes => (Codec.validatorEntry.decode bytes).map Prod.fst

def setAccount (self : StateMachine) (a : Address) (account : Account) : StateMachine :=
  { self with state := self.state.insert (accountKey a) (Codec.account.encode account) }

def setValidator (self : StateMachine) (a : Address) (entry : ValidatorEntry) : StateMachine :=
  { self with
    state := self.state.insert (validatorKey a) (Codec.validatorEntry.encode entry)
    validators := insert a self.validators }

def governanceInsert (self : StateMachine) (subKey value : Bytes) : StateMachine :=
  { self with state := self.state.insert (governanceKey subKey) value }

def governanceGet (self : StateMachine) (subKey : Bytes) : Option Bytes :=
  self.state.get (governanceKey subKey)

def new (initialAccounts : List (Address × Account)) : StateMachine :=
  ⟨initialAccounts.foldl (fun state p => state.insert (accountKey p.1) (Codec.account.encode p.2))
    SparseMerkleTree.new, [], ∅⟩

def setActiveSet (self : StateMachine) (activeSet : List Address) : StateMachine :=
  { self with activeSet }

def creditBalance (self : StateMachine) (a : Address) (amount : U256) : Exec StateMachine := do
  let account := (← self.getAccount a).getD (Account.new 0)
  return self.setAccount a { account with balance := saturatingAdd account.balance amount }

/-- Stake descending, then address ascending. -/
def remainderOrder (p q : U256 × Address) : Prop :=
  q.1 < p.1 ∨ p.1 = q.1 ∧ beValue p.2.asBytes ≤ beValue q.2.asBytes

instance : DecidableRel remainderOrder := fun _ _ => inferInstanceAs (Decidable (_ ∨ _ ∧ _))

/-- The stakes of the members of the active set that have an entry. -/
def stakePairs (self : StateMachine) : List (U256 × Address) :=
  self.activeSet.filterMap fun a => (self.getValidator a).map fun v => (v.stake, a)

/-- One round of the distribution loop, with the amount distributed so far. -/
def creditShare (total totalStake : U256) (acc : StateMachine × U256) (pair : U256 × Address) :
    Exec (StateMachine × U256) := do
  let share ← div (← mul total pair.1) totalStake
  if share = 0 then
    return acc
  let machine ← acc.1.creditBalance pair.2 share
  return (machine, saturatingAdd acc.2 share)

/-- `slice::sort_by` is stable, and so is insertion sort. -/
def distributeFees (self : StateMachine) (totalFees : U128) : Exec StateMachine := do
  if totalFees = 0 ∨ self.activeSet = [] then
    return self
  let total : U256 := totalFees.setWidth 256
  let pairs := self.stakePairs
  let totalStake := pairs.foldl (fun sum p => saturatingAdd sum p.1) 0
  if totalStake = 0 then
    return self
  let pairs := pairs.insertionSort remainderOrder
  let (machine, distributed) ← pairs.foldlM (creditShare total totalStake) (self, 0)
  if distributed < total then
    match pairs.head? with
    | some (_, a) =>
      let remainder ← sub total distributed
      machine.creditBalance a remainder
    | none => return machine
  else
    return machine

def tryTransfer (self : StateMachine) (sender : Account) (recipient : Address)
    (amount fee : U256) (nonce : U64) : Exec Executed := do
  if sender.nonce ≠ nonce then
    return ⟨self, sender, .error (.invalidNonce sender.nonce nonce)⟩
  let totalDebit ← add amount fee
  if sender.balance < totalDebit then
    return ⟨self, sender, .error (.insufficientBalance sender.balance totalDebit)⟩
  let balance ← sub sender.balance totalDebit
  let nextNonce ← add sender.nonce 1
  -- The recipient is read from the store, which still holds the sender's old account.
  let account := (← self.getAccount recipient).getD (Account.new 0)
  let credited ← add account.balance amount
  return ⟨self.setAccount recipient { account with balance := credited },
    { sender with balance, nonce := nextNonce }, .ok ()⟩

def applyRegisterValidator (self : StateMachine) (sender : Account) (a : Address)
    (publicKey : FixedBytes 897) (fee : U256) (nonce : U64) : Exec Executed := do
  if (self.getValidator a).isSome then
    return ⟨self, sender, .error (.consensus "already registered")⟩
  if sender.nonce ≠ nonce then
    return ⟨self, sender, .error (.invalidNonce sender.nonce nonce)⟩
  let totalDebit ← add fee antiSpamDeposit
  if sender.balance < totalDebit then
    return ⟨self, sender, .error (.insufficientBalance sender.balance totalDebit)⟩
  let balance ← sub sender.balance totalDebit
  let nextNonce ← add sender.nonce 1
  return ⟨self.setValidator a ⟨a, publicKey, 0, .registered, 0⟩,
    { sender with balance, nonce := nextNonce }, .ok ()⟩

def applyStake (self : StateMachine) (sender : Account) (validator : Address)
    (amount fee : U256) (nonce : U64) : Exec Executed := do
  if sender.nonce ≠ nonce then
    return ⟨self, sender, .error (.invalidNonce sender.nonce nonce)⟩
  let some entry := self.getValidator validator
    | return ⟨self, sender, .error (.validatorNotFound validator.raw)⟩
  if entry.status.isFrozenOrUnstaking then
    return ⟨self, sender, .error (.consensus "validator is frozen or unstaking")⟩
  if amount = 0 then
    return ⟨self, sender, .error (.consensus "stake amount must be > 0")⟩
  let totalDebit ← add fee amount
  if sender.balance < totalDebit then
    return ⟨self, sender, .error (.insufficientBalance sender.balance totalDebit)⟩
  let balance ← sub sender.balance totalDebit
  let nextNonce ← add sender.nonce 1
  let sender := { sender with balance, nonce := nextNonce }
  let some newStake := checkedAdd entry.stake amount
    | return ⟨self, sender, .error (.consensus "stake overflow")⟩
  let status := if entry.status = .registered then .staked newStake else entry.status
  return ⟨self.setValidator validator { entry with stake := newStake, status }, sender, .ok ()⟩

def applyRegisterAndStake (self : StateMachine) (sender : Account) (senderAddr validator : Address)
    (amount fee : U256) (nonce : U64) : Exec Executed := do
  if validator ≠ senderAddr then
    return ⟨self, sender, .error (.consensus "register-and-stake validator must equal sender")⟩
  if sender.nonce ≠ nonce then
    return ⟨self, sender, .error (.invalidNonce sender.nonce nonce)⟩
  if (self.getValidator senderAddr).isSome then
    return ⟨self, sender, .error (.consensus "already registered")⟩
  if amount = 0 then
    return ⟨self, sender, .error (.consensus "stake amount must be > 0")⟩
  let totalDebit ← add (← add fee antiSpamDeposit) amount
  if sender.balance < totalDebit then
    return ⟨self, sender, .error (.insufficientBalance sender.balance totalDebit)⟩
  let balance ← sub sender.balance totalDebit
  let nextNonce ← add sender.nonce 1
  return ⟨self.setValidator senderAddr
      ⟨senderAddr, FixedBytes.replicate 897 0, amount, .staked amount, 0⟩,
    { sender with balance, nonce := nextNonce }, .ok ()⟩

def applyUnstake (self : StateMachine) (sender : Account) (validator : Address)
    (amount fee : U256) (nonce currentEra : U64) : Exec Executed := do
  if sender.nonce ≠ nonce then
    return ⟨self, sender, .error (.invalidNonce sender.nonce nonce)⟩
  let some entry := self.getValidator validator
    | return ⟨self, sender, .error (.validatorNotFound validator.raw)⟩
  if entry.status.isFrozen then
    return ⟨self, sender, .error (.consensus "validator is frozen")⟩
  if amount = 0 then
    return ⟨self, sender, .error (.consensus "unstake amount must be > 0")⟩
  if entry.stake < amount then
    return ⟨self, sender, .error (.consensus "unstake amount exceeds validator stake")⟩
  if sender.balance < fee then
    return ⟨self, sender, .error (.insufficientBalance sender.balance fee)⟩
  -- From here on the sender's copy is already charged, also when an error follows.
  let balance ← sub sender.balance fee
  let nextNonce ← add sender.nonce 1
  let sender := { sender with balance, nonce := nextNonce }
  let releaseEra ← add currentEra unstakingCooldownEras
  match entry.status with
  | .unstaking existingEra existingAmount =>
    let some newAmount := checkedAdd existingAmount amount
      | return ⟨self, sender, .error (.consensus "unstake overflow")⟩
    if entry.stake < newAmount then
      return ⟨self, sender, .error (.consensus "cumulative unstake exceeds validator stake")⟩
    return ⟨self.setValidator validator { entry with status := .unstaking existingEra newAmount },
      sender, .ok ()⟩
  | _ =>
    return ⟨self.setValidator validator { entry with status := .unstaking releaseEra amount },
      sender, .ok ()⟩

/-- The three governance handlers are stubs that only charge the fee. -/
def chargeFee (self : StateMachine) (sender : Account) (fee : U256) (nonce : U64) :
    Exec Executed := do
  if sender.nonce ≠ nonce then
    return ⟨self, sender, .error (.invalidNonce sender.nonce nonce)⟩
  if sender.balance < fee then
    return ⟨self, sender, .error (.insufficientBalance sender.balance fee)⟩
  let nextNonce ← add sender.nonce 1
  return ⟨self, { sender with balance := saturatingSub sender.balance fee, nonce := nextNonce },
    .ok ()⟩

def applyPropose (self : StateMachine) (sender : Account) (fee : U256) (nonce : U64) :=
  self.chargeFee sender fee nonce

def applyGovVote (self : StateMachine) (sender : Account) (fee : U256) (nonce : U64) :=
  self.chargeFee sender fee nonce

def applyCancelProposal (self : StateMachine) (sender : Account) (fee : U256) (nonce : U64) :=
  self.chargeFee sender fee nonce

end StateMachine

end Mononium
