import Mononium.Core.Types

/-! The SCALE layout of the core types, field by field in declaration order. The
laws come with the codecs: each type round-trips and has one encoding per value. -/
namespace Mononium

open Rust Scale

namespace Codec

open Scale.Codec

def u256 : Codec U256 := word 32
def u64 : Codec U64 := word 8
def u16 : Codec U16 := word 2
def digest : Codec Digest := fixed 32

def address : Codec Address := (fixed 32).iso ⟨Address.mk, Address.raw, fun _ => rfl, fun _ => rfl⟩

def account : Codec Account :=
  (pair u256 (pair u64 (option digest))).iso
    ⟨fun (balance, nonce, codeHash) => ⟨balance, nonce, codeHash⟩,
      fun a => (a.balance, a.nonce, a.codeHash), fun _ => rfl, fun _ => rfl⟩

inductive StatusKind where
  | registered | staked | active | unstaking | frozen | thawed
  deriving DecidableEq

def StatusKind.all : List StatusKind := [registered, staked, active, unstaking, frozen, thawed]

def StatusKind.code : StatusKind → UInt8
  | registered => 0
  | staked => 1
  | active => 2
  | unstaking => 3
  | frozen => 4
  | thawed => 5

def StatusKind.Payload : StatusKind → Type
  | staked => U256
  | unstaking => U64 × U256
  | frozen => U64
  | registered | active | thawed => Unit

def StatusKind.payload : (kind : StatusKind) → Codec kind.Payload
  | staked => u256
  | unstaking => pair u64 u256
  | frozen => u64
  | registered | active | thawed => unit

def StatusKind.build : (kind : StatusKind) × kind.Payload → ValidatorStatus
  | ⟨registered, _⟩ => .registered
  | ⟨staked, stake⟩ => .staked stake
  | ⟨active, _⟩ => .active
  | ⟨unstaking, (releaseEra, amount)⟩ => .unstaking releaseEra amount
  | ⟨frozen, frozenUntil⟩ => .frozen frozenUntil
  | ⟨thawed, _⟩ => .thawed

def StatusKind.split : ValidatorStatus → (kind : StatusKind) × kind.Payload
  | .registered => ⟨registered, ()⟩
  | .staked stake => ⟨staked, stake⟩
  | .active => ⟨active, ()⟩
  | .unstaking releaseEra amount => ⟨unstaking, (releaseEra, amount)⟩
  | .frozen frozenUntil => ⟨frozen, frozenUntil⟩
  | .thawed => ⟨thawed, ()⟩

def validatorStatus : Codec ValidatorStatus :=
  (sigma (index StatusKind.all StatusKind.code (by intro kind; cases kind <;> rfl))
    StatusKind.payload).iso
    ⟨StatusKind.build, StatusKind.split,
      by rintro ⟨kind, payload⟩; cases kind <;> rfl, by intro status; cases status <;> rfl⟩

def validatorEntry : Codec ValidatorEntry :=
  (pair address (pair (fixed 897) (pair u256 (pair validatorStatus u64)))).iso
    ⟨fun (address, publicKey, stake, status, registrationEra) =>
        ⟨address, publicKey, stake, status, registrationEra⟩,
      fun e => (e.address, e.publicKey, e.stake, e.status, e.registrationEra),
      fun _ => rfl, fun _ => rfl⟩

def GovernanceParam.all : List GovernanceParam :=
  [.maxValidators, .eraLength, .blockSizeCapBytes, .blockTxCap, .flatFee, .perByteRate,
    .antiSpamDeposit, .missedSlotPenalty, .supplyCeilingRate, .supplyHeadroomRate]

def GovernanceParam.code : GovernanceParam → UInt8
  | .maxValidators => 0
  | .eraLength => 1
  | .blockSizeCapBytes => 2
  | .blockTxCap => 3
  | .flatFee => 4
  | .perByteRate => 5
  | .antiSpamDeposit => 6
  | .missedSlotPenalty => 7
  | .supplyCeilingRate => 8
  | .supplyHeadroomRate => 9

def governanceParam : Codec GovernanceParam :=
  index GovernanceParam.all GovernanceParam.code (by intro param; cases param <;> rfl)

inductive ActionKind where
  | updateParam | increaseShards
  deriving DecidableEq

def ActionKind.code : ActionKind → UInt8
  | updateParam => 0
  | increaseShards => 1

def ActionKind.Payload : ActionKind → Type
  | updateParam => GovernanceParam × U256
  | increaseShards => U16 × U64

def ActionKind.payload : (kind : ActionKind) → Codec kind.Payload
  | updateParam => pair governanceParam u256
  | increaseShards => pair u16 u64

def ActionKind.build : (kind : ActionKind) × kind.Payload → GovernanceAction
  | ⟨updateParam, (param, newValue)⟩ => .updateParam param newValue
  | ⟨increaseShards, (newCount, effectiveEra)⟩ => .increaseShards newCount effectiveEra

def ActionKind.split : GovernanceAction → (kind : ActionKind) × kind.Payload
  | .updateParam param newValue => ⟨updateParam, (param, newValue)⟩
  | .increaseShards newCount effectiveEra => ⟨increaseShards, (newCount, effectiveEra)⟩

def governanceAction : Codec GovernanceAction :=
  (sigma (index [.updateParam, .increaseShards] ActionKind.code (by intro kind; cases kind <;> rfl))
    ActionKind.payload).iso
    ⟨ActionKind.build, ActionKind.split,
      by rintro ⟨kind, payload⟩; cases kind <;> rfl, by intro action; cases action <;> rfl⟩

def burnTarget : Codec BurnTarget :=
  index [.permanent, .capRefill] (fun target => match target with | .permanent => 0 | .capRefill => 1)
    (by intro target; cases target <;> rfl)

inductive TxKind where
  | transfer | registerValidator | stake | registerAndStake | unstake | burn
  | propose | vote | cancelProposal
  deriving DecidableEq

def TxKind.all : List TxKind :=
  [transfer, registerValidator, stake, registerAndStake, unstake, burn, propose, vote,
    cancelProposal]

def TxKind.code : TxKind → UInt8
  | transfer => 0
  | registerValidator => 1
  | stake => 2
  | registerAndStake => 3
  | unstake => 4
  | burn => 5
  | propose => 6
  | vote => 7
  | cancelProposal => 8

def TxKind.Payload : TxKind → Type
  | transfer | stake | registerAndStake | unstake => Address × U256
  | registerValidator => FixedBytes 897
  | burn => BurnTarget × U256
  | propose => Digest × Bytes × Bytes × List GovernanceAction
  | vote => Digest × Bool
  | cancelProposal => Digest

def TxKind.payload : (kind : TxKind) → Codec kind.Payload
  | transfer | stake | registerAndStake | unstake => pair address u256
  | registerValidator => fixed 897
  | burn => pair burnTarget u256
  | propose => pair digest (pair (vec byte) (pair (vec byte) (vec governanceAction)))
  | vote => pair digest boolean
  | cancelProposal => digest

def TxKind.build : (kind : TxKind) × kind.Payload → TxBody
  | ⟨transfer, (recipient, amount)⟩ => .transfer recipient amount
  | ⟨registerValidator, publicKey⟩ => .registerValidator publicKey
  | ⟨stake, (validator, amount)⟩ => .stake validator amount
  | ⟨registerAndStake, (validator, amount)⟩ => .registerAndStake validator amount
  | ⟨unstake, (validator, amount)⟩ => .unstake validator amount
  | ⟨burn, (target, amount)⟩ => .burn target amount
  | ⟨propose, (proposalId, title, description, actions)⟩ =>
    .propose proposalId title description actions
  | ⟨vote, (proposalId, approve)⟩ => .vote proposalId approve
  | ⟨cancelProposal, proposalId⟩ => .cancelProposal proposalId

def TxKind.split : TxBody → (kind : TxKind) × kind.Payload
  | .transfer recipient amount => ⟨transfer, (recipient, amount)⟩
  | .registerValidator publicKey => ⟨registerValidator, publicKey⟩
  | .stake validator amount => ⟨stake, (validator, amount)⟩
  | .registerAndStake validator amount => ⟨registerAndStake, (validator, amount)⟩
  | .unstake validator amount => ⟨unstake, (validator, amount)⟩
  | .burn target amount => ⟨burn, (target, amount)⟩
  | .propose proposalId title description actions =>
    ⟨propose, (proposalId, title, description, actions)⟩
  | .vote proposalId approve => ⟨vote, (proposalId, approve)⟩
  | .cancelProposal proposalId => ⟨cancelProposal, proposalId⟩

def txBody : Codec TxBody :=
  (sigma (index TxKind.all TxKind.code (by intro kind; cases kind <;> rfl)) TxKind.payload).iso
    ⟨TxKind.build, TxKind.split,
      by rintro ⟨kind, payload⟩; cases kind <;> rfl, by intro body; cases body <;> rfl⟩

/-- A signature is written raw, without a length. -/
def transaction : Codec Transaction :=
  (pair u64 (pair u64 (pair address (pair u256 (pair txBody (fixed 809)))))).iso
    ⟨fun (chainId, nonce, sender, fee, body, signature) =>
        ⟨chainId, nonce, sender, fee, body, signature⟩,
      fun tx => (tx.chainId, tx.nonce, tx.sender, tx.fee, tx.body, tx.signature),
      fun _ => rfl, fun _ => rfl⟩

def blockHeader : Codec BlockHeader :=
  (pair u64 (pair digest (pair digest (pair digest (pair u64 (pair address
    (pair u64 (fixed 809)))))))).iso
    ⟨fun (height, parentHash, globalStateRoot, txRoot, timestamp, proposer, chainId, signature) =>
        ⟨height, parentHash, globalStateRoot, txRoot, timestamp, proposer, chainId, signature⟩,
      fun h => (h.height, h.parentHash, h.globalStateRoot, h.txRoot, h.timestamp, h.proposer,
        h.chainId, h.proposerSignature),
      fun _ => rfl, fun _ => rfl⟩

def blockBody : Codec BlockBody :=
  (vec transaction).iso ⟨BlockBody.mk, BlockBody.transactions, fun _ => rfl, fun _ => rfl⟩

def block : Codec Block :=
  (pair blockHeader blockBody).iso
    ⟨fun (header, body) => ⟨header, body⟩, fun b => (b.header, b.body), fun _ => rfl, fun _ => rfl⟩

def commitVote : Codec CommitVote :=
  (pair u64 (pair digest (pair address (fixed 809)))).iso
    ⟨fun (height, blockHash, validator, signature) => ⟨height, blockHash, validator, signature⟩,
      fun v => (v.height, v.blockHash, v.validator, v.signature), fun _ => rfl, fun _ => rfl⟩

def ProposalStatus.all : List ProposalStatus := [.active, .approved, .rejected, .expired, .cancelled]

def ProposalStatus.code : ProposalStatus → UInt8
  | .active => 0
  | .approved => 1
  | .rejected => 2
  | .expired => 3
  | .cancelled => 4

def proposalStatus : Codec ProposalStatus :=
  index ProposalStatus.all ProposalStatus.code (by intro status; cases status <;> rfl)

def proposal : Codec Proposal :=
  (pair digest (pair address (pair (vec byte) (pair (vec byte) (pair (vec governanceAction)
    (pair u256 (pair u64 proposalStatus))))))).iso
    ⟨fun (proposalId, proposer, title, description, actions, deposit, submissionEra, status) =>
        ⟨proposalId, proposer, title, description, actions, deposit, submissionEra, status⟩,
      fun p => (p.proposalId, p.proposer, p.title, p.description, p.actions, p.deposit,
        p.submissionEra, p.status),
      fun _ => rfl, fun _ => rfl⟩

def governanceVote : Codec Governance.Vote :=
  (pair digest (pair address (pair boolean (pair u256 u64)))).iso
    ⟨fun (proposalId, voter, approve, weight, blockHeight) =>
        ⟨proposalId, voter, approve, weight, blockHeight⟩,
      fun v => (v.proposalId, v.voter, v.approve, v.weight, v.blockHeight),
      fun _ => rfl, fun _ => rfl⟩

end Codec

@[simp] theorem account_fits (a : Account) : Codec.account.fits a = true := by
  obtain ⟨balance, nonce, codeHash⟩ := a
  cases codeHash <;> rfl

@[simp] theorem validatorEntry_fits (e : ValidatorEntry) : Codec.validatorEntry.fits e = true := by
  obtain ⟨address, publicKey, stake, status, era⟩ := e
  cases status <;> rfl

theorem account_encode_length {x : Account} (plain : x.codeHash = none) :
    (Codec.account.encode x).length = 41 := by
  obtain ⟨balance, nonce, _⟩ := x
  cases plain
  change (leBytes 32 balance.toNat ++ (leBytes 8 nonce.toNat ++ [0])).length = 41
  simp

theorem validatorEntry_encode_length (e : ValidatorEntry) :
    929 ≤ (Codec.validatorEntry.encode e).length := by
  change 929 ≤ (e.address.raw.bytes ++ (e.publicKey.bytes ++ _)).length
  rw [List.length_append, List.length_append, e.address.raw.length, e.publicKey.length]
  omega

@[simp] theorem blockHeader_fits (h : BlockHeader) : Codec.blockHeader.fits h = true := rfl

/-- What decodes as a block has a number of transactions that fits 32 bits. -/
theorem block_fits_length {b : Block} (fits : Codec.block.fits b = true) :
    b.body.transactions.length < 2 ^ 32 := by
  have parts : (Codec.blockHeader.fits b.header &&
      (Codec.vec Codec.transaction).fits b.body.transactions) = true := fits
  rw [Bool.and_eq_true] at parts
  exact (Codec.vec_fits_iff.mp parts.2).1

/-! A count that needs more than 32 bits cannot be written. These are the values
without such a count. -/

def Counted (items : List α) : Prop := items.length < 2 ^ 32

def TxBody.Encodable : TxBody → Prop
  | .propose _ title description actions => Counted title ∧ Counted description ∧ Counted actions
  | _ => True

def Transaction.Encodable (tx : Transaction) : Prop := tx.body.Encodable

def Block.Encodable (block : Block) : Prop :=
  Counted block.body.transactions ∧ ∀ tx ∈ block.body.transactions, tx.Encodable

def Proposal.Encodable (p : Proposal) : Prop :=
  Counted p.title ∧ Counted p.description ∧ Counted p.actions

theorem vec_fits {c : Codec α} {encodable : α → Prop} (fits : ∀ a, c.fits a = true ↔ encodable a)
    (items : List α) : (Codec.vec c).fits items = true ↔ Counted items ∧ ∀ a ∈ items, encodable a := by
  rw [Codec.vec_fits_iff, Counted]
  simp only [fits]

/-- Elements without counts of their own leave only the outer count. -/
theorem vec_fits_plain {c : Codec α} (fits : ∀ a, c.fits a = true) (items : List α) :
    (Codec.vec c).fits items = true ↔ Counted items := by
  have plain : ∀ a, c.fits a = true ↔ True := fun a => iff_of_true (fits a) trivial
  rw [vec_fits plain]
  simp

theorem governanceAction_fits (action : GovernanceAction) :
    Codec.governanceAction.fits action = true := by
  cases action <;> rfl

theorem proposed_fits (title description : Bytes) (actions : List GovernanceAction) :
    ((Codec.vec Codec.byte).fits title && ((Codec.vec Codec.byte).fits description &&
      (Codec.vec Codec.governanceAction).fits actions)) = true ↔
      Counted title ∧ Counted description ∧ Counted actions := by
  rw [Bool.and_eq_true, Bool.and_eq_true, vec_fits_plain fun _ => rfl, vec_fits_plain fun _ => rfl,
    vec_fits_plain governanceAction_fits]

theorem txBody_fits (body : TxBody) : Codec.txBody.fits body = true ↔ body.Encodable := by
  cases body with
  | propose proposalId title description actions => exact proposed_fits title description actions
  | _ => exact iff_of_true rfl trivial

theorem transaction_fits (tx : Transaction) : Codec.transaction.fits tx = true ↔ tx.Encodable := by
  have parts : Codec.transaction.fits tx = Codec.txBody.fits tx.body := by
    change (true && (true && (true && (true && (Codec.txBody.fits tx.body && true))))) = _
    simp
  rw [parts, txBody_fits, Transaction.Encodable]

theorem block_fits (block : Block) : Codec.block.fits block = true ↔ block.Encodable := by
  have parts : Codec.block.fits block =
      (Codec.vec Codec.transaction).fits block.body.transactions := by
    change (Codec.blockHeader.fits block.header && _) = _
    rw [blockHeader_fits, Bool.true_and]
    rfl
  rw [parts, vec_fits transaction_fits, Block.Encodable]

theorem proposal_fits (p : Proposal) : Codec.proposal.fits p = true ↔ p.Encodable := by
  have parts : Codec.proposal.fits p =
      ((Codec.vec Codec.byte).fits p.title && ((Codec.vec Codec.byte).fits p.description &&
        (Codec.vec Codec.governanceAction).fits p.actions)) := by
    change (true && (true && ((Codec.vec Codec.byte).fits p.title &&
      ((Codec.vec Codec.byte).fits p.description && ((Codec.vec Codec.governanceAction).fits p.actions &&
        (true && (true && true))))))) = _
    simp only [Bool.true_and, Bool.and_true]
  rw [parts, proposed_fits, Proposal.Encodable]

end Mononium
