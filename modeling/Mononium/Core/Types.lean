import Mononium.Lib.Scale

/-! The data model of `core`: accounts, validators, transactions and blocks, with
the constants the state machine reads. Every integer has the width of the source
and every fixed array its length, so values outside those ranges do not exist. -/
namespace Mononium

open Rust Scale

abbrev U256 := BitVec 256
abbrev U128 := BitVec 128
abbrev U64 := BitVec 64
abbrev U32 := BitVec 32
abbrev U16 := BitVec 16

/-- A 32-byte hash or any other `[u8; 32]` that is not an address. -/
abbrev Digest := FixedBytes 32

/-- BLAKE3 is a library function. Nothing about its values is assumed here; what
a result needs of them it states as a hypothesis on the inputs it hashes. -/
class Blake3 where
  hash : Bytes → Digest

def blake3 [Blake3] (input : Bytes) : Digest := Blake3.hash input

theorem padded_length (input : Bytes) : ((input ++ List.replicate 32 0).take 32).length = 32 := by simp

/-- A stand-in for BLAKE3 that keeps apart the tree keys of addresses which differ in
their first 31 bytes. Concrete runs are evaluated with it. -/
abbrev prefixBlake3 : Blake3 :=
  ⟨fun input => ⟨(input ++ List.replicate 32 0).take 32, padded_length input⟩⟩

structure Address where
  raw : FixedBytes 32
  deriving DecidableEq, Repr

def Address.asBytes (a : Address) : Bytes := a.raw.bytes

theorem Address.asBytes_injective : Function.Injective Address.asBytes := by
  intro a b same
  cases a; cases b
  exact congrArg Address.mk (FixedBytes.ext same)

@[simp] theorem Address.asBytes_length (a : Address) : a.asBytes.length = 32 := a.raw.length

def beValue (bytes : Bytes) : Nat := leValue bytes.reverse

theorem beValue_injective {a b : Bytes} (length : a.length = b.length)
    (same : beValue a = beValue b) : a = b := by
  have ha := leBytes_leValue a.reverse
  have hb := leBytes_leValue b.reverse
  rw [List.length_reverse] at ha hb
  have : a.reverse = b.reverse := by
    rw [← ha, ← hb, length]
    exact congrArg (leBytes b.length) same
  exact List.reverse_injective this

def repeated (byte : UInt8) : Address := ⟨FixedBytes.replicate 32 byte⟩

/-- `0x00..00`, the sink of permanent burns and of slashed stake. -/
def burnAddress : Address := repeated 0

/-- `0x00..01`. -/
def capRefillAddress : Address :=
  ⟨⟨List.replicate 31 0 ++ [1], by simp⟩⟩

/-- Four 64-bit limbs, least significant first. -/
def limbs (a b c d : Nat) : U256 :=
  BitVec.ofNat 256 (a + b * 2 ^ 64 + c * 2 ^ 128 + d * 2 ^ 192)

def oneMonex : U256 := limbs 9632337040368467968 5421010862427 0 0
def antiSpamDeposit : U256 := limbs 1522216674051227648 1788933584601 0 0
def minStake : U256 := oneMonex
def unstakingCooldownEras : U64 := 168
def maxValidators : Nat := 101

example : oneMonex.toNat = 10 ^ 32 := by decide

/-- The variants of `LibError` that the modelled functions construct. -/
inductive LibError where
  | insufficientBalance (have_ need : U256)
  | invalidNonce (expected got : U64)
  | accountNotFound (address : FixedBytes 32)
  | validatorNotFound (address : FixedBytes 32)
  | proposalNotFound
  | governanceRejected (reason : String)
  | consensus (reason : String)
  | storage (reason : String)
  | invalidAddress (text : String)
  | alreadyFrozen
  | equivocationHeightMismatch (a b : U64)
  | equivocationParentMismatch
  | equivocationIdenticalBlocks
  | equivocationSigAInvalid
  | equivocationSigBInvalid
  deriving DecidableEq, Repr

abbrev Result (α : Type) := Except LibError α

structure Account where
  balance : U256
  nonce : U64
  codeHash : Option Digest
  deriving DecidableEq, Repr

def Account.new (balance : U256) : Account := ⟨balance, 0, none⟩

inductive ValidatorStatus where
  | registered
  | staked (stake : U256)
  | active
  | unstaking (releaseEra : U64) (amount : U256)
  | frozen (frozenUntil : U64)
  | thawed
  deriving DecidableEq, Repr

def ValidatorStatus.isFrozen : ValidatorStatus → Bool
  | .frozen _ => true
  | _ => false

def ValidatorStatus.isFrozenOrUnstaking : ValidatorStatus → Bool
  | .frozen _ | .unstaking _ _ => true
  | _ => false

structure ValidatorEntry where
  address : Address
  publicKey : FixedBytes 897
  stake : U256
  status : ValidatorStatus
  registrationEra : U64
  deriving DecidableEq, Repr

inductive GovernanceParam where
  | maxValidators
  | eraLength
  | blockSizeCapBytes
  | blockTxCap
  | flatFee
  | perByteRate
  | antiSpamDeposit
  | missedSlotPenalty
  | supplyCeilingRate
  | supplyHeadroomRate
  deriving DecidableEq, Repr

inductive GovernanceAction where
  | updateParam (param : GovernanceParam) (newValue : U256)
  | increaseShards (newCount : U16) (effectiveEra : U64)
  deriving DecidableEq, Repr

inductive BurnTarget where
  | permanent
  | capRefill
  deriving DecidableEq, Repr

inductive TxBody where
  | transfer (recipient : Address) (amount : U256)
  | registerValidator (publicKey : FixedBytes 897)
  | stake (validator : Address) (amount : U256)
  | registerAndStake (validator : Address) (amount : U256)
  | unstake (validator : Address) (amount : U256)
  | burn (target : BurnTarget) (amount : U256)
  | propose (proposalId : Digest) (title description : Bytes) (actions : List GovernanceAction)
  | vote (proposalId : Digest) (approve : Bool)
  | cancelProposal (proposalId : Digest)
  deriving DecidableEq, Repr

/-- `FALCON_SIGNATURE_SIZE` is 809; the constructor checks the length. -/
abbrev Falcon512Signature := FixedBytes 809

abbrev Falcon512PublicKey := FixedBytes 897

structure Transaction where
  chainId : U64
  nonce : U64
  sender : Address
  fee : U256
  body : TxBody
  signature : Falcon512Signature
  deriving DecidableEq, Repr

structure BlockHeader where
  height : U64
  parentHash : Digest
  globalStateRoot : Digest
  txRoot : Digest
  timestamp : U64
  proposer : Address
  chainId : U64
  proposerSignature : Falcon512Signature
  deriving DecidableEq, Repr

structure BlockBody where
  transactions : List Transaction
  deriving DecidableEq, Repr

structure Block where
  header : BlockHeader
  body : BlockBody
  deriving DecidableEq, Repr

structure CommitVote where
  height : U64
  blockHash : Digest
  validator : Address
  signature : Falcon512Signature
  deriving DecidableEq, Repr

inductive ProposalStatus where
  | active
  | approved
  | rejected
  | expired
  | cancelled
  deriving DecidableEq, Repr

structure Proposal where
  proposalId : Digest
  proposer : Address
  title : Bytes
  description : Bytes
  actions : List GovernanceAction
  deposit : U256
  submissionEra : U64
  status : ProposalStatus
  deriving DecidableEq, Repr

structure Governance.Vote where
  proposalId : Digest
  voter : Address
  approve : Bool
  weight : U256
  blockHeight : U64
  deriving DecidableEq, Repr

/-! The fixtures of the source's own tests. -/

def alice : Address := repeated 0xAA
def bob : Address := repeated 0xBB
def dummySig : Falcon512Signature := FixedBytes.replicate 809 0xEE

def transferTx (sender recipient : Address) (amount : U256) (nonce : U64) : Transaction :=
  ⟨0, nonce, sender, 100, .transfer recipient amount, dummySig⟩

def testBlock (transactions : List Transaction) : Block where
  header := {
    height := 1
    parentHash := FixedBytes.replicate 32 0
    globalStateRoot := FixedBytes.replicate 32 0
    txRoot := FixedBytes.replicate 32 0
    timestamp := 1700000000
    proposer := repeated 0
    chainId := 0
    proposerSignature := FixedBytes.replicate 809 0xCD }
  body := ⟨transactions⟩

end Mononium
