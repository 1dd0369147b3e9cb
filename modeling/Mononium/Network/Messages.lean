import Mononium.Core.Codec

/-! The messages of `network::messages`: what is gossiped and what the sync protocol
exchanges, with their layout on the wire and the limits a responder checks. -/
namespace Mononium

open Rust Scale

/-- Evidence as it is gossiped. Its signatures have 666 bytes, those of a header 809. -/
structure Network.EquivocationEvidence where
  headerA : BlockHeader
  signatureA : FixedBytes 666
  headerB : BlockHeader
  signatureB : FixedBytes 666
  proposer : FixedBytes 32
  deriving DecidableEq, Repr

inductive SyncDirection where
  | forward | backward
  deriving DecidableEq, Repr

/-- `knownBlockHash` is the hash the requester holds for the block below `startHeight`. -/
structure BlockSyncRequest where
  startHeight : U64
  maxBlocks : U16
  direction : SyncDirection
  knownBlockHash : Option Digest
  deriving DecidableEq, Repr

structure BlockSyncResponse where
  blocks : List Block
  highestHeight : U64
  batchHash : Digest
  deriving DecidableEq, Repr

structure BlockByHashRequest where
  blockHashes : List Digest
  deriving DecidableEq, Repr

structure BlockByHashResponse where
  blocks : List Block
  deriving DecidableEq, Repr

inductive GossipMessage where
  | txs (txs : List Transaction)
  | block (block : Block)
  | vote (vote : CommitVote)
  | evidence (evidence : Network.EquivocationEvidence)
  deriving DecidableEq, Repr

namespace Codec

open Scale.Codec

def equivocationEvidence : Codec Network.EquivocationEvidence :=
  (pair blockHeader (pair (fixed 666) (pair blockHeader (pair (fixed 666) (fixed 32))))).iso
    ⟨fun (headerA, signatureA, headerB, signatureB, proposer) =>
        ⟨headerA, signatureA, headerB, signatureB, proposer⟩,
      fun e => (e.headerA, e.signatureA, e.headerB, e.signatureB, e.proposer),
      fun _ => rfl, fun _ => rfl⟩

def syncDirection : Codec SyncDirection :=
  index [.forward, .backward]
    (fun direction => match direction with | .forward => 0 | .backward => 1)
    (by intro direction; cases direction <;> rfl)

def blockSyncRequest : Codec BlockSyncRequest :=
  (pair u64 (pair u16 (pair syncDirection (option digest)))).iso
    ⟨fun (startHeight, maxBlocks, direction, knownBlockHash) =>
        ⟨startHeight, maxBlocks, direction, knownBlockHash⟩,
      fun r => (r.startHeight, r.maxBlocks, r.direction, r.knownBlockHash),
      fun _ => rfl, fun _ => rfl⟩

def blockSyncResponse : Codec BlockSyncResponse :=
  (pair (vec block) (pair u64 digest)).iso
    ⟨fun (blocks, highestHeight, batchHash) => ⟨blocks, highestHeight, batchHash⟩,
      fun r => (r.blocks, r.highestHeight, r.batchHash), fun _ => rfl, fun _ => rfl⟩

def blockByHashRequest : Codec BlockByHashRequest :=
  (vec digest).iso ⟨BlockByHashRequest.mk, BlockByHashRequest.blockHashes, fun _ => rfl, fun _ => rfl⟩

def blockByHashResponse : Codec BlockByHashResponse :=
  (vec block).iso ⟨BlockByHashResponse.mk, BlockByHashResponse.blocks, fun _ => rfl, fun _ => rfl⟩

inductive GossipKind where
  | txs | block | vote | evidence
  deriving DecidableEq

def GossipKind.code : GossipKind → UInt8
  | txs => 0
  | block => 1
  | vote => 2
  | evidence => 3

def GossipKind.Payload : GossipKind → Type
  | txs => List Transaction
  | block => Block
  | vote => CommitVote
  | evidence => Network.EquivocationEvidence

def GossipKind.payload : (kind : GossipKind) → Codec kind.Payload
  | txs => vec transaction
  | block => Codec.block
  | vote => commitVote
  | evidence => equivocationEvidence

def GossipKind.build : (kind : GossipKind) × kind.Payload → GossipMessage
  | ⟨txs, payload⟩ => .txs payload
  | ⟨block, payload⟩ => .block payload
  | ⟨vote, payload⟩ => .vote payload
  | ⟨evidence, payload⟩ => .evidence payload

def GossipKind.split : GossipMessage → (kind : GossipKind) × kind.Payload
  | .txs payload => ⟨txs, payload⟩
  | .block payload => ⟨block, payload⟩
  | .vote payload => ⟨vote, payload⟩
  | .evidence payload => ⟨evidence, payload⟩

def gossipMessage : Codec GossipMessage :=
  (sigma (index [.txs, .block, .vote, .evidence] GossipKind.code
    (by intro kind; cases kind <;> rfl)) GossipKind.payload).iso
    ⟨GossipKind.build, GossipKind.split,
      by rintro ⟨kind, payload⟩; cases kind <;> rfl, by intro message; cases message <;> rfl⟩

end Codec

/-! The values without a count that needs more than 32 bits. -/

def BlockSyncResponse.Encodable (response : BlockSyncResponse) : Prop :=
  Counted response.blocks ∧ ∀ block ∈ response.blocks, block.Encodable

def BlockByHashRequest.Encodable (request : BlockByHashRequest) : Prop := Counted request.blockHashes

def BlockByHashResponse.Encodable (response : BlockByHashResponse) : Prop :=
  Counted response.blocks ∧ ∀ block ∈ response.blocks, block.Encodable

def GossipMessage.Encodable : GossipMessage → Prop
  | .txs transactions => Counted transactions ∧ ∀ tx ∈ transactions, tx.Encodable
  | .block payload => payload.Encodable
  | .vote _ | .evidence _ => True

theorem blockSyncResponse_fits (response : BlockSyncResponse) :
    Codec.blockSyncResponse.fits response = true ↔ response.Encodable := by
  have parts : Codec.blockSyncResponse.fits response =
      (Codec.vec Codec.block).fits response.blocks := by
    change ((Codec.vec Codec.block).fits response.blocks && (true && true)) = _
    simp only [Bool.and_true]
  rw [parts, vec_fits block_fits, BlockSyncResponse.Encodable]

theorem gossipMessage_fits (message : GossipMessage) :
    Codec.gossipMessage.fits message = true ↔ message.Encodable := by
  cases message with
  | txs transactions => exact vec_fits transaction_fits transactions
  | block block => exact block_fits block
  | vote vote => exact iff_of_true rfl trivial
  | evidence evidence => exact iff_of_true rfl trivial

/-- Every message and every stored value is read back from its own bytes, whatever
follows them, and has no other bytes. -/
theorem wire_canonical :
    Codec.gossipMessage.Canonical GossipMessage.Encodable ∧
    Codec.block.Canonical Block.Encodable ∧
    Codec.transaction.Canonical Transaction.Encodable ∧
    Codec.account.Canonical (fun _ => True) ∧
    Codec.validatorEntry.Canonical (fun _ => True) ∧
    Codec.proposal.Canonical Proposal.Encodable ∧
    Codec.governanceVote.Canonical (fun _ => True) ∧
    Codec.blockSyncRequest.Canonical (fun _ => True) ∧
    Codec.blockSyncResponse.Canonical BlockSyncResponse.Encodable ∧
    Codec.blockByHashRequest.Canonical BlockByHashRequest.Encodable ∧
    Codec.blockByHashResponse.Canonical BlockByHashResponse.Encodable := by
  refine ⟨Codec.canonical_of_fits gossipMessage_fits, Codec.canonical_of_fits block_fits,
    Codec.canonical_of_fits transaction_fits, Codec.canonical_of_fits fun a => ?_,
    Codec.canonical_of_fits fun e => ?_, Codec.canonical_of_fits proposal_fits,
    Codec.canonical_of_fits fun v => ?_, Codec.canonical_of_fits fun r => ?_,
    Codec.canonical_of_fits blockSyncResponse_fits, Codec.canonical_of_fits fun r => ?_,
    Codec.canonical_of_fits fun r => ?_⟩
  · exact iff_of_true (account_fits a) trivial
  · exact iff_of_true (validatorEntry_fits e) trivial
  · exact iff_of_true rfl trivial
  · obtain ⟨startHeight, maxBlocks, direction, knownBlockHash⟩ := r
    cases knownBlockHash <;> exact iff_of_true rfl trivial
  · exact vec_fits_plain (fun _ => rfl) r.blockHashes
  · exact vec_fits block_fits r.blocks

def longTitle : Proposal where
  proposalId := FixedBytes.replicate 32 0
  proposer := alice
  title := List.replicate (2 ^ 32) 0
  description := []
  actions := []
  deposit := 0
  submissionEra := 0
  status := .active

/-- The encoder panics, so there are no bytes to read it back from. -/
theorem longTitle_not_read_back :
    ¬∃ bytes, Codec.proposal.write longTitle = .ok bytes ∧
      ∀ rest, Codec.proposal.decode (bytes ++ rest) = some (longTitle, rest) := by
  rintro ⟨bytes, written, -⟩
  have small := (proposal_fits longTitle).mp (Codec.write_eq_ok.mp written).1
  have length : longTitle.title.length = 2 ^ 32 := List.length_replicate
  have counted : longTitle.title.length < 2 ^ 32 := small.1
  rw [length] at counted
  exact Nat.lt_irrefl _ counted

/-! Limits and the batch hash of the sync protocol. -/

def maxSyncBlocks : U16 := 500
def maxByHashBlocks : Nat := 100

def validateSyncRequest (req : BlockSyncRequest) : Except String Unit :=
  if req.maxBlocks = 0 ∨ maxSyncBlocks < req.maxBlocks then
    .error ("max_blocks must be 1..=500, got " ++ toString req.maxBlocks.toNat)
  else .ok ()

def validateByHashRequest (req : BlockByHashRequest) : Except String Unit :=
  if req.blockHashes = [] ∨ maxByHashBlocks < req.blockHashes.length then
    .error ("block_hashes must be 1..=100, got " ++ toString req.blockHashes.length)
  else .ok ()

section

variable [Blake3]

def computeBatchHash (genesisHash : Digest) (blocks : List Block) : Exec Digest := do
  if blocks = [] then
    return genesisHash
  let encoded ← blocks.mapM Codec.block.write
  return blake3 (genesisHash.bytes ++ encoded.flatten)

theorem computeBatchHash_eq (genesisHash : Digest) {blocks : List Block} (some : blocks ≠ [])
    (fits : ∀ block ∈ blocks, Codec.block.fits block = true) :
    computeBatchHash genesisHash blocks =
      .ok (blake3 (genesisHash.bytes ++ blocks.flatMap Codec.block.encode)) := by
  rw [computeBatchHash, if_neg some, Codec.mapM_write fits, ok_bind, List.flatMap_def]
  rfl

end

end Mononium
