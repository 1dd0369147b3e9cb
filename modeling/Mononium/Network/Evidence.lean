import Mononium.Consensus.Headers
import Mononium.Consensus.Slashing
import Mononium.Network.Messages

/-! Evidence against a proposer that has signed two blocks on one tip. The block validator
verifies its signature over the header without the signature, the evidence verifier over the
whole header; and the evidence that is gossiped has no room for the signature of a header. -/
namespace Mononium

open Rust Scale

def evidenceOf (a b : BlockHeader) : EquivocationEvidence :=
  ⟨a, a.proposerSignature, b, b.proposerSignature, a.proposer.raw⟩

/-- The gossiped record holds this evidence, byte for byte. -/
structure Carries (wire : Network.EquivocationEvidence) (evidence : EquivocationEvidence) : Prop where
  headerA : wire.headerA = evidence.headerA
  signatureA : wire.signatureA.bytes = evidence.signatureA.bytes
  headerB : wire.headerB = evidence.headerB
  signatureB : wire.signatureB.bytes = evidence.signatureB.bytes
  proposer : wire.proposer = evidence.proposer

/-- The evidence reaches a peer: it is put into a message, and the peer reads it out of the
bytes of that message. -/
def ReachesPeer (evidence : EquivocationEvidence) : Prop :=
  ∃ sent received rest, Carries sent evidence ∧
    Codec.gossipMessage.decode (Codec.gossipMessage.encode (.evidence sent)) =
      some (.evidence received, rest) ∧ Carries received evidence

/-- A gossiped signature is shorter than that of a header. -/
theorem not_carries (wire : Network.EquivocationEvidence) (evidence : EquivocationEvidence) :
    ¬Carries wire evidence := by
  intro carries
  have length := congrArg List.length carries.signatureA
  rw [wire.signatureA.length, evidence.signatureA.length] at length
  exact absurd length (by decide)

section

variable [Blake3] [Falcon512] {a b tip : Block} {schedule : ProposerSchedule}
  {key : Falcon512PublicKey}

/-- The evidence is accepted here and by every peer that it is gossiped to. -/
def Punishable (evidence : EquivocationEvidence) (key : Falcon512PublicKey) : Prop :=
  verifyEquivocation evidence key = .ok () ∧ ReachesPeer evidence

/-- Two blocks on one tip are evidence only if the signatures, which verify over the
headers without them, verify over the whole headers as well; and no such evidence can be
gossiped. -/
theorem equivocation_unpunished (different : headerHash a.header ≠ headerHash b.header)
    (validA : validateBlock a tip schedule (some key) = .ok true)
    (validB : validateBlock b tip schedule (some key) = .ok true) :
    (verifyEquivocation (evidenceOf a.header b.header) key = .ok () ↔
      Falcon512.verify key (Codec.blockHeader.encode a.header) a.header.proposerSignature = true ∧
      Falcon512.verify key (Codec.blockHeader.encode b.header) b.header.proposerSignature = true) ∧
    ¬Punishable (evidenceOf a.header b.header) key := by
  obtain ⟨parentA, -, heightA, -⟩ := validateBlock_accepts.mp validA
  obtain ⟨parentB, -, heightB, -⟩ := validateBlock_accepts.mp validB
  have parent : a.header.parentHash = b.header.parentHash := parentA.trans parentB.symm
  have height : a.header.height = b.header.height :=
    BitVec.eq_of_toNat_eq (heightA.trans heightB.symm)
  constructor
  · rw [verifyEquivocation_accepts]
    constructor
    · rintro ⟨-, -, -, signedA, signedB⟩
      exact ⟨signedA, signedB⟩
    · rintro ⟨signedA, signedB⟩
      exact ⟨height, parent, different, signedA, signedB⟩
  · rintro ⟨-, sent, received, rest, carries, -⟩
    exact not_carries sent _ carries

end

section Sample

attribute [local instance] sumBlake3 prefixFalcon512

set_option maxRecDepth 4096

def tipBlock : Block := testBlock []

def rivalBlock (timestamp : U64) : Block :=
  let block : Block := ⟨⟨2, headerHash tipBlock.header, FixedBytes.replicate 32 0,
    FixedBytes.replicate 32 0, timestamp, alice, 0, FixedBytes.replicate 809 0⟩, ⟨[]⟩⟩
  block.signedWith (prefixSignature (blockHeaderUnsignedPayload block.header))

theorem rivalBlock_valid (timestamp : U64) :
    validateBlock (rivalBlock timestamp) tipBlock aliceSchedule (some ordinaryKey) = .ok true := by
  have scheduled : aliceSchedule.proposerForHeight 2 = .ok alice := by decide
  refine validateBlock_accepts.mpr ⟨rfl, scheduled, rfl, ?_⟩
  rintro pk -
  exact decide_eq_true rfl

theorem rivalBlocks_different :
    headerHash (rivalBlock 1).header ≠ headerHash (rivalBlock 2).header := by
  decide

theorem rivalBlocks_unpunished :
    ¬Punishable (evidenceOf (rivalBlock 1).header (rivalBlock 2).header) ordinaryKey :=
  (equivocation_unpunished rivalBlocks_different (rivalBlock_valid 1) (rivalBlock_valid 2)).2

/-- Two blocks that the proposer has signed for one tip, and no evidence against it. -/
theorem rivalBlocks_refused :
    headerHash (rivalBlock 1).header ≠ headerHash (rivalBlock 2).header ∧
    (rivalBlock 1).header.proposer = (rivalBlock 2).header.proposer ∧
    (rivalBlock 1).header.height = (rivalBlock 2).header.height ∧
    validateBlock (rivalBlock 1) tipBlock aliceSchedule (some ordinaryKey) = .ok true ∧
    validateBlock (rivalBlock 2) tipBlock aliceSchedule (some ordinaryKey) = .ok true ∧
    verifyEquivocation (evidenceOf (rivalBlock 1).header (rivalBlock 2).header) ordinaryKey =
      .error .equivocationSigAInvalid ∧
    ¬ReachesPeer (evidenceOf (rivalBlock 1).header (rivalBlock 2).header) := by
  refine ⟨rivalBlocks_different, rfl, rfl, rivalBlock_valid 1, rivalBlock_valid 2, ?_, ?_⟩
  · decide
  · rintro ⟨sent, -, -, carries, -⟩
    exact not_carries sent _ carries

end Sample

end Mononium
