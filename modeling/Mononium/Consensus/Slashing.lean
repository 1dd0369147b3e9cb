import Mononium.Consensus.Engine

/-! Equivocation evidence, from `consensus::slashing`. A signature covers untagged bytes, so
whatever has the size of a header can be presented as one: a proposal whose body takes 72
bytes is such a message. -/
namespace Mononium

open Rust Scale

structure EquivocationEvidence where
  headerA : BlockHeader
  signatureA : Falcon512Signature
  headerB : BlockHeader
  signatureB : Falcon512Signature
  proposer : FixedBytes 32
  deriving DecidableEq, Repr

def votePayload (height : U64) (blockHash : Digest) : Bytes :=
  (Codec.pair Codec.u64 Codec.digest).encode (height, blockHash)

/-- What the wallet signs: the transaction with a signature of zeros. -/
def transactionPayload (tx : Transaction) : Bytes :=
  Codec.transaction.encode { tx with signature := FixedBytes.replicate 809 0 }

section

variable [Blake3] [Falcon512]

/-- The proposer named in the evidence is not looked at. -/
def verifyEquivocation (evidence : EquivocationEvidence) (publicKey : Falcon512PublicKey) :
    Result Unit :=
  let a := evidence.headerA
  let b := evidence.headerB
  if a.height ≠ b.height then .error (.equivocationHeightMismatch a.height b.height)
  else if a.parentHash ≠ b.parentHash then .error .equivocationParentMismatch
  else if headerHash a = headerHash b then .error .equivocationIdenticalBlocks
  else if Falcon512.verify publicKey (Codec.blockHeader.encode a) evidence.signatureA = false then
    .error .equivocationSigAInvalid
  else if Falcon512.verify publicKey (Codec.blockHeader.encode b) evidence.signatureB = false then
    .error .equivocationSigBInvalid
  else .ok ()

theorem verifyEquivocation_accepts {evidence : EquivocationEvidence} {key : Falcon512PublicKey} :
    verifyEquivocation evidence key = .ok () ↔
      evidence.headerA.height = evidence.headerB.height ∧
      evidence.headerA.parentHash = evidence.headerB.parentHash ∧
      headerHash evidence.headerA ≠ headerHash evidence.headerB ∧
      Falcon512.verify key (Codec.blockHeader.encode evidence.headerA) evidence.signatureA = true ∧
      Falcon512.verify key (Codec.blockHeader.encode evidence.headerB) evidence.signatureB = true := by
  unfold verifyEquivocation
  dsimp only
  split
  next => simp_all
  next =>
    split
    next => simp_all
    next =>
      split
      next => simp_all
      next =>
        split
        next => simp_all
        next =>
          split
          next => simp_all
          next => simp_all

end

/-- What a validator's key signs: at most one header on each parent, and any votes and
transactions that can be encoded. -/
structure SignedMessages where
  headers : Set BlockHeader
  votes : Set (U64 × Digest)
  transactions : Set Transaction
  single : ∀ a ∈ headers, ∀ b ∈ headers, a.height = b.height → a.parentHash = b.parentHash →
    blockHeaderUnsignedPayload a = blockHeaderUnsignedPayload b
  encodable : ∀ tx ∈ transactions, tx.Encodable

inductive SignedMessages.Payload (signed : SignedMessages) : Bytes → Prop
  | header {header} (member : header ∈ signed.headers) :
    signed.Payload (blockHeaderUnsignedPayload header)
  | vote {height blockHash} (member : (height, blockHash) ∈ signed.votes) :
    signed.Payload (votePayload height blockHash)
  | transaction {tx} (member : tx ∈ signed.transactions) : signed.Payload (transactionPayload tx)

/-- A signature verifies only for what was signed, and what was signed has one. -/
structure Ideal [Falcon512] (key : Falcon512PublicKey) (signed : SignedMessages) : Prop where
  unforgeable : ∀ {message signature}, Falcon512.verify key message signature = true →
    signed.Payload message
  signs : ∀ {message}, signed.Payload message → ∃ signature,
    Falcon512.verify key message signature = true

/-! Sizes and layouts of the three kinds of messages. -/

theorem blockHeader_sized : Codec.blockHeader.Sized 961 :=
  .iso (.pair (Codec.sized_word 8) (.pair (Codec.sized_fixed 32) (.pair (Codec.sized_fixed 32)
    (.pair (Codec.sized_fixed 32) (.pair (Codec.sized_word 8) (.pair (.iso (Codec.sized_fixed 32) _)
      (.pair (Codec.sized_word 8) (Codec.sized_fixed 809)))))))) _

theorem votePayload_length (height : U64) (blockHash : Digest) :
    (votePayload height blockHash).length = 40 :=
  ((Codec.sized_word 8).pair (Codec.sized_fixed 32)).length _

theorem transactionPayload_eq (tx : Transaction) :
    transactionPayload tx = leBytes 8 tx.chainId.toNat ++ (leBytes 8 tx.nonce.toNat ++
      (tx.sender.asBytes ++ (leBytes 32 tx.fee.toNat ++ (Codec.txBody.encode tx.body ++
        List.replicate 809 0)))) := rfl

/-- A payload has the size of a header if the body takes 72 bytes. -/
theorem transactionPayload_length (tx : Transaction) :
    (transactionPayload tx).length = 889 + (Codec.txBody.encode tx.body).length := by
  rw [transactionPayload_eq]
  simp only [List.length_append, leBytes_length, Address.asBytes_length, List.length_replicate]
  omega

/-- A proposal whose texts and actions fill 72 bytes together with its id. -/
def HeaderSized (tx : Transaction) : Prop :=
  (∃ proposalId title description actions,
    tx.body = .propose proposalId title description actions) ∧
  (Codec.txBody.encode tx.body).length = 72

theorem paid_length (index : UInt8) (address : Address) (amount : U256) :
    (index :: (address.asBytes ++ leBytes 32 amount.toNat)).length = 65 := by
  simp

/-- No other kind of transaction has this size. -/
theorem propose_of_length {body : TxBody} (size : (Codec.txBody.encode body).length = 72) :
    ∃ proposalId title description actions, body = .propose proposalId title description actions := by
  cases body with
  | propose proposalId title description actions => exact ⟨_, _, _, _, rfl⟩
  | transfer recipient amount => exact absurd (size.symm.trans (paid_length _ _ _)) (by decide)
  | stake validator amount => exact absurd (size.symm.trans (paid_length _ _ _)) (by decide)
  | registerAndStake validator amount =>
    exact absurd (size.symm.trans (paid_length _ _ _)) (by decide)
  | unstake validator amount => exact absurd (size.symm.trans (paid_length _ _ _)) (by decide)
  | registerValidator publicKey =>
    have length : (Codec.txBody.encode (.registerValidator publicKey)).length =
        publicKey.bytes.length + 1 := rfl
    rw [length, publicKey.length] at size
    cases size
  | burn target amount =>
    have length : (Codec.txBody.encode (.burn target amount)).length =
        (leBytes 32 amount.toNat).length + 2 := rfl
    rw [length, leBytes_length] at size
    cases size
  | vote proposalId approve =>
    have length : (Codec.txBody.encode (.vote proposalId approve)).length =
        (proposalId.bytes ++ [if approve then 1 else 0]).length + 1 := rfl
    rw [length, List.length_append, proposalId.length] at size
    cases size
  | cancelProposal proposalId =>
    have length : (Codec.txBody.encode (.cancelProposal proposalId)).length =
        proposalId.bytes.length + 1 := rfl
    rw [length, proposalId.length] at size
    cases size

/-- The parent hash that a reader of headers finds in a transaction: its nonce and most of
its sender. The height that it finds is the chain id. -/
def Transaction.spelledParent (tx : Transaction) : Digest :=
  ⟨leBytes 8 tx.nonce.toNat ++ tx.sender.asBytes.take 24, by simp⟩

/-- The bytes can be presented as a header with this height and parent. -/
structure Spells (message : Bytes) (height : U64) (parent : Digest) : Prop where
  length : message.length = 961
  front : ∃ rest, message = leBytes 8 height.toNat ++ (parent.bytes ++ rest)

namespace Spells

variable {message : Bytes} {height other : U64} {parent another : Digest}

theorem header (header : BlockHeader) :
    Spells (Codec.blockHeader.encode header) header.height header.parentHash :=
  ⟨blockHeader_sized.length header, _, rfl⟩

theorem unsigned (header : BlockHeader) :
    Spells (blockHeaderUnsignedPayload header) header.height header.parentHash :=
  .header { header with proposerSignature := FixedBytes.replicate 809 0 }

theorem transaction {tx : Transaction} (sized : HeaderSized tx) :
    Spells (transactionPayload tx) tx.chainId tx.spelledParent := by
  refine ⟨by rw [transactionPayload_length, sized.2], tx.sender.asBytes.drop 24 ++
    (leBytes 32 tx.fee.toNat ++ (Codec.txBody.encode tx.body ++ List.replicate 809 0)), ?_⟩
  rw [transactionPayload_eq, Transaction.spelledParent, List.append_assoc,
    ← List.append_assoc (tx.sender.asBytes.take 24), List.take_append_drop]

theorem unique (spells : Spells message height parent) (again : Spells message other another) :
    height = other ∧ parent = another := by
  obtain ⟨rest, first⟩ := spells.front
  obtain ⟨tail, second⟩ := again.front
  obtain ⟨heights, later⟩ := List.append_inj (first.symm.trans second) (by simp)
  obtain ⟨parents, -⟩ := List.append_inj later (parent.length.trans another.length.symm)
  exact ⟨Codec.u64.encode_injective rfl rfl heights, FixedBytes.ext parents⟩

theorem exists_header (spells : Spells message height parent) :
    ∃ header, Codec.blockHeader.encode header = message ∧ header.height = height ∧
      header.parentHash = parent := by
  obtain ⟨header, same⟩ := blockHeader_sized.exists_encode spells.length
  exact ⟨header, same, (same ▸ Spells.header header).unique spells⟩

end Spells

/-- A signed message that can be presented as a header is one, or a header-sized proposal. -/
theorem SignedMessages.Payload.spells {signed : SignedMessages} {message : Bytes} {height : U64}
    {parent : Digest} (payload : signed.Payload message) (spells : Spells message height parent) :
    (∃ header ∈ signed.headers, message = blockHeaderUnsignedPayload header ∧
      header.height = height ∧ header.parentHash = parent) ∨
    ∃ tx ∈ signed.transactions, message = transactionPayload tx ∧ HeaderSized tx ∧
      tx.chainId = height ∧ tx.spelledParent = parent := by
  cases payload with
  | header member => exact .inl ⟨_, member, rfl, (Spells.unsigned _).unique spells⟩
  | vote member =>
    have length := spells.length
    rw [votePayload_length] at length
    cases length
  | @transaction tx member =>
    have length := spells.length
    rw [transactionPayload_length] at length
    have size : (Codec.txBody.encode tx.body).length = 72 := by omega
    have sized : HeaderSized tx := ⟨propose_of_length size, size⟩
    exact .inr ⟨tx, member, rfl, sized, (Spells.transaction sized).unique spells⟩

section

variable [Blake3] [Falcon512] {key : Falcon512PublicKey} {signed : SignedMessages}

/-- Evidence exists for any two different signed messages that spell the same place. -/
theorem Ideal.exists_evidence_iff (ideal : Ideal key signed) :
    (∃ evidence, verifyEquivocation evidence key = .ok ()) ↔
      ∃ x y height parent, signed.Payload x ∧ signed.Payload y ∧ Spells x height parent ∧
        Spells y height parent ∧ blake3 x ≠ blake3 y := by
  constructor
  · rintro ⟨evidence, accepted⟩
    obtain ⟨heights, parents, different, first, second⟩ := verifyEquivocation_accepts.mp accepted
    refine ⟨_, _, _, _, ideal.unforgeable first, ideal.unforgeable second,
      .header evidence.headerA, ?_, different⟩
    rw [heights, parents]
    exact .header evidence.headerB
  · rintro ⟨x, y, height, parent, signedX, signedY, spellsX, spellsY, different⟩
    obtain ⟨a, rfl, heightA, parentA⟩ := spellsX.exists_header
    obtain ⟨b, rfl, heightB, parentB⟩ := spellsY.exists_header
    obtain ⟨signatureA, validA⟩ := ideal.signs signedX
    obtain ⟨signatureB, validB⟩ := ideal.signs signedY
    refine ⟨⟨a, signatureA, b, signatureB, FixedBytes.replicate 32 0⟩, verifyEquivocation_accepts.mpr
      ⟨heightA.trans heightB.symm, parentA.trans parentB.symm, different, validA, validB⟩⟩

/-- A header-sized proposal stands at the same height and parent, as its bytes spell them,
as another one or as a header, and has another hash. -/
def Confusable (signed : SignedMessages) : Prop :=
  ∃ tx ∈ signed.transactions, HeaderSized tx ∧
    ((∃ other ∈ signed.transactions, HeaderSized other ∧ other.chainId = tx.chainId ∧
      other.spelledParent = tx.spelledParent ∧
      blake3 (transactionPayload other) ≠ blake3 (transactionPayload tx)) ∨
    ∃ header ∈ signed.headers, header.height = tx.chainId ∧ header.parentHash = tx.spelledParent ∧
      blake3 (blockHeaderUnsignedPayload header) ≠ blake3 (transactionPayload tx))

/-- An honest key cannot be slashed exactly when none of its proposals can be taken for a
header beside another header or proposal of its own. -/
theorem no_false_slashing_iff (ideal : Ideal key signed) :
    (∀ evidence, verifyEquivocation evidence key ≠ .ok ()) ↔ ¬Confusable signed := by
  rw [← not_exists, not_iff_not, ideal.exists_evidence_iff]
  constructor
  · rintro ⟨x, y, height, parent, signedX, signedY, spellsX, spellsY, different⟩
    rcases signedX.spells spellsX with ⟨a, ha, rfl, heightA, parentA⟩ | ⟨t, ht, rfl, sizedT, heightT, parentT⟩
    · rcases signedY.spells spellsY with ⟨b, hb, rfl, heightB, parentB⟩ | ⟨u, hu, rfl, sizedU, heightU, parentU⟩
      · have same := signed.single a ha b hb (heightA.trans heightB.symm) (parentA.trans parentB.symm)
        exact absurd (congrArg blake3 same) different
      · exact ⟨u, hu, sizedU, .inr ⟨a, ha, heightA.trans heightU.symm, parentA.trans parentU.symm,
          different⟩⟩
    · rcases signedY.spells spellsY with ⟨b, hb, rfl, heightB, parentB⟩ | ⟨u, hu, rfl, sizedU, heightU, parentU⟩
      · exact ⟨t, ht, sizedT, .inr ⟨b, hb, heightB.trans heightT.symm, parentB.trans parentT.symm,
          different.symm⟩⟩
      · exact ⟨u, hu, sizedU, .inl ⟨t, ht, sizedT, heightT.trans heightU.symm,
          parentT.trans parentU.symm, different⟩⟩
  · rintro ⟨tx, member, sized, ⟨other, there, also, chainId, parent, different⟩ |
      ⟨header, there, height, parent, different⟩⟩
    · refine ⟨_, _, tx.chainId, tx.spelledParent, .transaction there, .transaction member, ?_,
        .transaction sized, different⟩
      rw [← chainId, ← parent]
      exact .transaction also
    · refine ⟨_, _, tx.chainId, tx.spelledParent, .header there, .transaction member, ?_,
        .transaction sized, different⟩
      rw [← height, ← parent]
      exact .unsigned header

end

section Sample

/-- A stand-in for BLAKE3 that tells apart inputs whose bytes add up differently. -/
abbrev sumBlake3 : Blake3 := ⟨fun input => ⟨leBytes 32 (input.map UInt8.toNat).sum, by simp⟩⟩

def ordinaryKey : Falcon512PublicKey := FixedBytes.replicate 897 1
def editorKey : Falcon512PublicKey := FixedBytes.replicate 897 2

/-- Two versions of one proposal, with titles of 36 letters. -/
def draft (letter : UInt8) : Transaction :=
  ⟨0, 0, alice, 100, .propose (FixedBytes.replicate 32 0) (List.replicate 36 letter) [] [], dummySig⟩

theorem draft_encodable (letter : UInt8) : (draft letter).Encodable := by
  have title : Counted (List.replicate 36 letter) := by
    rw [Counted, List.length_replicate]
    decide
  exact ⟨title, Nat.two_pow_pos 32, Nat.two_pow_pos 32⟩

theorem draft_headerSized (letter : UInt8) : HeaderSized (draft letter) := ⟨⟨_, _, _, _, rfl⟩, rfl⟩

def ordinaryMessages : SignedMessages where
  headers := {(testBlock []).header}
  votes := {(1, FixedBytes.replicate 32 7)}
  transactions := {transferTx alice bob 1 0}
  single := by
    rintro a rfl b rfl _ _
    rfl
  encodable := by
    rintro tx rfl
    trivial

def editorMessages : SignedMessages where
  headers := ∅
  votes := ∅
  transactions := {draft 65, draft 66}
  single := by
    rintro a ⟨⟩
  encodable := by
    rintro tx (rfl | rfl)
    · exact draft_encodable 65
    · exact draft_encodable 66

def signedBytes (key : Falcon512PublicKey) : List Bytes :=
  if key = ordinaryKey then
    [blockHeaderUnsignedPayload (testBlock []).header, votePayload 1 (FixedBytes.replicate 32 7),
      transactionPayload (transferTx alice bob 1 0)]
  else [transactionPayload (draft 65), transactionPayload (draft 66)]

abbrev recordedFalcon512 : Falcon512 := ⟨fun key message _ => message ∈ signedBytes key⟩

attribute [local instance] sumBlake3 recordedFalcon512

set_option maxRecDepth 4096

theorem ideal_of_listed {key : Falcon512PublicKey} {signed : SignedMessages}
    (listed : ∀ message, message ∈ signedBytes key ↔ signed.Payload message) : Ideal key signed where
  unforgeable valid := (listed _).mp (of_decide_eq_true valid)
  signs payload := ⟨dummySig, decide_eq_true ((listed _).mpr payload)⟩

theorem ordinary_ideal : Ideal ordinaryKey ordinaryMessages := by
  refine ideal_of_listed fun message => ?_
  rw [signedBytes, if_pos rfl]
  simp only [List.mem_cons, List.not_mem_nil, or_false]
  constructor
  · rintro (rfl | rfl | rfl)
    · exact .header rfl
    · exact .vote rfl
    · exact .transaction rfl
  · rintro (member | member | member)
    · cases member
      exact .inl rfl
    · cases member
      exact .inr (.inl rfl)
    · cases member
      exact .inr (.inr rfl)

theorem editor_ideal : Ideal editorKey editorMessages := by
  refine ideal_of_listed fun message => ?_
  rw [signedBytes, if_neg (by decide)]
  simp only [List.mem_cons, List.not_mem_nil, or_false]
  constructor
  · rintro (rfl | rfl)
    · exact .transaction (.inl rfl)
    · exact .transaction (.inr rfl)
  · rintro (member | member | member)
    · cases member
    · cases member
    · rcases member with rfl | rfl
      · exact .inl rfl
      · exact .inr rfl

theorem ordinary_not_slashed :
    Ideal ordinaryKey ordinaryMessages ∧
      ∀ evidence, verifyEquivocation evidence ordinaryKey ≠ .ok () := by
  refine ⟨ordinary_ideal, (no_false_slashing_iff ordinary_ideal).mpr ?_⟩
  rintro ⟨tx, rfl, ⟨⟨_, _, _, _, body⟩, -⟩, -⟩
  cases body

/-- Signing two versions of a proposal is accepted as signing two blocks. -/
theorem editor_slashed :
    Ideal editorKey editorMessages ∧
      ∃ evidence, verifyEquivocation evidence editorKey = .ok () := by
  refine ⟨editor_ideal, editor_ideal.exists_evidence_iff.mpr ⟨_, _, 0, (draft 65).spelledParent,
    .transaction (.inl rfl), .transaction (.inr rfl), .transaction (draft_headerSized 65),
    .transaction (draft_headerSized 66), ?_⟩⟩
  decide

end Sample

end Mononium
