import Mononium.Consensus.Slashing
import Mononium.Mempool.Contents
import Mononium.Network.Gossip
import Mononium.Node.Interleaving

/-! Publishing a block. The selection of its transactions counts them, the topic that it goes out on
counts bytes, and by then the block is applied and stored. -/
namespace Mononium

open Rust Scale

structure TopicConfig where
  name : String
  maxMessageSize : Nat
  maxRatePerPeer : U32

namespace TopicConfig

def standardTopics (chainId : U64) : Vector TopicConfig 4 :=
  #v[⟨"mononium/txs/" ++ toString chainId.toNat, 1048576, 100⟩,
    ⟨"mononium/blocks/" ++ toString chainId.toNat, 512000, 10⟩,
    ⟨"mononium/votes/" ++ toString chainId.toNat, 1024, 50⟩,
    ⟨"mononium/evidence/" ++ toString chainId.toNat, 5120, 5⟩]

def validateSize (self : TopicConfig) (size : Nat) : Bool := size ≤ self.maxMessageSize

end TopicConfig

def prepareGossipMessage (msg : GossipMessage) (topic : TopicConfig) : Exec (Except String Bytes) := do
  let data ← Codec.gossipMessage.write msg
  if !topic.validateSize data.length then
    return .error ("gossip message too large: " ++ toString data.length ++ " bytes exceeds " ++
      toString topic.maxMessageSize ++ " byte limit")
  return .ok data

def publishBlock (chainId : U64) (block : Block) : Exec (Except String Bytes) :=
  prepareGossipMessage (.block block) (TopicConfig.standardTopics chainId)[1]

/-! How many bytes a transaction takes. -/

def GovernanceAction.size : GovernanceAction → Nat
  | .updateParam _ _ => 34
  | .increaseShards _ _ => 11

def TxBody.size : TxBody → Nat
  | .transfer _ _ | .stake _ _ | .registerAndStake _ _ | .unstake _ _ => 65
  | .registerValidator _ => 898
  | .burn _ _ | .vote _ _ => 34
  | .propose _ title description actions =>
    33 + (Codec.compactSize title.length + title.length) +
      (Codec.compactSize description.length + description.length) +
      (Codec.compactSize actions.length + (actions.map fun action => action.size).sum)
  | .cancelProposal _ => 33

def Transaction.size (tx : Transaction) : Nat := 889 + tx.body.size

theorem governanceAction_encode_length (action : GovernanceAction) :
    (Codec.governanceAction.encode action).length = action.size := by
  cases action with
  | updateParam param newValue =>
    change ([_] ++ ([_] ++ leBytes 32 newValue.toNat)).length = 34
    simp
  | increaseShards newCount effectiveEra =>
    change ([_] ++ (leBytes 2 newCount.toNat ++ leBytes 8 effectiveEra.toNat)).length = 11
    simp

theorem bytes_encode_length (bytes : Bytes) :
    ((Codec.vec Codec.byte).encode bytes).length = Codec.compactSize bytes.length + bytes.length := by
  rw [Codec.vec_encode_length]
  simp [Codec.byte]

theorem txBody_encode_length (body : TxBody) : (Codec.txBody.encode body).length = body.size := by
  cases body with
  | transfer to_ amount | stake to_ amount | registerAndStake to_ amount | unstake to_ amount =>
    change ([_] ++ (to_.raw.bytes ++ leBytes 32 amount.toNat)).length = 65
    simp [to_.raw.length]
  | registerValidator publicKey =>
    change ([_] ++ publicKey.bytes).length = 898
    simp [publicKey.length]
  | burn target amount =>
    change ([_] ++ ([_] ++ leBytes 32 amount.toNat)).length = 34
    simp
  | propose proposalId title description actions =>
    change ([_] ++ (proposalId.bytes ++ ((Codec.vec Codec.byte).encode title ++
      ((Codec.vec Codec.byte).encode description ++
        (Codec.vec Codec.governanceAction).encode actions)))).length = _
    rw [List.length_append, List.length_append, List.length_append, List.length_append,
      bytes_encode_length, bytes_encode_length, Codec.vec_encode_length, proposalId.length]
    simp only [governanceAction_encode_length, List.length_singleton, TxBody.size]
    omega
  | vote proposalId approve =>
    change ([_] ++ (proposalId.bytes ++ [_])).length = 34
    simp [proposalId.length]
  | cancelProposal proposalId =>
    change ([_] ++ proposalId.bytes).length = 33
    simp [proposalId.length]

theorem transaction_encode_length (tx : Transaction) :
    (Codec.transaction.encode tx).length = tx.size := by
  change (leBytes 8 tx.chainId.toNat ++ (leBytes 8 tx.nonce.toNat ++ (tx.sender.raw.bytes ++
    (leBytes 32 tx.fee.toNat ++ (Codec.txBody.encode tx.body ++ tx.signature.bytes))))).length = _
  simp only [List.length_append, leBytes_length, tx.sender.raw.length, txBody_encode_length,
    tx.signature.length, Transaction.size]
  omega

/-- A block message is its tag, the header, and the counted transactions. -/
theorem blockMessage_encode_length (block : Block) :
    (Codec.gossipMessage.encode (.block block)).length = 962 +
      Codec.compactSize block.body.transactions.length + (block.body.transactions.map fun tx => tx.size).sum := by
  change ([_] ++ (Codec.blockHeader.encode block.header ++
    (Codec.vec Codec.transaction).encode block.body.transactions)).length = _
  simp only [List.length_append, List.length_singleton, blockHeader_sized.length,
    Codec.vec_encode_length, transaction_encode_length]
  omega

/-- The message of a block goes out exactly if it keeps within the limit of its topic. -/
theorem publishBlock_eq (chainId : U64) {block : Block} (fits : Codec.block.fits block = true) :
    publishBlock chainId block = .ok
      (if (Codec.gossipMessage.encode (.block block)).length ≤ 512000 then
        .ok (Codec.gossipMessage.encode (.block block))
      else .error ("gossip message too large: " ++
        toString (Codec.gossipMessage.encode (.block block)).length ++ " bytes exceeds " ++
        toString 512000 ++ " byte limit")) := by
  have written : Codec.gossipMessage.fits (.block block) = true :=
    (gossipMessage_fits _).mpr ((block_fits block).mp fits)
  have limit : (TopicConfig.standardTopics chainId)[1].maxMessageSize = 512000 := rfl
  rw [publishBlock, prepareGossipMessage, Codec.write_of_fits written, ok_bind, TopicConfig.validateSize,
    limit]
  split
  next large =>
    rw [if_neg (by simpa using large)]
    rfl
  next small =>
    rw [if_pos (by simpa using small)]
    rfl

namespace Mempool

theorem take_length_le {cap maxCount : Nat} {pts : List PoolTx} {taken : HashMap Address Nat}
    {result : List Transaction} (room : result.length < maxCount) :
    (take cap maxCount pts taken result).length ≤ maxCount := by
  induction pts generalizing taken result with
  | nil => exact Nat.le_of_lt room
  | cons pt pts ih =>
    rw [take]
    dsimp only
    split
    next => exact ih room
    next =>
      split
      next =>
        rw [List.length_append]
        exact room
      next more => exact ih (Nat.lt_of_not_le more)

theorem select_length_le {self rest : Mempool} {order : SenderOrder} {maxCount : Nat}
    {txs : List Transaction} (selected : self.select order maxCount = .ok (txs, rest)) :
    txs.length ≤ maxCount := by
  unfold select at selected
  split at selected
  next =>
    cases selected
    exact Nat.zero_le _
  next some =>
    obtain ⟨_, _, selected⟩ := bind_eq_ok.mp selected
    cases selected
    exact take_length_le (Nat.pos_of_ne_zero fun zero => some (.inl zero))

end Mempool

/-- Neither a registration nor a proposal. -/
def TxBody.Plain : TxBody → Prop
  | .registerValidator _ | .propose _ _ _ _ => False
  | _ => True

/-- Any 500 transactions of the other kinds can be published. -/
theorem plain_size_le {txs : List Transaction} (few : txs.length ≤ 500)
    (plain : ∀ tx ∈ txs, tx.body.Plain) :
    962 + (if txs.length < 64 then 1 else 2) + (txs.map fun tx => tx.size).sum ≤ 512000 := by
  have each : ∀ size ∈ txs.map fun tx => tx.size, size ≤ 954 := by
    simp only [List.forall_mem_map, Transaction.size]
    intro tx member
    have kind := plain tx member
    cases body : tx.body with
    | registerValidator _ | propose _ _ _ _ => simp [body, TxBody.Plain] at kind
    | _ => simp [TxBody.size]
  have sum := List.sum_le_card_nsmul _ _ each
  rw [List.length_map] at sum
  change _ ≤ txs.length * 954 at sum
  split
  next => omega
  next => omega

section

variable [Blake3] {tasks next : Tasks} {production : Production} {now : U64} {order : SenderOrder}

/-- A block that is stored holds what was selected for it. -/
theorem Tasks.finishSlot_block (ran : tasks.finishSlot production now order false = .ok (.stored, next)) :
    ∃ txs block, tasks.mempool.select order 500 = .ok (txs, next.mempool) ∧
      blockAt next.storage production.height = some block ∧ block.body.transactions = txs ∧
      Codec.block.fits block = true := by
  obtain ⟨txs, proposer, block, u, receipt, selected, built, -, fits, -, -, ended⟩ := finish_cases ran
  refine ⟨txs, block, selected, ?_, (SameContents.buildBlock built).1, fits⟩
  rcases ended with ⟨impossible, -⟩ | ⟨-, stored⟩
  · cases impossible
  · rw [stored, blockAt_put fits, if_pos rfl]

/-- A block that is stored is published exactly if what was selected for it takes few enough
bytes. -/
theorem Tasks.stored_published_iff (chainId : U64)
    (ran : tasks.finishSlot production now order false = .ok (.stored, next)) :
    ∃ txs block, tasks.mempool.select order 500 = .ok (txs, next.mempool) ∧
      blockAt next.storage production.height = some block ∧
      ((∃ data, publishBlock chainId block = .ok (.ok data)) ↔
        962 + (if txs.length < 64 then 1 else 2) + (txs.map fun tx => tx.size).sum ≤ 512000) := by
  obtain ⟨txs, block, selected, found, body, fits⟩ := finishSlot_block ran
  refine ⟨txs, block, selected, found, ?_⟩
  have small : txs.length < 2 ^ 14 := Nat.lt_of_le_of_lt (Mempool.select_length_le selected) (by decide)
  have count : Codec.compactSize txs.length = if txs.length < 64 then 1 else 2 := by
    rw [Codec.compactSize, if_pos small]
    rfl
  rw [← count, ← body, ← blockMessage_encode_length, publishBlock_eq chainId fits]
  split
  next within => exact iff_of_true ⟨_, rfl⟩ within
  next beyond =>
    refine iff_of_false ?_ beyond
    rintro ⟨data, sent⟩
    cases sent

end

namespace Tasks

section Sample

open StateMachine

attribute [local instance] peakBlake3 soloSerdeJson

def alonePool (tx : Transaction) : Mempool :=
  ⟨nodeMempool.config, AList.singleton tx.sender (AList.singleton tx.nonce ⟨tx, 1⟩), 1⟩

theorem alone_inserted (tx : Transaction) : nodeMempool.insert tx 1 = .ok (.ok (), alonePool tx) := by
  have charged : ¬tx.fee < nodeMempool.config.minFee := BitVec.not_lt_zero
  have room : ¬nodeMempool.config.maxSize ≤ nodeMempool.count := by decide
  rw [Mempool.insert, if_neg charged, if_neg room]
  rfl

theorem alone_selected (tx : Transaction) :
    ∃ mempool, (alonePool tx).select .plain 500 = .ok ([tx], mempool) := by
  have wellFormed := (Mempool.wellFormed_new nodeMempool.config).insert (alone_inserted tx)
  obtain ⟨mempool, -, -, selected⟩ := wellFormed.select .plain 500
  exact ⟨mempool, selected⟩

theorem alone_stored (tx : Transaction) (within : tx.Within {alice})
    (fits : Codec.blockBody.fits ⟨[tx]⟩ = true)
    (returns : Returns (applyTxs 0 ⟨new solo, 0, 0, 0⟩ [tx])) :
    ∃ middle next, soloNode.launch.run [.submit tx 1, .start [] false] = .ok middle ∧
      middle.mempool = alonePool tx ∧
      middle.finishSlot voteProduction 1700000001 .plain false = .ok (.stored, next) := by
  have submitted : soloNode.launch.step (.submit tx 1) = .ok (.none, _) :=
    step_submit (alone_inserted tx)
  have genesis : ({ soloNode.launch with mempool := alonePool tx } : Tasks).storage = soloStorage := by
    rw [Node.launch, soloNode]
  obtain ⟨middle, started, -, pool, machine, -⟩ := vote_started rfl rfl rfl genesis
  obtain ⟨mempool, selected⟩ := alone_selected tx
  obtain ⟨block, u, receipt, t, built, applied, -⟩ := solo_built tx (genesisBlock 0) (repeated 0)
    1700000001 (FixedBytes.replicate 809 0xCD) (returns_ok _) rfl within returns
  have written : Codec.block.fits block = true := by
    change Codec.blockBody.fits ⟨block.body.transactions⟩ = true
    rw [(SameContents.buildBlock built).1]
    exact fits
  have named : voteProduction.schedule.proposerForHeight voteProduction.height = .ok (repeated 0) := by
    decide
  rw [← machine] at built
  rw [← show middle.mempool = alonePool tx from pool] at selected
  refine ⟨middle, _, ?_, pool, finishSlot_eq false selected named built applied written⟩
  rw [run, submitted, ok_bind]
  dsimp only
  rw [run, started]
  rfl

theorem freshVote_published :
    ∃ middle next block data, soloNode.launch.run [.submit freshVote 1, .start [] false] = .ok middle ∧
      middle.finishSlot voteProduction 1700000001 .plain false = .ok (.stored, next) ∧
      blockAt next.storage 1 = some block ∧ publishBlock 0 block = .ok (.ok data) := by
  obtain ⟨middle, next, ran, pool, stored⟩ := alone_stored freshVote (by decide) (by decide) (by decide)
  obtain ⟨txs, block, selected, found, published⟩ := stored_published_iff 0 stored
  obtain ⟨_, alone⟩ := alone_selected freshVote
  rw [pool, alone] at selected
  cases selected
  obtain ⟨data, sent⟩ := published.mpr (by decide)
  exact ⟨middle, next, block, data, ran, stored, found, sent⟩

def bulkyProposal (actions : Nat) : Transaction :=
  ⟨0, 0, alice, 100, .propose (FixedBytes.replicate 32 0) [] []
    (List.replicate actions (.updateParam .flatFee 1)), dummySig⟩

theorem bulkyProposal_size (actions : Nat) :
    (bulkyProposal actions).size = 889 + (35 + (Codec.compactSize actions + actions * 34)) := by
  simp [Transaction.size, bulkyProposal, TxBody.size, GovernanceAction.size, Codec.compactSize]

theorem bulkyProposal_fits {actions : Nat} (small : actions < 2 ^ 32) :
    Codec.blockBody.fits ⟨[bulkyProposal actions]⟩ = true := by
  have few : (0 : Nat) < 2 ^ 32 := by decide
  refine (vec_fits transaction_fits [bulkyProposal actions]).mpr
    ⟨show 1 < 2 ^ 32 by decide, fun tx member => ?_⟩
  cases List.mem_singleton.mp member
  refine ⟨few, few, ?_⟩
  rw [Counted, List.length_replicate]
  exact small

/-- The block with 15100 actions is applied and stored, and is too large for its topic. -/
theorem bulkyProposal_not_published :
    ∃ middle next block reason,
      soloNode.launch.run [.submit (bulkyProposal 15100) 1, .start [] false] = .ok middle ∧
      middle.finishSlot voteProduction 1700000001 .plain false = .ok (.stored, next) ∧
      blockAt next.storage 1 = some block ∧ block.body.transactions = [bulkyProposal 15100] ∧
      publishBlock 0 block = .ok (.error reason) := by
  obtain ⟨middle, next, ran, pool, stored⟩ := alone_stored (bulkyProposal 15100) (by decide)
    (bulkyProposal_fits (by decide)) ⟨_, rfl⟩
  obtain ⟨txs, block, selected, found, body, fits⟩ := finishSlot_block stored
  obtain ⟨_, alone⟩ := alone_selected (bulkyProposal 15100)
  rw [pool, alone] at selected
  cases selected
  have large : ¬(Codec.gossipMessage.encode (.block block)).length ≤ 512000 := by
    rw [blockMessage_encode_length, body]
    simp [bulkyProposal_size, Codec.compactSize]
  have refused := publishBlock_eq 0 fits
  rw [if_neg large] at refused
  exact ⟨middle, next, block, _, ran, stored, found, body, refused⟩

end Sample

end Tasks

end Mononium
