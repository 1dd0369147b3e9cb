import Mononium.Network.SyncSafety
import Mononium.Node.Recovery

/-! Catching up with an honest peer. Requester and responder start the batch hash from
different hashes, and the first anchor is the hash of the genesis file where the responder
compares it with that of the genesis header. -/
namespace Mononium

open Rust Scale

/-- The storages that `loadGenesis` and then `produceBlock` leave, with the last height. -/
inductive StoredChain [Blake3] [SerdeJson] (json : String) : Storage → U64 → Prop
  | genesis {storage : Storage} (loaded : loadGenesis (.ok json) Storage.empty = (.ok (), storage)) :
    StoredChain json storage 0
  | block {storage after : Storage} {height next : U64} {state t : StateMachine}
    {schedule : ProposerSchedule} {input : Slot} (chain : StoredChain json storage height)
    (above : add height 1 = .ok next)
    (produced : produceBlock state storage next schedule input = .ok (t, after)) :
    StoredChain json after next

section

variable [Blake3] {PeerId : Type} {hash : Digest} {storage after : Storage} {tip k : U64}
  {blocks : List Block}

/-- The genesis header starts the chain and nothing is stored above its tip. -/
structure Whole (storage : Storage) (tip : U64) (genesis : Block) (hash : Digest) : Prop where
  top : Tip storage tip
  stored : blockAt storage 0 = some genesis
  numbered : genesis.header.height = 0
  linked : Linked (headerHash genesis.header) storage tip hash

theorem buildBlock_links {state u : StateMachine} {txs : List Transaction}
    {parent block : Block} {proposer : Address} {timestamp : U64} {signature : Falcon512Signature}
    (built : buildBlock state txs parent proposer timestamp signature = .ok (block, u)) :
    add parent.header.height 1 = .ok block.header.height ∧
      block.header.parentHash = headerHash parent.header := by
  obtain ⟨height, next, built⟩ := bind_eq_ok.mp built
  obtain ⟨⟨root, after⟩, -, built⟩ := bind_eq_ok.mp built
  cases built
  exact ⟨next, rfl⟩

namespace Whole

variable {genesis : Block}

/-- Every height up to the tip holds its block, and its hash is what the next one names. -/
theorem block (whole : Whole storage tip genesis hash) (le : k ≤ tip) :
    ∃ block, blockAt storage k = some block ∧ block.header.height = k ∧
      hashAt (headerHash genesis.header) storage k = some (headerHash block.header) := by
  by_cases zero : k = 0
  · subst zero
    exact ⟨genesis, whole.stored, whole.numbered, rfl⟩
  · obtain ⟨block, found, own, -⟩ := whole.linked.stored k (by bv_omega) le
    refine ⟨block, found, own, ?_⟩
    rw [hashAt, if_neg zero, found]
    rfl

theorem hashAt_block {block : Block} (whole : Whole storage tip genesis hash) (le : k ≤ tip)
    (found : blockAt storage k = some block) :
    hashAt (headerHash genesis.header) storage k = some (headerHash block.header) := by
  obtain ⟨_, again, -, named⟩ := whole.block le
  rw [found] at again
  cases again
  exact named

theorem next (whole : Whole storage tip genesis hash) {state t : StateMachine}
    {schedule : ProposerSchedule} {input : Slot} {above : U64} (added : add tip 1 = .ok above)
    (produced : produceBlock state storage above schedule input = .ok (t, after)) :
    ∃ hash, Whole after above genesis hash := by
  have next := add_eq_ok.mp added
  have below : saturatingSub above 1 = tip := saturatingSub_of_toNat next
  obtain ⟨parent, found, own, named⟩ := whole.block (BitVec.le_refl tip)
  obtain ⟨proposer, block, u, receipt, built, -, fits, rfl⟩ :=
    produceBlock_spec (by rw [below]; exact found) produced
  obtain ⟨numbered, parentHash⟩ := buildBlock_links built
  rw [own, added] at numbered
  cases Except.ok.inj numbered
  have top : hash = headerHash parent.header :=
    Option.some.inj (whole.linked.top.symm.trans named)
  refine ⟨headerHash block.header, whole.top.put (by bv_omega) fits, ?_, whole.numbered,
    whole.linked.extend fits next (parentHash.trans top.symm)⟩
  have later : (0 : U64) ≠ block.header.height := by bv_omega
  rw [blockAt_put fits, if_neg later, whole.stored]

end Whole

/-- What the loader and the producer store is one chain on the genesis header. -/
theorem StoredChain.whole [SerdeJson] {json : String} (chain : StoredChain json storage tip) :
    ∃ genesis hash, Whole storage tip genesis hash := by
  induction chain with
  | genesis loaded =>
    obtain ⟨chainId, found⟩ := blockAt_genesis loaded
    refine ⟨genesisBlock chainId, headerHash (genesisBlock chainId).header, tip_genesis loaded, by rw [found, if_pos rfl], rfl, ?_, rfl⟩
    intro k positive le
    exfalso
    bv_omega
  | block _ above produced ih =>
    obtain ⟨genesis, hash, whole⟩ := ih
    exact ⟨genesis, whole.next above produced⟩

def blocksAbove (storage : Storage) : U64 → Nat → List Block
  | _, 0 => []
  | k, count + 1 => (blockAt storage (k + 1)).toList ++ blocksAbove storage (k + 1) count

/-- A stretch of the chain is a batch that continues the block below it. -/
theorem Whole.stretch {genesis : Block} (whole : Whole storage tip genesis hash) (count : Nat)
    {below : Digest} (room : k.toNat + count ≤ tip.toNat)
    (named : hashAt (headerHash genesis.header) storage k = some below) :
    (blocksAbove storage k count).length = count ∧
      (∀ block ∈ blocksAbove storage k count, Codec.block.fits block = true) ∧
      Ascending k (blocksAbove storage k count) ∧
      continues below (blocksAbove storage k count) = true := by
  induction count generalizing k below with
  | zero =>
    refine ⟨rfl, ?_, trivial, rfl⟩
    rintro block ⟨⟩
  | succ count ih =>
    have bound := tip.isLt
    have next : (k + 1).toNat = k.toNat + 1 := succ_toNat (by omega)
    obtain ⟨block, found, own, parent⟩ := whole.linked.stored (k + 1) (by bv_omega) (by bv_omega)
    have hash := whole.hashAt_block (k := k + 1) (by bv_omega) found
    rw [BitVec.add_sub_cancel, named] at parent
    obtain ⟨length, fits, ascending, chained⟩ := ih (k := k + 1) (by omega) hash
    obtain ⟨raw, _, _, decoded⟩ := blockAt_eq_some.mp found
    have here := (Codec.block.encode_decode decoded).1
    rw [blocksAbove, found, Option.toList_some, List.singleton_append]
    refine ⟨by rw [List.length_cons, length], ?_, ?_, ?_⟩
    · intro other member
      rcases List.mem_cons.mp member with rfl | later
      · exact here
      · exact fits other later
    · exact ⟨by rw [own, next], by rw [own]; exact ascending⟩
    · rw [continues, Bool.and_eq_true, decide_eq_true_eq]
      exact ⟨(Option.some.inj parent).symm, chained⟩

/-- The responder finds the stretch of its chain that was asked for, unless the range goes
past the last height there is and the chain reaches that far. -/
theorem Whole.collect {genesis : Block} (whole : Whole storage tip genesis hash) (count : Nat)
    {start : U64} {offset : Nat} (le : k ≤ tip) (here : start.toNat + offset = k.toNat + 1)
    (positive : 0 < start.toNat) :
    Mononium.collect storage .none (forwardHeight start) (List.range' offset count) =
      if tip.toNat + 1 < 2 ^ 64 ∨ k.toNat + count < 2 ^ 64 then
        .ok (blocksAbove storage k (min count (tip.toNat - k.toNat)))
      else .error .overflow := by
  have bound := tip.isLt
  have below := BitVec.le_def.mp le
  induction count generalizing k offset with
  | zero =>
    rw [if_pos (.inr k.isLt), Nat.zero_min]
    rfl
  | succ count ih =>
    rw [List.range'_succ, Mononium.collect]
    by_cases room : k.toNat + 1 < 2 ^ 64
    · have next : (k + 1).toNat = k.toNat + 1 := succ_toNat room
      rw [forwardHeight_next here room, ok_bind]
      dsimp only
      by_cases last : k = tip
      · -- nothing is stored above the tip
        have none : blockAt storage (k + 1) = none :=
          whole.top.blockAt_of_lt (by rw [BitVec.lt_def, next, last]; exact Nat.lt_succ_self _)
        rw [ReadFaults.none_fails, readBlock_false, none, if_pos (.inl (last ▸ room)), last, Nat.sub_self, Nat.min_zero]
        rfl
      · have further : k + 1 ≤ tip := by bv_omega
        obtain ⟨block, found, -⟩ := whole.block further
        rw [ReadFaults.none_fails, readBlock_false, found]
        dsimp only
        have split : min (count + 1) (tip.toNat - k.toNat) =
            min count (tip.toNat - (k + 1).toNat) + 1 := by
          have reached := BitVec.le_def.mp further
          omega
        rw [ih further (by omega) (by omega), split, blocksAbove, found]
        by_cases fits : tip.toNat + 1 < 2 ^ 64 ∨ k.toNat + (count + 1) < 2 ^ 64
        · rw [if_pos fits, if_pos (by omega)]
          rfl
        · rw [if_neg fits, if_neg (by omega)]
          rfl
    · have beyond : start.toNat + offset = 2 ^ 64 := by omega
      have far : ¬(tip.toNat + 1 < 2 ^ 64 ∨ k.toNat + (count + 1) < 2 ^ 64) := by omega
      rw [forwardHeight_last beyond positive, if_neg far]
      rfl

def batchAbove (storage : Storage) (k tip : U64) : List Block :=
  blocksAbove storage k (min 100 (tip.toNat - k.toNat))

/-- The batch above a block continues that block. -/
structure Continuing (k tip : U64) (below : Digest) (batch : List Block) : Prop where
  length : batch.length = min 100 (tip.toNat - k.toNat)
  nonempty : batch ≠ []
  fits : ∀ block ∈ batch, Codec.block.fits block = true
  ascending : Ascending k batch
  chained : continues below batch = true

theorem Whole.batch {genesis block : Block} (whole : Whole storage tip genesis hash)
    (below : k < tip) (found : blockAt storage k = some block) :
    Continuing k tip (headerHash block.header) (batchAbove storage k tip) := by
  have less := BitVec.lt_def.mp below
  have named := whole.hashAt_block (BitVec.le_of_lt below) found
  obtain ⟨length, fits, ascending, chained⟩ :=
    whole.stretch (min 100 (tip.toNat - k.toNat)) (by omega) named
  refine ⟨length, List.ne_nil_of_length_pos ?_, fits, ascending, chained⟩
  rw [batchAbove, length]
  omega

def InRange (k tip : U64) : Prop := tip.toNat + 1 < 2 ^ 64 ∨ k.toNat + 100 < 2 ^ 64

instance (k tip : U64) : Decidable (InRange k tip) := inferInstanceAs (Decidable (_ ∨ _))

theorem Whole.serve {genesis block : Block} (whole : Whole storage tip genesis hash)
    (below : k < tip) (found : blockAt storage k = some block) (anchor genesisHash : Digest)
    (highest : U64) :
    serveSyncRequest (.blockSync ⟨k + 1, batchSize, .forward, some anchor⟩) storage .none genesisHash
        highest =
      if headerHash block.header ≠ anchor then .ok (some (.blockSync ⟨[], highest, genesisHash⟩))
      else if InRange k tip then
        .ok (some (.blockSync ⟨batchAbove storage k tip, highest,
          blake3 (genesisHash.bytes ++ (batchAbove storage k tip).flatMap Codec.block.encode)⟩))
      else .error .overflow := by
  have bound := tip.isLt
  have less := BitVec.lt_def.mp below
  have next : (k + 1).toNat = k.toNat + 1 := succ_toNat (by omega)
  have under : saturatingSub (k + 1) 1 = k := saturatingSub_of_toNat next
  have batch := whole.batch below found
  have collected : Mononium.collect storage .none (forwardHeight (k + 1)) (List.range 100) =
      if InRange k tip then .ok (batchAbove storage k tip) else .error .overflow := by
    rw [List.range_eq_range']
    exact whole.collect 100 (BitVec.le_of_lt below) next (by omega)
  have valid : (validateSyncRequest ⟨k + 1, batchSize, .forward, some anchor⟩).isOk = true := rfl
  have mismatch : anchorMismatch ⟨k + 1, batchSize, .forward, some anchor⟩ storage .none =
      decide (headerHash block.header ≠ anchor) := by
    rw [anchorMismatch, ReadFaults.none_anchor, readBlock_false, under, found]
  rw [serveSyncRequest, serveBlockSync, if_neg (by rw [valid]; decide), mismatch]
  by_cases other : headerHash block.header ≠ anchor
  · rw [if_pos (decide_eq_true other), if_pos other]
    rfl
  · rw [if_neg (by simpa using other), if_neg other]
    change (do
      let blocks ← Mononium.collect storage .none (forwardHeight (k + 1)) (List.range 100)
      let batchHash ← computeBatchHash genesisHash blocks
      return some (SyncResponse.blockSync ⟨blocks, highest, batchHash⟩)) = _
    rw [collected]
    by_cases inRange : InRange k tip
    · rw [if_pos inRange, if_pos inRange, ok_bind, computeBatchHash_eq genesisHash batch.nonempty batch.fits, ok_bind]
      rfl
    · rw [if_neg inRange, if_neg inRange]
      rfl

/-- A continuing batch is accepted exactly when it comes with the hash that the requester
computes from its own anchor. -/
theorem Continuing.check {cursor : SyncCursor} {batchHash : Digest} {highest : U64}
    (batch : Continuing cursor.lastVerifiedHeight tip cursor.lastVerifiedHash blocks) :
    checkAnswer cursor (.response (.blockSync ⟨blocks, highest, batchHash⟩)) =
      if blake3 (cursor.lastVerifiedHash.bytes ++ blocks.flatMap Codec.block.encode) = batchHash then
        .ok (.ok blocks)
      else .ok (.error .batchHash) := by
  rw [checkAnswer, if_neg batch.nonempty, computeBatchHash_eq _ batch.nonempty batch.fits, ok_bind]
  dsimp only
  by_cases same : blake3 (cursor.lastVerifiedHash.bytes ++ blocks.flatMap Codec.block.encode) = batchHash
  · rw [if_neg (not_not.mpr same), if_pos same, if_pos batch.chained]
    rfl
  · rw [if_pos same, if_neg same]
    rfl

theorem Continuing.accept {run : SyncRun PeerId}
    (batch : Continuing run.cursor.lastVerifiedHeight tip run.cursor.lastVerifiedHash blocks) :
    ∃ next, run.accept blocks none = .ok next ∧ next.cursor.lastVerifiedHeight.toNat =
      run.cursor.lastVerifiedHeight.toNat +
        min 100 (tip.toNat - run.cursor.lastVerifiedHeight.toNat) := by
  obtain ⟨last, found⟩ :=
    Option.ne_none_iff_exists'.mp (List.getLast?_eq_none_iff.not.mpr batch.nonempty)
  obtain ⟨after, stored⟩ := storeBlocks_all batch.fits run.storage
  refine ⟨_, SyncRun.accept_stored found stored (batch.ascending.lt_last found), ?_⟩
  rw [← batch.length]
  exact batch.ascending.last found

/-- The response to the loop's own request passes its checks and moves the cursor to the
end of the batch. -/
def Advances (responder : Storage) (genesisHash : Digest) (highest tip : U64) (run : SyncRun PeerId) :
    Prop :=
  ∃ request response, batchRequest run.cursor = .ok request ∧
    serveSyncRequest request responder .none genesisHash highest = .ok (some (.blockSync response)) ∧
    response.blocks ≠ [] ∧
    checkAnswer run.cursor (.response (.blockSync response)) = .ok (.ok response.blocks) ∧
    ∃ next, run.receive ⟨.response (.blockSync response), none⟩ = .ok next ∧
      next.cursor.lastVerifiedHeight.toNat = run.cursor.lastVerifiedHeight.toNat +
        min 100 (tip.toNat - run.cursor.lastVerifiedHeight.toNat)

/-- The genesis hash serves as the anchor of block `k`: it hashes the batch alike, and at
the start it is the hash that the responder looks for. -/
def Agrees (storage : Storage) (genesisHash : Digest) (k tip : U64) : Prop :=
  ∃ block, blockAt storage k = some block ∧
    (k = 0 → genesisHash = headerHash block.header) ∧
    blake3 (genesisHash.bytes ++ (batchAbove storage k tip).flatMap Codec.block.encode) =
      blake3 ((headerHash block.header).bytes ++
        (batchAbove storage k tip).flatMap Codec.block.encode) ∧
    InRange k tip

/-- Above the genesis a cursor holds the header hash, at the genesis that of the file. -/
theorem anchor_iff {genesisHash anchor : Digest} {block : Block}
    (anchored : hashAt genesisHash storage k = some anchor) (found : blockAt storage k = some block) :
    anchor = headerHash block.header ↔ (k = 0 → genesisHash = headerHash block.header) := by
  rw [hashAt] at anchored
  by_cases zero : k = 0
  · rw [if_pos zero] at anchored
    rw [← Option.some.inj anchored]
    exact ⟨fun same _ => same, fun same => same zero⟩
  · rw [if_neg zero, found] at anchored
    exact iff_of_true (Option.some.inj anchored).symm fun start => absurd start zero

/-- An honest peer's answer is of use exactly when the hash of the genesis file can stand
in for the header hash of the block at the cursor. -/
theorem honest_sync_advances_iff [SerdeJson] {json : String} (chain : StoredChain json storage tip)
    (run : SyncRun PeerId) (highest : U64)
    (anchored : hashAt (blake3 (utf8 json)) storage run.cursor.lastVerifiedHeight =
      some run.cursor.lastVerifiedHash)
    (below : run.cursor.lastVerifiedHeight < tip) (ahead : run.cursor.gap ≠ 0) :
    Advances storage (blake3 (utf8 json)) highest tip run ↔
      Agrees storage (blake3 (utf8 json)) run.cursor.lastVerifiedHeight tip := by
  obtain ⟨genesis, hash, whole⟩ := chain.whole
  obtain ⟨block, found, -⟩ := whole.block (BitVec.le_of_lt below)
  have served := whole.serve below found run.cursor.lastVerifiedHash (blake3 (utf8 json)) highest
  have batch := whole.batch below found
  have anchor := anchor_iff anchored found
  constructor
  · rintro ⟨request, response, asked, answered, some, checked, -⟩
    rw [batchRequest_eq ahead] at asked
    cases asked
    rw [served] at answered
    split at answered
    next =>
      cases answered
      exact absurd rfl some
    next same =>
      rw [not_not] at same
      split at answered
      next inRange =>
        cases answered
        rw [Continuing.check (same ▸ batch)] at checked
        split at checked
        next hashed =>
          exact ⟨block, found, anchor.mp same.symm, same ▸ hashed.symm, inRange⟩
        next => cases checked
      next => cases answered
  · rintro ⟨_, again, start, hashed, inRange⟩
    rw [found] at again
    cases again
    have same := anchor.mpr start
    rw [← same] at batch hashed
    have checked : checkAnswer run.cursor (.response (.blockSync ⟨_, highest, _⟩)) = .ok (.ok _) :=
      batch.check.trans (if_pos hashed.symm)
    refine ⟨_, _, batchRequest_eq ahead, ?_, batch.nonempty, checked, ?_⟩
    · rw [served, if_neg (not_not.mpr same.symm), if_pos inRange]
    · obtain ⟨next, accepted, moved⟩ := batch.accept
      refine ⟨next, ?_, moved⟩
      rw [SyncRun.receive, checked, ok_bind]
      exact accepted

end

section Sample

attribute [local instance] prefixBlake3 soloSerdeJson

def fileHash : Digest := blake3 (utf8 soloGenesis)

theorem fileHash_ne : headerHash (genesisBlock 0).header ≠ fileHash := by decide

def loadedStorage : Storage := (loadGenesis (.ok soloGenesis) Storage.empty).2

theorem one_block_chain :
    ∃ storage, StoredChain soloGenesis storage 1 ∧ ∃ hash, Whole storage 1 (genesisBlock 0) hash := by
  have loaded : loadGenesis (.ok soloGenesis) Storage.empty = (.ok (), loadedStorage) := by
    have result : (loadGenesis (.ok soloGenesis) Storage.empty).1 = .ok () := by decide +kernel
    rw [loadedStorage, ← result]
    exact Prod.mk.eta.symm
  obtain ⟨genesis, hash, whole⟩ := (StoredChain.genesis loaded).whole
  have stored : blockAt loadedStorage 0 = some (genesisBlock 0) := by decide +kernel
  cases Option.some.inj (whole.stored.symm.trans stored)
  obtain ⟨⟨t, after⟩, produced⟩ : Returns (produceBlock (StateMachine.new []) loadedStorage 1
      ⟨[alice], 0, 1⟩ ⟨1700000001, [], []⟩) := by decide +kernel
  exact ⟨after, .block (.genesis loaded) rfl produced, whole.next rfl produced⟩

def newcomer : SyncRun Nat := .start 0 (SyncCursor.new fileHash) Storage.empty 1

theorem newcomer_advances_iff :
    ∃ storage, StoredChain soloGenesis storage 1 ∧
      (Advances storage fileHash 1 1 newcomer ↔ Agrees storage fileHash 0 1) ∧
      ¬Agrees storage fileHash 0 1 := by
  obtain ⟨storage, chain, hash, whole⟩ := one_block_chain
  refine ⟨storage, chain, honest_sync_advances_iff chain newcomer 1 rfl (by decide) (by decide), ?_⟩
  rintro ⟨block, found, start, -⟩
  cases Option.some.inj (whole.stored.symm.trans found)
  exact fileHash_ne (start rfl).symm

/-- An honest peer with one block answers the newcomer with an empty batch. -/
theorem newcomer_stuck :
    ∃ storage, StoredChain soloGenesis storage 1 ∧ ¬Advances storage fileHash 1 1 newcomer := by
  obtain ⟨storage, chain, hash, whole⟩ := one_block_chain
  refine ⟨storage, chain, ?_⟩
  rintro ⟨request, response, asked, answered, some, -⟩
  rw [batchRequest_eq (by decide)] at asked
  cases asked
  have served := whole.serve (k := 0) (by decide) whole.stored fileHash fileHash 1
  rw [if_pos fileHash_ne] at served
  cases Option.some.inj (Except.ok.inj (answered.symm.trans served))
  exact some rfl

end Sample

end Mononium
