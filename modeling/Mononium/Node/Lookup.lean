import Mononium.Network.Sync
import Mononium.Node.Addresses
import Mononium.Node.Recovery
import Mononium.Storage.Loading

/-! The three lookups of a block by its hash. The sync responder reads an index that no writer of
blocks keeps, the RPC server walks down from its own height and stops before the genesis block, and
the REST server looks through all blocks. -/
namespace Mononium

open Rust Scale

/-- What names a block in an RPC call. A number that is not a `u64` is read as `none`. -/
inductive BlockId where
  | number (value : Option U64)
  | string (s : String)
  | other

def hashText (hash : Digest) : String := "0x" ++ hexEncode hash.bytes

theorem hexDecode_hashText (hash : Digest) :
    hexDecode (String.ofList (trimHexMarks (hashText hash).toList)) = .ok hash.bytes := by
  rw [hashText, trimHexMarks_marked, String.ofList_toList, hexDecode_hexEncode]

section

variable [Blake3]

def walkBack (storage : Storage) (hash : Bytes) : Nat → Option U64
  | 0 => none
  | h + 1 =>
    match blockAt storage (BitVec.ofNat 64 (h + 1)) with
    | some block =>
      if (headerHash block.header).bytes = hash then some (BitVec.ofNat 64 (h + 1))
      else walkBack storage hash h
    | none => walkBack storage hash h

/-- `current_height` is that of the engine which the RPC server was given. -/
def blockIdToHeight (raw : BlockId) (storage : Storage) (currentHeight : U64) : Except ErrorObject U64 :=
  match raw with
  | .number (some n) => .ok n
  | .number none => .error ⟨-2, "invalid block height"⟩
  | .string s =>
    if s = "latest" then .ok currentHeight
    else
      match hexDecode (String.ofList (trimHexMarks s.toList)) with
      | .error e => .error ⟨-2, "invalid hex hash: " ++ e⟩
      | .ok hash =>
        if hash.length ≠ 32 then .error ⟨-2, "hash must be 32 bytes"⟩
        else
          match walkBack storage hash currentHeight.toNat with
          | some h => .ok h
          | none => .error ⟨-4, "block not found by hash"⟩
  | .other => .error ⟨-2, "block id must be number, 'latest', or hex hash"⟩

def blockGet (raw : BlockId) (storage : Storage) (currentHeight : U64) : Except ErrorObject Block :=
  match blockIdToHeight raw storage currentHeight with
  | .error e => .error e
  | .ok height =>
    match blockAt storage height with
    | some block => .ok block
    | none => .error ⟨-4, "block not found"⟩

def matchingBlock (storage : Storage) (hash key : Bytes) : Option Block :=
  if key.length ≠ 8 then none
  else
    match (storage.get .blocks key).bind fun raw => (Codec.block.decode raw).map Prod.fst with
    | some block => if (headerHash block.header).bytes = hash then some block else none
    | none => none

/-- The REST server looks through the keys in their order. -/
def blockByHashHandler (hashHex : String) (storage : Storage) : Except ErrResponse Block :=
  match hexDecode (String.ofList (trimHexMarks hashHex.toList)) with
  | .error _ => .error ⟨400, "invalid hex hash"⟩
  | .ok hash =>
    if hash.length ≠ 32 then .error ⟨400, "hash must be 32 bytes"⟩
    else
      match (storage.listKeys .blocks).findSome? (matchingBlock storage hash) with
      | some block => .ok block
      | none => .error ⟨404, "block not found by hash"⟩

/-- The storages of a node: a genesis, and then blocks that it produces or syncs. -/
inductive Stored [SerdeJson] : Storage → Prop
  | genesis {file : Except String String} {storage : Storage}
      (loaded : loadGenesis file .empty = (.ok (), storage)) : Stored storage
  | produced {state t : StateMachine} {storage after : Storage} {height : U64}
      {schedule : ProposerSchedule} {input : Slot} (before : Stored storage)
      (ran : produceBlock state storage height schedule input = .ok (t, after)) : Stored after
  | synced {storage after : Storage} {blocks : List Block} {fault : Option Nat} {complete : Bool}
      (before : Stored storage) (ran : storeBlocks storage blocks fault = .ok (after, complete)) :
      Stored after

def FoundBySync (storage : Storage) (block : Block) : Prop :=
  ∃ blocks, serveBlockByHash ⟨[headerHash block.header]⟩ storage .none = some (.blockByHash ⟨blocks⟩) ∧
    block ∈ blocks

def FoundByRpc (storage : Storage) (currentHeight : U64) (block : Block) : Prop :=
  blockGet (.string (hashText (headerHash block.header))) storage currentHeight = .ok block

def FoundByRest (storage : Storage) (block : Block) : Prop :=
  blockByHashHandler (hashText (headerHash block.header)) storage = .ok block

end

theorem storeBlocks_table {storage after : Storage} {blocks : List Block} {fault : Option Nat} {complete : Bool} {table : Table}
    (other : table ≠ .blocks) (ran : storeBlocks storage blocks fault = .ok (after, complete)) :
    after.table table = storage.table table := by
  induction blocks generalizing storage fault with
  | nil =>
    cases ran
    rfl
  | cons block rest ih =>
    obtain ⟨encoded, -, ran⟩ := bind_eq_ok.mp ran
    split at ran
    next =>
      cases ran
      rfl
    next => rw [ih ran, Storage.table_put_of_ne _ _ _ other]

section

variable [Blake3] {storage after : Storage} {block : Block} {height current : U64} {hash : Digest}

theorem produceBlock_table {state t : StateMachine} {schedule : ProposerSchedule} {input : Slot}
    {table : Table} (other : table ≠ .blocks)
    (ran : produceBlock state storage height schedule input = .ok (t, after)) :
    after.table table = storage.table table := by
  cases stored : blockAt storage (saturatingSub height 1) with
  | some parent =>
    obtain ⟨_, _, _, _, _, _, _, rfl⟩ := produceBlock_spec stored ran
    exact Storage.table_put_of_ne _ _ _ other
  | none =>
    cases (produceBlock_orphan stored).symm.trans ran
    rfl

/-- No writer of blocks writes an index entry. -/
theorem Stored.unindexed [SerdeJson] (stored : Stored storage) : storage.table .blockHashes = ∅ := by
  induction stored with
  | genesis loaded =>
    obtain ⟨_, _, ps, _, steps, rfl⟩ := loadGenesis_eq_ok.mp loaded
    rw [Storage.table_applyAll]
    · rfl
    · intro p member same
      have written : .ok p ∈ genesisPuts _ _ := steps ▸ List.mem_map_of_mem member
      have tables := table_of_genesisPuts written
      simp [same] at tables
  | produced _ ran ih => rw [produceBlock_table (by decide) ran, ih]
  | synced _ ran ih => rw [storeBlocks_table (by decide) ran, ih]

theorem Stored.not_foundBySync [SerdeJson] (stored : Stored storage) : ¬FoundBySync storage block := by
  rintro ⟨blocks, served, member⟩
  have none : storage.get .blockHashes (headerHash block.header).bytes = none := by
    rw [Storage.get, stored.unindexed]
    rfl
  unfold serveBlockByHash at served
  split at served
  next =>
    cases served
    simp [blockOfHash, none] at member
  next => cases served

/-- The REST server finds a block with the hash of any stored block. -/
theorem rest_finds (found : blockAt storage height = some block) :
    ∃ other, blockByHashHandler (hashText (headerHash block.header)) storage = .ok other ∧
      headerHash other.header = headerHash block.header := by
  have length : ¬(headerHash block.header).bytes.length ≠ 32 :=
    not_not_intro (headerHash block.header).length
  obtain ⟨raw, rest, stored, decoded⟩ := blockAt_eq_some.mp found
  have key : heightKey height ∈ storage.listKeys .blocks := by
    rw [Storage.listKeys, List.mem_insertionSort]
    exact AList.lookup_isSome.mp (Option.isSome_of_eq_some stored)
  have here : matchingBlock storage (headerHash block.header).bytes (heightKey height) = some block := by
    rw [matchingBlock, if_neg (not_not_intro (heightKey_length height)), stored]
    simp [decoded]
  rw [blockByHashHandler, hexDecode_hashText]
  dsimp only
  rw [if_neg length]
  cases scanned : (storage.listKeys .blocks).findSome?
    (matchingBlock storage (headerHash block.header).bytes) with
  | none =>
    rw [List.findSome?_eq_none_iff] at scanned
    rw [scanned _ key] at here
    cases here
  | some other =>
    refine ⟨other, rfl, ?_⟩
    obtain ⟨other_key, _, matched⟩ := List.exists_of_findSome?_eq_some scanned
    unfold matchingBlock at matched
    split at matched
    next => cases matched
    next =>
      split at matched
      next =>
        split at matched
        next same =>
          cases matched
          exact FixedBytes.ext same
        next => cases matched
      next => cases matched

/-- The walk finds a hash exactly if a block above height 0 and up to its start has it. -/
theorem walkBack_isSome (storage : Storage) {n : Nat} (low : n < 2 ^ 64) (hash : Bytes) :
    (walkBack storage hash n).isSome ↔ ∃ h : U64, 0 < h.toNat ∧ h.toNat ≤ n ∧
      ∃ other, blockAt storage h = some other ∧ (headerHash other.header).bytes = hash := by
  induction n with
  | zero =>
    refine iff_of_false (by simp [walkBack]) ?_
    rintro ⟨h, positive, le, _⟩
    omega
  | succ n ih =>
    have value : (BitVec.ofNat 64 (n + 1)).toNat = n + 1 := by
      rw [BitVec.toNat_ofNat, Nat.mod_eq_of_lt low]
    have below := ih (Nat.lt_of_succ_lt low)
    have step : (∃ h : U64, 0 < h.toNat ∧ h.toNat ≤ n + 1 ∧
        ∃ other, blockAt storage h = some other ∧ (headerHash other.header).bytes = hash) ↔
      (∃ other, blockAt storage (BitVec.ofNat 64 (n + 1)) = some other ∧
        (headerHash other.header).bytes = hash) ∨
      ∃ h : U64, 0 < h.toNat ∧ h.toNat ≤ n ∧
        ∃ other, blockAt storage h = some other ∧ (headerHash other.header).bytes = hash := by
      constructor
      · rintro ⟨h, positive, le, found⟩
        rcases Nat.lt_or_eq_of_le le with less | same
        · exact .inr ⟨h, positive, Nat.lt_succ_iff.mp less, found⟩
        · have top : h = BitVec.ofNat 64 (n + 1) := BitVec.eq_of_toNat_eq (same.trans value.symm)
          exact .inl (top ▸ found)
      · rintro (found | ⟨h, positive, le, found⟩)
        · exact ⟨_, by omega, by omega, found⟩
        · exact ⟨h, positive, Nat.le_succ_of_le le, found⟩
    rw [step, walkBack]
    cases top : blockAt storage (BitVec.ofNat 64 (n + 1)) with
    | none => simpa using below
    | some other =>
      by_cases same : (headerHash other.header).bytes = hash
      · simp [same]
      · simpa [same] using below

/-- The RPC server finds a height for a hash exactly if a block above height 0 and up to its own
height has it. -/
theorem rpc_finds_iff : (∃ h, blockIdToHeight (.string (hashText hash)) storage current = .ok h) ↔
    ∃ h : U64, 0 < h.toNat ∧ h.toNat ≤ current.toNat ∧
      ∃ other, blockAt storage h = some other ∧ headerHash other.header = hash := by
  have length : ¬hash.bytes.length ≠ 32 := not_not_intro hash.length
  have other : hashText hash ≠ "latest" := by
    intro same
    have first := congrArg (fun s => s.toList.head?) same
    simp [hashText] at first
  have bytes (digest : Digest) : digest.bytes = hash.bytes ↔ digest = hash :=
    ⟨FixedBytes.ext, congrArg _⟩
  have walk := walkBack_isSome storage current.isLt hash.bytes
  simp only [bytes] at walk
  rw [← walk, blockIdToHeight, if_neg other, hexDecode_hashText]
  dsimp only
  rw [if_neg length]
  cases walkBack storage hash.bytes current.toNat with
  | none => simp
  | some h => simp

/-- The sync responder finds no block by its hash, so the lookups never agree. The RPC server finds
those above height 0 and up to its own height, and the REST server all. -/
theorem lookups_never_agree [SerdeJson] (stored : Stored storage)
    (found : blockAt storage height = some block) :
    ¬(FoundBySync storage block ∧ FoundByRpc storage current block ∧ FoundByRest storage block) ∧
    ((∃ h, blockIdToHeight (.string (hashText (headerHash block.header))) storage current = .ok h) ↔
      ∃ h : U64, 0 < h.toNat ∧ h.toNat ≤ current.toNat ∧
        ∃ other, blockAt storage h = some other ∧ headerHash other.header = headerHash block.header) ∧
    ∃ other, blockByHashHandler (hashText (headerHash block.header)) storage = .ok other ∧
      headerHash other.header = headerHash block.header :=
  ⟨fun all => stored.not_foundBySync all.1, rpc_finds_iff, rest_finds found⟩

end

section Sample

attribute [local instance] peakBlake3 soloSerdeJson

theorem solo_stored : Stored soloStorage := .genesis solo_loaded

theorem soloGenesis_disagrees :
    ¬(FoundBySync soloStorage (genesisBlock 0) ∧ FoundByRpc soloStorage 0 (genesisBlock 0) ∧
      FoundByRest soloStorage (genesisBlock 0)) :=
  (lookups_never_agree solo_stored solo_blocks).1

/-- The block of a fresh genesis is served to no peer that asks for its hash, and the RPC server
does not find it either. -/
theorem soloGenesis_not_found :
    Stored soloStorage ∧ blockAt soloStorage 0 = some (genesisBlock 0) ∧
      ¬FoundBySync soloStorage (genesisBlock 0) ∧ ¬FoundByRpc soloStorage 0 (genesisBlock 0) := by
  refine ⟨solo_stored, solo_blocks, solo_stored.not_foundBySync, fun found => ?_⟩
  unfold FoundByRpc blockGet at found
  cases read : blockIdToHeight (.string (hashText (headerHash (genesisBlock 0).header))) soloStorage 0 with
  | error e =>
    rw [read] at found
    cases found
  | ok h =>
    obtain ⟨_, positive, le, _⟩ := rpc_finds_iff.mp ⟨h, read⟩
    exact absurd (positive.trans_le le) (by decide)

end Sample

end Mononium
