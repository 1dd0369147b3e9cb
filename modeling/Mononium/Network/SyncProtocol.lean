import Mononium.Consensus.Engine
import Mononium.Network.Messages
import Mononium.Storage.Tables

/-! Serving sync requests from storage, from `network::sync_protocol`. A responder hashes
every batch from the genesis hash, whatever anchor the request named. -/
namespace Mononium

open Rust Scale

inductive SyncRequest where
  | blockSync (request : BlockSyncRequest)
  | blockByHash (request : BlockByHashRequest)
  deriving DecidableEq, Repr

inductive SyncResponse where
  | blockSync (response : BlockSyncResponse)
  | blockByHash (response : BlockByHashResponse)
  deriving DecidableEq, Repr

/-- The reads of the database that fail while one request is served: the anchor's, and those for
some offsets from its start, or for some of its hashes. -/
structure ReadFaults where
  anchor : Bool
  failed : List Nat
  deriving DecidableEq, Repr

def ReadFaults.none : ReadFaults := ⟨false, []⟩

def ReadFaults.fails (faults : ReadFaults) (place : Nat) : Bool := decide (place ∈ faults.failed)

@[simp] theorem ReadFaults.none_anchor : ReadFaults.none.anchor = false := rfl

@[simp] theorem ReadFaults.none_fails (place : Nat) : ReadFaults.none.fails place = false := rfl

def collect (storage : Storage) (faults : ReadFaults) (heightAt : Nat → Exec (Option U64)) :
    List Nat → Exec (List Block)
  | [] => return []
  | offset :: rest => do
    let some height ← heightAt offset | return []
    let some block := readBlock storage (faults.fails offset) height | return []
    return block :: (← collect storage faults heightAt rest)

def forwardHeight (start : U64) (offset : Nat) : Exec (Option U64) :=
  some <$> add start (BitVec.ofNat 64 offset)

theorem succ_toNat {k : U64} (room : k.toNat + 1 < 2 ^ 64) : (k + 1).toNat = k.toNat + 1 :=
  add_toNat room

theorem offset_toNat {offset : Nat} (small : offset < 2 ^ 64) :
    (BitVec.ofNat 64 offset).toNat = offset := by
  rw [BitVec.toNat_ofNat, Nat.mod_eq_of_lt small]

theorem forwardHeight_next {k start : U64} {offset : Nat} (here : start.toNat + offset = k.toNat + 1)
    (room : k.toNat + 1 < 2 ^ 64) : forwardHeight start offset = .ok (some (k + 1)) := by
  have sum : add start (BitVec.ofNat 64 offset) = .ok (k + 1) := by
    rw [add_eq_ok, succ_toNat room, offset_toNat (by omega), here]
  rw [forwardHeight, sum]
  rfl

theorem forwardHeight_last {start : U64} {offset : Nat} (here : start.toNat + offset = 2 ^ 64)
    (positive : 0 < start.toNat) : forwardHeight start offset = .error .overflow := by
  rw [forwardHeight, add, offset_toNat (by omega), here, if_neg (Nat.lt_irrefl _)]
  rfl

/-- The genesis block is not served backward. -/
def backwardHeight (start : U64) (offset : Nat) : Exec (Option U64) :=
  let height := saturatingSub start (BitVec.ofNat 64 (1 + offset))
  return if height = 0 then none else some height

section

variable [Blake3]

def anchorMismatch (req : BlockSyncRequest) (storage : Storage) (faults : ReadFaults) : Bool :=
  match req.knownBlockHash, readBlock storage faults.anchor (saturatingSub req.startHeight 1) with
  | some anchorHash, some block => headerHash block.header ≠ anchorHash
  | _, _ => false

def serveBlockSync (req : BlockSyncRequest) (storage : Storage) (faults : ReadFaults)
    (genesisHash : Digest) (highestKnownHeight : U64) : Exec (Option SyncResponse) := do
  if (validateSyncRequest req).isOk = false then
    return none
  if anchorMismatch req storage faults then
    return some (.blockSync ⟨[], highestKnownHeight, genesisHash⟩)
  let offsets := List.range (min req.maxBlocks.toNat maxSyncBlocks.toNat)
  let blocks ← match req.direction with
    | .forward => collect storage faults (forwardHeight req.startHeight) offsets
    | .backward => List.reverse <$> collect storage faults (backwardHeight req.startHeight) offsets
  let batchHash ← computeBatchHash genesisHash blocks
  return some (.blockSync ⟨blocks, highestKnownHeight, batchHash⟩)

end

def blockOfHash (storage : Storage) (fault : Bool) (hash : Digest) : Option Block :=
  if fault then none
  else do
    let heightBytes ← storage.get .blockHashes hash.bytes
    if heightBytes.length = 8 then
      let blockBytes ← storage.get .blocks heightBytes
      let (block, _) ← Codec.block.decode blockBytes
      some block
    else none

def serveBlockByHash (req : BlockByHashRequest) (storage : Storage) (faults : ReadFaults) :
    Option SyncResponse :=
  if (validateByHashRequest req).isOk then
    some (.blockByHash ⟨req.blockHashes.zipIdx.filterMap fun (hash, place) =>
      blockOfHash storage (faults.fails place) hash⟩)
  else none

def serveSyncRequest [Blake3] (request : SyncRequest) (storage : Storage) (faults : ReadFaults)
    (genesisHash : Digest) (highestKnownHeight : U64) : Exec (Option SyncResponse) :=
  match request with
  | .blockSync req => serveBlockSync req storage faults genesisHash highestKnownHeight
  | .blockByHash req => return serveBlockByHash req storage faults

end Mononium
