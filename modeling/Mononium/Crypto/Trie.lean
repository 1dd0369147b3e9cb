import Mononium.Core.Types
import Mononium.Lib.HashMap
import Mononium.Lib.SparseMerkle

/-! The sparse Merkle tree of `crypto::trie`: leaves in a hash map keyed by the
BLAKE3 hash of the caller's key, and a root computed level by level on demand. -/
namespace Mononium

open Rust Scale

variable [Blake3]

/-- `EMPTY_HASH`, the hash of an absent leaf. -/
def emptyHash : Digest := FixedBytes.replicate 32 0

def depth : Nat := 256

def combine (left right : Digest) : Digest := blake3 (left.bytes ++ right.bytes)

/-- `defaults()[d]`, the root of an empty subtree of depth `d`. -/
def defaults (d : Nat) : Digest := SparseMerkle.defaultRoot combine emptyHash d

structure SparseMerkleTree where
  leaves : HashMap Digest Bytes
  cachedRoot : Option Digest

namespace SparseMerkleTree

def new : SparseMerkleTree := ⟨∅, none⟩

def insert (t : SparseMerkleTree) (key value : Bytes) : SparseMerkleTree :=
  ⟨t.leaves.insert (blake3 key) value, none⟩

def get (t : SparseMerkleTree) (key : Bytes) : Option Bytes := t.leaves.lookup (blake3 key)

/-- `U256::from_big_endian`. -/
def position (key : Digest) : U256 := BitVec.ofNat 256 (beValue key.bytes)

def parentPos (pos : U256) : U256 := pos >>> 1

/-- The parent of a node: the sibling is looked up among the nodes of the level,
and the node at the lower position is the left child. -/
def parent (default : Digest) (nodes : HashMap U256 Digest) (pos : U256) (hash : Digest) : Digest :=
  let siblingPos := pos ^^^ 1
  let siblingHash := (nodes.lookup siblingPos).getD default
  if pos < siblingPos then combine hash siblingHash else combine siblingHash hash

/-- The parents of a level, from its nodes in the order in which they are iterated. Two
siblings give their parent twice. -/
def parentsFrom (default : Digest) (nodes : HashMap U256 Digest)
    (entries : List ((_ : U256) × Digest)) : HashMap U256 Digest :=
  HashMap.insertAll ∅ (entries.map fun e => (parentPos e.1, parent default nodes e.1 e.2))

def leafNodesFrom (entries : List ((_ : Digest) × Bytes)) : HashMap U256 Digest :=
  HashMap.insertAll ∅ (entries.map fun e => (position e.1, blake3 e.2))

/-- The orders in which one computation of a root happens to iterate over its maps. -/
structure Iteration where
  leaves : HashMap Digest Bytes → List ((_ : Digest) × Bytes)
  nodes : Nat → HashMap U256 Digest → List ((_ : U256) × Digest)
  leaves_perm : ∀ map, (leaves map).Perm map.entries
  nodes_perm : ∀ level map, (nodes level map).Perm map.entries

def Iteration.plain : Iteration :=
  ⟨fun map => map.entries, fun _ map => map.entries, fun _ => .refl _, fun _ _ => .refl _⟩

def nodesIn (order : Iteration) (leaves : HashMap Digest Bytes) : Nat → HashMap U256 Digest
  | 0 => leafNodesFrom (order.leaves leaves)
  | level + 1 =>
    let nodes := nodesIn order leaves level
    parentsFrom (defaults level) nodes (order.nodes level nodes)

def computeRootIn (order : Iteration) (leaves : HashMap Digest Bytes) : Exec Digest :=
  match (nodesIn order leaves depth).entries with
  | [root] => .ok root.2
  | _ => .error (.assertion "root computation must produce exactly one node")

/-- The root, and the tree with the root cached. -/
def rootIn (order : Iteration) (t : SparseMerkleTree) : Exec (Digest × SparseMerkleTree) :=
  match t.cachedRoot with
  | some cached => .ok (cached, t)
  | none =>
    if t.leaves.entries.isEmpty then .ok (defaults depth, t)
    else do
      let root ← computeRootIn order t.leaves
      return (root, { t with cachedRoot := some root })

/-- The order of iteration does not matter, so one of them stands for all. -/
def root (t : SparseMerkleTree) : Exec (Digest × SparseMerkleTree) := t.rootIn .plain

end SparseMerkleTree

def nsAccounts : UInt8 := 0x00
def nsValidators : UInt8 := 0x01
def nsGovernance : UInt8 := 0x03

def namespaceKey (ns : UInt8) (key : Bytes) : Bytes := ns :: key

end Mononium
