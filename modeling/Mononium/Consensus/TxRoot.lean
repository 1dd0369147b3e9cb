import Mononium.Consensus.Engine
import Mononium.Lib.HashChain
import Mononium.Network.BatchHash

/-! What the transaction root of a block commits to: the transactions, up to their order. -/
namespace Mononium

open Rust Scale HashChain

theorem transaction_length_of_body (tx : Transaction) :
    (Codec.transaction.encode tx).length = 889 + (Codec.txBody.encode tx.body).length := by
  have layout : Codec.transaction.encode tx = leBytes 8 tx.chainId.toNat ++
      (leBytes 8 tx.nonce.toNat ++ (tx.sender.asBytes ++ (leBytes 32 tx.fee.toNat ++
        (Codec.txBody.encode tx.body ++ tx.signature.bytes)))) := rfl
  simp only [layout, List.length_append, leBytes_length, Address.asBytes_length, tx.signature.length]
  omega

def concat (root h : Digest) : Bytes := root.bytes ++ h.bytes

theorem concat_length (root h : Digest) : (concat root h).length = 64 := by
  rw [concat, List.length_append, root.length, h.length]

theorem concat_injective {a b a' b' : Digest} (same : concat a b = concat a' b') :
    a = a' ∧ b = b' := by
  obtain ⟨roots, digests⟩ := List.append_inj same (a.length.trans a'.length.symm)
  exact ⟨FixedBytes.ext roots, FixedBytes.ext digests⟩

section

variable [Blake3]

def txHash (tx : Transaction) : Digest := blake3 (Codec.transaction.encode tx)

def sortedHashes (body : BlockBody) : List Digest :=
  (body.transactions.map txHash).insertionSort hashOrder

def txRootInputs (body : BlockBody) : List Bytes :=
  match sortedHashes body with
  | [] => [[]]
  | first :: rest => body.transactions.map Codec.transaction.encode ++ links blake3 concat first rest

/-- The root where every transaction can be encoded. A count over 32 bits panics. -/
def encodedTxRoot (body : BlockBody) : Exec Digest := do
  let _ ← body.transactions.mapM Codec.transaction.write
  return computeTxRoot body

theorem encodedTxRoot_eq (body : BlockBody) : encodedTxRoot body =
    if ∀ tx ∈ body.transactions, Codec.transaction.fits tx = true then .ok (computeTxRoot body)
    else .error (.expect "Compact encodes length") := by
  rw [encodedTxRoot]
  split
  next fits => rw [Codec.mapM_write fits, ok_bind]; rfl
  next overlong =>
    have panics : body.transactions.mapM Codec.transaction.write =
        .error (.expect "Compact encodes length") := Codec.mapM_write_error overlong
    rw [panics]
    rfl

theorem encode_mem_txRootInputs {body : BlockBody} {tx : Transaction}
    (member : tx ∈ body.transactions) : Codec.transaction.encode tx ∈ txRootInputs body := by
  have listed : txHash tx ∈ sortedHashes body :=
    (List.mem_insertionSort hashOrder).mpr (List.mem_map_of_mem member)
  unfold txRootInputs
  split
  next sorted => simp [sorted] at listed
  next => exact List.mem_append_left _ (List.mem_map_of_mem member)

/-- The root is a chain that begins with the hash of something no pair of digests spells. -/
structure Unrolled (body : BlockBody) (leaf : Bytes) (rest : List Digest) : Prop where
  root : computeTxRoot body = chain blake3 concat (blake3 leaf) rest
  apart : ∀ a b, concat a b ≠ leaf
  hashed : leaf ∈ txRootInputs body
  linked : ∀ i ∈ links blake3 concat (blake3 leaf) rest, i ∈ txRootInputs body
  sorted : sortedHashes body = if leaf = [] then [] else blake3 leaf :: rest

theorem exists_unrolled (body : BlockBody) : ∃ leaf rest, Unrolled body leaf rest := by
  have root : computeTxRoot body = match sortedHashes body with
    | [] => blake3 []
    | first :: rest => chain blake3 concat first rest := rfl
  cases sorted : sortedHashes body with
  | nil =>
    rw [sorted] at root
    refine ⟨[], [], root, fun a b empty => ?_, by simp [txRootInputs, sorted], by simp [links], ?_⟩
    · exact absurd (congrArg List.length empty) (by rw [concat_length]; decide)
    · rw [sorted, if_pos rfl]
  | cons first rest =>
    have member : first ∈ body.transactions.map txHash := by
      rw [← List.mem_insertionSort hashOrder, ← sortedHashes, sorted]
      exact List.mem_cons_self
    obtain ⟨tx, inside, rfl⟩ := List.mem_map.mp member
    have length := transaction_length_of_body tx
    rw [sorted] at root
    refine ⟨Codec.transaction.encode tx, rest, root, fun a b spelled => ?_, ?_, ?_, ?_⟩
    · have long := concat_length a b
      rw [spelled, length] at long
      omega
    · exact encode_mem_txRootInputs inside
    · intro i linked
      rw [txRootInputs, sorted]
      exact List.mem_append_right _ linked
    · have nonempty : Codec.transaction.encode tx ≠ [] := by
        rintro empty
        rw [empty, List.length_nil] at length
        omega
      rw [sorted, if_neg nonempty]
      rfl

/-- Equal roots without a collision mean the same transactions. -/
theorem perm_of_root {a b : BlockBody} (fitsA : ∀ tx ∈ a.transactions, Codec.transaction.fits tx = true)
    (fitsB : ∀ tx ∈ b.transactions, Codec.transaction.fits tx = true)
    (apart : Apart blake3 (txRootInputs a ++ txRootInputs b)) (same : computeTxRoot a = computeTxRoot b) :
    a.transactions.Perm b.transactions := by
  obtain ⟨leafA, restA, left⟩ := exists_unrolled a
  obtain ⟨leafB, restB, right⟩ := exists_unrolled b
  rw [left.root, right.root] at same
  obtain ⟨rfl, rfl⟩ := chain_injective apart (fun _ _ _ _ => concat_injective) left.apart right.apart
    (List.mem_append_left _ left.hashed) (List.mem_append_right _ right.hashed)
    (fun i linked => List.mem_append_left _ (left.linked i linked))
    (fun i linked => List.mem_append_right _ (right.linked i linked)) same
  have sortedA : (sortedHashes a).Perm (a.transactions.map txHash) := List.perm_insertionSort _ _
  have sortedB : (sortedHashes b).Perm (b.transactions.map txHash) := List.perm_insertionSort _ _
  have hashes : (a.transactions.map txHash).Perm (b.transactions.map txHash) := by
    rw [left.sorted] at sortedA
    rw [right.sorted] at sortedB
    exact sortedA.symm.trans sortedB
  have fits : ∀ tx ∈ a.transactions ++ b.transactions, Codec.transaction.fits tx = true :=
    List.forall_mem_append.mpr ⟨fitsA, fitsB⟩
  have hashed : ∀ tx ∈ a.transactions ++ b.transactions,
      Codec.transaction.encode tx ∈ txRootInputs a ++ txRootInputs b :=
    List.forall_mem_append.mpr ⟨fun tx member => List.mem_append_left _ (encode_mem_txRootInputs member),
      fun tx member => List.mem_append_right _ (encode_mem_txRootInputs member)⟩
  refine perm_of_map_perm (fun x here y there hash => ?_) hashes
  exact Codec.transaction.encode_injective (fits x here) (fits y there)
    (apart _ (hashed x here) _ (hashed y there) hash)

/-- The root does not depend on the order of the transactions, and two bodies with one root have
the same transactions, or two of the inputs hashed for them collide. -/
theorem tx_root_binds (a b : BlockBody) :
    (a.transactions.Perm b.transactions → encodedTxRoot a = encodedTxRoot b) ∧
    ∀ root, encodedTxRoot a = .ok root → encodedTxRoot b = .ok root →
      a.transactions.Perm b.transactions ∨
        ∃ x ∈ txRootInputs a ++ txRootInputs b, ∃ y ∈ txRootInputs a ++ txRootInputs b, Collide x y := by
  constructor
  · intro perm
    simp only [encodedTxRoot_eq, computeTxRoot_perm perm, perm.mem_iff]
  · intro root first second
    rw [encodedTxRoot_eq] at first second
    split at first
    next fitsA =>
      split at second
      next fitsB =>
        by_cases apart : Apart blake3 (txRootInputs a ++ txRootInputs b)
        · cases first
          exact .inl (perm_of_root fitsA fitsB apart (Except.ok.inj second).symm)
        · simp only [Apart, not_forall] at apart
          obtain ⟨x, here, y, there, hash, different⟩ := apart
          exact .inr ⟨x, here, y, there, different, hash⟩
      next => cases second
    next => cases first

end

end Mononium
