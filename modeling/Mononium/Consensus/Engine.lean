import Mononium.Consensus.Proposer
import Mononium.Core.Runs

/-! Building and validating blocks, from `consensus::engine`. The builder reads the
state root and only then hands the block to the state machine; the validator looks at
the header alone. -/
namespace Mononium

open Rust Scale

/-- Signature verification is a library function. Nothing is assumed about it. -/
class Falcon512 where
  verify : Falcon512PublicKey → Bytes → Falcon512Signature → Bool

/-- What the proposer signs: the header with a signature of zeros. -/
def blockHeaderUnsignedPayload (header : BlockHeader) : Bytes :=
  Codec.blockHeader.encode { header with proposerSignature := FixedBytes.replicate 809 0 }

/-- Hashes are arrays of bytes and sort lexicographically. -/
def hashOrder (a b : Digest) : Prop := beValue a.bytes ≤ beValue b.bytes

instance : DecidableRel hashOrder := fun _ _ => inferInstanceAs (Decidable (_ ≤ _))

instance : Std.Total hashOrder := ⟨fun a b => Nat.le_total (beValue a.bytes) (beValue b.bytes)⟩

instance : IsTrans Digest hashOrder := ⟨fun _ _ _ first second => Nat.le_trans first second⟩

instance : Std.Antisymm hashOrder where
  antisymm a b first second :=
    FixedBytes.ext (beValue_injective (a.length.trans b.length.symm) (Nat.le_antisymm first second))

section

variable [Blake3]

def headerHash (header : BlockHeader) : Digest := blake3 (Codec.blockHeader.encode header)

/-- The sorted hashes of the transactions, folded pairwise from the left. -/
def computeTxRoot (body : BlockBody) : Digest :=
  let hashes := body.transactions.map fun tx => blake3 (Codec.transaction.encode tx)
  match hashes.insertionSort hashOrder with
  | [] => blake3 []
  | first :: rest => rest.foldl (fun root h => blake3 (root.bytes ++ h.bytes)) first

theorem computeTxRoot_perm {a b : BlockBody} (perm : a.transactions.Perm b.transactions) :
    computeTxRoot a = computeTxRoot b := by
  have sorted : (a.transactions.map fun tx => blake3 (Codec.transaction.encode tx)).insertionSort
      hashOrder = (b.transactions.map fun tx => blake3 (Codec.transaction.encode tx)).insertionSort
      hashOrder := by
    apply List.Perm.eq_of_pairwise' (List.pairwise_insertionSort hashOrder _)
      (List.pairwise_insertionSort hashOrder _)
    exact (List.perm_insertionSort _ _).trans ((perm.map _).trans (List.perm_insertionSort _ _).symm)
  simp only [computeTxRoot, sorted]

/-- The state root in the header is that of the machine before the transactions. -/
def buildBlock (state : StateMachine) (transactions : List Transaction) (parentBlock : Block)
    (proposer : Address) (timestamp : U64) (proposerSignature : Falcon512Signature) :
    Exec (Block × StateMachine) := do
  let height ← add parentBlock.header.height 1
  let body : BlockBody := ⟨transactions⟩
  let (globalStateRoot, state) ← state.stateRoot
  return (⟨⟨height, headerHash parentBlock.header, globalStateRoot, computeTxRoot body, timestamp,
    proposer, parentBlock.header.chainId, proposerSignature⟩, body⟩, state)

/-- The tolerance for timestamps is a parameter of the source that it does not read. -/
def validateBlock [Falcon512] (block currentTip : Block) (schedule : ProposerSchedule)
    (proposerPublicKey : Option Falcon512PublicKey) : Exec Bool := do
  if block.header.parentHash ≠ headerHash currentTip.header then
    return false
  if !(← schedule.isScheduledProposer block.header.proposer block.header.height) then
    return false
  if block.header.height ≠ (← add currentTip.header.height 1) then
    return false
  match proposerPublicKey with
  | some pk =>
    return Falcon512.verify pk (blockHeaderUnsignedPayload block.header)
      block.header.proposerSignature
  | none => return true

/-- What a header must satisfy to be accepted on a tip. -/
structure Admissible [Falcon512] (tip : Block) (schedule : ProposerSchedule)
    (key : Option Falcon512PublicKey) (header : BlockHeader) : Prop where
  parent : header.parentHash = headerHash tip.header
  proposer : schedule.proposerForHeight header.height = .ok header.proposer
  height : header.height.toNat = tip.header.height.toNat + 1
  signed : ∀ pk, key = some pk →
    Falcon512.verify pk (blockHeaderUnsignedPayload header) header.proposerSignature = true

theorem validateBlock_accepts [Falcon512] {block tip : Block} {schedule : ProposerSchedule}
    {key : Option Falcon512PublicKey} :
    validateBlock block tip schedule key = .ok true ↔ Admissible tip schedule key block.header := by
  unfold validateBlock
  constructor
  · intro h
    split at h
    next => cases h
    next parent =>
      obtain ⟨scheduled, found, h⟩ := bind_eq_ok.mp h
      cases scheduled with
      | false => cases h
      | true =>
        obtain ⟨next, sum, h⟩ := bind_eq_ok.mp h
        split at h
        next => cases h
        next same =>
          rw [not_not] at parent same
          refine ⟨parent, ProposerSchedule.isScheduledProposer_eq_true.mp found,
            same ▸ add_eq_ok.mp sum, ?_⟩
          rintro pk rfl
          exact pure_eq_ok.mp h
  · intro admissible
    have next : add tip.header.height 1 = .ok block.header.height :=
      add_eq_ok.mpr admissible.height
    rw [if_neg (not_not.mpr admissible.parent),
      ProposerSchedule.isScheduledProposer_eq_true.mpr admissible.proposer, ok_bind, next, ok_bind,
      if_neg (by simp), if_neg (not_not.mpr rfl)]
    cases key with
    | none => rfl
    | some pk => exact pure_eq_ok.mpr (admissible.signed pk rfl)

end

end Mononium
