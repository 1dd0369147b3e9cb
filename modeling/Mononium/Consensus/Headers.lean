import Mononium.Consensus.Engine

/-! Headers along a chain. The proposer signs what the validator verifies, whatever stood in
the place of the signature while the header was built; but the validator looks neither at the
chain id nor at the timestamp, so only the heights follow from acceptance. -/
namespace Mononium

open Rust Scale

def Block.signedWith (block : Block) (signature : Falcon512Signature) : Block :=
  { block with header := { block.header with proposerSignature := signature } }

@[simp] theorem unsignedPayload_signedWith (block : Block) (signature : Falcon512Signature) :
    blockHeaderUnsignedPayload (block.signedWith signature).header =
      blockHeaderUnsignedPayload block.header := rfl

def isTimestampMonotonic (blockTime parentTime : U64) : Bool := parentTime ≤ blockTime

def Consecutive (tip : Block) (blocks : List Block) : Prop :=
  List.IsChain (fun a b : Block => b.header.height.toNat = a.header.height.toNat + 1) (tip :: blocks)

/-- What is to hold along a chain of blocks on `tip`. -/
structure HeaderLaws (tip : Block) (blocks : List Block) : Prop where
  heights : Consecutive tip blocks
  chainId : ∀ b ∈ blocks, b.header.chainId = tip.header.chainId
  timestamps : List.Pairwise (fun a b : Block =>
    isTimestampMonotonic b.header.timestamp a.header.timestamp = true) (tip :: blocks)

section

variable [Blake3]

section

variable [Falcon512] {tip : Block} {blocks : List Block} {key : Falcon512PublicKey}
  {schedule : ProposerSchedule}

/-- Every block is accepted on the one before it, each with a schedule and a key of its own. -/
inductive AcceptedChain : Block → List Block → Prop
  | nil {tip : Block} : AcceptedChain tip []
  | cons {tip block : Block} {blocks : List Block} {schedule : ProposerSchedule}
      {key : Option Falcon512PublicKey} (valid : validateBlock block tip schedule key = .ok true)
      (rest : AcceptedChain block blocks) : AcceptedChain tip (block :: blocks)

theorem AcceptedChain.heights (accepted : AcceptedChain tip blocks) : Consecutive tip blocks := by
  induction accepted with
  | nil => exact .singleton _
  | cons valid _ ih => exact .cons_cons (validateBlock_accepts.mp valid).height ih

/-- Nothing is accepted on the last height there is. -/
theorem AcceptedChain.nil_of_last (accepted : AcceptedChain tip blocks)
    (last : tip.header.height.toNat + 1 = 2 ^ 64) : blocks = [] := by
  cases accepted with
  | nil => rfl
  | @cons _ block _ _ _ valid _ =>
    have next := (validateBlock_accepts.mp valid).height
    have bound := block.header.height.isLt
    omega

/-- A block of the scheduled validator is accepted with any chain id and any timestamp. -/
theorem validateBlock_anyHeader (room : tip.header.height.toNat + 1 < 2 ^ 64)
    (nonempty : schedule.activeSet ≠ []) (chainId timestamp : U64) :
    ∃ block : Block, validateBlock block tip schedule none = .ok true ∧
      block.header.chainId = chainId ∧ block.header.timestamp = timestamp := by
  obtain ⟨height, next⟩ : Returns (add tip.header.height 1) := add_returns.mpr room
  obtain ⟨proposer, scheduled⟩ : Returns (schedule.proposerForHeight height) :=
    ProposerSchedule.proposerForHeight_returns.mpr nonempty
  have blank : Digest := FixedBytes.replicate 32 0
  refine ⟨⟨⟨height, headerHash tip.header, blank, blank, timestamp, proposer, chainId, dummySig⟩, ⟨[]⟩⟩,
    validateBlock_accepts.mpr ⟨rfl, scheduled, add_eq_ok.mp next, ?_⟩, rfl, rfl⟩
  rintro pk impossible
  cases impossible

/-- The heights of an accepted chain are consecutive. The other laws hold of every accepted chain
on a tip only if none can be built on it, at the last height there is: on every other tip any
schedule with a validator accepts a block of any chain id and any timestamp. -/
theorem acceptedChain_laws_iff (tip : Block) :
    (∀ blocks, AcceptedChain tip blocks → Consecutive tip blocks) ∧
      ((∀ blocks, AcceptedChain tip blocks → HeaderLaws tip blocks) ↔
        tip.header.height.toNat + 1 = 2 ^ 64) ∧
      ∀ schedule : ProposerSchedule, schedule.activeSet ≠ [] →
        (tip.header.height.toNat + 1 < 2 ^ 64 ↔
          ∀ chainId timestamp, ∃ block : Block, validateBlock block tip schedule none = .ok true ∧
            block.header.chainId = chainId ∧ block.header.timestamp = timestamp) := by
  have bound := tip.header.height.isLt
  refine ⟨fun blocks => AcceptedChain.heights, ⟨fun lawful => ?_, fun last blocks accepted => ?_⟩,
    fun schedule nonempty => ⟨fun room => validateBlock_anyHeader room nonempty, fun all => ?_⟩⟩
  · by_contra below
    -- a block of another chain
    obtain ⟨block, valid, other, -⟩ := @validateBlock_anyHeader _ _ tip ⟨[tip.header.proposer], 0, 0⟩
      (by omega) (List.cons_ne_nil _ _) (tip.header.chainId + 1) 0
    have same := (lawful [block] (.cons valid .nil)).chainId block List.mem_cons_self
    rw [other] at same
    bv_omega
  · obtain rfl := accepted.nil_of_last last
    exact ⟨.singleton _, by simp, by simp⟩
  · obtain ⟨block, valid, -⟩ := all 0 0
    have next := (validateBlock_accepts.mp valid).height
    have top := block.header.height.isLt
    omega

end

end

section Sample

attribute [local instance] prefixBlake3

/-- A scheme that has one signature for each message, its first bytes. -/
def prefixSignature (message : Bytes) : Falcon512Signature :=
  ⟨(message ++ List.replicate 809 0).take 809, by
    rw [List.length_take, List.length_append, List.length_replicate]
    omega⟩

abbrev prefixFalcon512 : Falcon512 := ⟨fun _ message signature => signature = prefixSignature message⟩

attribute [local instance] prefixFalcon512

def aliceSchedule : ProposerSchedule := ⟨[alice], 0, 0⟩

/-- A block of another chain that claims to be older than the block it is built on. -/
def strayBlock : Block :=
  ⟨⟨2, headerHash (testBlock []).header, FixedBytes.replicate 32 0, FixedBytes.replicate 32 0, 5,
    alice, 9, dummySig⟩, ⟨[]⟩⟩

theorem strayBlock_accepted :
    AcceptedChain (testBlock []) [strayBlock] ∧ ¬HeaderLaws (testBlock []) [strayBlock] := by
  have valid : validateBlock strayBlock (testBlock []) aliceSchedule none = .ok true :=
    validateBlock_accepts.mpr ⟨rfl, by decide, by decide, by simp⟩
  refine ⟨.cons valid .nil, fun laws => ?_⟩
  have same := laws.chainId strayBlock List.mem_cons_self
  revert same
  decide

end Sample

end Mononium
