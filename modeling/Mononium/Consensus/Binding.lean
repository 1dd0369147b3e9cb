import Mononium.Consensus.Engine
import Mononium.Core.Agreement

/-! What an accepted header says about the block below it. The validator never looks at
the body, so every body is accepted under an admissible header; and the transaction root,
even when it is right, does not see the order of execution. -/
namespace Mononium

open Rust Scale

namespace StateMachine

section

variable [Blake3] {A : Finset Address} {s : StateMachine}

/-- The blocks give the same receipt and the same machine, or panic both. -/
structure SameEffect (s : StateMachine) (first second : Block) : Prop where
  returns : Returns (s.applyBlock first) ↔ Returns (s.applyBlock second)
  results : ∀ receipt other u v, s.applyBlock first = .ok (receipt, u) →
    s.applyBlock second = .ok (other, v) →
    receipt = other ∧ Alike u v ∧ u.validators = v.validators ∧ u.activeSet = v.activeSet

/-- A loop that pools no fees and leaves the machine alone gives this receipt. -/
theorem applyBlock_of_idle {block : Block} {failedCount : U32} (sound : Sound A s)
    (looped : applyTxs block.header.chainId ⟨s, 0, 0, 0⟩ block.body.transactions =
      .ok ⟨s, 0, 0, failedCount⟩) :
    ∃ root t, s.applyBlock block = .ok (⟨0, 0, failedCount, root⟩, t) := by
  obtain ⟨t, root, -⟩ := sound.stateRoot
  have distributed : s.distributeFees 0 = .ok s := by simp [distributeFees, pure, Except.pure]
  refine ⟨SparseMerkleTree.referenceRoot s.state.leaves, t, ?_⟩
  rw [applyBlock, looped, ok_bind, distributed, ok_bind, root]
  rfl

theorem applyTxs_foreign {chainId : U64} {tx : Transaction} (foreign : tx.chainId ≠ chainId) :
    applyTxs chainId ⟨s, 0, 0, 0⟩ [tx] = .ok ⟨s, 0, 0, 1⟩ := by
  rw [applyTxs_cons, applyTx, if_pos foreign]
  rfl

/-- Under every header two bodies have different effects: none at all, and one
transaction for another chain. -/
theorem exists_not_sameEffect (sound : Sound A s) (header : BlockHeader) :
    ∃ first second, ¬SameEffect s ⟨header, first⟩ ⟨header, second⟩ := by
  let stray : Transaction := ⟨header.chainId + 1, 0, alice, 0, .vote emptyHash true, dummySig⟩
  have foreign : stray.chainId ≠ header.chainId := by
    change header.chainId + 1 ≠ header.chainId
    bv_omega
  refine ⟨⟨[]⟩, ⟨[stray]⟩, fun same => ?_⟩
  obtain ⟨root, t, first⟩ : ∃ root t, s.applyBlock ⟨header, ⟨[]⟩⟩ = .ok (⟨0, 0, 0, root⟩, t) :=
    applyBlock_of_idle sound rfl
  obtain ⟨other, u, second⟩ : ∃ root t, s.applyBlock ⟨header, ⟨[stray]⟩⟩ = .ok (⟨0, 0, 1, root⟩, t) :=
    applyBlock_of_idle sound (applyTxs_foreign foreign)
  have receipts := (same.results _ _ _ _ first second).1
  have counts : (0 : U32) = 1 := congrArg BlockReceipt.failedCount receipts
  exact absurd counts (by decide)

variable [Falcon512] {tip : Block} {schedule : ProposerSchedule} {key : Option Falcon512PublicKey}

/-- Blocks accepted on this tip under one header have one effect. -/
def HeaderFixesEffect (s : StateMachine) (tip : Block) (schedule : ProposerSchedule)
    (key : Option Falcon512PublicKey) : Prop :=
  ∀ first second : Block, first.header = second.header →
    validateBlock first tip schedule key = .ok true →
    validateBlock second tip schedule key = .ok true → SameEffect s first second

/-- A header fixes the effect only where no header is accepted at all. -/
theorem headerFixesEffect_iff {accounts : List (Address × Account)}
    (reachable : Reachable A accounts s) :
    HeaderFixesEffect s tip schedule key ↔ ∀ header, ¬Admissible tip schedule key header := by
  constructor
  · intro fixes header admissible
    obtain ⟨first, second, different⟩ := exists_not_sameEffect reachable.sound header
    apply different
    apply fixes ⟨header, first⟩ ⟨header, second⟩ rfl
    · exact validateBlock_accepts.mpr admissible
    · exact validateBlock_accepts.mpr admissible
  · intro none first second _ accepted
    exact absurd (validateBlock_accepts.mp accepted) (none _)

end

section Sample

attribute [local instance] prefixBlake3

/-- A stand-in for signature verification that knows one signature. -/
abbrev dummyFalcon : Falcon512 := ⟨fun _ _ signature => signature = dummySig⟩

attribute [local instance] dummyFalcon

def anyKey : Falcon512PublicKey := FixedBytes.replicate 897 0

/-- On a tip of the greatest height nothing is accepted. -/
theorem lastHeight_fixesEffect :
    Reachable {alice} [(alice, Account.new 1000)] (new [(alice, Account.new 1000)]) ∧
      HeaderFixesEffect (new [(alice, Account.new 1000)])
        ⟨{ (testBlock []).header with height := BitVec.allOnes 64 }, ⟨[]⟩⟩ ⟨[alice], 0, 0⟩
        (some anyKey) := by
  have reachable : Reachable {alice} [(alice, Account.new 1000)] (new [(alice, Account.new 1000)]) :=
    new_reachable (by decide) (by decide)
  refine ⟨reachable, (headerFixesEffect_iff reachable).mpr fun header admissible => ?_⟩
  have next : header.height.toNat = (BitVec.allOnes 64).toNat + 1 := admissible.height
  rw [BitVec.toNat_allOnes] at next
  have := header.height.isLt
  omega

/-- Alice pays Bob, and Bob, who has no account before, pays Alice. -/
def thereAndBack : List Transaction := [transferTx alice bob 500 0, transferTx bob alice 100 0]

def childHeader : BlockHeader where
  height := 2
  parentHash := headerHash (testBlock []).header
  globalStateRoot := FixedBytes.replicate 32 0
  txRoot := computeTxRoot ⟨thereAndBack⟩
  timestamp := 1700000001
  proposer := alice
  chainId := 0
  proposerSignature := dummySig

theorem receipt_of_loop (block : Block) {accounts : List (Address × Account)} {A : Finset Address}
    (reachable : Reachable A accounts (new accounts))
    (within : ∀ tx ∈ block.body.transactions, tx.Within A)
    (looped : Returns (applyTxs block.header.chainId ⟨new accounts, 0, 0, 0⟩
      block.body.transactions)) :
    ∃ receipt t, (new accounts).applyBlock block = .ok (receipt, t) ∧
      receipt.txCount = (valueD (applyTxs block.header.chainId ⟨new accounts, 0, 0, 0⟩
        block.body.transactions) ⟨new [], 0, 0, 0⟩).txCount := by
  have reached := looped.eq_ok ⟨new [], 0, 0, 0⟩
  obtain ⟨⟨receipt, t⟩, applied⟩ : Returns ((new accounts).applyBlock block) :=
    applyBlock_returns_idle reachable.sound within rfl reached
  obtain ⟨p, same, -, -, -, rfl⟩ := applyBlock_spec reachable.sound within applied
  cases reached.symm.trans same
  exact ⟨_, t, applied, rfl⟩

/-- Two orders of the same transactions stand under one header with the right root and
have different effects. -/
theorem reordered_not_fixesEffect :
    Reachable {alice, bob} [(alice, Account.new 1000)] (new [(alice, Account.new 1000)]) ∧
      childHeader.txRoot = computeTxRoot ⟨thereAndBack⟩ ∧
      childHeader.txRoot = computeTxRoot ⟨thereAndBack.reverse⟩ ∧
      validateBlock ⟨childHeader, ⟨thereAndBack⟩⟩ (testBlock []) ⟨[alice], 0, 0⟩ (some anyKey) = .ok true ∧
      validateBlock ⟨childHeader, ⟨thereAndBack.reverse⟩⟩ (testBlock []) ⟨[alice], 0, 0⟩
        (some anyKey) = .ok true ∧
      ¬SameEffect (new [(alice, Account.new 1000)]) ⟨childHeader, ⟨thereAndBack⟩⟩
        ⟨childHeader, ⟨thereAndBack.reverse⟩⟩ := by
  have reachable : Reachable {alice, bob} [(alice, Account.new 1000)]
      (new [(alice, Account.new 1000)]) :=
    new_reachable (by decide) (by decide)
  have admissible : Admissible (testBlock []) ⟨[alice], 0, 0⟩ (some anyKey) childHeader :=
    ⟨rfl, by decide, by decide, fun _ _ => decide_eq_true rfl⟩
  refine ⟨reachable, rfl, computeTxRoot_perm (a := ⟨thereAndBack⟩) (List.reverse_perm _).symm,
    validateBlock_accepts.mpr admissible, validateBlock_accepts.mpr admissible, fun same => ?_⟩
  obtain ⟨first, u, appliedFirst, countFirst⟩ := receipt_of_loop
    ⟨childHeader, ⟨thereAndBack⟩⟩ reachable (by decide) (by decide)
  obtain ⟨second, v, appliedSecond, countSecond⟩ := receipt_of_loop
    ⟨childHeader, ⟨thereAndBack.reverse⟩⟩ reachable (by decide) (by decide)
  have counts := congrArg BlockReceipt.txCount
    (same.results _ _ _ _ appliedFirst appliedSecond).1
  rw [countFirst, countSecond] at counts
  revert counts
  decide

end Sample

end StateMachine

end Mononium
