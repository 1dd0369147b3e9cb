import Mononium.Consensus.Engine
import Mononium.Core.Agreement
import Mononium.Core.Refusal

/-! What the state root of a built block commits to. The builder reads it before the
transactions run, so it is the root after the block only if the block leaves the ledger
as it was: nothing executes, and what refused transactions cost comes back as fee shares. -/
namespace Mononium

open Rust Scale

namespace StateMachine

section

variable [Blake3] {A : Finset Address} {s t u : StateMachine}

/-- A built block carries the root of the machine it was built on. -/
theorem buildBlock_spec {txs : List Transaction} {parent block : Block} {proposer : Address}
    {timestamp : U64} {signature : Falcon512Signature} (sound : Sound A s)
    (built : buildBlock s txs parent proposer timestamp signature = .ok (block, u)) :
    block.header.globalStateRoot = SparseMerkleTree.referenceRoot s.state.leaves ∧
      block.header.chainId = parent.header.chainId ∧ block.body.transactions = txs ∧
      Alike u s ∧ Sound A u ∧ Lessened A s u fun _ => 0 := by
  obtain ⟨height, next, built⟩ := bind_eq_ok.mp built
  obtain ⟨after, root, soundAfter, leaves, active, index⟩ := sound.stateRoot
  dsimp only at built
  rw [root, ok_bind] at built
  cases built
  have alike : Alike after s := fun digest => by rw [leaves]
  refine ⟨rfl, rfl, rfl, alike, soundAfter, ?_, fun _ _ => Nat.zero_le _,
    fun a _ => alike.getValidator a, index, active⟩
  intro a _
  simp [alike.account]

/-- The account gets back what it paid; at the largest balance more is lost. -/
def Repaid (s : StateMachine) (toll : Toll) (a : Address) : Prop :=
  toll.paid a = s.feeShare (BitVec.ofNat 128 toll.pool) a ∨
    s.balance a = 2 ^ 256 - 1 ∧ toll.paid a ≤ s.feeShare (BitVec.ofNat 128 toll.pool) a

instance (s : StateMachine) (toll : Toll) (a : Address) : Decidable (Repaid s toll a) :=
  inferInstanceAs (Decidable (_ ∨ _))

theorem Lessened.feeShare {paid : Address → Nat} (lessened : Lessened A s t paid)
    (sound : Sound A s) (fees : U128) : t.feeShare fees = s.feeShare fees := by
  have pairs : t.stakePairs = s.stakePairs := by
    rw [stakePairs, stakePairs, lessened.active]
    apply List.filterMap_congr
    intro a member
    rw [lessened.entry a (sound.active a member)]
  funext a
  simp only [StateMachine.feeShare, payouts, claims, pairs]

/-- Taking fees and giving shares is the identity exactly where the two are equal. -/
theorem repaid_iff {toll : Toll} {p : Progress} (sound : Sound A s) (tolled : Tolled A s toll p)
    (credited : Credited A p.machine t (p.machine.feeShare p.blockFees)) :
    SameLedger A s t ↔ ∀ a ∈ A, Repaid s toll a := by
  have pool : p.blockFees = BitVec.ofNat 128 toll.pool := by
    rw [← tolled.pooled, BitVec.ofNat_toNat, BitVec.setWidth_eq]
  rw [tolled.lessened.feeShare sound, pool] at credited
  have account (a : Address) (ha : a ∈ A) : s.account a = t.account a ↔ Repaid s toll a := by
    have covered := tolled.lessened.covered a ha
    rw [credited.account a ha, tolled.lessened.account a ha, Repaid]
    rw [StateMachine.balance] at covered ⊢
    cases known : s.account a with
    | none =>
      have zero : (Account.new 0).balance.toNat = 0 := rfl
      rw [known, Option.getD_none, zero] at covered
      have free : toll.paid a = 0 := Nat.le_zero.mp covered
      by_cases share : s.feeShare (BitVec.ofNat 128 toll.pool) a = 0
      · simp [share, free]
      · simp [share, free, Account.new, Ne.symm share]
    | some x =>
      have bound := x.balance.isLt
      have ended : (if s.feeShare (BitVec.ofNat 128 toll.pool) a = 0 then
            (some x).map (·.less (toll.paid a))
          else some ((((some x).map (·.less (toll.paid a))).getD (Account.new 0)).credit
            (s.feeShare (BitVec.ofNat 128 toll.pool) a))) =
          some ((x.less (toll.paid a)).credit (s.feeShare (BitVec.ofNat 128 toll.pool) a)) := by
        split
        next zero => rw [zero, Account.credit_zero]; rfl
        next => rfl
      rw [ended, Option.some.injEq, eq_comm, Account.credit_less_eq_iff]
      rw [known, Option.getD_some] at covered
      rw [Option.getD_some]
      omega
  constructor
  · intro same a ha
    exact (account a ha).mp (same.account a ha)
  · intro repaid
    refine ⟨fun a ha => (account a ha).mpr (repaid a ha), fun a ha => ?_⟩
    rw [credited.entry a ha, tolled.lessened.entry a ha]

theorem applyBlock_sameLedger_iff {block : Block} {receipt : BlockReceipt} (soundS : Sound A s)
    (soundU : Sound A u) (start : Lessened A s u fun _ => 0)
    (within : ∀ tx ∈ block.body.transactions, tx.Within A)
    (applied : u.applyBlock block = .ok (receipt, t)) :
    SameLedger A s t ↔ AllRefused s block.header.chainId noToll block.body.transactions ∧
      ∀ a ∈ A, Repaid s (tollOf s block.header.chainId noToll block.body.transactions) a := by
  obtain ⟨p, looped, -, -, credited, -⟩ := applyBlock_spec soundU within applied
  have tolled : Tolled A s noToll ⟨u, 0, 0, 0⟩ := ⟨start, rfl⟩
  rcases applyTxs_refused_or_raised soundU within tolled looped with
    ⟨all, tolledP⟩ | ⟨notAll, a, ha, raised⟩
  · rw [repaid_iff soundS tolledP credited]
    exact (and_iff_right all).symm
  · refine iff_of_false (fun same => ?_) fun ⟨all, _⟩ => notAll all
    have unchanged : t.nonce a = u.nonce a := by
      rw [start.nonce ha, nonce, nonce, same.account a ha]
    rw [← credited.nonce ha, unchanged] at raised
    exact absurd raised (Nat.lt_irrefl _)

/-- The root in the header of a built block is the root after the block exactly when the
block executes nothing and every account gets back what it paid. -/
theorem buildBlock_commits_iff {accounts : List (Address × Account)} {txs : List Transaction}
    {parent block : Block} {proposer : Address} {timestamp : U64} {signature : Falcon512Signature}
    {receipt : BlockReceipt} (reachable : Reachable A accounts s) (within : ∀ tx ∈ txs, tx.Within A)
    (built : buildBlock s txs parent proposer timestamp signature = .ok (block, u))
    (applied : u.applyBlock block = .ok (receipt, t))
    (free : SparseMerkleTree.CollisionFree s.state.leaves t.state.leaves) :
    block.header.globalStateRoot = receipt.stateRoot ↔
      AllRefused s parent.header.chainId noToll txs ∧
        ∀ a ∈ A, Repaid s (tollOf s parent.header.chainId noToll txs) a := by
  obtain ⟨root, chain, body, -, soundU, start⟩ := buildBlock_spec reachable.sound built
  rw [← body] at within
  obtain ⟨p, -, -, -, credited, reported⟩ := applyBlock_spec soundU within applied
  rw [← body, ← chain, ← applyBlock_sameLedger_iff reachable.sound soundU start within applied, root,
    reported]
  constructor
  · intro same
    exact sameLedger_of_lookup_eq (SparseMerkleTree.lookup_eq_of_referenceRoot_eq free same)
  · intro same
    exact SparseMerkleTree.referenceRoot_congr (same.lookup_eq reachable.sound credited.sound)

end

section Sample

attribute [local instance] peakBlake3

def soloTx (tx : Transaction) : Progress :=
  valueD (applyTxs 0 ⟨new solo, 0, 0, 0⟩ [tx]) ⟨new [], 0, 0, 0⟩

theorem new_solo_reachable : Reachable {alice} solo (new solo) :=
  new_reachable (by decide) (by decide)

theorem solo_built (tx : Transaction) (parent : Block) (proposer : Address) (timestamp : U64)
    (signature : Falcon512Signature) (room : Returns (add parent.header.height 1))
    (zero : parent.header.chainId = 0) (within : tx.Within {alice})
    (returns : Returns (applyTxs 0 ⟨new solo, 0, 0, 0⟩ [tx])) :
    ∃ block u receipt t, buildBlock (new solo) [tx] parent proposer timestamp signature =
        .ok (block, u) ∧ u.applyBlock block = .ok (receipt, t) ∧ Sound {alice} t ∧
      t.account alice = (soloTx tx).machine.account alice ∧
      t.getValidator alice = (soloTx tx).machine.getValidator alice := by
  have sound := new_solo_reachable.sound
  obtain ⟨⟨block, u⟩, built⟩ :
      Returns (buildBlock (new solo) [tx] parent proposer timestamp signature) := by
    obtain ⟨height, next⟩ := room
    obtain ⟨after, root, -⟩ := sound.stateRoot
    rw [buildBlock, next, ok_bind, root]
    exact returns_ok _
  obtain ⟨-, chain, body, alike, soundU, start⟩ := buildBlock_spec sound built
  have closed : ∀ tx ∈ block.body.transactions, tx.Within {alice} := by
    rw [body]
    intro other member
    exact List.mem_singleton.mp member ▸ within
  have idle : u.activeSet = [] := start.active
  obtain ⟨p, looped, values⟩ : ∃ p, applyTxs block.header.chainId ⟨u, 0, 0, 0⟩
      block.body.transactions = .ok p ∧ Progress.Alike p (soloTx tx) := by
    have reached := returns.eq_ok ⟨new [], 0, 0, 0⟩
    rw [chain, zero, body]
    rcases (applyTxs_related 0 alike [tx]).outcomes with ⟨p, q, first, second, values⟩ | ⟨_, -, panicked⟩
    · cases second.symm.trans reached
      exact ⟨p, first, values⟩
    · cases panicked.symm.trans reached
  obtain ⟨⟨receipt, t⟩, applied⟩ : Returns (u.applyBlock block) :=
    applyBlock_returns_idle soundU closed idle looped
  obtain ⟨q, same, -, active, credited, -⟩ := applyBlock_spec soundU closed applied
  cases looped.symm.trans same
  have none (a : Address) : p.machine.feeShare p.blockFees a = 0 :=
    feeShare_eq_zero (.inr (.inl (active.trans idle))) a
  have member : alice ∈ ({alice} : Finset Address) := Finset.mem_singleton_self alice
  refine ⟨block, u, receipt, t, built, applied, credited.sound, ?_, ?_⟩
  · rw [credited.account alice member, if_pos (none alice), values.machine.account]
  · rw [credited.entry alice member, values.machine.getValidator]

def staleVote : Transaction := ⟨0, 7, alice, 0, .vote (FixedBytes.replicate 32 0) true, dummySig⟩

/-- A vote that is refused leaves the root as it was. -/
theorem staleVote_commits :
    ∃ block u receipt t, buildBlock (new solo) [staleVote] (testBlock []) alice 1700000001 dummySig =
        .ok (block, u) ∧ u.applyBlock block = .ok (receipt, t) ∧
      block.header.globalStateRoot = receipt.stateRoot := by
  obtain ⟨block, u, receipt, t, built, applied, sound, account, entry⟩ :=
    solo_built staleVote (testBlock []) alice 1700000001 dummySig (returns_ok _) rfl (by decide)
      (by decide)
  refine ⟨block, u, receipt, t, built, applied, ?_⟩
  have known : (new solo).account alice = some (Account.new (10 ^ 33)) := by decide
  have after : (soloTx staleVote).machine.account alice = some (Account.new (10 ^ 33)) := by
    decide
  have free := collisionFree_of_single new_solo_reachable.sound sound known (account.trans after) rfl
    rfl (by rw [entry]; decide) fun _ => rfl
  apply (buildBlock_commits_iff new_solo_reachable (by decide) built applied free).mpr
  exact ⟨by decide, by decide⟩

def freshVote : Transaction := { staleVote with nonce := 0, fee := 100 }

/-- An ordinary vote is executed, and the header misses it. -/
theorem freshVote_not_commits :
    Reachable {alice} solo (new solo) ∧
    ∃ block u receipt t, buildBlock (new solo) [freshVote] (testBlock []) alice 1700000001 dummySig =
        .ok (block, u) ∧ u.applyBlock block = .ok (receipt, t) ∧
      block.header.globalStateRoot ≠ receipt.stateRoot := by
  obtain ⟨block, u, receipt, t, built, applied, sound, account, entry⟩ :=
    solo_built freshVote (testBlock []) alice 1700000001 dummySig (returns_ok _) rfl (by decide)
      (by decide)
  refine ⟨new_solo_reachable, block, u, receipt, t, built, applied, fun same => ?_⟩
  have known : (new solo).account alice = some (Account.new (10 ^ 33)) := by decide
  have after : (soloTx freshVote).machine.account alice = some ⟨10 ^ 33 - 100, 1, none⟩ := by
    decide
  have free := collisionFree_of_single new_solo_reachable.sound sound known (account.trans after) rfl
    rfl (by rw [entry]; decide) (by decide)
  obtain ⟨root, -, body, -, soundU, -⟩ := buildBlock_spec new_solo_reachable.sound built
  have within : ∀ tx ∈ block.body.transactions, tx.Within {alice} := by
    rw [body]
    decide
  obtain ⟨p, -, -, -, -, reported⟩ := applyBlock_spec soundU within applied
  rw [root, reported] at same
  have alike : Alike (new solo) t := SparseMerkleTree.lookup_eq_of_referenceRoot_eq free same
  have equal := known.symm.trans ((alike.account alice).trans (account.trans after))
  revert equal
  decide

end Sample

end StateMachine

end Mononium
