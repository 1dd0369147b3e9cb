import Mononium.Core.Fees
import Mononium.Core.Outcome

/-! Blocks: what a round of the loop keeps, and from it what the loop and the block
keep. The pool of fees counts as part of what a round conserves. -/
namespace Mononium

open Rust Scale

theorem feeAsU128_toNat (fee : U256) : (feeAsU128 fee).toNat = min fee.toNat (2 ^ 128 - 1) := by
  have cap : ((BitVec.allOnes 128).setWidth 256 : U256).toNat = 2 ^ 128 - 1 := by decide
  unfold feeAsU128
  dsimp only
  rw [BitVec.toNat_setWidth]
  split
  next small =>
    rw [BitVec.le_def, cap] at small
    rw [Nat.mod_eq_of_lt (by omega)]
    omega
  next large =>
    rw [BitVec.le_def, cap] at large
    rw [cap]
    omega

namespace StateMachine

variable [Blake3] {A : Finset Address}

/-- The sender of a transaction of this chain is the account that is stored. -/
theorem exists_sender_iff {chainId : U64} {s : StateMachine} {tx : Transaction} {sender : Account}
    {P : Account → Prop} (chain : tx.chainId = chainId) (known : s.account tx.sender = some sender) :
    (∃ x, tx.chainId = chainId ∧ s.account tx.sender = some x ∧ P x) ↔ P sender := by
  constructor
  · rintro ⟨_, -, same, holds⟩
    cases known.symm.trans same
    exact holds
  · exact fun holds => ⟨sender, chain, known, holds⟩

theorem not_exists_sender {chainId : U64} {s : StateMachine} {tx : Transaction} {P : Account → Prop}
    (foreign : tx.chainId ≠ chainId ∨ s.account tx.sender = none) :
    ¬∃ x, tx.chainId = chainId ∧ s.account tx.sender = some x ∧ P x := by
  rintro ⟨x, chain, known, -⟩
  rw [foreign.resolve_left (not_not_intro chain)] at known
  cases known

namespace Effect

variable {s t : StateMachine} {tx : Transaction}

theorem sound (effect : Effect s tx t) (sound : Sound A s) (within : tx.Within A) : Sound A t := by
  cases effect with
  | pays body _ => exact sound.setAccount (within.recipient body) _
  | registers _ _ => exact sound.setValidator within.1 rfl
  | stakes body found _ =>
    have member := within.validator (.inl body)
    have same := sound.getValidator_address member found
    exact sound.setValidator member same
  | founds _ _ => exact sound.setValidator within.1 rfl
  | unstakes body found _ _ =>
    have member := within.validator (.inr body)
    have same := sound.getValidator_address member found
    exact sound.setValidator member same
  | charges _ => exact sound

theorem activeSet (effect : Effect s tx t) : t.activeSet = s.activeSet := by
  cases effect <;> rfl

end Effect

namespace Outcome

variable {chainId : U64} {p q : Progress} {tx : Transaction}

theorem sound (outcome : Outcome chainId p tx q) (sound : Sound A p.machine)
    (within : tx.Within A) : Sound A q.machine := by
  cases outcome with
  | skipped _ _ | unpaid _ _ _ _ _ _ | spoiledUnpaid _ _ _ _ _ => exact sound
  | executed _ _ _ _ effect _ _ => exact (effect.sound sound within).setAccount within.1 _
  | rejected _ _ _ _ _ _ _ | spoiled _ _ _ _ _ _ _ => exact sound.setAccount within.1 _

theorem activeSet (outcome : Outcome chainId p tx q) :
    q.machine.activeSet = p.machine.activeSet := by
  cases outcome with
  | executed _ _ _ _ effect _ _ => exact effect.activeSet
  | _ => rfl

theorem counts (outcome : Outcome chainId p tx q) :
    q.txCount.toNat + q.failedCount.toNat = p.txCount.toNat + p.failedCount.toNat + 1 := by
  cases outcome with
  | skipped _ counted => dsimp only; omega
  | executed _ _ _ _ _ _ counted => dsimp only; omega
  | rejected _ _ _ _ _ _ counted => dsimp only; omega
  | unpaid _ _ _ _ _ counted => dsimp only; omega
  | spoiled _ _ _ _ _ _ counted => dsimp only; omega
  | spoiledUnpaid _ _ _ _ counted => dsimp only; omega

end Outcome

theorem applyTxs_cons (chainId : U64) (p : Progress) (tx : Transaction) (txs : List Transaction) :
    applyTxs chainId p (tx :: txs) = applyTx chainId p tx >>= fun q => applyTxs chainId q txs :=
  List.foldlM_cons

/-- The loop over `txs`, entered with `p`, comes to `tx` with `r`. -/
inductive ComesTo (chainId : U64) : Progress → List Transaction → Progress → Transaction → Prop
  | head {p : Progress} {tx : Transaction} {txs : List Transaction} :
      ComesTo chainId p (tx :: txs) p tx
  | tail {p q r : Progress} {tx other : Transaction} {txs : List Transaction}
      (first : applyTx chainId p tx = .ok q) (later : ComesTo chainId q txs r other) :
      ComesTo chainId p (tx :: txs) r other

theorem comesTo_of_applyTxs {chainId : U64} {p r : Progress} {tx : Transaction}
    {before after : List Transaction} (h : applyTxs chainId p before = .ok r) :
    ComesTo chainId p (before ++ tx :: after) r tx := by
  induction before generalizing p with
  | nil =>
    cases h
    exact .head
  | cons first rest ih =>
    rw [applyTxs_cons] at h
    obtain ⟨q, stepped, h⟩ := bind_eq_ok.mp h
    exact .tail stepped (ih h)

theorem forall_comesTo_cons {chainId : U64} {p q : Progress} {tx : Transaction}
    {txs : List Transaction} {P : Progress → Transaction → Prop}
    (first : applyTx chainId p tx = .ok q) :
    (∀ r other, ComesTo chainId p (tx :: txs) r other → P r other) ↔
      P p tx ∧ ∀ r other, ComesTo chainId q txs r other → P r other := by
  constructor
  · intro all
    exact ⟨all p tx .head, fun r other later => all r other (.tail first later)⟩
  · rintro ⟨here, rest⟩ r other comes
    cases comes with
    | head => exact here
    | tail same later =>
      cases first.symm.trans same
      exact rest r other later

theorem ComesTo.mem {chainId : U64} {p r : Progress} {tx : Transaction} {txs : List Transaction}
    (comes : ComesTo chainId p txs r tx) : tx ∈ txs := by
  induction comes with
  | head => exact List.mem_cons_self
  | tail _ _ ih => exact List.mem_cons_of_mem _ ih

theorem ComesTo.sound {chainId : U64} {p r : Progress} {tx : Transaction}
    {txs : List Transaction} (comes : ComesTo chainId p txs r tx) (sound : Sound A p.machine)
    (within : ∀ tx ∈ txs, tx.Within A) : Sound A r.machine ∧ tx.Within A := by
  induction comes with
  | head => exact ⟨sound, within _ List.mem_cons_self⟩
  | tail first _ ih =>
    have outcome := applyTx_outcome first
    exact ih (outcome.sound sound (within _ List.mem_cons_self))
      fun tx member => within tx (List.mem_cons_of_mem _ member)

theorem applyTxs_sound {chainId : U64} {p q : Progress} {txs : List Transaction}
    (sound : Sound A p.machine) (within : ∀ tx ∈ txs, tx.Within A)
    (h : applyTxs chainId p txs = .ok q) :
    Sound A q.machine ∧ q.machine.activeSet = p.machine.activeSet := by
  refine foldlM_invariant (P := fun q => Sound A q.machine ∧ q.machine.activeSet = p.machine.activeSet)
    ?_ ⟨sound, rfl⟩ h
  intro q tx member r ⟨sound, active⟩ step
  have outcome := applyTx_outcome step
  exact ⟨outcome.sound sound (within tx member), outcome.activeSet.trans active⟩

/-- A block is the loop, the distribution and the root of what they leave. -/
theorem applyBlock_spec {s t : StateMachine} {block : Block} {receipt : BlockReceipt}
    (sound : Sound A s) (within : ∀ tx ∈ block.body.transactions, tx.Within A)
    (h : s.applyBlock block = .ok (receipt, t)) :
    ∃ p, applyTxs block.header.chainId ⟨s, 0, 0, 0⟩ block.body.transactions = .ok p ∧
      Sound A p.machine ∧ p.machine.activeSet = s.activeSet ∧
      Credited A p.machine t (p.machine.feeShare p.blockFees) ∧
      receipt = ⟨p.blockFees, p.txCount, p.failedCount,
        SparseMerkleTree.referenceRoot t.state.leaves⟩ := by
  obtain ⟨p, looped, h⟩ := bind_eq_ok.mp h
  obtain ⟨middle, distributed, h⟩ := bind_eq_ok.mp h
  obtain ⟨soundLoop, active⟩ := applyTxs_sound sound within looped
  have credited := distributeFees_spec soundLoop distributed
  obtain ⟨after, root, soundAfter, leaves, sameActive, sameIndex⟩ := credited.sound.stateRoot
  rw [root, ok_bind] at h
  cases h
  have ledger : SameLedger A middle t := sameLedger_of_lookup_eq fun digest => by rw [leaves]
  refine ⟨p, looped, soundLoop, active, ⟨soundAfter, ?_, ?_, ?_, ?_⟩, by rw [leaves]⟩
  · intro a ha
    rw [← ledger.account a ha, credited.account a ha]
  · intro a ha
    rw [← ledger.entry a ha, credited.entry a ha]
  · rw [sameIndex, credited.index]
  · rw [sameActive, credited.active]

theorem applyBlock_returns {s : StateMachine} {block : Block} (sound : Sound A s)
    (within : ∀ tx ∈ block.body.transactions, tx.Within A) :
    Returns (s.applyBlock block) ↔
      ∃ p, applyTxs block.header.chainId ⟨s, 0, 0, 0⟩ block.body.transactions = .ok p ∧
        ∀ a ∈ s.activeSet, p.blockFees.toNat * p.machine.stake a < 2 ^ 256 := by
  rw [applyBlock, returns_bind]
  apply exists_congr
  intro p
  apply and_congr_right
  intro looped
  obtain ⟨soundLoop, active⟩ := applyTxs_sound sound within looped
  rw [← active, ← distributeFees_returns soundLoop, returns_bind]
  constructor
  · rintro ⟨middle, distributed, _⟩
    exact ⟨middle, distributed⟩
  · rintro ⟨middle, distributed⟩
    refine ⟨middle, distributed, ?_⟩
    obtain ⟨after, root, _⟩ := (distributeFees_spec soundLoop distributed).sound.stateRoot
    rw [root, ok_bind]
    exact returns_pure _

/-- Without an active set there is nothing to distribute that could overflow. -/
theorem applyBlock_returns_idle {s : StateMachine} {block : Block} {p : Progress}
    (sound : Sound A s) (within : ∀ tx ∈ block.body.transactions, tx.Within A)
    (idle : s.activeSet = [])
    (looped : applyTxs block.header.chainId ⟨s, 0, 0, 0⟩ block.body.transactions = .ok p) :
    Returns (s.applyBlock block) :=
  (applyBlock_returns sound within).mpr ⟨p, looped, by simp [idle]⟩

end StateMachine

end Mononium
