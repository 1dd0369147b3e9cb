import Mononium.Core.Atomicity
import Mononium.Core.Conservation
import Mononium.Core.Refusal

/-! What the fee pool is told. The loop adds one fee for each account it writes back, cut
to 128 bits, while a handler that fails late has taken a fee already. -/
namespace Mononium

open Rust Scale

namespace StateMachine

section Rounds

variable [Blake3] {A : Finset Address} {chainId : U64} {p q : Progress} {tx : Transaction}

/-- What a round takes from the sender as a fee: what the balance loses, less the price of
the body. A handler takes the price where it uses up the nonce. -/
def feeDebited (p q : Progress) (tx : Transaction) : Nat :=
  p.machine.balance tx.sender - q.machine.balance tx.sender -
    if q.machine.nonce tx.sender = p.machine.nonce tx.sender then 0 else tx.body.price

/-- The ways in which the pool receives less than the sender pays. -/
def Miscounts (chainId : U64) (s : StateMachine) (tx : Transaction) : Prop :=
  ∃ sender, tx.chainId = chainId ∧ s.account tx.sender = some sender ∧
    (¬Spoils s sender tx ∧ tx.fee.toNat ≤ sender.balance.toNat ∧ 2 ^ 128 ≤ tx.fee.toNat ∨
      Spoils s sender tx ∧ tx.debit + tx.fee.toNat ≤ sender.balance.toNat ∧ 0 < tx.fee.toNat)

theorem miscounts_iff {s : StateMachine} {sender : Account} (chain : tx.chainId = chainId)
    (known : s.account tx.sender = some sender) :
    Miscounts chainId s tx ↔
      ¬Spoils s sender tx ∧ tx.fee.toNat ≤ sender.balance.toNat ∧ 2 ^ 128 ≤ tx.fee.toNat ∨
        Spoils s sender tx ∧ tx.debit + tx.fee.toNat ≤ sender.balance.toNat ∧ 0 < tx.fee.toNat :=
  exists_sender_iff chain known

theorem feeDebited_setAccount {machine : StateMachine} {sender x : Account} {fees : U128}
    {txCount failedCount : U32} (apart : KeysApart A) (within : tx.sender ∈ A)
    (known : p.machine.account tx.sender = some sender) :
    feeDebited p ⟨machine.setAccount tx.sender x, fees, txCount, failedCount⟩ tx =
      sender.balance.toNat - x.balance.toNat -
        if x.nonce.toNat = sender.nonce.toNat then 0 else tx.body.price := by
  have written : (machine.setAccount tx.sender x).account tx.sender = some x := by
    rw [account_setAccount apart within within, if_pos rfl]
  simp only [feeDebited, balance_of_known known, nonce_of_known known, balance_of_known written,
    nonce_of_known written]

/-- A round charges nothing, the fee, or the fee twice. -/
theorem Outcome.feeDebited_cases (outcome : Outcome chainId p tx q) (sound : Sound A p.machine)
    (within : tx.Within A) :
    feeDebited p q tx = 0 ∧ q.blockFees = p.blockFees ∧ q.txCount = p.txCount ∧
      ¬Miscounts chainId p.machine tx ∨
    q.blockFees.toNat = p.blockFees.toNat + (feeAsU128 tx.fee).toNat ∧
      (feeDebited p q tx = tx.fee.toNat ∧
          (Miscounts chainId p.machine tx ↔ 2 ^ 128 ≤ tx.fee.toNat) ∨
        feeDebited p q tx = 2 * tx.fee.toNat ∧
          (Miscounts chainId p.machine tx ↔ 0 < tx.fee.toNat)) := by
  have debit : tx.debit = tx.fee.toNat + tx.body.price := rfl
  cases outcome with
  | skipped foreign _ =>
    exact .inl ⟨by simp [feeDebited], rfl, rfl, not_exists_sender foreign⟩
  | @executed sender after machine fees count chain known accepts charged effect pooled counted =>
    have unspoiled : ¬Spoils p.machine sender tx := fun spoils => spoils.not_accepts accepts
    have paid := charged.balance
    have raised := charged.nonce
    refine .inr ⟨pooled, .inl ⟨?_, ?_⟩⟩
    · rw [feeDebited_setAccount sound.apart within.1 known, if_neg (by omega)]
      omega
    · rw [miscounts_iff chain known]
      simp only [unspoiled, not_false_eq_true, true_and, false_and, or_false]
      omega
  | @rejected sender balance fees failed chain known refuses unspoiled paid pooled _ =>
    refine .inr ⟨pooled, .inl ⟨?_, ?_⟩⟩
    · rw [feeDebited_setAccount sound.apart within.1 known, if_pos rfl]
      dsimp only
      omega
    · rw [miscounts_iff chain known]
      simp only [unspoiled, not_false_eq_true, true_and, false_and, or_false]
      omega
  | unpaid chain known refuses unspoiled poor _ =>
    refine .inl ⟨by simp [feeDebited], rfl, rfl, ?_⟩
    rw [miscounts_iff chain known]
    simp only [unspoiled, not_false_eq_true, true_and, false_and, or_false]
    omega
  | @spoiled sender after balance fees failed chain known spoils charged paid pooled _ =>
    have first := charged.balance
    have raised := charged.nonce
    refine .inr ⟨pooled, .inr ⟨?_, ?_⟩⟩
    · rw [feeDebited_setAccount sound.apart within.1 known]
      dsimp only
      rw [if_neg (by omega)]
      omega
    · rw [miscounts_iff chain known]
      simp only [spoils, not_true_eq_false, true_and, false_and, false_or]
      omega
  | spoiledUnpaid chain known spoils poor _ =>
    refine .inl ⟨by simp [feeDebited], rfl, rfl, ?_⟩
    rw [miscounts_iff chain known]
    simp only [spoils, not_true_eq_false, true_and, false_and, false_or]
    omega

/-- A round that counts the fees right charges the fee or nothing. -/
theorem Outcome.feeDebited_eq (outcome : Outcome chainId p tx q) (sound : Sound A p.machine)
    (within : tx.Within A) (exact_ : ¬Miscounts chainId p.machine tx)
    (charged : q.txCount ≠ p.txCount ∨ feeDebited p q tx ≠ 0) :
    feeDebited p q tx = tx.fee.toNat := by
  rcases outcome.feeDebited_cases sound within with
    ⟨free, -, uncounted, -⟩ | ⟨-, ⟨once, -⟩ | ⟨twice, miscounts⟩⟩
  · rcases charged with counted | paid
    · exact absurd uncounted counted
    · exact absurd free paid
  · exact once
  · have zero : tx.fee.toNat = 0 := Nat.eq_zero_of_not_pos fun positive =>
      exact_ (miscounts.mpr positive)
    rw [twice, zero]

theorem Outcome.pooled (outcome : Outcome chainId p tx q) (sound : Sound A p.machine)
    (within : tx.Within A) :
    ∃ missing, q.blockFees.toNat + missing = p.blockFees.toNat + feeDebited p q tx ∧
      (missing = 0 ↔ ¬Miscounts chainId p.machine tx) := by
  have pool := feeAsU128_toNat tx.fee
  rcases outcome.feeDebited_cases sound within with
    ⟨free, pooled, -, exact_⟩ | ⟨pooled, ⟨once, miscounts⟩ | ⟨twice, miscounts⟩⟩
  · exact ⟨0, by rw [pooled, free], iff_of_true rfl exact_⟩
  · refine ⟨tx.fee.toNat - (feeAsU128 tx.fee).toNat, by omega, ?_⟩
    rw [miscounts]
    omega
  · refine ⟨2 * tx.fee.toNat - (feeAsU128 tx.fee).toNat, by omega, ?_⟩
    rw [miscounts]
    omega

end Rounds

section Blocks

variable [Blake3] {A : Finset Address} {chainId : U64} {s t : StateMachine}

/-- The fees that the rounds of the loop debit. -/
def feesDebited (chainId : U64) : Progress → List Transaction → Nat
  | _, [] => 0
  | p, tx :: txs =>
    match applyTx chainId p tx with
    | .ok q => feeDebited p q tx + feesDebited chainId q txs
    | .error _ => 0

theorem applyTxs_pooled {txs : List Transaction} {p q : Progress} (sound : Sound A p.machine)
    (within : ∀ tx ∈ txs, tx.Within A) (h : applyTxs chainId p txs = .ok q) :
    ∃ missing, q.blockFees.toNat + missing = p.blockFees.toNat + feesDebited chainId p txs ∧
      (missing = 0 ↔ ∀ r tx, ComesTo chainId p txs r tx → ¬Miscounts chainId r.machine tx) := by
  induction txs generalizing p with
  | nil =>
    cases h
    refine ⟨0, by simp [feesDebited], iff_of_true rfl ?_⟩
    intro r tx comes
    cases comes
  | cons tx txs ih =>
    rw [applyTxs_cons] at h
    obtain ⟨next, first, rest⟩ := bind_eq_ok.mp h
    have here := within tx List.mem_cons_self
    have outcome := applyTx_outcome first
    obtain ⟨missing, pooled, exact_⟩ := outcome.pooled sound here
    obtain ⟨later, pooledLater, exactLater⟩ := ih (outcome.sound sound here)
      (fun tx member => within tx (List.mem_cons_of_mem _ member)) rest
    rw [forall_comesTo_cons (P := fun r tx => ¬Miscounts chainId r.machine tx) first, ← exact_,
      ← exactLater]
    refine ⟨missing + later, ?_, by omega⟩
    simp only [feesDebited, first]
    omega

/-- The receipt reports the fees that are debited, and these are the fees of the
transactions: of each that succeeds, and of each that fails and is charged. -/
structure FeesExact (s : StateMachine) (block : Block) (receipt : BlockReceipt) : Prop where
  total : receipt.totalFees.toNat =
    feesDebited block.header.chainId ⟨s, 0, 0, 0⟩ block.body.transactions
  each : ∀ p q tx, ComesTo block.header.chainId ⟨s, 0, 0, 0⟩ block.body.transactions p tx →
    applyTx block.header.chainId p tx = .ok q →
    q.txCount ≠ p.txCount ∨ feeDebited p q tx ≠ 0 → feeDebited p q tx = tx.fee.toNat

theorem Sound.feesExact_iff {block : Block} {receipt : BlockReceipt} (sound : Sound A s)
    (within : ∀ tx ∈ block.body.transactions, tx.Within A)
    (h : s.applyBlock block = .ok (receipt, t)) :
    FeesExact s block receipt ↔
      ∀ p tx, ComesTo block.header.chainId ⟨s, 0, 0, 0⟩ block.body.transactions p tx →
        ¬Miscounts block.header.chainId p.machine tx := by
  obtain ⟨r, looped, -, -, -, rfl⟩ := applyBlock_spec sound within h
  obtain ⟨missing, pooled, exact_⟩ := applyTxs_pooled sound within looped
  rw [show (0 : U128).toNat = 0 from rfl, Nat.zero_add] at pooled
  constructor
  · intro exactly
    have total := exactly.total
    dsimp only at total
    exact exact_.mp (by omega)
  · intro sane
    have none := exact_.mpr sane
    refine ⟨by dsimp only; omega, ?_⟩
    intro p q tx comes round charged
    obtain ⟨soundHere, here⟩ := comes.sound sound within
    exact (applyTx_outcome round).feeDebited_eq soundHere here (sane p tx comes) charged

/-- The fees of a block are accounted for exactly when no transaction, in the state in which
the loop comes to it, is miscounted. -/
theorem applyBlock_feesExact_iff {accounts : List (Address × Account)} {block : Block}
    {receipt : BlockReceipt} (reachable : Reachable A accounts s)
    (within : ∀ tx ∈ block.body.transactions, tx.Within A)
    (h : s.applyBlock block = .ok (receipt, t)) :
    FeesExact s block receipt ↔
      ∀ p tx, ComesTo block.header.chainId ⟨s, 0, 0, 0⟩ block.body.transactions p tx →
        ¬Miscounts block.header.chainId p.machine tx :=
  reachable.sound.feesExact_iff within h

end Blocks

section Sample

attribute [local instance] prefixBlake3

set_option maxRecDepth 8192

theorem transfer_feesExact :
    ∃ receipt t, (new [(alice, Account.new 1000)]).applyBlock
        (testBlock [transferTx alice bob 10 0]) = .ok (receipt, t) ∧
      FeesExact (new [(alice, Account.new 1000)]) (testBlock [transferTx alice bob 10 0])
        receipt := by
  have reachable : Reachable {alice, bob} [(alice, Account.new 1000)]
      (new [(alice, Account.new 1000)]) := new_reachable (by decide) (by decide)
  have within : ∀ tx ∈ [transferTx alice bob 10 0], tx.Within {alice, bob} := by decide
  obtain ⟨⟨receipt, t⟩, applied⟩ : Returns ((new [(alice, Account.new 1000)]).applyBlock
      (testBlock [transferTx alice bob 10 0])) :=
    applyBlock_returns_idle reachable.sound within rfl rfl
  refine ⟨receipt, t, applied, (applyBlock_feesExact_iff reachable within applied).mpr ?_⟩
  intro p tx comes
  cases comes with
  | head =>
    have known : (new [(alice, Account.new 1000)]).account (transferTx alice bob 10 0).sender =
        some (Account.new 1000) := by decide
    refine (miscounts_iff rfl known).not.mpr ?_
    simp [transferTx, Spoils]
  | tail first later => cases later

/-- The request that exceeds the stake pays its fee twice, and the receipt has it once. -/
theorem overUnstake_not_feesExact :
    ∃ receipt t, Reachable {alice} [(alice, Account.new (10 ^ 33))]
        (new [(alice, Account.new (10 ^ 33))]) ∧
      (new [(alice, Account.new (10 ^ 33))]).applyBlock
        (testBlock (firstUnstake ++ [overUnstake])) = .ok (receipt, t) ∧
      ¬FeesExact (new [(alice, Account.new (10 ^ 33))]) (testBlock (firstUnstake ++ [overUnstake]))
        receipt := by
  have reachable : Reachable {alice} [(alice, Account.new (10 ^ 33))]
      (new [(alice, Account.new (10 ^ 33))]) := new_reachable (by decide) (by decide)
  have within : ∀ tx ∈ firstUnstake ++ [overUnstake], tx.Within {alice} := by decide
  have looped : Returns (applyTxs 0 ⟨new [(alice, Account.new (10 ^ 33))], 0, 0, 0⟩
      (firstUnstake ++ [overUnstake])) := by decide
  have reached := looped.eq_ok ⟨new [], 0, 0, 0⟩
  obtain ⟨⟨receipt, t⟩, applied⟩ : Returns ((new [(alice, Account.new (10 ^ 33))]).applyBlock
      (testBlock (firstUnstake ++ [overUnstake]))) :=
    applyBlock_returns_idle reachable.sound within rfl reached
  obtain ⟨p, same, -, -, -, rfl⟩ := applyBlock_spec reachable.sound within applied
  cases reached.symm.trans same
  refine ⟨_, t, reachable, applied, fun exactly => ?_⟩
  have total := exactly.total
  dsimp only at total
  revert total
  decide

end Sample

end StateMachine

end Mononium
