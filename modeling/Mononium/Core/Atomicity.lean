import Mononium.Core.Runs

/-! Failed transactions. The loop charges the fee of a failed transaction on the copy
of the account that the handler leaves behind, which is the sender's account only
while the handler has not touched it. -/
namespace Mononium

open Rust Scale

namespace StateMachine

section

variable [Blake3] {A : Finset Address}

/-- The sender of a transaction of this chain exists and can pay the fee. -/
def Liable (chainId : U64) (s : StateMachine) (tx : Transaction) (sender : Account) : Prop :=
  tx.chainId = chainId ∧ s.account tx.sender = some sender ∧ tx.fee.toNat ≤ sender.balance.toNat

/-- A round that does nothing but charge the fee of a liable sender. -/
structure Atomic (A : Finset Address) (chainId : U64) (p : Progress) (tx : Transaction)
    (q : Progress) : Prop where
  charged : ∀ sender, Liable chainId p.machine tx sender →
    q.machine.account tx.sender = some { sender with balance := sender.balance - tx.fee } ∧
      q.blockFees.toNat = p.blockFees.toNat + tx.fee.toNat
  free : (¬∃ sender, Liable chainId p.machine tx sender) →
    q.machine.account tx.sender = p.machine.account tx.sender ∧ q.blockFees = p.blockFees
  others : ∀ a ∈ A, a ≠ tx.sender → q.machine.account a = p.machine.account a
  entries : ∀ a ∈ A, q.machine.getValidator a = p.machine.getValidator a
  index : q.machine.validators = p.machine.validators
  active : q.machine.activeSet = p.machine.activeSet

/-- What breaks it: a handler that fails after charging, or a fee that the pool cannot
hold. -/
def Defective (chainId : U64) (s : StateMachine) (tx : Transaction) : Prop :=
  ∃ sender, tx.chainId = chainId ∧ s.account tx.sender = some sender ∧
    (Spoils s sender tx ∨ tx.fee.toNat ≤ sender.balance.toNat ∧ 2 ^ 128 ≤ tx.fee.toNat)

variable {chainId : U64} {p q : Progress} {tx : Transaction}

theorem defective_iff {s : StateMachine} {sender : Account} (chain : tx.chainId = chainId)
    (known : s.account tx.sender = some sender) :
    Defective chainId s tx ↔
      Spoils s sender tx ∨ tx.fee.toNat ≤ sender.balance.toNat ∧ 2 ^ 128 ≤ tx.fee.toNat :=
  exists_sender_iff chain known

theorem liable_iff {s : StateMachine} {sender other : Account} (chain : tx.chainId = chainId)
    (known : s.account tx.sender = some sender) :
    Liable chainId s tx other ↔ other = sender ∧ tx.fee.toNat ≤ sender.balance.toNat := by
  constructor
  · rintro ⟨_, same, rich⟩
    cases known.symm.trans same
    exact ⟨rfl, rich⟩
  · rintro ⟨rfl, rich⟩
    exact ⟨chain, known, rich⟩

theorem atomic_of_same {failedCount : U32}
    (free : ¬∃ sender, Liable chainId p.machine tx sender) :
    Atomic A chainId p tx { p with failedCount } :=
  ⟨fun sender liable => absurd ⟨sender, liable⟩ free, fun _ => ⟨rfl, rfl⟩, fun _ _ _ => rfl,
    fun _ _ => rfl, rfl, rfl⟩

theorem Outcome.atomic_iff (outcome : Outcome chainId p tx q) (sound : Sound A p.machine)
    (within : tx.Within A) (failed : q.failedCount ≠ p.failedCount) :
    Atomic A chainId p tx q ↔ ¬Defective chainId p.machine tx := by
  have apart := sound.apart
  have pool := feeAsU128_toNat tx.fee
  cases outcome with
  | skipped foreign _ =>
    exact iff_of_true (atomic_of_same (not_exists_sender foreign)) (not_exists_sender foreign)
  | executed _ _ _ _ _ _ _ => exact absurd rfl failed
  | @rejected sender balance fees failed chain known refuses unspoiled paid pooled _ =>
    rw [defective_iff chain known]
    constructor
    · rintro atomic (spoils | ⟨rich, wide⟩)
      · exact unspoiled spoils
      · have total := (atomic.charged sender ((liable_iff chain known).mpr ⟨rfl, rich⟩)).2
        dsimp only at total
        omega
    · intro sane
      refine ⟨?_, ?_, ?_, ?_, rfl, rfl⟩
      · intro other liable
        obtain ⟨rfl, rich⟩ := (liable_iff chain known).mp liable
        have value : balance = other.balance - tx.fee := by
          apply BitVec.eq_of_toNat_eq
          rw [sub_toNat rich]
          omega
        refine ⟨?_, ?_⟩
        · rw [account_setAccount apart within.1 within.1, if_pos rfl, value]
        · dsimp only
          have narrow : tx.fee.toNat < 2 ^ 128 := by
            by_contra wide
            exact sane (.inr ⟨rich, by omega⟩)
          omega
      · intro free
        exact absurd ⟨sender, (liable_iff chain known).mpr ⟨rfl, by omega⟩⟩ free
      · intro a ha other
        rw [account_setAccount apart within.1 ha, if_neg other]
      · intro a ha
        rw [getValidator_setAccount apart within.1 ha]
  | unpaid chain known refuses unspoiled poor _ =>
    rw [defective_iff chain known]
    refine iff_of_true (atomic_of_same ?_) ?_
    · rintro ⟨other, liable⟩
      have := ((liable_iff chain known).mp liable).2
      omega
    · rintro (spoils | ⟨rich, _⟩)
      · exact unspoiled spoils
      · omega
  | @spoiled sender after balance fees failed chain known spoils charged paid pooled _ =>
    rw [defective_iff chain known]
    refine iff_of_false ?_ (fun sane => sane (.inl spoils))
    intro atomic
    have rich : tx.fee.toNat ≤ sender.balance.toNat := tx.fee_le_debit.trans spoils.affords.2
    have written := (atomic.charged sender ((liable_iff chain known).mpr ⟨rfl, rich⟩)).1
    rw [account_setAccount apart within.1 within.1, if_pos rfl, Option.some.injEq] at written
    -- The handler has already used up the nonce of the copy that is written back.
    have nonce := congrArg (fun x : Account => x.nonce.toNat) written
    have bumped := charged.nonce
    dsimp only at nonce
    omega
  | spoiledUnpaid chain known spoils poor _ =>
    rw [defective_iff chain known]
    refine iff_of_false ?_ (fun sane => sane (.inl spoils))
    intro atomic
    have affords := spoils.affords.2
    have rich := tx.fee_le_debit.trans affords
    have pooled := (atomic.charged _ ((liable_iff chain known).mpr ⟨rfl, rich⟩)).2
    dsimp only at pooled
    omega

/-- A failed transaction only pays its fee, exactly when it is not defective. -/
theorem failed_atomic_iff {accounts : List (Address × Account)} {s : StateMachine} {block : Block}
    (reachable : Reachable A accounts s)
    (within : ∀ tx ∈ block.body.transactions, tx.Within A)
    (comes : ComesTo block.header.chainId ⟨s, 0, 0, 0⟩ block.body.transactions p tx)
    (round : applyTx block.header.chainId p tx = .ok q) (failed : q.failedCount ≠ p.failedCount) :
    Atomic A block.header.chainId p tx q ↔ ¬Defective block.header.chainId p.machine tx := by
  obtain ⟨sound, here⟩ := comes.sound reachable.sound within
  exact (applyTx_outcome round).atomic_iff sound here failed

end

section Sample

attribute [local instance] prefixBlake3

set_option maxRecDepth 8192

theorem unaffordableTransfer_atomic :
    ∃ p q, ComesTo 0 ⟨new [(alice, Account.new 1000)], 0, 0, 0⟩ [transferTx alice bob 5000 0] p
        (transferTx alice bob 5000 0) ∧
      applyTx 0 p (transferTx alice bob 5000 0) = .ok q ∧ q.failedCount ≠ p.failedCount ∧
      Atomic {alice, bob} 0 p (transferTx alice bob 5000 0) q := by
  have reachable : Reachable {alice, bob} [(alice, Account.new 1000)]
      (new [(alice, Account.new 1000)]) := new_reachable (by decide) (by decide)
  have within : ∀ tx ∈ (testBlock [transferTx alice bob 5000 0]).body.transactions,
      tx.Within {alice, bob} := by decide
  refine ⟨_, _, .head, rfl, by decide,
    (failed_atomic_iff reachable within .head rfl (by decide)).mpr ?_⟩
  have known : (new [(alice, Account.new 1000)]).account (transferTx alice bob 5000 0).sender =
      some (Account.new 1000) := by decide
  refine (defective_iff rfl known).not.mpr ?_
  simp [transferTx, Spoils]

/-- Alice founds a validator with a stake of 100 and asks for 60 of it. -/
def firstUnstake : List Transaction :=
  [⟨0, 0, alice, 100, .registerAndStake alice 100, dummySig⟩,
    ⟨0, 1, alice, 100, .unstake alice 60, dummySig⟩]

/-- Alice asks for another 60. -/
def overUnstake : Transaction := ⟨0, 2, alice, 100, .unstake alice 60, dummySig⟩

/-- The second request exceeds the stake and fails, but its nonce is used up. -/
theorem overUnstake_not_atomic :
    ∃ p q, Reachable {alice} [(alice, Account.new (10 ^ 33))]
        (new [(alice, Account.new (10 ^ 33))]) ∧
      ComesTo 0 ⟨new [(alice, Account.new (10 ^ 33))], 0, 0, 0⟩ (firstUnstake ++ [overUnstake]) p
        overUnstake ∧
      applyTx 0 p overUnstake = .ok q ∧ q.failedCount ≠ p.failedCount ∧
      ¬Atomic {alice} 0 p overUnstake q := by
  have reachable : Reachable {alice} [(alice, Account.new (10 ^ 33))]
      (new [(alice, Account.new (10 ^ 33))]) := new_reachable (by decide) (by decide)
  have looped : Returns (applyTxs 0 ⟨new [(alice, Account.new (10 ^ 33))], 0, 0, 0⟩ firstUnstake) := by
    decide
  have reached := looped.eq_ok ⟨new [], 0, 0, 0⟩
  have round : Returns (applyTx 0 (valueD (applyTxs 0 ⟨new [(alice, Account.new (10 ^ 33))], 0, 0, 0⟩
      firstUnstake) ⟨new [], 0, 0, 0⟩) overUnstake) := by decide
  refine ⟨_, _, reachable, comesTo_of_applyTxs reached, round.eq_ok ⟨new [], 0, 0, 0⟩,
    by decide, fun atomic => ?_⟩
  have written := (atomic.charged ⟨10 ^ 33 - antiSpamDeposit - 300, 2, none⟩
    ⟨rfl, by decide, by decide⟩).1
  revert written
  decide

end Sample

end StateMachine

end Mononium
