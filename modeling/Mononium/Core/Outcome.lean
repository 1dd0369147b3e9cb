import Mononium.Core.Handlers
import Mononium.Core.Ledger

/-! What one round of the block loop can do, as one relation with a case for each
way through the round. Every result about blocks is read off these cases. -/
namespace Mononium

open Rust Scale

def TxBody.payment : TxBody → Option (Address × U256)
  | .transfer recipient amount => some (recipient, amount)
  | .burn target amount => some (burnDestination target, amount)
  | _ => none

def TxBody.isGovernance : TxBody → Bool
  | .propose _ _ _ _ | .vote _ _ | .cancelProposal _ => true
  | _ => false

/-- What a registration takes out of circulation. -/
def TxBody.deposit : TxBody → Nat
  | .registerValidator _ | .registerAndStake _ _ => antiSpamDeposit.toNat
  | _ => 0

/-- What a body takes from the sender beside the fee. -/
def TxBody.price : TxBody → Nat
  | .transfer _ amount | .burn _ amount | .stake _ amount => amount.toNat
  | .registerAndStake _ amount => antiSpamDeposit.toNat + amount.toNat
  | .registerValidator _ => antiSpamDeposit.toNat
  | _ => 0

def TxBody.addresses : TxBody → List Address
  | .transfer a _ | .stake a _ | .registerAndStake a _ | .unstake a _ => [a]
  | .burn target _ => [burnDestination target]
  | _ => []

namespace Transaction

/-- What the handler takes from its copy of the sender's account. -/
def debit (tx : Transaction) : Nat := tx.fee.toNat + tx.body.price

theorem fee_le_debit (tx : Transaction) : tx.fee.toNat ≤ tx.debit := Nat.le_add_right _ _

def Within (A : Finset Address) (tx : Transaction) : Prop :=
  tx.sender ∈ A ∧ ∀ a ∈ tx.body.addresses, a ∈ A

instance (A : Finset Address) (tx : Transaction) : Decidable (tx.Within A) :=
  inferInstanceAs (Decidable (_ ∧ _))

def selfPaid (tx : Transaction) : Nat :=
  match tx.body.payment with
  | some (recipient, amount) => if recipient = tx.sender then amount.toNat else 0
  | none => 0

theorem Within.recipient {A : Finset Address} {tx : Transaction} (within : tx.Within A)
    {recipient : Address} {amount : U256} (body : tx.body.payment = some (recipient, amount)) :
    recipient ∈ A := by
  apply within.2
  unfold TxBody.payment at body
  split at body
  all_goals simp_all [TxBody.addresses]

theorem Within.validator {A : Finset Address} {tx : Transaction} (within : tx.Within A)
    {v : Address} {amount : U256} (body : tx.body = .stake v amount ∨ tx.body = .unstake v amount) :
    v ∈ A := by
  apply within.2
  rcases body with body | body <;> simp [body, TxBody.addresses]

end Transaction

namespace StateMachine

variable [Blake3]

def Accepts (s : StateMachine) (sender : Account) (tx : Transaction) : Prop :=
  match tx.body with
  | .registerValidator _ =>
    s.getValidator tx.sender = none ∧ Affords sender tx.debit tx.nonce
  | .stake v amount =>
    ∃ e, StakesOn s sender v amount tx.fee tx.nonce e ∧ e.stake.toNat + amount.toNat < 2 ^ 256
  | .registerAndStake v amount => Founds s sender tx.sender v amount tx.fee tx.nonce
  | .unstake v amount =>
    ∃ e, UnstakesFrom s sender v amount tx.fee tx.nonce e ∧
      e.pending + amount.toNat ≤ e.stake.toNat
  | _ => Affords sender tx.debit tx.nonce

/-- The handler fails after it has charged its copy of the sender's account. -/
def Spoils (s : StateMachine) (sender : Account) (tx : Transaction) : Prop :=
  match tx.body with
  | .stake v amount =>
    ∃ e, StakesOn s sender v amount tx.fee tx.nonce e ∧ 2 ^ 256 ≤ e.stake.toNat + amount.toNat
  | .unstake v amount =>
    ∃ e, UnstakesFrom s sender v amount tx.fee tx.nonce e ∧
      e.stake.toNat < e.pending + amount.toNat
  | _ => False

/-- What a successful handler does to the store. -/
inductive Effect (s : StateMachine) (tx : Transaction) : StateMachine → Prop
  | pays {recipient : Address} {amount credited : U256}
      (body : tx.body.payment = some (recipient, amount))
      (sum : credited.toNat = s.balance recipient + amount.toNat) :
      Effect s tx (s.setAccount recipient
        { (s.account recipient).getD (Account.new 0) with balance := credited })
  | registers {publicKey : FixedBytes 897} (body : tx.body = .registerValidator publicKey)
      (unknown : s.getValidator tx.sender = none) :
      Effect s tx (s.setValidator tx.sender ⟨tx.sender, publicKey, 0, .registered, 0⟩)
  | stakes {v : Address} {amount stake : U256} {e : ValidatorEntry}
      (body : tx.body = .stake v amount) (found : s.getValidator v = some e)
      (sum : stake.toNat = e.stake.toNat + amount.toNat) :
      Effect s tx (s.setValidator v (stakedEntry e stake))
  | founds {v : Address} {amount : U256} (body : tx.body = .registerAndStake v amount)
      (unknown : s.getValidator tx.sender = none) :
      Effect s tx (s.setValidator tx.sender
        ⟨tx.sender, FixedBytes.replicate 897 0, amount, .staked amount, 0⟩)
  | unstakes {v : Address} {amount pending : U256} {release : U64} {e : ValidatorEntry}
      (body : tx.body = .unstake v amount) (found : s.getValidator v = some e)
      (sum : pending.toNat = e.pending + amount.toNat)
      (covered : e.pending + amount.toNat ≤ e.stake.toNat) :
      Effect s tx (s.setValidator v { e with status := .unstaking release pending })
  | charges (body : tx.body.isGovernance) : Effect s tx s

theorem Accepts.affords {s : StateMachine} {sender : Account} {tx : Transaction}
    (accepts : Accepts s sender tx) : Affords sender tx.debit tx.nonce := by
  unfold Accepts at accepts
  split at accepts
  next body => exact accepts.2
  next body =>
    obtain ⟨e, on, _⟩ := accepts
    simpa [Transaction.debit, TxBody.price, body] using on.affords
  next body =>
    simpa [Transaction.debit, TxBody.price, body, Nat.add_assoc] using accepts.affords
  next body =>
    obtain ⟨e, from_, _⟩ := accepts
    simpa [Transaction.debit, TxBody.price, body] using from_.affords
  next => exact accepts

theorem Spoils.affords {s : StateMachine} {sender : Account} {tx : Transaction}
    (spoils : Spoils s sender tx) : Affords sender tx.debit tx.nonce := by
  unfold Spoils at spoils
  split at spoils
  next body =>
    obtain ⟨e, on, _⟩ := spoils
    simpa [Transaction.debit, TxBody.price, body] using on.affords
  next body =>
    obtain ⟨e, from_, _⟩ := spoils
    simpa [Transaction.debit, TxBody.price, body] using from_.affords
  next => exact spoils.elim

theorem Spoils.not_accepts {s : StateMachine} {sender : Account} {tx : Transaction}
    (spoils : Spoils s sender tx) : ¬Accepts s sender tx := by
  intro accepts
  unfold Spoils at spoils
  unfold Accepts at accepts
  split at spoils
  next body =>
    simp only [body] at accepts
    obtain ⟨e, on, exceeds⟩ := spoils
    obtain ⟨e', on', fits⟩ := accepts
    cases on.found.symm.trans on'.found
    omega
  next body =>
    simp only [body] at accepts
    obtain ⟨e, from_, exceeds⟩ := spoils
    obtain ⟨e', from', fits⟩ := accepts
    cases from_.found.symm.trans from'.found
    omega
  next => exact spoils

theorem account_of_getAccount {s : StateMachine} {a : Address} {found : Option Account}
    (read : s.getAccount a = .ok found) : s.account a = found := by
  unfold getAccount at read
  unfold account
  cases leaf : s.state.get (accountKey a) with
  | none =>
    simp only [leaf] at read
    cases read
    rfl
  | some bytes =>
    simp only [leaf, scaleDecodeAccount] at read
    cases decoded : Codec.account.decode bytes with
    | none => simp [decoded, Functor.map, Except.map] at read
    | some parsed =>
      simp only [decoded] at read
      cases read
      simp [decoded]

/-- The two payments share a handler. -/
theorem tryTransfer_effect {s : StateMachine} {sender : Account} {tx : Transaction}
    {done : Executed} {recipient : Address} {amount : U256}
    (body : tx.body.payment = some (recipient, amount))
    (h : s.tryTransfer sender recipient amount tx.fee tx.nonce = .ok done) :
    (¬Affords sender (tx.fee.toNat + amount.toNat) tx.nonce ∧
      ∃ reason, done = ⟨s, sender, .error reason⟩) ∨
    (Affords sender (tx.fee.toNat + amount.toNat) tx.nonce ∧
      Charged sender done.sender (tx.fee.toNat + amount.toNat) ∧ Effect s tx done.machine ∧
      done.result = .ok ()) := by
  rw [Nat.add_comm tx.fee.toNat]
  rcases tryTransfer_cases h with refused | ⟨affords, charged, result, found, credited, read, sum, machine⟩
  · exact .inl refused
  · have known := account_of_getAccount read
    subst known
    exact .inr ⟨affords, charged, machine ▸ .pays body sum, result⟩

/-- The three stubs share a handler. -/
theorem chargeFee_effect {s : StateMachine} {sender : Account} {tx : Transaction} {done : Executed}
    (body : tx.body.isGovernance) (h : s.chargeFee sender tx.fee tx.nonce = .ok done) :
    (¬Affords sender tx.fee.toNat tx.nonce ∧ ∃ reason, done = ⟨s, sender, .error reason⟩) ∨
    (Affords sender tx.fee.toNat tx.nonce ∧ Charged sender done.sender tx.fee.toNat ∧
      Effect s tx done.machine ∧ done.result = .ok ()) := by
  rcases chargeFee_cases h with refused | ⟨affords, charged, result, machine⟩
  · exact .inl refused
  · exact .inr ⟨affords, charged, machine ▸ .charges body, result⟩

theorem execute_cases {s : StateMachine} {sender : Account} {tx : Transaction} {done : Executed}
    (h : s.execute sender tx = .ok done) :
    (¬Accepts s sender tx ∧ ¬Spoils s sender tx ∧ ∃ reason, done = ⟨s, sender, .error reason⟩) ∨
    (Spoils s sender tx ∧ Charged sender done.sender tx.debit ∧ done.machine = s ∧
      ∃ reason, done.result = .error reason) ∨
    (Accepts s sender tx ∧ Charged sender done.sender tx.debit ∧ Effect s tx done.machine ∧
      done.result = .ok ()) := by
  unfold execute at h
  cases body : tx.body with
  | transfer recipient amount =>
    simp only [body] at h
    simpa [Accepts, Spoils, Transaction.debit, TxBody.price, body] using
      tryTransfer_effect (by simp [body, TxBody.payment]) h
  | burn target amount =>
    simp only [body] at h
    simpa [Accepts, Spoils, Transaction.debit, TxBody.price, body] using
      tryTransfer_effect (by simp [body, TxBody.payment]) h
  | propose id title description actions =>
    simp only [body] at h
    simpa [Accepts, Spoils, Transaction.debit, TxBody.price, body] using
      chargeFee_effect (by simp [body, TxBody.isGovernance]) h
  | vote id approve =>
    simp only [body] at h
    simpa [Accepts, Spoils, Transaction.debit, TxBody.price, body] using
      chargeFee_effect (by simp [body, TxBody.isGovernance]) h
  | cancelProposal id =>
    simp only [body] at h
    simpa [Accepts, Spoils, Transaction.debit, TxBody.price, body] using
      chargeFee_effect (by simp [body, TxBody.isGovernance]) h
  | registerValidator publicKey =>
    simp only [body] at h
    simp only [Accepts, Spoils, Transaction.debit, TxBody.price, body]
    rcases applyRegisterValidator_cases h with refused | ⟨unknown, affords, charged, result, machine⟩
    · exact .inl ⟨refused.1, id, refused.2⟩
    · exact .inr (.inr ⟨⟨unknown, affords⟩, charged, machine ▸ .registers body unknown, result⟩)
  | stake v amount =>
    simp only [body] at h
    simp only [Accepts, Spoils, Transaction.debit, TxBody.price, body]
    rcases applyStake_cases h with refused | ⟨e, on, charged, exceeds | ⟨stake, sum, result, machine⟩⟩
    · exact .inl ⟨fun ⟨e, on, _⟩ => refused.1 e on, fun ⟨e, on, _⟩ => refused.1 e on, refused.2⟩
    · exact .inr (.inl ⟨⟨e, on, exceeds.1⟩, charged, exceeds.2.1, _, exceeds.2.2⟩)
    · have fits := stake.isLt
      exact .inr (.inr ⟨⟨e, on, by omega⟩, charged, machine ▸ .stakes body on.found sum, result⟩)
  | registerAndStake v amount =>
    simp only [body] at h
    simp only [Accepts, Spoils, Transaction.debit, TxBody.price, body]
    rcases applyRegisterAndStake_cases h with refused | ⟨founds, charged, result, machine⟩
    · exact .inl ⟨refused.1, id, refused.2⟩
    · rw [Nat.add_assoc] at charged
      exact .inr (.inr ⟨founds, charged, machine ▸ .founds body founds.unknown, result⟩)
  | unstake v amount =>
    simp only [body] at h
    simp only [Accepts, Spoils, Transaction.debit, TxBody.price, body]
    rcases applyUnstake_cases h with
      refused | ⟨e, from_, charged, exceeds | ⟨release, pending, -, sum, covered, result, machine⟩⟩
    · exact .inl ⟨fun ⟨e, from_, _⟩ => refused.1 e from_, fun ⟨e, from_, _⟩ => refused.1 e from_,
        refused.2⟩
    · exact .inr (.inl ⟨⟨e, from_, exceeds.1⟩, charged, exceeds.2.1, exceeds.2.2⟩)
    · exact .inr (.inr ⟨⟨e, from_, covered⟩, charged,
        machine ▸ .unstakes body from_.found sum covered, result⟩)

/-- One round of the block loop. -/
inductive Outcome (chainId : U64) (p : Progress) (tx : Transaction) : Progress → Prop
  | skipped {failedCount : U32}
      (foreign : tx.chainId ≠ chainId ∨ p.machine.account tx.sender = none)
      (counted : failedCount.toNat = p.failedCount.toNat + 1) :
      Outcome chainId p tx { p with failedCount }
  | executed {sender after : Account} {machine : StateMachine} {blockFees : U128} {txCount : U32}
      (chain : tx.chainId = chainId) (known : p.machine.account tx.sender = some sender)
      (accepts : Accepts p.machine sender tx) (charged : Charged sender after tx.debit)
      (effect : Effect p.machine tx machine)
      (pooled : blockFees.toNat = p.blockFees.toNat + (feeAsU128 tx.fee).toNat)
      (counted : txCount.toNat = p.txCount.toNat + 1) :
      Outcome chainId p tx ⟨machine.setAccount tx.sender after, blockFees, txCount, p.failedCount⟩
  | rejected {sender : Account} {balance : U256} {blockFees : U128} {failedCount : U32}
      (chain : tx.chainId = chainId) (known : p.machine.account tx.sender = some sender)
      (refuses : ¬Accepts p.machine sender tx) (unspoiled : ¬Spoils p.machine sender tx)
      (paid : balance.toNat + tx.fee.toNat = sender.balance.toNat)
      (pooled : blockFees.toNat = p.blockFees.toNat + (feeAsU128 tx.fee).toNat)
      (counted : failedCount.toNat = p.failedCount.toNat + 1) :
      Outcome chainId p tx ⟨p.machine.setAccount tx.sender { sender with balance }, blockFees,
        p.txCount, failedCount⟩
  | unpaid {sender : Account} {failedCount : U32}
      (chain : tx.chainId = chainId) (known : p.machine.account tx.sender = some sender)
      (refuses : ¬Accepts p.machine sender tx) (unspoiled : ¬Spoils p.machine sender tx)
      (poor : sender.balance.toNat < tx.fee.toNat)
      (counted : failedCount.toNat = p.failedCount.toNat + 1) :
      Outcome chainId p tx { p with failedCount }
  | spoiled {sender after : Account} {balance : U256} {blockFees : U128} {failedCount : U32}
      (chain : tx.chainId = chainId) (known : p.machine.account tx.sender = some sender)
      (spoils : Spoils p.machine sender tx) (charged : Charged sender after tx.debit)
      (paid : balance.toNat + tx.fee.toNat = after.balance.toNat)
      (pooled : blockFees.toNat = p.blockFees.toNat + (feeAsU128 tx.fee).toNat)
      (counted : failedCount.toNat = p.failedCount.toNat + 1) :
      Outcome chainId p tx ⟨p.machine.setAccount tx.sender { after with balance }, blockFees,
        p.txCount, failedCount⟩
  | spoiledUnpaid {sender : Account} {failedCount : U32}
      (chain : tx.chainId = chainId) (known : p.machine.account tx.sender = some sender)
      (spoils : Spoils p.machine sender tx)
      (poor : sender.balance.toNat < tx.debit + tx.fee.toNat)
      (counted : failedCount.toNat = p.failedCount.toNat + 1) :
      Outcome chainId p tx { p with failedCount }

theorem applyTx_outcome {chainId : U64} {p q : Progress} {tx : Transaction}
    (h : applyTx chainId p tx = .ok q) : Outcome chainId p tx q := by
  unfold applyTx at h
  split at h
  next foreign =>
    obtain ⟨failed, counted, h⟩ := bind_eq_ok.mp h
    cases h
    exact .skipped (.inl foreign) (add_eq_ok.mp counted)
  next chain =>
    rw [ne_eq, not_not] at chain
    obtain ⟨found, read, h⟩ := bind_eq_ok.mp h
    have known := account_of_getAccount read
    cases found with
    | none =>
      obtain ⟨failed, counted, h⟩ := bind_eq_ok.mp h
      cases h
      exact .skipped (.inr known) (add_eq_ok.mp counted)
    | some sender =>
      obtain ⟨done, ran, h⟩ := bind_eq_ok.mp h
      rcases execute_cases ran with
        ⟨refuses, unspoiled, reason, rfl⟩ | ⟨spoils, charged, machine, reason, result⟩ |
        ⟨accepts, charged, effect, result⟩
      · dsimp only at h
        split at h
        next rich =>
          obtain ⟨balance, paid, h⟩ := bind_eq_ok.mp h
          obtain ⟨fees, pooled, h⟩ := bind_eq_ok.mp h
          obtain ⟨failed, counted, h⟩ := bind_eq_ok.mp h
          cases h
          exact .rejected chain known refuses unspoiled (sub_eq_ok.mp paid) (add_eq_ok.mp pooled)
            (add_eq_ok.mp counted)
        next poor =>
          obtain ⟨failed, counted, h⟩ := bind_eq_ok.mp h
          cases h
          rw [BitVec.le_def, Nat.not_le] at poor
          exact .unpaid chain known refuses unspoiled poor (add_eq_ok.mp counted)
      · rw [result] at h
        dsimp only at h
        rw [machine] at h
        split at h
        next rich =>
          obtain ⟨balance, paid, h⟩ := bind_eq_ok.mp h
          obtain ⟨fees, pooled, h⟩ := bind_eq_ok.mp h
          obtain ⟨failed, counted, h⟩ := bind_eq_ok.mp h
          cases h
          exact .spoiled chain known spoils charged (sub_eq_ok.mp paid) (add_eq_ok.mp pooled)
            (add_eq_ok.mp counted)
        next poor =>
          obtain ⟨failed, counted, h⟩ := bind_eq_ok.mp h
          cases h
          have left := charged.balance
          rw [BitVec.le_def, Nat.not_le] at poor
          exact .spoiledUnpaid chain known spoils (by omega) (add_eq_ok.mp counted)
      · rw [result] at h
        dsimp only at h
        obtain ⟨fees, pooled, h⟩ := bind_eq_ok.mp h
        obtain ⟨count, counted, h⟩ := bind_eq_ok.mp h
        cases h
        exact .executed chain known accepts charged effect (add_eq_ok.mp pooled)
          (add_eq_ok.mp counted)

end StateMachine

end Mononium
