import Mononium.Core.Execute

/-! What each transaction handler can do, stated once. A transaction is accepted,
or refused with nothing changed, or spoiled: the handler fails after it has already
charged the local copy of the sender's account. Which of the three happens is a
predicate on the machine and the account before the call. -/
namespace Mononium

open Rust Scale

def Affords (sender : Account) (debit : Nat) (nonce : U64) : Prop :=
  sender.nonce = nonce ∧ debit ≤ sender.balance.toNat

instance : Decidable (Affords sender debit nonce) := inferInstanceAs (Decidable (_ ∧ _))

/-- The account after paying `debit` and using its nonce. -/
structure Charged (sender after : Account) (debit : Nat) : Prop where
  balance : after.balance.toNat + debit = sender.balance.toNat
  nonce : after.nonce.toNat = sender.nonce.toNat + 1
  codeHash : after.codeHash = sender.codeHash

def ValidatorEntry.pending (e : ValidatorEntry) : Nat :=
  match e.status with
  | .unstaking _ amount => amount.toNat
  | _ => 0

/-- A withdrawal that is asked for in `era` is released after the cooldown, or together
with what is already being withdrawn. -/
def ValidatorEntry.releasedIn (e : ValidatorEntry) (era : Nat) : Nat :=
  match e.status with
  | .unstaking releaseEra _ => releaseEra.toNat
  | _ => era + unstakingCooldownEras.toNat

theorem Charged.covers {sender after : Account} {debit : Nat} (charged : Charged sender after debit) :
    debit ≤ sender.balance.toNat := by
  rw [← charged.balance]
  exact Nat.le_add_left debit _

section

variable {e : ValidatorEntry} {era : Nat}

theorem ValidatorEntry.pending_of_unstaking {release : U64} {amount : U256}
    (status : e.status = .unstaking release amount) : e.pending = amount.toNat := by
  simp [pending, status]

theorem ValidatorEntry.releasedIn_of_unstaking {release : U64} {amount : U256}
    (status : e.status = .unstaking release amount) : e.releasedIn era = release.toNat := by
  simp [releasedIn, status]

variable (idle : ∀ release amount, e.status ≠ .unstaking release amount)
include idle

theorem ValidatorEntry.pending_of_idle : e.pending = 0 := by
  unfold pending
  split
  next release amount status => exact absurd status (idle release amount)
  next => rfl

theorem ValidatorEntry.releasedIn_of_idle :
    e.releasedIn era = era + unstakingCooldownEras.toNat := by
  unfold releasedIn
  split
  next release amount status => exact absurd status (idle release amount)
  next => rfl

end

namespace StateMachine

/-- The last check of a handler is whether the sender can pay. From there on its copy is charged. -/
theorem pay_cases {sender : Account} {debit : U256} {refused done : Executed}
    {rest : U256 → U64 → Exec Executed}
    (h : (if sender.balance < debit then pure refused else do
      let balance ← sub sender.balance debit
      let nextNonce ← add sender.nonce 1
      rest balance nextNonce) = .ok done) :
    (sender.balance.toNat < debit.toNat ∧ done = refused) ∨
    ∃ balance nonce, Charged sender { sender with balance, nonce } debit.toNat ∧
      rest balance nonce = .ok done := by
  split at h
  next poor =>
    cases h
    exact .inl ⟨BitVec.lt_def.mp poor, rfl⟩
  next rich =>
    obtain ⟨balance, paid, h⟩ := bind_eq_ok.mp h
    obtain ⟨nonce, incremented, h⟩ := bind_eq_ok.mp h
    exact .inr ⟨balance, nonce, ⟨sub_eq_ok.mp paid, add_eq_ok.mp incremented, rfl⟩, h⟩

theorem chargeFee_cases {s : StateMachine} {sender : Account} {fee : U256} {nonce : U64}
    {done : Executed} (h : s.chargeFee sender fee nonce = .ok done) :
    (¬Affords sender fee.toNat nonce ∧ ∃ e, done = ⟨s, sender, .error e⟩) ∨
    (Affords sender fee.toNat nonce ∧ Charged sender done.sender fee.toNat ∧
      done.result = .ok () ∧ done.machine = s) := by
  unfold chargeFee at h
  split at h
  next wrong =>
    cases h
    exact .inl ⟨fun affords => wrong affords.1, _, rfl⟩
  next right =>
    rw [ne_eq, not_not] at right
    split at h
    next poor =>
      cases h
      rw [BitVec.lt_def] at poor
      exact .inl ⟨fun affords => by have := affords.2; omega, _, rfl⟩
    next rich =>
      obtain ⟨next, incremented, h⟩ := bind_eq_ok.mp h
      cases h
      rw [BitVec.lt_def, Nat.not_lt] at rich
      refine .inr ⟨⟨right, rich⟩, ⟨?_, add_eq_ok.mp incremented, rfl⟩, rfl, rfl⟩
      simp only [saturatingSub_toNat]
      omega

variable [Blake3]

theorem tryTransfer_cases {s : StateMachine} {sender : Account} {recipient : Address}
    {amount fee : U256} {nonce : U64} {done : Executed}
    (h : s.tryTransfer sender recipient amount fee nonce = .ok done) :
    (¬Affords sender (amount.toNat + fee.toNat) nonce ∧ ∃ e, done = ⟨s, sender, .error e⟩) ∨
    (Affords sender (amount.toNat + fee.toNat) nonce ∧
      Charged sender done.sender (amount.toNat + fee.toNat) ∧ done.result = .ok () ∧
      ∃ found credited, s.getAccount recipient = .ok found ∧
        credited.toNat = (found.getD (Account.new 0)).balance.toNat + amount.toNat ∧
        done.machine = s.setAccount recipient
          { found.getD (Account.new 0) with balance := credited }) := by
  unfold tryTransfer at h
  split at h
  next wrong =>
    cases h
    exact .inl ⟨fun affords => wrong affords.1, _, rfl⟩
  next right =>
    rw [ne_eq, not_not] at right
    obtain ⟨debit, sum, h⟩ := bind_eq_ok.mp h
    rw [← add_eq_ok.mp sum]
    rcases pay_cases h with ⟨poor, rfl⟩ | ⟨balance, next, charged, h⟩
    · exact .inl ⟨fun affords => Nat.not_le_of_lt poor affords.2, _, rfl⟩
    · obtain ⟨found, read, h⟩ := bind_eq_ok.mp h
      obtain ⟨credited, received, h⟩ := bind_eq_ok.mp h
      cases h
      exact .inr ⟨⟨right, charged.covers⟩, charged, rfl, found, credited, read,
        add_eq_ok.mp received, rfl⟩

theorem applyRegisterValidator_cases {s : StateMachine} {sender : Account} {a : Address}
    {publicKey : FixedBytes 897} {fee : U256} {nonce : U64} {done : Executed}
    (h : s.applyRegisterValidator sender a publicKey fee nonce = .ok done) :
    (¬(s.getValidator a = none ∧ Affords sender (fee.toNat + antiSpamDeposit.toNat) nonce) ∧
      ∃ e, done = ⟨s, sender, .error e⟩) ∨
    (s.getValidator a = none ∧ Affords sender (fee.toNat + antiSpamDeposit.toNat) nonce ∧
      Charged sender done.sender (fee.toNat + antiSpamDeposit.toNat) ∧ done.result = .ok () ∧
      done.machine = s.setValidator a ⟨a, publicKey, 0, .registered, 0⟩) := by
  unfold applyRegisterValidator at h
  split at h
  next known =>
    cases h
    exact .inl ⟨fun ⟨absent, _⟩ => by simp [absent] at known, _, rfl⟩
  next unknown =>
    rw [Option.not_isSome_iff_eq_none] at unknown
    split at h
    next wrong =>
      cases h
      exact .inl ⟨fun ⟨_, affords⟩ => wrong affords.1, _, rfl⟩
    next right =>
      rw [ne_eq, not_not] at right
      obtain ⟨debit, sum, h⟩ := bind_eq_ok.mp h
      rw [← add_eq_ok.mp sum]
      rcases pay_cases h with ⟨poor, rfl⟩ | ⟨balance, next, charged, h⟩
      · exact .inl ⟨fun ⟨_, affords⟩ => Nat.not_le_of_lt poor affords.2, _, rfl⟩
      · cases h
        exact .inr ⟨unknown, ⟨right, charged.covers⟩, charged, rfl, rfl⟩

/-- The stake handler gets as far as charging the sender. -/
structure StakesOn (s : StateMachine) (sender : Account) (validator : Address)
    (amount fee : U256) (nonce : U64) (e : ValidatorEntry) : Prop where
  found : s.getValidator validator = some e
  open_ : e.status.isFrozenOrUnstaking = false
  positive : amount ≠ 0
  affords : Affords sender (fee.toNat + amount.toNat) nonce

def stakedEntry (e : ValidatorEntry) (stake : U256) : ValidatorEntry :=
  { e with stake, status := if e.status = .registered then .staked stake else e.status }

theorem applyStake_cases {s : StateMachine} {sender : Account} {validator : Address}
    {amount fee : U256} {nonce : U64} {done : Executed}
    (h : s.applyStake sender validator amount fee nonce = .ok done) :
    ((∀ e, ¬StakesOn s sender validator amount fee nonce e) ∧
      ∃ reason, done = ⟨s, sender, .error reason⟩) ∨
    ∃ e, StakesOn s sender validator amount fee nonce e ∧
      Charged sender done.sender (fee.toNat + amount.toNat) ∧
      ((2 ^ 256 ≤ e.stake.toNat + amount.toNat ∧ done.machine = s ∧
          done.result = .error (.consensus "stake overflow")) ∨
        ∃ stake : U256, stake.toNat = e.stake.toNat + amount.toNat ∧ done.result = .ok () ∧
          done.machine = s.setValidator validator (stakedEntry e stake)) := by
  unfold applyStake at h
  split at h
  next wrong =>
    cases h
    exact .inl ⟨fun _ on => wrong on.affords.1, _, rfl⟩
  next right =>
    rw [ne_eq, not_not] at right
    cases found : s.getValidator validator with
    | none =>
      simp only [found] at h
      cases h
      exact .inl ⟨fun _ on => by simpa [found] using on.found, _, rfl⟩
    | some e =>
      simp only [found] at h
      have only {other : ValidatorEntry} (on : StakesOn s sender validator amount fee nonce other) :
          other = e := Option.some.inj (on.found.symm.trans found)
      split at h
      next closed =>
        cases h
        exact .inl ⟨fun _ on => by simp [← only on, on.open_] at closed, _, rfl⟩
      next isOpen =>
        split at h
        next zero =>
          cases h
          exact .inl ⟨fun _ on => on.positive zero, _, rfl⟩
        next positive =>
          obtain ⟨debit, debited, h⟩ := bind_eq_ok.mp h
          have total := add_eq_ok.mp debited
          rcases pay_cases h with ⟨poor, rfl⟩ | ⟨balance, next, charged, h⟩
          · rw [total] at poor
            exact .inl ⟨fun _ on => Nat.not_le_of_lt poor on.affords.2, _, rfl⟩
          · rw [total] at charged
            have on : StakesOn s sender validator amount fee nonce e :=
              ⟨found, by simpa using isOpen, positive, right, charged.covers⟩
            refine .inr ⟨e, on, ?_⟩
            cases sum : checkedAdd e.stake amount with
            | none =>
              simp only [sum] at h
              cases h
              exact ⟨charged, .inl ⟨checkedAdd_eq_none.mp sum, rfl, rfl⟩⟩
            | some stake =>
              simp only [sum] at h
              cases h
              exact ⟨charged, .inr ⟨stake, checkedAdd_eq_some.mp sum, rfl, rfl⟩⟩

/-- The sender registers itself with a first stake. -/
structure Founds (s : StateMachine) (sender : Account) (senderAddr validator : Address)
    (amount fee : U256) (nonce : U64) : Prop where
  self : validator = senderAddr
  unknown : s.getValidator senderAddr = none
  positive : amount ≠ 0
  affords : Affords sender (fee.toNat + antiSpamDeposit.toNat + amount.toNat) nonce

theorem applyRegisterAndStake_cases {s : StateMachine} {sender : Account}
    {senderAddr validator : Address} {amount fee : U256} {nonce : U64} {done : Executed}
    (h : s.applyRegisterAndStake sender senderAddr validator amount fee nonce = .ok done) :
    (¬Founds s sender senderAddr validator amount fee nonce ∧
      ∃ reason, done = ⟨s, sender, .error reason⟩) ∨
    (Founds s sender senderAddr validator amount fee nonce ∧
      Charged sender done.sender (fee.toNat + antiSpamDeposit.toNat + amount.toNat) ∧
      done.result = .ok () ∧
      done.machine = s.setValidator senderAddr
        ⟨senderAddr, FixedBytes.replicate 897 0, amount, .staked amount, 0⟩) := by
  unfold applyRegisterAndStake at h
  split at h
  next foreign =>
    cases h
    exact .inl ⟨fun founds => foreign founds.self, _, rfl⟩
  next self =>
    rw [ne_eq, not_not] at self
    split at h
    next wrong =>
      cases h
      exact .inl ⟨fun founds => wrong founds.affords.1, _, rfl⟩
    next right =>
      rw [ne_eq, not_not] at right
      split at h
      next known =>
        cases h
        exact .inl ⟨fun founds => by simp [founds.unknown] at known, _, rfl⟩
      next unknown =>
        rw [Option.not_isSome_iff_eq_none] at unknown
        split at h
        next zero =>
          cases h
          exact .inl ⟨fun founds => founds.positive zero, _, rfl⟩
        next positive =>
          obtain ⟨first, firstSum, h⟩ := bind_eq_ok.mp h
          obtain ⟨debit, sum, h⟩ := bind_eq_ok.mp h
          have total : debit.toNat = fee.toNat + antiSpamDeposit.toNat + amount.toNat := by
            rw [add_eq_ok.mp sum, add_eq_ok.mp firstSum]
          rcases pay_cases h with ⟨poor, rfl⟩ | ⟨balance, next, charged, h⟩
          · rw [total] at poor
            exact .inl ⟨fun founds => Nat.not_le_of_lt poor founds.affords.2, _, rfl⟩
          · cases h
            rw [total] at charged
            exact .inr ⟨⟨self, unknown, positive, right, charged.covers⟩, charged, rfl, rfl⟩

structure UnstakesFrom (s : StateMachine) (sender : Account) (validator : Address)
    (amount fee : U256) (nonce : U64) (e : ValidatorEntry) : Prop where
  found : s.getValidator validator = some e
  unfrozen : e.status.isFrozen = false
  positive : amount ≠ 0
  covered : amount.toNat ≤ e.stake.toNat
  affords : Affords sender fee.toNat nonce

theorem applyUnstake_cases {s : StateMachine} {sender : Account} {validator : Address}
    {amount fee : U256} {nonce era : U64} {done : Executed}
    (h : s.applyUnstake sender validator amount fee nonce era = .ok done) :
    ((∀ e, ¬UnstakesFrom s sender validator amount fee nonce e) ∧
      ∃ reason, done = ⟨s, sender, .error reason⟩) ∨
    ∃ e, UnstakesFrom s sender validator amount fee nonce e ∧
      Charged sender done.sender fee.toNat ∧
      ((e.stake.toNat < e.pending + amount.toNat ∧ done.machine = s ∧
          ∃ reason, done.result = .error reason) ∨
        ∃ (release : U64) (total : U256), release.toNat = e.releasedIn era.toNat ∧
          total.toNat = e.pending + amount.toNat ∧
          e.pending + amount.toNat ≤ e.stake.toNat ∧ done.result = .ok () ∧
          done.machine = s.setValidator validator { e with status := .unstaking release total }) := by
  unfold applyUnstake at h
  split at h
  next wrong =>
    cases h
    exact .inl ⟨fun _ from_ => wrong from_.affords.1, _, rfl⟩
  next right =>
    rw [ne_eq, not_not] at right
    cases found : s.getValidator validator with
    | none =>
      simp only [found] at h
      cases h
      exact .inl ⟨fun _ from_ => by simpa [found] using from_.found, _, rfl⟩
    | some e =>
      simp only [found] at h
      have only {other : ValidatorEntry}
          (from_ : UnstakesFrom s sender validator amount fee nonce other) : other = e :=
        Option.some.inj (from_.found.symm.trans found)
      split at h
      next frozen =>
        cases h
        exact .inl ⟨fun _ from_ => by simp [← only from_, from_.unfrozen] at frozen, _, rfl⟩
      next unfrozen =>
        split at h
        next zero =>
          cases h
          exact .inl ⟨fun _ from_ => from_.positive zero, _, rfl⟩
        next positive =>
          split at h
          next short =>
            cases h
            rw [BitVec.lt_def] at short
            exact .inl ⟨fun _ from_ => by have := only from_ ▸ from_.covered; omega, _, rfl⟩
          next covered =>
            rw [BitVec.lt_def, Nat.not_lt] at covered
            rcases pay_cases h with ⟨poor, rfl⟩ | ⟨balance, next, charged, h⟩
            · exact .inl ⟨fun _ from_ => Nat.not_le_of_lt poor from_.affords.2, _, rfl⟩
            · obtain ⟨release, later, h⟩ := bind_eq_ok.mp h
              have from_ : UnstakesFrom s sender validator amount fee nonce e :=
                ⟨found, by simpa using unfrozen, positive, covered, right, charged.covers⟩
              refine .inr ⟨e, from_, ?_⟩
              split at h
              next existingEra existing status =>
                rw [e.pending_of_unstaking status, e.releasedIn_of_unstaking status]
                cases sum : checkedAdd existing amount with
                | none =>
                  simp only [sum] at h
                  cases h
                  have beyond := checkedAdd_eq_none.mp sum
                  exact ⟨charged, .inl ⟨e.stake.isLt.trans_le beyond, rfl, _, rfl⟩⟩
                | some total =>
                  rw [← checkedAdd_eq_some.mp sum]
                  simp only [sum] at h
                  split at h
                  next beyond =>
                    cases h
                    exact ⟨charged, .inl ⟨BitVec.lt_def.mp beyond, rfl, _, rfl⟩⟩
                  next within =>
                    cases h
                    rw [BitVec.lt_def, Nat.not_lt] at within
                    exact ⟨charged, .inr ⟨existingEra, total, rfl, rfl, within, rfl, rfl⟩⟩
              next idle =>
                cases h
                rw [e.pending_of_idle idle, e.releasedIn_of_idle idle, Nat.zero_add]
                exact ⟨charged, .inr ⟨release, amount, add_eq_ok.mp later, rfl, covered, rfl, rfl⟩⟩

end StateMachine

end Mononium
