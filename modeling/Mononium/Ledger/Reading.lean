import Mononium.Ledger.Book
import Mononium.Consensus.Boundary
import Mononium.Core.Conservation

/-! A machine read as a book: accounts as purses, entries as bonds. Every handler does with a
request what the book does with it, and a stake never overflows while all value fits a word. -/
namespace Mononium

open Rust Scale

def Account.read (x : Account) : Purse := ⟨x.balance.toNat, x.nonce.toNat, x.codeHash⟩

theorem Account.read_balance (x : Account) : x.read.balance = x.balance.toNat := rfl

def ValidatorStatus.read : ValidatorStatus → Standing
  | .registered => .registered
  | .staked stake => .staked stake.toNat
  | .active => .active
  | .unstaking releaseEra amount => .unstaking releaseEra.toNat amount.toNat
  | .frozen frozenUntil => .frozen frozenUntil.toNat
  | .thawed => .thawed

def ValidatorEntry.read (e : ValidatorEntry) : Bond :=
  ⟨e.address, e.publicKey, e.stake.toNat, e.status.read, e.registrationEra.toNat⟩

theorem Account.read_injective : Function.Injective Account.read := by
  intro x y same
  cases x; cases y
  simp only [read, Purse.mk.injEq, BitVec.toNat_inj] at same
  simp [same]

theorem ValidatorStatus.read_injective : Function.Injective ValidatorStatus.read := by
  intro x y same
  cases x <;> cases y <;> simp_all [read, BitVec.toNat_inj]

theorem ValidatorEntry.read_injective : Function.Injective ValidatorEntry.read := by
  intro x y same
  cases x; cases y
  simp only [read, Bond.mk.injEq, BitVec.toNat_inj, ValidatorStatus.read_injective.eq_iff] at same
  simp [same]

def Book.after (accounts : List (Address × Account)) (ops : List Op) : Book :=
  (Book.opening (accounts.map fun p => (p.1, p.2.read))).run ops

section Entries

variable (e : ValidatorEntry)

theorem ValidatorEntry.read_stake : e.read.stake = e.stake.toNat := rfl

theorem ValidatorEntry.read_isOpen : e.read.isOpen = !e.status.isFrozenOrUnstaking := by
  cases status : e.status <;>
    simp [read, Bond.isOpen, ValidatorStatus.read, ValidatorStatus.isFrozenOrUnstaking, status]

theorem ValidatorEntry.read_isFrozen : e.read.isFrozen = e.status.isFrozen := by
  cases status : e.status <;>
    simp [read, Bond.isFrozen, ValidatorStatus.read, ValidatorStatus.isFrozen, status]

theorem ValidatorEntry.read_pending : e.read.pending = e.pending := by
  cases status : e.status <;>
    simp [read, Bond.pending, ValidatorStatus.read, ValidatorEntry.pending, status]

theorem ValidatorEntry.read_releasedIn : e.read.releasedIn = e.releasedIn 0 := by
  cases status : e.status <;>
    simp [read, Bond.releasedIn, ValidatorStatus.read, ValidatorEntry.releasedIn, status]

theorem ValidatorStatus.read_eq_registered {status : ValidatorStatus} :
    status.read = .registered ↔ status = .registered := by
  cases status <;> simp [ValidatorStatus.read]

theorem ValidatorEntry.read_stakedEntry {stake amount : U256}
    (sum : stake.toNat = e.stake.toNat + amount.toNat) :
    (StateMachine.stakedEntry e stake).read = e.read.raise amount.toNat := by
  by_cases fresh : e.status = .registered
  · simp [StateMachine.stakedEntry, read, Bond.raise, ValidatorStatus.read, fresh, sum]
  · have other : e.status.read ≠ .registered := mt ValidatorStatus.read_eq_registered.mp fresh
    simp [StateMachine.stakedEntry, read, Bond.raise, fresh, other, sum]

theorem ValidatorEntry.read_unstaking {release : U64} {total amount : U256}
    (cooled : release.toNat = e.releasedIn 0) (sum : total.toNat = e.pending + amount.toNat) :
    ({ e with status := .unstaking release total } : ValidatorEntry).read =
      e.read.withdraw amount.toNat := by
  rw [Bond.withdraw, read_releasedIn, read_pending, ← cooled, ← sum]
  rfl

theorem ValidatorEntry.read_activated : (StateMachine.activated e).read = e.read.activate := by
  cases status : e.status <;>
    simp [StateMachine.activated, read, Bond.activate, ValidatorStatus.read, status]

theorem ValidatorEntry.read_thawedIn (era : U64) :
    (e.thawedIn era).read = e.read.thaw era.toNat := by
  cases status : e.status with
  | frozen frozenUntil =>
    by_cases early : era < frozenUntil
    · have before := BitVec.lt_def.mp early
      simp [thawedIn, read, Bond.thaw, ValidatorStatus.read, status, early, before]
    · have due := mt BitVec.lt_def.mpr early
      by_cases enough : minStake ≤ e.stake
      · have above := BitVec.le_def.mp enough
        simp [thawedIn, thawed, read, Bond.thaw, ValidatorStatus.read, status, early, due, enough,
          above]
      · have below := mt BitVec.le_def.mpr enough
        simp [thawedIn, thawed, read, Bond.thaw, ValidatorStatus.read, status, early, due, enough,
          below]
  | _ => simp [thawedIn, read, Bond.thaw, ValidatorStatus.read, status]

end Entries

theorem Account.read_credit {x : Account} {amount : Nat} (fits : x.balance.toNat + amount < 2 ^ 256) :
    (x.credit amount).read = x.read.receive amount := by
  have balance := x.credit_balance amount
  rw [Nat.min_eq_left (by omega)] at balance
  rw [Account.read, balance]
  rfl

/-- An account that is charged reads as a purse that has spent. -/
theorem Charged.read {sender after : Account} {debit : Nat} (charged : Charged sender after debit) :
    after.read = sender.read.spend debit := by
  have balance := charged.balance
  simp only [Account.read, Purse.spend, Purse.pay, charged.nonce, charged.codeHash,
    Purse.mk.injEq, and_true]
  omega

theorem Account.read_paid {x : Account} {balance fee : U256}
    (paid : balance.toNat + fee.toNat = x.balance.toNat) :
    ({ x with balance } : Account).read = x.read.pay fee.toNat := by
  simp only [read, Purse.pay, Purse.mk.injEq, and_true]
  omega

theorem affords_read {sender : Account} {debit : Nat} {nonce : U64} :
    sender.read.Affords debit nonce.toNat ↔ Affords sender debit nonce := by
  simp [Account.read, Purse.Affords, Affords, BitVec.toNat_inj]

namespace StateMachine

section

variable [Blake3] {A : Finset Address} {s t : StateMachine} {a : Address}

def book (A : Finset Address) (s : StateMachine) : Book where
  purse a := if a ∈ A then (s.account a).map Account.read else none
  bond a := if a ∈ A then (s.getValidator a).map ValidatorEntry.read else none
  active := s.activeSet

theorem book_purse (ha : a ∈ A) : (s.book A).purse a = (s.account a).map Account.read := if_pos ha

theorem book_bond (ha : a ∈ A) : (s.book A).bond a = (s.getValidator a).map ValidatorEntry.read :=
  if_pos ha

theorem book_held (ha : a ∈ A) :
    (s.book A).held a = ((s.account a).getD (Account.new 0)).read := by
  rw [Book.held, book_purse ha]
  cases s.account a <;> rfl

theorem book_congr (account : ∀ a ∈ A, t.account a = s.account a)
    (entry : ∀ a ∈ A, t.getValidator a = s.getValidator a) (active : t.activeSet = s.activeSet) :
    t.book A = s.book A := by
  ext1
  · funext a
    by_cases ha : a ∈ A
    · rw [book_purse ha, book_purse ha, account a ha]
    · simp [book, ha]
  · funext a
    by_cases ha : a ∈ A
    · rw [book_bond ha, book_bond ha, entry a ha]
    · simp [book, ha]
  · exact active

theorem book_setAccount (apart : KeysApart A) (ha : a ∈ A) (x : Account) :
    (s.setAccount a x).book A = (s.book A).setPurse a x.read := by
  ext1
  · funext b
    by_cases hb : b ∈ A
    · rw [book_purse hb, account_setAccount apart ha hb]
      by_cases same : b = a
      · simp [Book.setPurse, same]
      · simp [Book.setPurse, same, book_purse hb]
    · have other : b ≠ a := fun same => hb (same ▸ ha)
      simp [Book.setPurse, book, hb, other]
  · funext b
    by_cases hb : b ∈ A
    · rw [book_bond hb, getValidator_setAccount apart ha hb, ← book_bond hb]
      rfl
    · simp [Book.setPurse, book, hb]
  · rfl

theorem book_setValidator (apart : KeysApart A) (ha : a ∈ A) (e : ValidatorEntry) :
    (s.setValidator a e).book A = (s.book A).setBond a e.read := by
  ext1
  · funext b
    by_cases hb : b ∈ A
    · rw [book_purse hb, account_setValidator apart ha hb, ← book_purse hb]
      rfl
    · simp [Book.setBond, book, hb]
  · funext b
    by_cases hb : b ∈ A
    · rw [book_bond hb, getValidator_setValidator apart ha hb]
      by_cases same : b = a
      · simp [Book.setBond, same]
      · simp [Book.setBond, same, book_bond hb]
    · have other : b ≠ a := fun same => hb (same ▸ ha)
      simp [Book.setBond, book, hb, other]
  · rfl

theorem book_credited {x : Account} (apart : KeysApart A) (ha : a ∈ A) {amount : Nat}
    (balance : x.balance.toNat = s.balance a + amount)
    (rest : x = { (s.account a).getD (Account.new 0) with balance := x.balance }) :
    (s.setAccount a x).book A = (s.book A).credit a amount := by
  rw [book_setAccount apart ha, Book.credit, book_held ha, Account.read, balance, rest]
  rfl

theorem balance_add_stake_le {v : Address} (ha : a ∈ A) (hv : v ∈ A) :
    s.balance a + s.stake v ≤ s.total A := by
  rw [total, Finset.sum_add_distrib]
  exact Nat.add_le_add (Finset.single_le_sum (fun _ _ => Nat.zero_le _) ha)
    (Finset.single_le_sum (fun _ _ => Nat.zero_le _) hv)

section Requests

variable {sender : Account} {tx : Transaction} {done : Executed}

/-- What a handler makes of a request is what the book makes of it. -/
inductive Performs (A : Finset Address) (s : StateMachine) (sender : Account) (tx : Transaction) :
    Executed → Verdict → Prop
  | done {machine : StateMachine} {after : Account} (charged : Charged sender after tx.debit) :
      Performs A s sender tx ⟨machine, after, .ok ()⟩ (.done (machine.book A))
  | refused (reason : LibError) : Performs A s sender tx ⟨s, sender, .error reason⟩ .refused
  | late {after : Account} (reason : LibError) (charged : Charged sender after tx.debit) :
      Performs A s sender tx ⟨s, after, .error reason⟩ .late

theorem performs_of_poor (poor : ¬Affords sender tx.debit tx.nonce) (reason : LibError) :
    Performs A s sender tx ⟨s, sender, .error reason⟩ ((s.book A).verdict sender.read tx) := by
  rw [Book.verdict, if_neg (mt affords_read.mp poor)]
  exact .refused reason

theorem verdict_of_affords (affords : Affords sender tx.debit tx.nonce) :
    (s.book A).verdict sender.read tx = (s.book A).perform tx := by
  rw [Book.verdict, if_pos (affords_read.mpr affords)]

/-- A handler that refuses whoever can pay refuses. -/
theorem performs_of_refusal (reason : LibError)
    (refused : Affords sender tx.debit tx.nonce → (s.book A).perform tx = .refused) :
    Performs A s sender tx ⟨s, sender, .error reason⟩ ((s.book A).verdict sender.read tx) := by
  by_cases affords : Affords sender tx.debit tx.nonce
  · rw [verdict_of_affords affords, refused affords]
    exact .refused reason
  · exact performs_of_poor affords reason

theorem performs_done (affords : Affords sender tx.debit tx.nonce)
    (charged : Charged sender done.sender tx.debit) (result : done.result = .ok ())
    (performed : (s.book A).perform tx = .done (done.machine.book A)) :
    Performs A s sender tx done ((s.book A).verdict sender.read tx) := by
  rw [verdict_of_affords affords, performed]
  obtain ⟨machine, after, _⟩ := done
  cases result
  exact .done charged

theorem tryTransfer_performs {recipient : Address} {amount : U256} (sound : Sound A s)
    (within : tx.Within A) (body : tx.body.payment = some (recipient, amount))
    (h : s.tryTransfer sender recipient amount tx.fee tx.nonce = .ok done) :
    Performs A s sender tx done ((s.book A).verdict sender.read tx) := by
  have price : tx.debit = amount.toNat + tx.fee.toNat := by
    unfold TxBody.payment at body
    split at body
    all_goals simp_all [Transaction.debit, TxBody.price, Nat.add_comm]
  have performed : (s.book A).perform tx = .done ((s.book A).credit recipient amount.toNat) := by
    unfold TxBody.payment at body
    split at body
    all_goals simp_all [Book.perform]
  rcases tryTransfer_cases h with ⟨poor, reason, rfl⟩ |
    ⟨affords, charged, result, found, credited, read, sum, machine⟩
  · rw [← price] at poor
    exact performs_of_poor poor reason
  · rw [← price] at affords charged
    have known := account_of_getAccount read
    subst known
    refine performs_done affords charged result ?_
    rw [performed, machine, book_credited sound.apart (within.recipient body) sum rfl]

theorem chargeFee_performs (body : tx.body.isGovernance)
    (h : s.chargeFee sender tx.fee tx.nonce = .ok done) :
    Performs A s sender tx done ((s.book A).verdict sender.read tx) := by
  have price : tx.debit = tx.fee.toNat := by
    unfold TxBody.isGovernance at body
    split at body
    all_goals simp_all [Transaction.debit, TxBody.price]
  have performed : (s.book A).perform tx = .done (s.book A) := by
    unfold TxBody.isGovernance at body
    split at body
    all_goals simp_all [Book.perform]
  rcases chargeFee_cases h with ⟨poor, reason, rfl⟩ | ⟨affords, charged, result, machine⟩
  · rw [← price] at poor
    exact performs_of_poor poor reason
  · rw [← price] at affords charged
    exact performs_done affords charged result (by rw [performed, machine])

theorem applyRegisterValidator_performs {publicKey : FixedBytes 897} (sound : Sound A s)
    (within : tx.Within A) (body : tx.body = .registerValidator publicKey)
    (h : s.applyRegisterValidator sender tx.sender publicKey tx.fee tx.nonce = .ok done) :
    Performs A s sender tx done ((s.book A).verdict sender.read tx) := by
  have price : tx.debit = tx.fee.toNat + antiSpamDeposit.toNat := by
    simp [Transaction.debit, TxBody.price, body]
  have bond := book_bond (s := s) within.1
  rcases applyRegisterValidator_cases h with ⟨refuses, reason, rfl⟩ |
    ⟨unknown, affords, charged, result, machine⟩
  · refine performs_of_refusal reason fun affords => ?_
    rw [price] at affords
    cases found : s.getValidator tx.sender with
    | none => exact absurd ⟨found, affords⟩ refuses
    | some e => simp [Book.perform, body, bond, found]
  · rw [← price] at affords charged
    refine performs_done affords charged result ?_
    rw [machine, book_setValidator sound.apart within.1]
    simp [Book.perform, body, bond, unknown, ValidatorEntry.read, ValidatorStatus.read]

theorem applyRegisterAndStake_performs {v : Address} {amount : U256} (sound : Sound A s)
    (within : tx.Within A) (body : tx.body = .registerAndStake v amount)
    (h : s.applyRegisterAndStake sender tx.sender v amount tx.fee tx.nonce = .ok done) :
    Performs A s sender tx done ((s.book A).verdict sender.read tx) := by
  have price : tx.debit = tx.fee.toNat + antiSpamDeposit.toNat + amount.toNat := by
    simp [Transaction.debit, TxBody.price, body, Nat.add_assoc]
  have bond := book_bond (s := s) within.1
  rcases applyRegisterAndStake_cases h with ⟨refuses, reason, rfl⟩ |
    ⟨founds, charged, result, machine⟩
  · refine performs_of_refusal reason fun affords => ?_
    rw [price] at affords
    cases found : s.getValidator tx.sender with
    | some e => simp [Book.perform, body, bond, found]
    | none =>
      have unmet : ¬(v = tx.sender ∧ 0 < amount.toNat) := by
        rintro ⟨self, positive⟩
        exact refuses ⟨self, found, by rintro rfl; exact absurd positive (by decide), affords⟩
      simp [Book.perform, body, bond, found, unmet]
  · have positive := BitVec.toNat_pos_of_ne_zero founds.positive
    have affords := founds.affords
    rw [← price] at affords charged
    refine performs_done affords charged result ?_
    rw [machine, book_setValidator sound.apart within.1]
    simp [Book.perform, body, bond, founds.unknown, founds.self, positive, ValidatorEntry.read,
      ValidatorStatus.read]

/-- A stake never overflows: the sender's balance is not yet part of it. -/
theorem applyStake_performs {v : Address} {amount : U256} (sound : Sound A s)
    (within : tx.Within A) (known : s.account tx.sender = some sender)
    (fits : s.total A < 2 ^ 256) (body : tx.body = .stake v amount)
    (h : s.applyStake sender v amount tx.fee tx.nonce = .ok done) :
    Performs A s sender tx done ((s.book A).verdict sender.read tx) := by
  have price : tx.debit = tx.fee.toNat + amount.toNat := by
    simp [Transaction.debit, TxBody.price, body]
  have hv := within.validator (.inl body)
  have bond := book_bond (s := s) hv
  rcases applyStake_cases h with ⟨refuses, reason, rfl⟩ |
    ⟨e, on, charged, ⟨overflow, -⟩ | ⟨stake, sum, result, machine⟩⟩
  · refine performs_of_refusal reason fun affords => ?_
    rw [price] at affords
    cases found : s.getValidator v with
    | none => simp [Book.perform, body, bond, found]
    | some e =>
      have unmet : ¬(e.read.isOpen ∧ 0 < amount.toNat) := by
        rintro ⟨open_, positive⟩
        rw [e.read_isOpen, Bool.not_eq_true'] at open_
        exact refuses e ⟨found, open_, by rintro rfl; exact absurd positive (by decide), affords⟩
      simp [Book.perform, body, bond, found, unmet]
  · have room := balance_add_stake_le (s := s) within.1 hv
    have paid := on.affords.2
    rw [balance_of_known known, stake_of_found on.found] at room
    omega
  · have positive := BitVec.toNat_pos_of_ne_zero on.positive
    have affords := on.affords
    rw [← price] at affords charged
    refine performs_done affords charged result ?_
    rw [machine, book_setValidator sound.apart hv, ValidatorEntry.read_stakedEntry e sum]
    simp [Book.perform, body, bond, on.found, e.read_isOpen, on.open_, positive]

theorem UnstakesFrom.read_free {v : Address} {amount fee : U256} {nonce : U64} {e : ValidatorEntry}
    (from_ : UnstakesFrom s sender v amount fee nonce e) :
    ¬(e.read.isFrozen ∨ amount.toNat = 0 ∨ e.read.stake < amount.toNat) := by
  rw [not_or, not_or, e.read_isFrozen, Bool.not_eq_true, Nat.not_lt]
  exact ⟨from_.unfrozen, (BitVec.toNat_pos_of_ne_zero from_.positive).ne', from_.covered⟩

theorem applyUnstake_performs {v : Address} {amount : U256} (sound : Sound A s)
    (within : tx.Within A) (body : tx.body = .unstake v amount)
    (h : s.applyUnstake sender v amount tx.fee tx.nonce 0 = .ok done) :
    Performs A s sender tx done ((s.book A).verdict sender.read tx) := by
  have price : tx.debit = tx.fee.toNat := by simp [Transaction.debit, TxBody.price, body]
  have hv := within.validator (.inr body)
  have bond := book_bond (s := s) hv
  rcases applyUnstake_cases h with ⟨refuses, reason, rfl⟩ |
    ⟨e, from_, charged, ⟨beyond, machine, reason, result⟩ |
      ⟨release, total, cooled, sum, covered, result, machine⟩⟩
  · refine performs_of_refusal reason fun affords => ?_
    rw [price] at affords
    cases found : s.getValidator v with
    | none => simp [Book.perform, body, bond, found]
    | some e =>
      have barred : e.read.isFrozen ∨ amount.toNat = 0 ∨ e.read.stake < amount.toNat := by
        by_contra free
        rw [not_or, not_or, e.read_isFrozen, Bool.not_eq_true, Nat.not_lt] at free
        exact refuses e ⟨found, free.1, by rintro rfl; exact free.2.1 rfl, free.2.2, affords⟩
      simp [Book.perform, body, bond, found, barred]
  · have free := from_.read_free
    have affords := from_.affords
    rw [← price] at affords charged
    rw [← e.read_stake, ← e.read_pending] at beyond
    have late : (s.book A).perform tx = .late := by
      simp [Book.perform, body, bond, from_.found, free, beyond]
    rw [verdict_of_affords affords, late, show done = ⟨s, done.sender, .error reason⟩ by
      rw [← machine, ← result]]
    exact .late reason charged
  · have free := from_.read_free
    have affords := from_.affords
    rw [← price] at affords charged
    refine performs_done affords charged result ?_
    rw [machine, book_setValidator sound.apart hv, e.read_unstaking cooled sum]
    rw [← e.read_stake, ← e.read_pending] at covered
    simp [Book.perform, body, bond, from_.found, free, Nat.not_lt.mpr covered]

/-- Every handler does what the book does. -/
theorem execute_performs (sound : Sound A s) (within : tx.Within A)
    (known : s.account tx.sender = some sender) (fits : s.total A < 2 ^ 256)
    (h : s.execute sender tx = .ok done) :
    Performs A s sender tx done ((s.book A).verdict sender.read tx) := by
  unfold execute at h
  cases body : tx.body with
  | transfer recipient amount =>
    simp only [body] at h
    exact tryTransfer_performs sound within (by simp [body, TxBody.payment]) h
  | burn target amount =>
    simp only [body] at h
    exact tryTransfer_performs sound within (by simp [body, TxBody.payment]) h
  | registerValidator publicKey =>
    simp only [body] at h
    exact applyRegisterValidator_performs sound within body h
  | stake v amount =>
    simp only [body] at h
    exact applyStake_performs sound within known fits body h
  | registerAndStake v amount =>
    simp only [body] at h
    exact applyRegisterAndStake_performs sound within body h
  | unstake v amount =>
    simp only [body] at h
    exact applyUnstake_performs sound within body h
  | propose id title description actions =>
    simp only [body] at h
    exact chargeFee_performs (by simp [body, TxBody.isGovernance]) h
  | vote id approve =>
    simp only [body] at h
    exact chargeFee_performs (by simp [body, TxBody.isGovernance]) h
  | cancelProposal id =>
    simp only [body] at h
    exact chargeFee_performs (by simp [body, TxBody.isGovernance]) h

end Requests

end

end StateMachine

end Mononium
