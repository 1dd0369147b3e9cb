import Mononium.Core.Panics
import Mononium.Core.Refusal

/-! Transfers to third parties in the block loop: when a round executes one, what it does to the
ledger, and when a loop over many executes them all. -/
namespace Mononium

open Rust Scale

section Accounts

def Transaction.paid (tx : Transaction) (a : Address) : Nat :=
  match tx.body.payment with
  | some (recipient, amount) => if a = recipient then amount.toNat else 0
  | none => 0

def sentBy (txs : List Transaction) (a : Address) : Nat :=
  (txs.map fun tx => if a = tx.sender then 1 else 0).sum

def spentBy (txs : List Transaction) (a : Address) : Nat :=
  (txs.map fun tx => if a = tx.sender then tx.debit else 0).sum

def paidTo (txs : List Transaction) (a : Address) : Nat := (txs.map fun tx => tx.paid a).sum

def pooledFees (txs : List Transaction) : Nat := (txs.map fun tx => (feeAsU128 tx.fee).toNat).sum

variable {txs more : List Transaction} {tx : Transaction} {a : Address}

@[simp] theorem sentBy_nil : sentBy [] a = 0 := rfl

@[simp] theorem spentBy_nil : spentBy [] a = 0 := rfl

@[simp] theorem paidTo_nil : paidTo [] a = 0 := rfl

@[simp] theorem pooledFees_nil : pooledFees [] = 0 := rfl

theorem sentBy_concat : sentBy (txs ++ [tx]) a = sentBy txs a + if a = tx.sender then 1 else 0 := by
  simp [sentBy]

theorem spentBy_concat :
    spentBy (txs ++ [tx]) a = spentBy txs a + if a = tx.sender then tx.debit else 0 := by
  simp [spentBy]

theorem paidTo_concat : paidTo (txs ++ [tx]) a = paidTo txs a + tx.paid a := by
  simp [paidTo]

theorem pooledFees_concat :
    pooledFees (txs ++ [tx]) = pooledFees txs + (feeAsU128 tx.fee).toNat := by
  simp [pooledFees]

theorem sentBy_append : sentBy (txs ++ more) a = sentBy txs a + sentBy more a := by
  simp [sentBy]

theorem spentBy_append : spentBy (txs ++ more) a = spentBy txs a + spentBy more a := by
  simp [spentBy]

theorem pooledFees_append : pooledFees (txs ++ more) = pooledFees txs + pooledFees more := by
  simp [pooledFees]

theorem pooledFees_cons :
    pooledFees (tx :: txs) = (feeAsU128 tx.fee).toNat + pooledFees txs := by
  simp [pooledFees]

theorem spentBy_cons : spentBy (tx :: txs) tx.sender = tx.debit + spentBy txs tx.sender := by
  simp [spentBy]

theorem spentBy_perm (perm : txs.Perm more) (a : Address) : spentBy txs a = spentBy more a :=
  (perm.map _).sum_eq

theorem paidTo_perm (perm : txs.Perm more) (a : Address) : paidTo txs a = paidTo more a :=
  (perm.map _).sum_eq

theorem pooledFees_perm (perm : txs.Perm more) : pooledFees txs = pooledFees more :=
  (perm.map _).sum_eq

end Accounts

def Transaction.ToThird (tx : Transaction) : Prop :=
  ∃ recipient amount, tx.body = .transfer recipient amount ∧ recipient ≠ tx.sender

namespace StateMachine

variable [Blake3] {A : Finset Address} {chainId : U64} {p q : Progress} {tx : Transaction}
  {recipient : Address} {amount : U256} {x : Account}

structure Transferred (A : Finset Address) (p q : Progress) (tx : Transaction) (recipient : Address)
    (amount : U256) : Prop where
  sound : Sound A q.machine
  nonce : ∀ a ∈ A, q.machine.nonce a = p.machine.nonce a + if a = tx.sender then 1 else 0
  balance : ∀ a ∈ A, q.machine.balance a + (if a = tx.sender then tx.debit else 0) =
    p.machine.balance a + if a = recipient then amount.toNat else 0
  stake : ∀ a ∈ A, q.machine.stake a = p.machine.stake a
  known : ∀ a ∈ A, p.machine.account a ≠ none → q.machine.account a ≠ none
  active : q.machine.activeSet = p.machine.activeSet
  fees : q.blockFees.toNat = p.blockFees.toNat + (feeAsU128 tx.fee).toNat
  failed : q.failedCount = p.failedCount
  counted : q.txCount.toNat = p.txCount.toNat + 1

theorem Outcome.clean_iff (outcome : Outcome chainId p tx q)
    (known : p.machine.account tx.sender = some x) :
    q.failedCount = p.failedCount ↔ tx.chainId = chainId ∧ Accepts p.machine x tx := by
  have raised {n : U32} (counted : n.toNat = p.failedCount.toNat + 1) : n ≠ p.failedCount := by
    rintro rfl
    omega
  cases outcome with
  | executed chain other accepts _ _ _ _ =>
    cases other.symm.trans known
    exact iff_of_true rfl ⟨chain, accepts⟩
  | skipped foreign counted =>
    refine iff_of_false (raised counted) fun ⟨chain, _⟩ => ?_
    have missing := foreign.resolve_left (not_not_intro chain)
    cases missing.symm.trans known
  | rejected _ other refuses _ _ _ counted | unpaid _ other refuses _ _ counted =>
    cases other.symm.trans known
    exact iff_of_false (raised counted) fun ⟨_, accepts⟩ => refuses accepts
  | spoiled _ other spoils _ _ _ counted | spoiledUnpaid _ other spoils _ counted =>
    cases other.symm.trans known
    exact iff_of_false (raised counted) fun ⟨_, accepts⟩ => spoils.not_accepts accepts

theorem Outcome.failed_le (outcome : Outcome chainId p tx q) :
    p.failedCount.toNat ≤ q.failedCount.toNat := by
  cases outcome with
  | executed _ _ _ _ _ _ _ => exact Nat.le_refl _
  | skipped _ counted => exact counted ▸ Nat.le_succ _
  | rejected _ _ _ _ _ _ counted | spoiled _ _ _ _ _ _ counted => exact counted ▸ Nat.le_succ _
  | unpaid _ _ _ _ _ counted | spoiledUnpaid _ _ _ _ counted => exact counted ▸ Nat.le_succ _

theorem Outcome.paid (outcome : Outcome chainId p tx q) (payment : tx.body.payment = some (recipient, amount))
    (chain : tx.chainId = chainId) (known : p.machine.account tx.sender = some x)
    (accepts : Accepts p.machine x tx) :
    ∃ after credited, Charged x after tx.debit ∧
      credited.toNat = p.machine.balance recipient + amount.toNat ∧
      q.machine = (p.machine.setAccount recipient
        { (p.machine.account recipient).getD (Account.new 0) with balance := credited }).setAccount
          tx.sender after ∧
      q.blockFees.toNat = p.blockFees.toNat + (feeAsU128 tx.fee).toNat ∧
      q.failedCount = p.failedCount ∧ q.txCount.toNat = p.txCount.toNat + 1 := by
  cases outcome with
  | skipped foreign _ =>
    have missing := foreign.resolve_left (not_not_intro chain)
    cases missing.symm.trans known
  | rejected _ other refuses _ _ _ _ | unpaid _ other refuses _ _ _ =>
    cases other.symm.trans known
    exact absurd accepts refuses
  | spoiled _ other spoils _ _ _ _ | spoiledUnpaid _ other spoils _ _ =>
    cases other.symm.trans known
    exact absurd accepts spoils.not_accepts
  | executed _ other _ charged effect pooled counted =>
    cases other.symm.trans known
    cases effect with
    | registers body _ | stakes body _ _ | founds body _ | unstakes body _ _ _ =>
      rw [body] at payment
      cases payment
    | charges governs =>
      cases body : tx.body with
      | propose _ _ _ _ | vote _ _ | cancelProposal _ =>
        rw [body] at payment
        cases payment
      | _ =>
        rw [body] at governs
        cases governs
    | pays other sum =>
      cases payment.symm.trans other
      exact ⟨_, _, charged, sum, rfl, pooled, rfl, counted⟩

theorem Outcome.transferred (outcome : Outcome chainId p tx q) (sound : Sound A p.machine)
    (within : tx.Within A) (body : tx.body = .transfer recipient amount) (third : recipient ≠ tx.sender)
    (chain : tx.chainId = chainId) (known : p.machine.account tx.sender = some x)
    (accepts : Accepts p.machine x tx) : Transferred A p q tx recipient amount := by
  have payment : tx.body.payment = some (recipient, amount) := by rw [body]; rfl
  have member := within.recipient payment
  obtain ⟨after, credited, charged, sum, machine, pooled, clean, counted⟩ :=
    outcome.paid payment chain known accepts
  have account (a : Address) (ha : a ∈ A) := account_setAccount (s := p.machine) sound.apart
    member ha
  refine ⟨outcome.sound sound within, ?_, ?_, ?_, ?_, outcome.activeSet, pooled, clean, counted⟩
  · intro a ha
    rw [machine, nonce_setAccount sound.apart within.1 ha]
    split
    next same =>
      rw [same, nonce_of_known known]
      exact charged.nonce
    next =>
      rw [nonce_setAccount sound.apart member ha]
      split
      next same => rw [same]; rfl
      next => rfl
  · intro a ha
    rw [machine, balance, account_setAccount sound.apart within.1 ha]
    by_cases same : a = tx.sender
    · subst same
      have here : p.machine.balance tx.sender = x.balance.toNat := by rw [balance, known]; rfl
      rw [if_pos rfl, if_pos rfl, if_neg third.symm, here]
      exact charged.balance
    · rw [if_neg same, if_neg same, account a ha]
      by_cases paid : a = recipient
      · subst paid
        rw [if_pos rfl, if_pos rfl]
        exact sum
      · rw [if_neg paid, if_neg paid]
        rfl
  · intro a ha
    rw [machine, stake, getValidator_setAccount sound.apart within.1 ha,
      getValidator_setAccount sound.apart member ha]
    rfl
  · intro a ha before
    rw [machine, account_setAccount sound.apart within.1 ha]
    split
    next => simp
    next =>
      rw [account a ha]
      split
      next => simp
      next => exact before

/-- A round executes a transfer that its sender can pay exactly if the chain and the nonce are
right, and no addition overflows. -/
theorem applyTx_transfer_iff (sound : Sound A p.machine) (within : tx.Within A)
    (room : p.txCount.toNat + p.failedCount.toNat + 1 < 2 ^ 32)
    (body : tx.body = .transfer recipient amount) (known : p.machine.account tx.sender = some x)
    (rich : tx.debit ≤ x.balance.toNat) :
    (∃ q, applyTx chainId p tx = .ok q ∧ q.failedCount = p.failedCount) ↔
      tx.chainId = chainId ∧ x.nonce = tx.nonce ∧ x.nonce.toNat + 1 < 2 ^ 64 ∧
        p.machine.balance recipient + amount.toNat < 2 ^ 256 ∧
        p.blockFees.toNat + (feeAsU128 tx.fee).toNat < 2 ^ 128 := by
  have payment : tx.body.payment = some (recipient, amount) := by rw [body]; rfl
  have accepted : Accepts p.machine x tx ↔ Affords x tx.debit tx.nonce := by rw [Accepts, body]
  have gate : Gate p.machine x tx ↔ x.nonce = tx.nonce := by simp [Gate, body]
  have charges : Charges p.machine x tx := by
    refine .inr ⟨?_, ?_⟩
    · rw [Spoils, body]
      exact id
    · exact tx.fee_le_debit.trans rich
  have fits : RoundFits chainId p tx ↔ (tx.chainId = chainId → HandlerFits p.machine x tx ∧
      p.blockFees.toNat + (feeAsU128 tx.fee).toNat < 2 ^ 128) := by
    rw [RoundFits, known]
    constructor
    · intro all chain
      obtain ⟨handler, fees⟩ := all x chain rfl
      exact ⟨handler, fees charges⟩
    · rintro all sender chain ⟨⟩
      exact ⟨(all chain).1, fun _ => (all chain).2⟩
  constructor
  · rintro ⟨q, ran, clean⟩
    obtain ⟨chain, accepts⟩ := ((applyTx_outcome ran).clean_iff known).mp clean
    have nonce := (accepted.mp accepts).1
    obtain ⟨handler, fees⟩ := fits.mp ((applyTx_returns sound within room).mp ⟨q, ran⟩) chain
    obtain ⟨_, additions⟩ := handler (gate.mpr nonce)
    obtain ⟨next, credits⟩ := additions rich
    exact ⟨chain, nonce, next, credits recipient amount payment, fees⟩
  · rintro ⟨chain, nonce, next, credits, fees⟩
    have debit : tx.debit < 2 ^ 256 := rich.trans_lt x.balance.isLt
    have handler : HandlerFits p.machine x tx := by
      refine fun _ => ⟨debit, fun _ => ⟨next, ?_⟩⟩
      intro other paid same
      cases payment.symm.trans same
      exact credits
    obtain ⟨q, ran⟩ := (applyTx_returns sound within room).mpr (fits.mpr fun _ => ⟨handler, fees⟩)
    have accepts := accepted.mpr ⟨nonce, rich⟩
    exact ⟨q, ran, ((applyTx_outcome ran).clean_iff known).mpr ⟨chain, accepts⟩⟩

/-- Where a loop stands that has executed the transfers of `before`. -/
structure Carried (A : Finset Address) (s : StateMachine) (before : List Transaction)
    (p : Progress) : Prop where
  sound : Sound A p.machine
  nonce : ∀ a ∈ A, p.machine.nonce a = s.nonce a + sentBy before a
  balance : ∀ a ∈ A, p.machine.balance a + spentBy before a = s.balance a + paidTo before a
  stake : ∀ a ∈ A, p.machine.stake a = s.stake a
  known : ∀ a ∈ A, s.account a ≠ none → p.machine.account a ≠ none
  active : p.machine.activeSet = s.activeSet
  fees : p.blockFees.toNat = pooledFees before
  clean : p.failedCount = 0
  counted : p.txCount.toNat = before.length

/-- A transfer that is next, and whose additions do not overflow, after the transfers of `before`. -/
structure Ready (s : StateMachine) (before : List Transaction) (tx : Transaction) : Prop where
  nonce : tx.nonce.toNat = s.nonce tx.sender + sentBy before tx.sender
  next : tx.nonce.toNat + 1 < 2 ^ 64
  credit : ∀ recipient amount, tx.body.payment = some (recipient, amount) →
    s.balance recipient + paidTo before recipient + amount.toNat <
      2 ^ 256 + spentBy before recipient
  fees : pooledFees before + (feeAsU128 tx.fee).toNat < 2 ^ 128
  count : before.length + 1 < 2 ^ 32

variable {s : StateMachine} {before txs : List Transaction}

theorem Ready.congr {t : StateMachine} (ready : Ready s before tx)
    (nonce : ∀ a, t.nonce a = s.nonce a) (balance : ∀ a, t.balance a = s.balance a) :
    Ready t before tx where
  nonce := by rw [nonce, ready.nonce]
  next := ready.next
  credit recipient amount body := by
    rw [balance]
    exact ready.credit recipient amount body
  fees := ready.fees
  count := ready.count

theorem Carried.refl (sound : Sound A s) : Carried A s [] ⟨s, 0, 0, 0⟩ where
  sound := sound
  nonce _ _ := rfl
  balance _ _ := rfl
  stake _ _ := rfl
  known _ _ known := known
  active := rfl
  fees := rfl
  clean := rfl
  counted := rfl

theorem Carried.step (carried : Carried A s before p) (done : Transferred A p q tx recipient amount)
    (body : tx.body = .transfer recipient amount) : Carried A s (before ++ [tx]) q where
  sound := done.sound
  nonce a ha := by rw [done.nonce a ha, carried.nonce a ha, sentBy_concat, Nat.add_assoc]
  balance a ha := by
    have now := done.balance a ha
    have earlier := carried.balance a ha
    have paid : tx.paid a = if a = recipient then amount.toNat else 0 := by
      rw [Transaction.paid, body]
      rfl
    rw [spentBy_concat, paidTo_concat, paid]
    omega
  stake a ha := (done.stake a ha).trans (carried.stake a ha)
  known a ha known := done.known a ha (carried.known a ha known)
  active := done.active.trans carried.active
  fees := by rw [done.fees, carried.fees, pooledFees_concat]
  clean := done.failed.trans carried.clean
  counted := by rw [done.counted, carried.counted, List.length_append, List.length_singleton]

theorem Carried.executed (carried : Carried A s before p) (within : tx.Within A) (third : tx.ToThird)
    (known : s.account tx.sender ≠ none) (ran : applyTx chainId p tx = .ok q)
    (clean : q.failedCount = 0) : Carried A s (before ++ [tx]) q := by
  obtain ⟨recipient, amount, body, other⟩ := third
  obtain ⟨x, found⟩ := Option.ne_none_iff_exists'.mp (carried.known _ within.1 known)
  have outcome := applyTx_outcome ran
  obtain ⟨chain, accepts⟩ := (outcome.clean_iff found).mp (clean.trans carried.clean.symm)
  exact carried.step (outcome.transferred carried.sound within body other chain found accepts) body

theorem Carried.executes_iff (carried : Carried A s before p) (within : tx.Within A)
    (third : tx.ToThird) (chain : tx.chainId = chainId) (known : s.account tx.sender ≠ none)
    (rich : spentBy before tx.sender + tx.debit ≤ s.balance tx.sender) :
    (∃ q, applyTx chainId p tx = .ok q ∧ q.failedCount = 0) ↔ Ready s before tx := by
  obtain ⟨recipient, amount, body, other⟩ := id third
  have payment : tx.body.payment = some (recipient, amount) := by rw [body]; rfl
  have member := within.recipient payment
  obtain ⟨x, found⟩ := Option.ne_none_iff_exists'.mp (carried.known _ within.1 known)
  have nonce := (nonce_of_known found).symm.trans (carried.nonce _ within.1)
  have balance : p.machine.balance tx.sender = x.balance.toNat := by rw [StateMachine.balance, found]; rfl
  have account := carried.balance _ within.1
  have credit := carried.balance _ member
  have affordable : tx.debit ≤ x.balance.toNat := by omega
  have room (count : before.length + 1 < 2 ^ 32) :
      p.txCount.toNat + p.failedCount.toNat + 1 < 2 ^ 32 := by
    rw [carried.clean, carried.counted]
    simpa using count
  constructor
  · rintro ⟨q, ran, clean⟩
    have count : before.length + 1 < 2 ^ 32 := by
      have counter := (carried.executed within third known ran clean).counted
      rw [List.length_append, List.length_singleton] at counter
      have bound := q.txCount.isLt
      omega
    obtain ⟨_, same, next, credits, fees⟩ := (applyTx_transfer_iff carried.sound within (room count)
      body found affordable).mp ⟨q, ran, clean.trans carried.clean.symm⟩
    refine ⟨?_, ?_, ?_, ?_, count⟩
    · rw [← same, nonce]
    · rw [← same]
      exact next
    · intro r value paid
      cases payment.symm.trans paid
      omega
    · rw [← carried.fees]
      exact fees
  · intro ready
    have same : x.nonce = tx.nonce := BitVec.eq_of_toNat_eq (by rw [nonce, ready.nonce])
    have credits := ready.credit recipient amount payment
    obtain ⟨q, ran, clean⟩ := (applyTx_transfer_iff carried.sound within (room ready.count) body found
      affordable).mpr ⟨chain, same, same ▸ ready.next, by omega, carried.fees ▸ ready.fees⟩
    exact ⟨q, ran, clean.trans carried.clean⟩

theorem applyTxs_failed_le {txs : List Transaction} (ran : applyTxs chainId p txs = .ok q) :
    p.failedCount.toNat ≤ q.failedCount.toNat := by
  refine foldlM_invariant (P := fun q => p.failedCount.toNat ≤ q.failedCount.toNat) ?_ (Nat.le_refl _) ran
  intro q tx _ r before stepped
  exact before.trans (applyTx_outcome stepped).failed_le

theorem applyTxs_cons_clean : (∃ q, applyTxs chainId p (tx :: txs) = .ok q ∧ q.failedCount = 0) ↔
    ∃ r, (applyTx chainId p tx = .ok r ∧ r.failedCount = 0) ∧
      ∃ q, applyTxs chainId r txs = .ok q ∧ q.failedCount = 0 := by
  constructor
  · rintro ⟨q, ran, clean⟩
    rw [applyTxs_cons] at ran
    obtain ⟨r, stepped, later⟩ := bind_eq_ok.mp ran
    have low := applyTxs_failed_le later
    rw [clean] at low
    exact ⟨r, ⟨stepped, BitVec.eq_of_toNat_eq (Nat.le_zero.mp low)⟩, q, later, clean⟩
  · rintro ⟨r, ⟨stepped, _⟩, q, later, clean⟩
    refine ⟨q, ?_, clean⟩
    rw [applyTxs_cons, stepped]
    exact later

section Loop

theorem Carried.ran (carried : Carried A s before p) (within : ∀ tx ∈ txs, tx.Within A)
    (third : ∀ tx ∈ txs, tx.ToThird) (known : ∀ tx ∈ txs, s.account tx.sender ≠ none)
    (ran : applyTxs chainId p txs = .ok q) (clean : q.failedCount = 0) :
    Carried A s (before ++ txs) q := by
  induction txs generalizing before p with
  | nil =>
    cases ran
    rw [List.append_nil]
    exact carried
  | cons tx txs ih =>
    obtain ⟨r, ⟨stepped, cleanFirst⟩, q', later, cleanLast⟩ := applyTxs_cons_clean.mp ⟨q, ran, clean⟩
    rw [applyTxs_cons, stepped, ok_bind] at ran
    have after := carried.executed (within tx List.mem_cons_self) (third tx List.mem_cons_self)
      (known tx List.mem_cons_self) stepped cleanFirst
    rw [show before ++ tx :: txs = before ++ [tx] ++ txs by simp]
    exact ih after (fun tx member => within tx (List.mem_cons_of_mem _ member))
      (fun tx member => third tx (List.mem_cons_of_mem _ member))
      (fun tx member => known tx (List.mem_cons_of_mem _ member)) ran

/-- A loop executes all its transfers exactly if each is ready when its turn comes. -/
theorem Carried.execute_iff (carried : Carried A s before p) (within : ∀ tx ∈ txs, tx.Within A)
    (third : ∀ tx ∈ txs, tx.ToThird) (chain : ∀ tx ∈ txs, tx.chainId = chainId)
    (known : ∀ tx ∈ txs, s.account tx.sender ≠ none)
    (rich : ∀ tx ∈ txs, spentBy (before ++ txs) tx.sender ≤ s.balance tx.sender) :
    (∃ q, applyTxs chainId p txs = .ok q ∧ q.failedCount = 0) ↔
      ∀ pre tx post, txs = pre ++ tx :: post → Ready s (before ++ pre) tx := by
  induction txs generalizing before p with
  | nil => exact iff_of_true ⟨p, rfl, carried.clean⟩ (by simp)
  | cons tx txs ih =>
    have affordable : spentBy before tx.sender + tx.debit ≤ s.balance tx.sender := by
      have whole := rich tx List.mem_cons_self
      rw [spentBy_append, spentBy_cons] at whole
      omega
    have first : (∃ r, applyTx chainId p tx = .ok r ∧ r.failedCount = 0) ↔ Ready s before tx :=
      carried.executes_iff (within tx List.mem_cons_self) (third tx List.mem_cons_self)
        (chain tx List.mem_cons_self) (known tx List.mem_cons_self) affordable
    have rest {r : Progress} (stepped : applyTx chainId p tx = .ok r ∧ r.failedCount = 0) :
        (∃ q, applyTxs chainId r txs = .ok q ∧ q.failedCount = 0) ↔
          ∀ pre other post, txs = pre ++ other :: post → Ready s (before ++ [tx] ++ pre) other := by
      have after := carried.executed (within tx List.mem_cons_self) (third tx List.mem_cons_self)
        (known tx List.mem_cons_self) stepped.1 stepped.2
      refine ih after (fun tx member => within tx (List.mem_cons_of_mem _ member))
        (fun tx member => third tx (List.mem_cons_of_mem _ member))
        (fun tx member => chain tx (List.mem_cons_of_mem _ member))
        (fun tx member => known tx (List.mem_cons_of_mem _ member)) fun other member => ?_
      simpa using rich other (List.mem_cons_of_mem _ member)
    rw [applyTxs_cons_clean]
    constructor
    · rintro ⟨r, stepped, later⟩ pre other post same
      cases pre with
      | nil =>
        cases same
        simpa using first.mp ⟨r, stepped⟩
      | cons _ pre =>
        cases same
        simpa using (rest stepped).mp later pre other post rfl
    · intro ready
      obtain ⟨r, stepped⟩ := first.mpr (by simpa using ready [] tx txs rfl)
      refine ⟨r, stepped, (rest stepped).mpr fun pre other post same => ?_⟩
      simpa using ready (tx :: pre) other post (by rw [same]; rfl)

end Loop

/-- A block of transfers executes them all exactly if each is ready when its turn comes and the
products of the distribution do not overflow. -/
theorem applyBlock_transfers_iff {block : Block} (sound : Sound A s)
    (within : ∀ tx ∈ block.body.transactions, tx.Within A)
    (third : ∀ tx ∈ block.body.transactions, tx.ToThird)
    (chain : ∀ tx ∈ block.body.transactions, tx.chainId = block.header.chainId)
    (known : ∀ tx ∈ block.body.transactions, s.account tx.sender ≠ none)
    (rich : ∀ tx ∈ block.body.transactions,
      spentBy block.body.transactions tx.sender ≤ s.balance tx.sender) :
    (∃ receipt t, s.applyBlock block = .ok (receipt, t) ∧ receipt.failedCount = 0) ↔
      (∀ pre tx post, block.body.transactions = pre ++ tx :: post → Ready s pre tx) ∧
      ∀ a ∈ s.activeSet, pooledFees block.body.transactions * s.stake a < 2 ^ 256 := by
  have start := Carried.refl sound
  have loop := start.execute_iff within third chain known rich
  have products {p : Progress}
      (looped : applyTxs block.header.chainId ⟨s, 0, 0, 0⟩ block.body.transactions = .ok p)
      (clean : p.failedCount = 0) (a : Address) (active : a ∈ s.activeSet) :
      p.blockFees.toNat * p.machine.stake a =
        pooledFees block.body.transactions * s.stake a := by
    have carried := start.ran within third known looped clean
    rw [carried.fees, carried.stake a (sound.active a active), List.nil_append]
  constructor
  · rintro ⟨receipt, t, applied, clean⟩
    obtain ⟨p, looped, _, _, _, rfl⟩ := applyBlock_spec sound within applied
    obtain ⟨p', looped', fits⟩ := (applyBlock_returns sound within).mp ⟨_, applied⟩
    cases looped.symm.trans looped'
    refine ⟨loop.mp ⟨p, looped, clean⟩, fun a active => ?_⟩
    rw [← products looped clean a active]
    exact fits a active
  · rintro ⟨ready, fits⟩
    obtain ⟨p, looped, clean⟩ := loop.mpr ready
    obtain ⟨⟨receipt, t⟩, applied⟩ := (applyBlock_returns sound within).mpr
      ⟨p, looped, fun a active => by rw [products looped clean a active]; exact fits a active⟩
    obtain ⟨p', looped', _, _, _, rfl⟩ := applyBlock_spec sound within applied
    cases looped.symm.trans looped'
    exact ⟨_, t, applied, clean⟩

end StateMachine

end Mononium
