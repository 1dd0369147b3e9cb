import Mononium.Core.Runs

/-! Where value goes. A round of the block loop moves value between accounts, stakes
and the fee pool; a registration takes its deposit out of circulation, and three
further ways for value to disappear are named by `Leaks`. Nothing adds value. -/
namespace Mononium

open Rust Scale

def TxBody.isRegistration : TxBody → Bool
  | .registerValidator _ | .registerAndStake _ _ => true
  | _ => false

theorem TxBody.deposit_eq (body : TxBody) :
    body.deposit = antiSpamDeposit.toNat * body.isRegistration.toNat := by
  cases body <;> simp [deposit, isRegistration]

namespace StateMachine

section Accounting

variable [Blake3] {A : Finset Address} {s t : StateMachine}

/-- The ways in which a round loses value. -/
inductive Leaks (chainId : U64) (s : StateMachine) (tx : Transaction) : Prop
  | selfPayment {sender : Account} (chain : tx.chainId = chainId)
      (known : s.account tx.sender = some sender) (accepts : Accepts s sender tx)
      (positive : 0 < tx.selfPaid)
  | truncated {sender : Account} (chain : tx.chainId = chainId)
      (known : s.account tx.sender = some sender) (unspoiled : ¬Spoils s sender tx)
      (paid : tx.fee.toNat ≤ sender.balance.toNat) (wide : 2 ^ 128 ≤ tx.fee.toNat)
  | spoiled {sender : Account} (chain : tx.chainId = chainId)
      (known : s.account tx.sender = some sender) (spoils : Spoils s sender tx)
      (paid : tx.debit + tx.fee.toNat ≤ sender.balance.toNat) (positive : 0 < tx.debit)

theorem Leaks.sender {chainId : U64} {tx : Transaction} (leaks : Leaks chainId s tx) :
    tx.chainId = chainId ∧ ∃ sender, s.account tx.sender = some sender := by
  cases leaks with
  | selfPayment chain known _ _ => exact ⟨chain, _, known⟩
  | truncated chain known _ _ _ => exact ⟨chain, _, known⟩
  | spoiled chain known _ _ _ => exact ⟨chain, _, known⟩

theorem leaks_iff {chainId : U64} {tx : Transaction} {sender : Account}
    (chain : tx.chainId = chainId) (known : s.account tx.sender = some sender) :
    Leaks chainId s tx ↔ Accepts s sender tx ∧ 0 < tx.selfPaid ∨
      ¬Spoils s sender tx ∧ tx.fee.toNat ≤ sender.balance.toNat ∧ 2 ^ 128 ≤ tx.fee.toNat ∨
      Spoils s sender tx ∧ tx.debit + tx.fee.toNat ≤ sender.balance.toNat ∧ 0 < tx.debit := by
  constructor
  · intro leaks
    cases leaks with
    | selfPayment _ same accepts positive =>
      cases known.symm.trans same
      exact .inl ⟨accepts, positive⟩
    | truncated _ same unspoiled paid wide =>
      cases known.symm.trans same
      exact .inr (.inl ⟨unspoiled, paid, wide⟩)
    | spoiled _ same spoils paid positive =>
      cases known.symm.trans same
      exact .inr (.inr ⟨spoils, paid, positive⟩)
  · rintro (⟨accepts, positive⟩ | ⟨unspoiled, paid, wide⟩ | ⟨spoils, paid, positive⟩)
    · exact .selfPayment chain known accepts positive
    · exact .truncated chain known unspoiled paid wide
    · exact .spoiled chain known spoils paid positive

theorem balance_of_known {a : Address} {x : Account} (known : s.account a = some x) :
    s.balance a = x.balance.toNat := by
  rw [balance, known]
  rfl

/-- A handler puts into the store what it takes from the sender, less the deposit. -/
theorem Effect.total {tx : Transaction} (effect : Effect s tx t) (sound : Sound A s)
    (within : tx.Within A) :
    t.total A + tx.body.deposit = s.total A + tx.body.price ∧
      t.balance tx.sender = s.balance tx.sender + tx.selfPaid := by
  have apart := sound.apart
  have entry {v : Address} {e : ValidatorEntry} (hv : v ∈ A) :
      (s.setValidator v e).balance tx.sender = s.balance tx.sender := by
    rw [StateMachine.balance, StateMachine.balance, account_setValidator apart hv within.1]
  cases effect with
  | @pays recipient amount credited body sum =>
    have hr := within.recipient body
    have written := total_setAccount apart s hr
      { (s.account recipient).getD (Account.new 0) with balance := credited }
    have price : tx.body.price = amount.toNat ∧ tx.body.deposit = 0 := by
      unfold TxBody.payment at body
      split at body
      all_goals simp_all [TxBody.price, TxBody.deposit]
    refine ⟨by dsimp only at written ⊢; omega, ?_⟩
    rw [Transaction.selfPaid, body, StateMachine.balance, account_setAccount apart hr within.1]
    by_cases self : recipient = tx.sender
    · simp [self, sum, StateMachine.balance]
    · simp [self, Ne.symm self, StateMachine.balance]
  | @registers publicKey body unknown =>
    have written := total_setValidator apart s within.1 ⟨tx.sender, publicKey, 0, .registered, 0⟩
    have none : s.stake tx.sender = 0 := by simp [stake, unknown]
    refine ⟨?_, by simp [entry within.1, Transaction.selfPaid, TxBody.payment, body]⟩
    simp only [TxBody.deposit, TxBody.price, body]
    simp only [none, show (0 : U256).toNat = 0 from rfl] at written
    omega
  | @stakes v amount stake e body found sum =>
    have hv := within.validator (.inl body)
    have written := total_setValidator apart s hv (stakedEntry e stake)
    rw [stake_of_found found, show (stakedEntry e stake).stake = stake from rfl, sum] at written
    refine ⟨?_, by simp [entry hv, Transaction.selfPaid, TxBody.payment, body]⟩
    simp only [TxBody.deposit, TxBody.price, body]
    omega
  | @founds v amount body unknown =>
    have written := total_setValidator apart s within.1
      ⟨tx.sender, FixedBytes.replicate 897 0, amount, .staked amount, 0⟩
    have none : s.stake tx.sender = 0 := by simp [stake, unknown]
    refine ⟨?_, by simp [entry within.1, Transaction.selfPaid, TxBody.payment, body]⟩
    simp only [TxBody.deposit, TxBody.price, body]
    simp only [none] at written
    omega
  | @unstakes v amount pending release e body found sum covered =>
    have hv := within.validator (.inr body)
    have written := total_setValidator apart s hv { e with status := .unstaking release pending }
    rw [stake_of_found found] at written
    dsimp only at written
    refine ⟨?_, by simp [entry hv, Transaction.selfPaid, TxBody.payment, body]⟩
    simp only [TxBody.deposit, TxBody.price, body]
    omega
  | charges body =>
    unfold TxBody.isGovernance at body
    split at body
    next same => simp [TxBody.deposit, TxBody.price, Transaction.selfPaid, TxBody.payment, same]
    next same => simp [TxBody.deposit, TxBody.price, Transaction.selfPaid, TxBody.payment, same]
    next same => simp [TxBody.deposit, TxBody.price, Transaction.selfPaid, TxBody.payment, same]
    next => cases body

/-- The balance of a round, with the pool of fees and what the round loses. -/
theorem Outcome.accounting {chainId : U64} {p q : Progress} {tx : Transaction}
    (outcome : Outcome chainId p tx q) (sound : Sound A p.machine) (within : tx.Within A) :
    ∃ leak, q.machine.total A + q.blockFees.toNat +
          (if q.txCount = p.txCount then 0 else tx.body.deposit) + leak =
        p.machine.total A + p.blockFees.toNat ∧
      (leak = 0 ↔ ¬Leaks chainId p.machine tx) := by
  have apart := sound.apart
  have pool := feeAsU128_toNat tx.fee
  have debit : tx.debit = tx.fee.toNat + tx.body.price := rfl
  cases outcome with
  | skipped foreign _ =>
    refine ⟨0, by simp, iff_of_true rfl ?_⟩
    intro leaks
    obtain ⟨chain, sender, known⟩ := leaks.sender
    exact not_exists_sender (P := fun _ => True) foreign ⟨sender, chain, known, trivial⟩
  | @executed sender after machine fees count chain known accepts charged effect pooled counted =>
    obtain ⟨moved, held⟩ := effect.total sound within
    have written := total_setAccount apart machine within.1 after
    have fresh : count ≠ p.txCount := fun same => by rw [same] at counted; omega
    have unspoiled : ¬Spoils p.machine sender tx := fun spoils => spoils.not_accepts accepts
    have affords := accepts.affords.2
    have paid := charged.balance
    rw [balance_of_known known] at held
    rw [leaks_iff chain known]
    refine ⟨tx.selfPaid + (tx.fee.toNat - (feeAsU128 tx.fee).toNat), ?_, ?_⟩
    · rw [if_neg fresh]
      dsimp only
      omega
    · simp only [accepts, unspoiled, true_and, not_false_eq_true, false_and, or_false]
      omega
  | @rejected sender balance fees failed chain known refuses unspoiled paid pooled _ =>
    have written := total_setAccount apart p.machine within.1 { sender with balance }
    rw [balance_of_known known] at written
    rw [leaks_iff chain known]
    refine ⟨tx.fee.toNat - (feeAsU128 tx.fee).toNat, ?_, ?_⟩
    · dsimp only at written ⊢
      rw [if_pos rfl]
      omega
    · simp only [refuses, unspoiled, true_and, not_false_eq_true, false_and, or_false, false_or]
      omega
  | unpaid chain known refuses unspoiled poor _ =>
    refine ⟨0, by simp, iff_of_true rfl ?_⟩
    rw [leaks_iff chain known]
    simp only [refuses, unspoiled, true_and, not_false_eq_true, false_and, or_false, false_or]
    omega
  | @spoiled sender after balance fees failed chain known spoils charged paid pooled _ =>
    have written := total_setAccount apart p.machine within.1 { after with balance }
    have first := charged.balance
    rw [balance_of_known known] at written
    rw [leaks_iff chain known]
    refine ⟨tx.debit + (tx.fee.toNat - (feeAsU128 tx.fee).toNat), ?_, ?_⟩
    · dsimp only at written ⊢
      rw [if_pos rfl]
      omega
    · simp only [spoils, spoils.not_accepts, true_and, not_true_eq_false, false_and, false_or]
      omega
  | spoiledUnpaid chain known spoils poor _ =>
    refine ⟨0, by simp, iff_of_true rfl ?_⟩
    rw [leaks_iff chain known]
    simp only [spoils, spoils.not_accepts, true_and, not_true_eq_false, false_and, false_or]
    omega

def registrations (chainId : U64) : Progress → List Transaction → Nat
  | _, [] => 0
  | p, tx :: txs =>
    match applyTx chainId p tx with
    | .ok q =>
      (if q.txCount = p.txCount then 0 else tx.body.isRegistration.toNat) + registrations chainId q txs
    | .error _ => 0

theorem applyTxs_accounting {chainId : U64} {txs : List Transaction} {p q : Progress}
    (sound : Sound A p.machine) (within : ∀ tx ∈ txs, tx.Within A)
    (h : applyTxs chainId p txs = .ok q) :
    ∃ leak, q.machine.total A + q.blockFees.toNat +
          antiSpamDeposit.toNat * registrations chainId p txs + leak =
        p.machine.total A + p.blockFees.toNat ∧
      (leak = 0 ↔ ∀ r tx, ComesTo chainId p txs r tx → ¬Leaks chainId r.machine tx) := by
  induction txs generalizing p with
  | nil =>
    cases h
    refine ⟨0, by simp [registrations], iff_of_true rfl ?_⟩
    intro r tx comes
    cases comes
  | cons tx txs ih =>
    rw [applyTxs_cons] at h
    obtain ⟨next, first, rest⟩ := bind_eq_ok.mp h
    have here := within tx List.mem_cons_self
    have outcome := applyTx_outcome first
    obtain ⟨leak, balanced, exact_⟩ := outcome.accounting sound here
    obtain ⟨later, balancedLater, exactLater⟩ := ih (outcome.sound sound here)
      (fun tx member => within tx (List.mem_cons_of_mem _ member)) rest
    rw [forall_comesTo_cons (P := fun r tx => ¬Leaks chainId r.machine tx) first, ← exact_,
      ← exactLater]
    refine ⟨leak + later, ?_, by omega⟩
    simp only [registrations, first, Nat.mul_add]
    rw [TxBody.deposit_eq] at balanced
    split at balanced
    next same => simp only [same, if_true] at balanced ⊢; omega
    next other => simp only [other, if_false] at balanced ⊢; omega

/-- A sound machine with distinct active validators whose value fits a word. -/
structure Solvent (A : Finset Address) (s : StateMachine) : Prop where
  sound : Sound A s
  distinct : s.activeSet.Nodup
  fits : s.total A < 2 ^ 256

theorem applyBlock_total_le {block : Block} {receipt : BlockReceipt} (solvent : Solvent A s)
    (within : ∀ tx ∈ block.body.transactions, tx.Within A)
    (h : s.applyBlock block = .ok (receipt, t)) : t.total A ≤ s.total A := by
  obtain ⟨p, looped, sound, active, credited, -⟩ := applyBlock_spec solvent.sound within h
  obtain ⟨leak, balanced, -⟩ := applyTxs_accounting solvent.sound within looped
  have gained := credited.total_le
  dsimp only at balanced
  rw [show (0 : U128).toNat = 0 from rfl, Nat.add_zero] at balanced
  have fits := solvent.fits
  rw [sum_feeShare sound, amount_payouts sound (active ▸ solvent.distinct) (by omega)] at gained
  split at gained <;> omega

/-- No operation creates value, whatever it does. -/
theorem step_total_le {op : Op} (solvent : Solvent A s) (within : op.Within A)
    (elective : op.Elective) (h : s.step op = .ok t) : t.total A ≤ s.total A := by
  have sound := solvent.sound
  cases step_cases h with
  | block applied => exact applyBlock_total_le solvent within applied
  | slash applied => exact (applySlash_spec sound within.1 within.2.1 within.2.2 applied).2.2
  | cooldown applied => exact (processUnstakingCooldown_adjusted sound within applied).total_le
  | thaw v era => exact (processThaw_adjusted v era sound within).total_le
  | thawAll addrs era => exact (thawAll_adjusted addrs era sound within).total_le
  | election candidates max era => exact (runElection_adjusted candidates max era sound within).1.total_le
  | setActiveSet set => exact elective.elim
  | stateRoot read =>
    obtain ⟨-, ledger, -⟩ := sound.rooted read
    exact Nat.le_of_eq (Finset.sum_congr rfl fun a ha => by
      rw [balance, balance, stake, stake, ledger.account a ha, ledger.entry a ha])

theorem step_solvent {op : Op} (solvent : Solvent A s) (within : op.Within A)
    (elective : op.Elective) (h : s.step op = .ok t) : Solvent A t :=
  ⟨step_sound solvent.sound within h,
    step_distinct solvent.sound solvent.distinct within elective h,
    Nat.lt_of_le_of_lt (step_total_le solvent within elective h) solvent.fits⟩

theorem run_solvent {ops : List Op} (solvent : Solvent A s) (within : ∀ op ∈ ops, op.Within A)
    (elective : ∀ op ∈ ops, op.Elective) (h : s.run ops = .ok t) : Solvent A t :=
  foldlM_invariant (P := fun s => Solvent A s)
    (fun _ op member _ solvent stepped =>
      step_solvent solvent (within op member) (elective op member) stepped) solvent h

theorem new_solvent {accounts : List (Address × Account)} (apart : KeysApart A)
    (genesis : ∀ p ∈ accounts, p.1 ∈ A)
    (supply : (accounts.map fun p => p.2.balance.toNat).sum < 2 ^ 256) :
    Solvent A (new accounts) := by
  obtain ⟨sound, active, le⟩ := new_sound apart genesis
  exact ⟨sound, by rw [active]; exact List.nodup_nil, Nat.lt_of_le_of_lt le supply⟩

/-- Over a run that starts from accounts whose balances sum to less than `2 ^ 256`, the
sum of all balances and stakes never grows. -/
theorem run_never_inflates {accounts : List (Address × Account)} {ops : List Op} {op : Op}
    (apart : KeysApart A) (genesis : ∀ p ∈ accounts, p.1 ∈ A)
    (supply : (accounts.map fun p => p.2.balance.toNat).sum < 2 ^ 256)
    (within : ∀ o ∈ ops ++ [op], o.Within A) (elective : ∀ o ∈ ops ++ [op], o.Elective)
    (ran : run (new accounts) ops = .ok s) (stepped : s.step op = .ok t) :
    t.total A ≤ s.total A := by
  have solvent := run_solvent (new_solvent apart genesis supply)
    (fun o h => within o (List.mem_append_left _ h))
    (fun o h => elective o (List.mem_append_left _ h)) ran
  exact step_total_le solvent (within op (by simp)) (elective op (by simp)) stepped

end Accounting

section Sample

attribute [local instance] prefixBlake3

theorem transfer_never_inflates :
    ∃ s t, run (new [(alice, Account.new 1000)]) [] = .ok s ∧
      s.step (.block (testBlock [transferTx alice bob 10 0])) = .ok t ∧
      t.total {alice, bob} ≤ s.total {alice, bob} := by
  have apart : KeysApart {alice, bob} := by decide
  have genesis : ∀ p ∈ [(alice, Account.new 1000)], p.1 ∈ ({alice, bob} : Finset Address) := by decide
  have within : ∀ tx ∈ [transferTx alice bob 10 0], tx.Within {alice, bob} := by decide
  obtain ⟨⟨receipt, t⟩, applied⟩ : Returns ((new [(alice, Account.new 1000)]).applyBlock
      (testBlock [transferTx alice bob 10 0])) :=
    applyBlock_returns_idle (new_sound apart genesis).1 within rfl rfl
  have stepped : step (new [(alice, Account.new 1000)])
      (.block (testBlock [transferTx alice bob 10 0])) = .ok t := by
    rw [step, applied]
    rfl
  have ran : run (new [(alice, Account.new 1000)]) [] = .ok (new [(alice, Account.new 1000)]) := rfl
  refine ⟨_, t, ran, stepped, run_never_inflates apart genesis (by decide) ?_ ?_ ran stepped⟩
  · intro op member
    cases List.mem_singleton.mp member
    exact within
  · intro op member
    cases List.mem_singleton.mp member
    exact trivial

end Sample

section Books

variable [Blake3] {A : Finset Address} {s t : StateMachine}

/-- The sum a block is expected to leave: deposits go, and the fees go when nobody in
the active set has stake to claim them. -/
def Conserves (A : Finset Address) (s t : StateMachine) (block : Block) (receipt : BlockReceipt) :
    Prop :=
  t.total A + antiSpamDeposit.toNat *
      registrations block.header.chainId ⟨s, 0, 0, 0⟩ block.body.transactions +
    (if t.Unstaked then receipt.totalFees.toNat else 0) = s.total A

theorem Solvent.conserves_iff {block : Block} {receipt : BlockReceipt} (solvent : Solvent A s)
    (within : ∀ tx ∈ block.body.transactions, tx.Within A)
    (h : s.applyBlock block = .ok (receipt, t)) :
    Conserves A s t block receipt ↔
      ∀ r tx, ComesTo block.header.chainId ⟨s, 0, 0, 0⟩ block.body.transactions r tx →
        ¬Leaks block.header.chainId r.machine tx := by
  obtain ⟨p, looped, sound, active, credited, rfl⟩ := applyBlock_spec solvent.sound within h
  obtain ⟨leak, balanced, exact_⟩ := applyTxs_accounting solvent.sound within looped
  dsimp only at balanced
  rw [show (0 : U128).toNat = 0 from rfl, Nat.add_zero] at balanced
  have fits := solvent.fits
  have paid := sum_feeShare sound p.blockFees
  rw [amount_payouts sound (active ▸ solvent.distinct) (by omega)] at paid
  have gained := credited.total_eq (by rw [paid]; split <;> omega)
  have unstaked : t.Unstaked ↔ p.machine.Unstaked := by
    rw [Unstaked, Unstaked, credited.active]
    exact forall₂_congr fun a member => by rw [credited.stake (sound.active a member)]
  rw [← exact_, Conserves]
  dsimp only
  simp only [unstaked]
  rw [paid] at gained
  split at gained
  next none => rw [if_pos none]; omega
  next some_ => rw [if_neg some_]; omega

/-- A block keeps the books exactly when no transaction, in the state in which the loop
comes to it, leaks. -/
theorem applyBlock_conserves_iff {accounts : List (Address × Account)} {block : Block}
    {receipt : BlockReceipt} (reached : ElectiveReachable A accounts s)
    (fits : s.total A < 2 ^ 256) (within : ∀ tx ∈ block.body.transactions, tx.Within A)
    (h : s.applyBlock block = .ok (receipt, t)) :
    Conserves A s t block receipt ↔
      ∀ r tx, ComesTo block.header.chainId ⟨s, 0, 0, 0⟩ block.body.transactions r tx →
        ¬Leaks block.header.chainId r.machine tx :=
  Solvent.conserves_iff ⟨reached.sound.1, reached.sound.2, fits⟩ within h

theorem new_electiveReachable {accounts : List (Address × Account)} (apart : KeysApart A)
    (genesis : ∀ p ∈ accounts, p.1 ∈ A) : ElectiveReachable A accounts (new accounts) :=
  ⟨apart, genesis, [], by simp, rfl⟩

end Books

section Sample

attribute [local instance] prefixBlake3

theorem transfer_conserves :
    ∃ receipt t, (new [(alice, Account.new 1000)]).applyBlock
        (testBlock [transferTx alice bob 10 0]) = .ok (receipt, t) ∧
      Conserves {alice, bob} (new [(alice, Account.new 1000)]) t
        (testBlock [transferTx alice bob 10 0]) receipt := by
  have reached : ElectiveReachable {alice, bob} [(alice, Account.new 1000)]
    (new [(alice, Account.new 1000)]) := new_electiveReachable (by decide) (by decide)
  have within : ∀ tx ∈ [transferTx alice bob 10 0], tx.Within {alice, bob} := by decide
  obtain ⟨⟨receipt, t⟩, applied⟩ : Returns ((new [(alice, Account.new 1000)]).applyBlock
      (testBlock [transferTx alice bob 10 0])) :=
    applyBlock_returns_idle reached.sound.1 within rfl rfl
  refine ⟨receipt, t, applied,
    (applyBlock_conserves_iff reached (by decide) within applied).mpr ?_⟩
  intro r tx comes
  cases comes with
  | head =>
    have known : (new [(alice, Account.new 1000)]).account (transferTx alice bob 10 0).sender =
        some (Account.new 1000) := by decide
    refine (leaks_iff rfl known).not.mpr ?_
    have other : bob ≠ alice := by decide
    simp [transferTx, Spoils, Transaction.selfPaid, TxBody.payment, other]
  | tail first later => cases later

/-- A payment to oneself: the recipient's credit is overwritten by the sender's copy. -/
theorem selfTransfer_not_conserves :
    ∃ receipt t, ElectiveReachable {alice} [(alice, Account.new 1000)]
        (new [(alice, Account.new 1000)]) ∧
      (new [(alice, Account.new 1000)]).applyBlock
        (testBlock [transferTx alice alice 10 0]) = .ok (receipt, t) ∧
      ¬Conserves {alice} (new [(alice, Account.new 1000)]) t
        (testBlock [transferTx alice alice 10 0]) receipt := by
  have reached : ElectiveReachable {alice} [(alice, Account.new 1000)]
    (new [(alice, Account.new 1000)]) := new_electiveReachable (by decide) (by decide)
  have within : ∀ tx ∈ [transferTx alice alice 10 0], tx.Within {alice} := by decide
  obtain ⟨⟨receipt, t⟩, applied⟩ : Returns ((new [(alice, Account.new 1000)]).applyBlock
      (testBlock [transferTx alice alice 10 0])) :=
    applyBlock_returns_idle reached.sound.1 within rfl rfl
  refine ⟨receipt, t, reached, applied, fun conserves => ?_⟩
  have solvent : Solvent {alice} (new [(alice, Account.new 1000)]) :=
    ⟨reached.sound.1, reached.sound.2, by decide⟩
  have known : (new [(alice, Account.new 1000)]).account alice = some (Account.new 1000) := by
    decide
  exact (solvent.conserves_iff within applied).mp conserves _ _ .head
    (.selfPayment rfl known ⟨rfl, by decide⟩ (by decide))

end Sample

end StateMachine

end Mononium
