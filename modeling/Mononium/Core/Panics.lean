import Mononium.Core.Runs

/-! When a block panics. Each handler first checks some of its arguments, then adds up
what the sender has to pay with a plain addition, and only then compares the sum with
the balance. `Gate` is what is checked before the addition. -/
namespace Mononium

open Rust Scale

namespace StateMachine

theorem chargeFee_returns {s : StateMachine} {sender : Account} {fee : U256} {nonce : U64} :
    Returns (s.chargeFee sender fee nonce) ↔
      (sender.nonce = nonce → fee.toNat ≤ sender.balance.toNat → sender.nonce.toNat + 1 < 2 ^ 64) := by
  unfold chargeFee
  split
  next wrong => exact iff_of_true (returns_pure _) fun right => absurd right wrong
  next right =>
    rw [ne_eq, not_not] at right
    split
    next poor =>
      rw [BitVec.lt_def] at poor
      exact iff_of_true (returns_pure _) fun _ rich => by omega
    next rich =>
      rw [BitVec.lt_def, Nat.not_lt] at rich
      rw [returns_bind_of_forall fun _ _ => returns_pure _, add_returns]
      exact ⟨fun fits _ _ => fits, fun fits => fits right rich⟩

/-- The tail that the priced handlers share: add up, compare, charge. -/
theorem price_returns {sender : Account} {sum : Exec U256} {total : Nat} {poor : U256 → Executed}
    {rest : U256 → U64 → Exec Executed} {P : Prop}
    (value : ∀ debit, sum = .ok debit → debit.toNat = total)
    (after : ∀ balance nonce, Returns (rest balance nonce) ↔ P) :
    Returns (do
      let debit ← sum
      if sender.balance < debit then
        return poor debit
      let balance ← sub sender.balance debit
      let nextNonce ← add sender.nonce 1
      rest balance nextNonce) ↔
    Returns sum ∧ (total ≤ sender.balance.toNat → sender.nonce.toNat + 1 < 2 ^ 64 ∧ P) := by
  apply returns_bind_iff
  intro debit summed
  have same := value debit summed
  split
  next poor =>
    rw [BitVec.lt_def] at poor
    exact iff_of_true (returns_pure _) fun rich => by omega
  next rich =>
    rw [BitVec.lt_def, Nat.not_lt] at rich
    rw [returns_bind_iff (P := sender.nonce.toNat + 1 < 2 ^ 64 ∧ P), sub_returns]
    · exact ⟨fun fits _ => fits.2, fun fits => ⟨rich, fits (by omega)⟩⟩
    · intro balance _
      rw [returns_bind_iff (P := P) fun next _ => after balance next, add_returns]
      rfl

section

variable [Blake3] {A : Finset Address} {s : StateMachine} {sender : Account}

/-- The checks before the handler adds up what the sender pays. -/
def Gate (s : StateMachine) (sender : Account) (tx : Transaction) : Prop :=
  sender.nonce = tx.nonce ∧
  match tx.body with
  | .registerValidator _ => s.getValidator tx.sender = none
  | .stake v amount =>
    amount ≠ 0 ∧ ∃ e, s.getValidator v = some e ∧ e.status.isFrozenOrUnstaking = false
  | .registerAndStake v amount =>
    amount ≠ 0 ∧ v = tx.sender ∧ s.getValidator tx.sender = none
  | .unstake v amount =>
    amount ≠ 0 ∧ ∃ e, s.getValidator v = some e ∧ e.status.isFrozen = false ∧
      amount.toNat ≤ e.stake.toNat
  | _ => True

/-- The additions of a handler stay within their words. -/
def HandlerFits (s : StateMachine) (sender : Account) (tx : Transaction) : Prop :=
  Gate s sender tx → tx.debit < 2 ^ 256 ∧
    (tx.debit ≤ sender.balance.toNat → sender.nonce.toNat + 1 < 2 ^ 64 ∧
      ∀ recipient amount, tx.body.payment = some (recipient, amount) →
        s.balance recipient + amount.toNat < 2 ^ 256)

/-- The round charges the sender. -/
def Charges (s : StateMachine) (sender : Account) (tx : Transaction) : Prop :=
  (Spoils s sender tx ∧ tx.debit + tx.fee.toNat ≤ sender.balance.toNat) ∨
    (¬Spoils s sender tx ∧ tx.fee.toNat ≤ sender.balance.toNat)

/-- The additions of a round stay within their words. -/
def RoundFits (chainId : U64) (p : Progress) (tx : Transaction) : Prop :=
  ∀ sender, tx.chainId = chainId → p.machine.account tx.sender = some sender →
    HandlerFits p.machine sender tx ∧ (Charges p.machine sender tx →
      p.blockFees.toNat + (feeAsU128 tx.fee).toNat < 2 ^ 128)

theorem tryTransfer_returns {recipient : Address} {amount fee : U256} {nonce : U64}
    (sound : Sound A s) (member : recipient ∈ A) :
    Returns (s.tryTransfer sender recipient amount fee nonce) ↔
      (sender.nonce = nonce → amount.toNat + fee.toNat < 2 ^ 256 ∧
        (amount.toNat + fee.toNat ≤ sender.balance.toNat → sender.nonce.toNat + 1 < 2 ^ 64 ∧
          s.balance recipient + amount.toNat < 2 ^ 256)) := by
  unfold tryTransfer
  split
  next wrong => exact iff_of_true (returns_pure _) fun right => absurd right wrong
  next right =>
    rw [ne_eq, not_not] at right
    rw [forall_prop_of_true right, ← add_returns]
    refine price_returns (fun debit summed => add_eq_ok.mp summed) fun balance next => ?_
    rw [sound.getAccount member, ok_bind, returns_bind_of_forall fun _ _ => returns_pure _,
      add_returns]
    rfl

theorem applyRegisterValidator_returns {a : Address} {publicKey : FixedBytes 897} {fee : U256}
    {nonce : U64} :
    Returns (s.applyRegisterValidator sender a publicKey fee nonce) ↔
      (sender.nonce = nonce ∧ s.getValidator a = none →
        fee.toNat + antiSpamDeposit.toNat < 2 ^ 256 ∧
        (fee.toNat + antiSpamDeposit.toNat ≤ sender.balance.toNat →
          sender.nonce.toNat + 1 < 2 ^ 64 ∧ True)) := by
  unfold applyRegisterValidator
  split
  next known =>
    exact iff_of_true (returns_pure _) fun ⟨_, absent⟩ => by simp [absent] at known
  next unknown =>
    rw [Option.not_isSome_iff_eq_none] at unknown
    split
    next wrong => exact iff_of_true (returns_pure _) fun ⟨right, _⟩ => absurd right wrong
    next right =>
      rw [ne_eq, not_not] at right
      rw [forall_prop_of_true ⟨right, unknown⟩, ← add_returns]
      exact price_returns (fun debit summed => add_eq_ok.mp summed)
        fun _ _ => iff_of_true (returns_pure _) trivial

theorem applyStake_returns {v : Address} {amount fee : U256} {nonce : U64} :
    Returns (s.applyStake sender v amount fee nonce) ↔
      (sender.nonce = nonce ∧ amount ≠ 0 ∧
        (∃ e, s.getValidator v = some e ∧ e.status.isFrozenOrUnstaking = false) →
        fee.toNat + amount.toNat < 2 ^ 256 ∧
        (fee.toNat + amount.toNat ≤ sender.balance.toNat →
          sender.nonce.toNat + 1 < 2 ^ 64 ∧ True)) := by
  unfold applyStake
  split
  next wrong => exact iff_of_true (returns_pure _) fun ⟨right, _⟩ => absurd right wrong
  next right =>
    rw [ne_eq, not_not] at right
    cases found : s.getValidator v with
    | none => exact iff_of_true (returns_pure _) fun ⟨_, _, _, absent, _⟩ => by cases absent
    | some e =>
      dsimp only
      split
      next closed =>
        refine iff_of_true (returns_pure _) fun ⟨_, _, other, same, isOpen⟩ => ?_
        cases same
        simp [isOpen] at closed
      next isOpen =>
        split
        next zero => exact iff_of_true (returns_pure _) fun ⟨_, positive, _⟩ => absurd zero positive
        next positive =>
          rw [forall_prop_of_true ⟨right, positive, e, rfl, by simpa using isOpen⟩, ← add_returns]
          refine price_returns (fun debit summed => add_eq_ok.mp summed) fun balance next => ?_
          refine iff_of_true ?_ trivial
          cases checkedAdd e.stake amount <;> exact returns_pure _

theorem applyRegisterAndStake_returns {senderAddr v : Address} {amount fee : U256} {nonce : U64} :
    Returns (s.applyRegisterAndStake sender senderAddr v amount fee nonce) ↔
      (sender.nonce = nonce ∧ amount ≠ 0 ∧ v = senderAddr ∧ s.getValidator senderAddr = none →
        fee.toNat + antiSpamDeposit.toNat + amount.toNat < 2 ^ 256 ∧
        (fee.toNat + antiSpamDeposit.toNat + amount.toNat ≤ sender.balance.toNat →
          sender.nonce.toNat + 1 < 2 ^ 64 ∧ True)) := by
  unfold applyRegisterAndStake
  split
  next foreign => exact iff_of_true (returns_pure _) fun ⟨_, _, self, _⟩ => absurd self foreign
  next self =>
    rw [ne_eq, not_not] at self
    split
    next wrong => exact iff_of_true (returns_pure _) fun ⟨right, _⟩ => absurd right wrong
    next right =>
      rw [ne_eq, not_not] at right
      split
      next known =>
        exact iff_of_true (returns_pure _) fun ⟨_, _, _, absent⟩ => by simp [absent] at known
      next unknown =>
        rw [Option.not_isSome_iff_eq_none] at unknown
        split
        next zero => exact iff_of_true (returns_pure _) fun ⟨_, positive, _⟩ => absurd zero positive
        next positive =>
          rw [forall_prop_of_true ⟨right, positive, self, unknown⟩]
          have sums : Returns (add fee antiSpamDeposit >>= fun first => add first amount) ↔
              fee.toNat + antiSpamDeposit.toNat + amount.toNat < 2 ^ 256 := by
            rw [returns_bind_iff (P := fee.toNat + antiSpamDeposit.toNat + amount.toNat < 2 ^ 256),
              add_returns]
            · omega
            · intro first summed
              rw [add_returns, add_eq_ok.mp summed]
          rw [← sums, ← bind_assoc]
          refine price_returns (fun debit summed => ?_) fun _ _ => iff_of_true (returns_pure _) trivial
          obtain ⟨first, firstSum, secondSum⟩ := bind_eq_ok.mp summed
          rw [add_eq_ok.mp secondSum, add_eq_ok.mp firstSum]

theorem applyUnstake_returns {v : Address} {amount fee : U256} {nonce : U64} :
    Returns (s.applyUnstake sender v amount fee nonce 0) ↔
      (sender.nonce = nonce ∧ amount ≠ 0 ∧
        (∃ e, s.getValidator v = some e ∧ e.status.isFrozen = false ∧
          amount.toNat ≤ e.stake.toNat) →
        fee.toNat ≤ sender.balance.toNat → sender.nonce.toNat + 1 < 2 ^ 64) := by
  unfold applyUnstake
  split
  next wrong => exact iff_of_true (returns_pure _) fun ⟨right, _⟩ => absurd right wrong
  next right =>
    rw [ne_eq, not_not] at right
    cases found : s.getValidator v with
    | none => exact iff_of_true (returns_pure _) fun ⟨_, _, _, absent, _⟩ => by cases absent
    | some e =>
      dsimp only
      split
      next frozen =>
        refine iff_of_true (returns_pure _) fun ⟨_, _, other, same, unfrozen, _⟩ => ?_
        cases same
        simp [unfrozen] at frozen
      next unfrozen =>
        split
        next zero => exact iff_of_true (returns_pure _) fun ⟨_, positive, _⟩ => absurd zero positive
        next positive =>
          split
          next short =>
            refine iff_of_true (returns_pure _) fun ⟨_, _, other, same, _, covered⟩ => ?_
            cases same
            rw [BitVec.lt_def] at short
            omega
          next covered =>
            rw [BitVec.lt_def, Nat.not_lt] at covered
            rw [forall_prop_of_true ⟨right, positive, e, rfl, by simpa using unfrozen, covered⟩]
            split
            next poor =>
              rw [BitVec.lt_def] at poor
              exact iff_of_true (returns_pure _) fun rich => by omega
            next rich =>
              rw [BitVec.lt_def, Nat.not_lt] at rich
              rw [forall_prop_of_true rich, returns_bind_iff (P := sender.nonce.toNat + 1 < 2 ^ 64),
                sub_returns]
              · exact and_iff_right rich
              · intro balance _
                rw [returns_bind_of_forall, add_returns]
                · rfl
                · intro next _
                  rw [show add (0 : U64) unstakingCooldownEras = .ok unstakingCooldownEras by decide,
                    ok_bind]
                  split
                  · cases checkedAdd _ amount with
                    | none => exact returns_pure _
                    | some total =>
                      dsimp only
                      split <;> exact returns_pure _
                  · exact returns_pure _

theorem execute_returns {tx : Transaction} (sound : Sound A s) (within : tx.Within A) :
    Returns (s.execute sender tx) ↔ HandlerFits s sender tx := by
  have small := tx.fee.isLt
  have payment {recipient : Address} {amount : U256}
      (body : tx.body.payment = some (recipient, amount)) (gate : Gate s sender tx ↔ sender.nonce = tx.nonce)
      (price : tx.body.price = amount.toNat) :
      Returns (s.tryTransfer sender recipient amount tx.fee tx.nonce) ↔ HandlerFits s sender tx := by
    have only : (∀ r a, some (recipient, amount) = some (r, a) →
        s.balance r + a.toNat < 2 ^ 256) ↔ s.balance recipient + amount.toNat < 2 ^ 256 := by
      constructor
      · exact fun all => all recipient amount rfl
      · rintro fits r a ⟨⟩
        exact fits
    rw [tryTransfer_returns sound (within.recipient body), HandlerFits, gate, Transaction.debit, price,
      Nat.add_comm tx.fee.toNat, body, only]
  have stub (body : tx.body.payment = none) (gate : Gate s sender tx ↔ sender.nonce = tx.nonce)
      (price : tx.body.price = 0) :
      Returns (s.chargeFee sender tx.fee tx.nonce) ↔ HandlerFits s sender tx := by
    rw [chargeFee_returns, HandlerFits, gate, Transaction.debit, price, body]
    simp [small]
  unfold execute
  cases body : tx.body with
  | transfer recipient amount =>
    exact payment (by simp [body, TxBody.payment]) (by simp [Gate, body]) (by simp [body, TxBody.price])
  | burn target amount =>
    exact payment (by simp [body, TxBody.payment]) (by simp [Gate, body]) (by simp [body, TxBody.price])
  | propose id title description actions =>
    exact stub (by simp [body, TxBody.payment]) (by simp [Gate, body]) (by simp [body, TxBody.price])
  | vote id approve =>
    exact stub (by simp [body, TxBody.payment]) (by simp [Gate, body]) (by simp [body, TxBody.price])
  | cancelProposal id =>
    exact stub (by simp [body, TxBody.payment]) (by simp [Gate, body]) (by simp [body, TxBody.price])
  | registerValidator publicKey =>
    simp only [HandlerFits, Gate, Transaction.debit, TxBody.price, TxBody.payment, body]
    rw [applyRegisterValidator_returns]
    simp
  | stake v amount =>
    simp only [HandlerFits, Gate, Transaction.debit, TxBody.price, TxBody.payment, body]
    rw [applyStake_returns]
    simp
  | registerAndStake v amount =>
    simp only [HandlerFits, Gate, Transaction.debit, TxBody.price, TxBody.payment, body]
    rw [applyRegisterAndStake_returns]
    simp [Nat.add_assoc]
  | unstake v amount =>
    simp only [HandlerFits, Gate, Transaction.debit, TxBody.price, TxBody.payment, body]
    rw [applyUnstake_returns]
    simp [small]

variable {chainId : U64} {p q : Progress} {tx : Transaction}

theorem failure_returns (machine : StateMachine) (account : Account)
    (failing : Returns (add p.failedCount 1)) :
    Returns (do
      if tx.fee ≤ account.balance then
        let balance ← sub account.balance tx.fee
        return ({
          machine := machine.setAccount tx.sender { account with balance }
          blockFees := ← add p.blockFees (feeAsU128 tx.fee)
          txCount := p.txCount
          failedCount := ← add p.failedCount 1 } : Progress)
      else
        return { p with machine, failedCount := ← add p.failedCount 1 }) ↔
    (tx.fee.toNat ≤ account.balance.toNat →
      p.blockFees.toNat + (feeAsU128 tx.fee).toNat < 2 ^ 128) := by
  split
  next rich =>
    rw [BitVec.le_def] at rich
    rw [forall_prop_of_true rich, ← add_returns,
      returns_bind_iff (P := Returns (add p.blockFees (feeAsU128 tx.fee))), sub_returns,
      and_iff_right rich]
    intro balance _
    apply returns_bind_of_forall
    intro fees _
    exact (returns_bind_of_forall fun _ _ => returns_pure _).mpr failing
  next poor =>
    rw [BitVec.le_def] at poor
    refine iff_of_true ?_ fun rich => absurd rich poor
    exact (returns_bind_of_forall fun _ _ => returns_pure _).mpr failing

theorem applyTx_returns (sound : Sound A p.machine) (within : tx.Within A)
    (room : p.txCount.toNat + p.failedCount.toNat + 1 < 2 ^ 32) :
    Returns (applyTx chainId p tx) ↔ RoundFits chainId p tx := by
  have counter {count : U32} (low : count.toNat + 1 < 2 ^ 32) : Returns (add count 1) :=
    add_returns.mpr low
  have failing : Returns (add p.failedCount 1) := counter (by omega)
  have applying : Returns (add p.txCount 1) := counter (by omega)
  unfold applyTx
  split
  next foreign =>
    refine iff_of_true ?_ fun _ chain => absurd chain foreign
    exact (returns_bind_of_forall fun _ _ => returns_pure _).mpr failing
  next chain =>
    rw [ne_eq, not_not] at chain
    rw [sound.getAccount within.1, ok_bind]
    cases known : p.machine.account tx.sender with
    | none =>
      refine iff_of_true ?_ fun _ _ found => by simp [known] at found
      exact (returns_bind_of_forall fun _ _ => returns_pure _).mpr failing
    | some sender =>
      have single : RoundFits chainId p tx ↔ HandlerFits p.machine sender tx ∧
          (Charges p.machine sender tx →
            p.blockFees.toNat + (feeAsU128 tx.fee).toNat < 2 ^ 128) := by
        rw [RoundFits, known]
        simp [chain]
      rw [single, ← execute_returns sound within]
      dsimp only
      apply returns_bind_iff
      intro done ran
      rcases execute_cases ran with
        ⟨refuses, unspoiled, reason, rfl⟩ | ⟨spoils, charged, machine, reason, result⟩ |
        ⟨accepts, charged, effect, result⟩
      · rw [Charges]
        simp only [unspoiled, not_false_eq_true, true_and, false_and, false_or]
        exact failure_returns p.machine sender failing
      · have left := charged.balance
        have due : Charges p.machine sender tx ↔ tx.fee.toNat ≤ done.sender.balance.toNat := by
          simp only [Charges, spoils, not_true_eq_false, true_and, false_and, or_false]
          omega
        rw [result, due]
        exact failure_returns done.machine done.sender failing
      · have due : Charges p.machine sender tx :=
          .inr ⟨fun spoils => spoils.not_accepts accepts, tx.fee_le_debit.trans accepts.affords.2⟩
        rw [result, forall_prop_of_true due, ← add_returns]
        apply returns_bind_of_forall
        intro fees _
        exact (returns_bind_of_forall fun _ _ => returns_pure _).mpr applying

theorem applyTxs_returns {txs : List Transaction} (sound : Sound A p.machine)
    (within : ∀ tx ∈ txs, tx.Within A)
    (room : p.txCount.toNat + p.failedCount.toNat + txs.length < 2 ^ 32) :
    Returns (applyTxs chainId p txs) ↔
      ∀ r tx, ComesTo chainId p txs r tx → RoundFits chainId r tx := by
  induction txs generalizing p with
  | nil => exact iff_of_true (returns_pure _) fun r tx comes => by cases comes
  | cons tx txs ih =>
    have here := within tx List.mem_cons_self
    rw [List.length_cons] at room
    have first : Returns (applyTx chainId p tx) ↔ _ := applyTx_returns sound here (by omega)
    rw [applyTxs_cons, returns_bind]
    have rest {q : Progress} (stepped : applyTx chainId p tx = .ok q) :
        Returns (applyTxs chainId q txs) ↔
          ∀ r tx, ComesTo chainId q txs r tx → RoundFits chainId r tx := by
      have outcome := applyTx_outcome stepped
      have counts := outcome.counts
      exact ih (outcome.sound sound here) (fun tx member => within tx (List.mem_cons_of_mem _ member))
        (by omega)
    constructor
    · rintro ⟨q, stepped, later⟩
      rw [forall_comesTo_cons stepped]
      exact ⟨first.mp ⟨q, stepped⟩, (rest stepped).mp later⟩
    · intro fits
      obtain ⟨q, stepped⟩ := first.mpr (fits p tx .head)
      rw [forall_comesTo_cons stepped] at fits
      exact ⟨q, stepped, (rest stepped).mpr fits.2⟩

/-- A decoded block panics exactly when an addition of some round, in the state in which
the loop comes to it, or a product of the distribution overflows. -/
theorem applyBlock_returns_iff {accounts : List (Address × Account)} {block : Block}
    {input rest : Bytes} (reachable : Reachable A accounts s)
    (within : ∀ tx ∈ block.body.transactions, tx.Within A)
    (decoded : Codec.block.decode input = some (block, rest)) :
    Returns (s.applyBlock block) ↔
      (∀ p tx, ComesTo block.header.chainId ⟨s, 0, 0, 0⟩ block.body.transactions p tx →
        RoundFits block.header.chainId p tx) ∧
      ∀ p, applyTxs block.header.chainId ⟨s, 0, 0, 0⟩ block.body.transactions = .ok p →
        ∀ a ∈ s.activeSet, p.blockFees.toNat * p.machine.stake a < 2 ^ 256 := by
  have sound := reachable.sound
  have short := block_fits_length (Codec.block.encode_decode decoded).1
  have loop : Returns (applyTxs block.header.chainId ⟨s, 0, 0, 0⟩ block.body.transactions) ↔ _ :=
    applyTxs_returns sound within (by simpa using short)
  rw [applyBlock_returns sound within, ← loop]
  constructor
  · rintro ⟨p, looped, products⟩
    refine ⟨⟨p, looped⟩, fun q same => ?_⟩
    cases looped.symm.trans same
    exact products
  · rintro ⟨⟨p, looped⟩, products⟩
    exact ⟨p, looped, products p looped⟩

end

section Sample

attribute [local instance] prefixBlake3

theorem transfer_returns :
    Returns ((new [(alice, Account.new 1000)]).applyBlock (testBlock [transferTx alice bob 10 0])) := by
  have reachable : Reachable {alice, bob} [(alice, Account.new 1000)]
      (new [(alice, Account.new 1000)]) := new_reachable (by decide) (by decide)
  have decoded := Codec.block.decode_encode_nil (a := testBlock [transferTx alice bob 10 0])
    (by decide)
  refine (applyBlock_returns_iff reachable (by decide) decoded).mpr
    ⟨?_, fun _ _ _ member => by cases member⟩
  intro p tx comes
  cases comes with
  | head =>
    intro sender _ known
    have only : (new [(alice, Account.new 1000)]).account alice = some (Account.new 1000) := by
      decide
    cases only.symm.trans known
    refine ⟨fun _ => ⟨by decide, fun _ => ⟨by decide, ?_⟩⟩, fun _ => by decide⟩
    rintro recipient amount ⟨⟩
    decide
  | tail first later => cases later

/-- The price of this transfer does not fit a word, and it is added up before the
balance is looked at. -/
theorem hugeTransfer_panics :
    Reachable {alice, bob} [(alice, Account.new 1000)] (new [(alice, Account.new 1000)]) ∧
      (∃ input, Codec.block.decode input =
        some (testBlock [transferTx alice bob (BitVec.allOnes 256) 0], [])) ∧
      ¬Returns ((new [(alice, Account.new 1000)]).applyBlock
        (testBlock [transferTx alice bob (BitVec.allOnes 256) 0])) := by
  refine ⟨new_reachable (by decide) (by decide), ?_, by decide⟩
  exact ⟨_, Codec.block.decode_encode_nil (by decide)⟩

end Sample

end StateMachine

end Mononium
