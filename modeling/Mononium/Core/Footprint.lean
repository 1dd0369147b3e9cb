import Mononium.Core.Outcome
import Mononium.Lib.Relational

/-! What a transaction reads and writes. A handler writes accounts and entries only at
the keys of its transaction, and two machines that agree on these keys receive the same
writes. -/
namespace Mononium

open Rust Scale

/-- One write to the store. -/
inductive Write where
  | account (a : Address) (x : Account)
  | entry (a : Address) (e : ValidatorEntry)

namespace Write

def key : Write → Bytes
  | account a _ => accountKey a
  | entry a _ => validatorKey a

def value : Write → Bytes
  | account _ x => Codec.account.encode x
  | entry _ e => Codec.validatorEntry.encode e

/-- What the write adds to the validator index. -/
def indexed : Write → Finset Address
  | account _ _ => ∅
  | entry a _ => {a}

end Write

namespace Transaction

def accounts (tx : Transaction) : List Address :=
  tx.sender :: (tx.body.payment.map Prod.fst).toList

def entries (tx : Transaction) : List Address :=
  match tx.body with
  | .registerValidator _ | .registerAndStake _ _ => [tx.sender]
  | .stake v _ | .unstake v _ => [v]
  | _ => []

def keys (tx : Transaction) : List Bytes :=
  tx.accounts.map accountKey ++ tx.entries.map validatorKey

def touched (tx : Transaction) : List Address := tx.sender :: tx.body.addresses

theorem account_mem_keys {tx : Transaction} {a : Address} (member : a ∈ tx.accounts) :
    accountKey a ∈ tx.keys := by
  simp only [keys, List.mem_append, List.mem_map]
  exact .inl ⟨a, member, rfl⟩

theorem entry_mem_keys {tx : Transaction} {a : Address} (member : a ∈ tx.entries) :
    validatorKey a ∈ tx.keys := by
  simp only [keys, List.mem_append, List.mem_map]
  exact .inr ⟨a, member, rfl⟩

theorem sender_mem_keys (tx : Transaction) : accountKey tx.sender ∈ tx.keys :=
  account_mem_keys (by simp [accounts])

theorem mem_accounts_of_key {tx : Transaction} {a : Address} (member : accountKey a ∈ tx.keys) :
    a ∈ tx.accounts := by
  simp only [keys, List.mem_append, List.mem_map] at member
  rcases member with ⟨b, there, same⟩ | ⟨b, -, same⟩
  · exact accountKey_injective same ▸ there
  · exact absurd same.symm (accountKey_ne_validatorKey a b)

theorem mem_entries_of_key {tx : Transaction} {a : Address} (member : validatorKey a ∈ tx.keys) :
    a ∈ tx.entries := by
  simp only [keys, List.mem_append, List.mem_map] at member
  rcases member with ⟨b, -, same⟩ | ⟨b, there, same⟩
  · exact absurd same (accountKey_ne_validatorKey b a)
  · exact validatorKey_injective same ▸ there

theorem keys_touched {tx : Transaction} {key : Bytes} (member : key ∈ tx.keys) :
    ∃ a ∈ tx.touched, key = accountKey a ∨ key = validatorKey a := by
  rcases List.mem_append.mp member with there | there
  · obtain ⟨a, ha, rfl⟩ := List.mem_map.mp there
    refine ⟨a, ?_, .inl rfl⟩
    rcases List.mem_cons.mp ha with rfl | paid
    · simp [touched]
    · obtain ⟨⟨b, amount⟩, body, rfl⟩ : ∃ p, tx.body.payment = some p ∧ p.1 = a := by
        simpa using paid
      cases shape : tx.body <;> simp_all [TxBody.payment, touched, TxBody.addresses]
  · obtain ⟨a, ha, rfl⟩ := List.mem_map.mp there
    refine ⟨a, ?_, .inr rfl⟩
    cases shape : tx.body <;> simp_all [entries, touched, TxBody.addresses]

end Transaction

structure Tally where
  fees : U128
  executed : Bool

def Progress.record (p : Progress) (machine : StateMachine) (tally : Tally) : Exec Progress := do
  let blockFees ← add p.blockFees tally.fees
  if tally.executed then
    return ⟨machine, blockFees, ← add p.txCount 1, p.failedCount⟩
  else
    return ⟨machine, blockFees, p.txCount, ← add p.failedCount 1⟩

theorem Progress.record_eq_ok {p q : Progress} {machine : StateMachine} {tally : Tally}
    (h : p.record machine tally = .ok q) :
    q.machine = machine ∧ q.blockFees.toNat = p.blockFees.toNat + tally.fees.toNat ∧
      q.txCount.toNat = p.txCount.toNat + tally.executed.toNat ∧
      q.failedCount.toNat = p.failedCount.toNat + (!tally.executed).toNat := by
  obtain ⟨fees, pooled, h⟩ := bind_eq_ok.mp h
  cases executed : tally.executed with
  | true =>
    simp only [executed] at h
    obtain ⟨count, counted, h⟩ := bind_eq_ok.mp h
    cases h
    exact ⟨rfl, add_eq_ok.mp pooled, add_eq_ok.mp counted, rfl⟩
  | false =>
    simp only [executed] at h
    obtain ⟨count, counted, h⟩ := bind_eq_ok.mp h
    cases h
    exact ⟨rfl, add_eq_ok.mp pooled, rfl, add_eq_ok.mp counted⟩

namespace StateMachine

variable [Blake3]

def write (s : StateMachine) : Write → StateMachine
  | .account a x => s.setAccount a x
  | .entry a e => s.setValidator a e

def writes (s : StateMachine) (ws : List Write) : StateMachine := ws.foldl write s

section Writes

variable {s t : StateMachine}

theorem writes_append (s : StateMachine) (first second : List Write) :
    s.writes (first ++ second) = (s.writes first).writes second := List.foldl_append

theorem lookup_write (s : StateMachine) (w : Write) (digest : Digest) :
    (s.write w).state.leaves.lookup digest =
      if digest = blake3 w.key then some w.value else s.state.leaves.lookup digest := by
  cases w with
  | account a x => exact HashMap.lookup_insert_if ..
  | entry a e => exact HashMap.lookup_insert_if ..

/-- What a digest leads to afterwards depends on what it led to before and on the writes. -/
theorem lookup_writes_congr {digest : Digest}
    (same : s.state.leaves.lookup digest = t.state.leaves.lookup digest) (ws : List Write) :
    (s.writes ws).state.leaves.lookup digest = (t.writes ws).state.leaves.lookup digest := by
  induction ws generalizing s t with
  | nil => exact same
  | cons w ws ih =>
    apply ih
    simp only [lookup_write, same]

theorem lookup_writes_of_ne {digest : Digest} {ws : List Write}
    (other : ∀ w ∈ ws, digest ≠ blake3 w.key) :
    (s.writes ws).state.leaves.lookup digest = s.state.leaves.lookup digest := by
  induction ws generalizing s with
  | nil => rfl
  | cons w ws ih =>
    obtain ⟨here, later⟩ := List.forall_mem_cons.mp other
    exact (ih later).trans (by simp [lookup_write, here])

theorem cachedRoot_writes (s : StateMachine) (ws : List Write) :
    (s.writes ws).state.cachedRoot = if ws = [] then s.state.cachedRoot else none := by
  have cleared (w : Write) : (s.write w).state.cachedRoot = none := by cases w <;> rfl
  induction ws generalizing s with
  | nil => rfl
  | cons w ws ih =>
    have rest := ih (s.write w) (by intro v; cases v <;> rfl)
    rw [if_neg (List.cons_ne_nil w ws)]
    refine rest.trans ?_
    split
    next => exact cleared w
    next => rfl

theorem validators_writes (s : StateMachine) (ws : List Write) :
    (s.writes ws).validators = ws.foldr (fun w index => w.indexed ∪ index) ∅ ∪ s.validators := by
  induction ws generalizing s with
  | nil => simp [writes]
  | cons w ws ih =>
    have here : (s.write w).validators = w.indexed ∪ s.validators := by
      cases w with
      | account a x => exact (Finset.empty_union _).symm
      | entry a e => exact Finset.insert_eq a s.validators
    refine (ih (s.write w)).trans ?_
    rw [here, List.foldr_cons, ← Finset.union_assoc, Finset.union_comm _ w.indexed]

theorem activeSet_writes (s : StateMachine) (ws : List Write) :
    (s.writes ws).activeSet = s.activeSet := by
  induction ws generalizing s with
  | nil => rfl
  | cons w ws ih => exact (ih (s.write w)).trans (by cases w <;> rfl)

end Writes

/-- The same contents and the same cached root. -/
structure Twin (s t : StateMachine) : Prop extends SameContents s t where
  cachedRoot : s.state.cachedRoot = t.state.cachedRoot

namespace Twin

variable {s t : StateMachine}

theorem writes (twin : Twin s t) (ws : List Write) : Twin (s.writes ws) (t.writes ws) where
  leaves digest := lookup_writes_congr (twin.leaves digest) ws
  validators := by rw [validators_writes, validators_writes, twin.validators]
  activeSet := by rw [activeSet_writes, activeSet_writes, twin.activeSet]
  cachedRoot := by rw [cachedRoot_writes, cachedRoot_writes, twin.cachedRoot]

theorem swap (s : StateMachine) {first second : List Write}
    (apart : ∀ w ∈ first, ∀ v ∈ second, blake3 w.key ≠ blake3 v.key) :
    Twin ((s.writes first).writes second) ((s.writes second).writes first) where
  leaves digest := by
    by_cases here : ∃ w ∈ first, digest = blake3 w.key
    · obtain ⟨w, member, rfl⟩ := here
      rw [lookup_writes_of_ne (apart w member)]
      exact lookup_writes_congr (lookup_writes_of_ne (apart w member)).symm first
    · have other : ∀ w ∈ first, digest ≠ blake3 w.key := fun w member same => here ⟨w, member, same⟩
      rw [lookup_writes_of_ne other]
      exact lookup_writes_congr (lookup_writes_of_ne other) second
  validators := by
    simp only [validators_writes]
    exact Finset.union_left_comm ..
  activeSet := by simp only [activeSet_writes]
  cachedRoot := by
    simp only [cachedRoot_writes]
    split <;> split <;> rfl

end Twin

/-- The machines agree on these keys. -/
def AlikeOn (keys : List Bytes) (s t : StateMachine) : Prop :=
  ∀ key ∈ keys, s.state.get key = t.state.get key

/-- `x` comes from `s` as `y` comes from `t`, by the same writes to these keys. -/
def SameWrites (keys : List Bytes) (s t x y : StateMachine) : Prop :=
  ∃ ws : List Write, (∀ w ∈ ws, w.key ∈ keys) ∧ x = s.writes ws ∧ y = t.writes ws

structure Executed.SameWrites (keys : List Bytes) (s t : StateMachine) (x y : Executed) : Prop where
  machine : StateMachine.SameWrites keys s t x.machine y.machine
  sender : x.sender = y.sender
  result : x.result = y.result

namespace SameWrites

variable {keys : List Bytes} {s t x y : StateMachine}

theorem none : SameWrites keys s t s t := ⟨[], by simp, rfl, rfl⟩

theorem account {a : Address} (member : accountKey a ∈ keys) (value : Account) :
    SameWrites keys s t (s.setAccount a value) (t.setAccount a value) :=
  ⟨[.account a value], by simpa [Write.key] using member, rfl, rfl⟩

theorem entry {a : Address} (member : validatorKey a ∈ keys) (e : ValidatorEntry) :
    SameWrites keys s t (s.setValidator a e) (t.setValidator a e) :=
  ⟨[.entry a e], by simpa [Write.key] using member, rfl, rfl⟩

theorem trans {u v : StateMachine} (first : SameWrites keys s t x y)
    (second : SameWrites keys x y u v) : SameWrites keys s t u v := by
  obtain ⟨ws, inside, rfl, rfl⟩ := first
  obtain ⟨vs, within, rfl, rfl⟩ := second
  refine ⟨ws ++ vs, ?_, (writes_append s ws vs).symm, (writes_append t ws vs).symm⟩
  intro w member
  rcases List.mem_append.mp member with early | late
  · exact inside w early
  · exact within w late

/-- A handler that ends here has done the same to both. -/
theorem done (same : SameWrites keys s t x y) {sender : Account} {result : Result Unit} :
    Related (Executed.SameWrites keys s t) (pure ⟨x, sender, result⟩) (pure ⟨y, sender, result⟩) :=
  .pure ⟨same, rfl, rfl⟩

theorem idle {sender : Account} {result : Result Unit} :
    Related (Executed.SameWrites keys s t) (pure ⟨s, sender, result⟩) (pure ⟨t, sender, result⟩) :=
  none.done

end SameWrites

namespace AlikeOn

variable {keys : List Bytes} {s t : StateMachine}

theorem getAccount (alike : AlikeOn keys s t) {a : Address} (member : accountKey a ∈ keys) :
    s.getAccount a = t.getAccount a := by
  rw [StateMachine.getAccount, StateMachine.getAccount, alike _ member]

theorem getValidator (alike : AlikeOn keys s t) {a : Address} (member : validatorKey a ∈ keys) :
    s.getValidator a = t.getValidator a := by
  rw [StateMachine.getValidator, StateMachine.getValidator, alike _ member]

theorem chargeFee (sender : Account) (fee : U256) (nonce : U64) :
    Related (Executed.SameWrites keys s t) (s.chargeFee sender fee nonce)
      (t.chargeFee sender fee nonce) := by
  unfold StateMachine.chargeFee
  apply Related.ite SameWrites.idle
  apply Related.ite SameWrites.idle
  apply Related.bind_same
  intro nextNonce
  exact SameWrites.idle

theorem tryTransfer (alike : AlikeOn keys s t) (sender : Account) {recipient : Address}
    (member : accountKey recipient ∈ keys) (amount fee : U256) (nonce : U64) :
    Related (Executed.SameWrites keys s t) (s.tryTransfer sender recipient amount fee nonce)
      (t.tryTransfer sender recipient amount fee nonce) := by
  unfold StateMachine.tryTransfer
  apply Related.ite SameWrites.idle
  apply Related.bind_same
  intro totalDebit
  apply Related.ite SameWrites.idle
  apply Related.bind_same
  intro balance
  apply Related.bind_same
  intro nextNonce
  rw [alike.getAccount member]
  apply Related.bind_same
  intro found
  apply Related.bind_same
  intro credited
  exact (SameWrites.account member _).done

theorem applyRegisterValidator (alike : AlikeOn keys s t) (sender : Account) {a : Address}
    (member : validatorKey a ∈ keys) (publicKey : FixedBytes 897) (fee : U256) (nonce : U64) :
    Related (Executed.SameWrites keys s t) (s.applyRegisterValidator sender a publicKey fee nonce)
      (t.applyRegisterValidator sender a publicKey fee nonce) := by
  unfold StateMachine.applyRegisterValidator
  rw [alike.getValidator member]
  apply Related.ite SameWrites.idle
  apply Related.ite SameWrites.idle
  apply Related.bind_same
  intro totalDebit
  apply Related.ite SameWrites.idle
  apply Related.bind_same
  intro balance
  apply Related.bind_same
  intro nextNonce
  exact (SameWrites.entry member _).done

theorem applyStake (alike : AlikeOn keys s t) (sender : Account) {v : Address}
    (member : validatorKey v ∈ keys) (amount fee : U256) (nonce : U64) :
    Related (Executed.SameWrites keys s t) (s.applyStake sender v amount fee nonce)
      (t.applyStake sender v amount fee nonce) := by
  unfold StateMachine.applyStake
  rw [alike.getValidator member]
  apply Related.ite SameWrites.idle
  cases t.getValidator v with
  | none => exact SameWrites.idle
  | some entry =>
    apply Related.ite SameWrites.idle
    apply Related.ite SameWrites.idle
    apply Related.bind_same
    intro totalDebit
    apply Related.ite SameWrites.idle
    apply Related.bind_same
    intro balance
    apply Related.bind_same
    intro nextNonce
    dsimp only
    cases checkedAdd entry.stake amount with
    | none => exact SameWrites.idle
    | some newStake => exact (SameWrites.entry member _).done

theorem applyRegisterAndStake (alike : AlikeOn keys s t) (sender : Account) {senderAddr : Address}
    (member : validatorKey senderAddr ∈ keys) (v : Address) (amount fee : U256) (nonce : U64) :
    Related (Executed.SameWrites keys s t)
      (s.applyRegisterAndStake sender senderAddr v amount fee nonce)
      (t.applyRegisterAndStake sender senderAddr v amount fee nonce) := by
  unfold StateMachine.applyRegisterAndStake
  rw [alike.getValidator member]
  apply Related.ite SameWrites.idle
  apply Related.ite SameWrites.idle
  apply Related.ite SameWrites.idle
  apply Related.ite SameWrites.idle
  apply Related.bind_same
  intro withDeposit
  apply Related.bind_same
  intro totalDebit
  apply Related.ite SameWrites.idle
  apply Related.bind_same
  intro balance
  apply Related.bind_same
  intro nextNonce
  exact (SameWrites.entry member _).done

theorem applyUnstake (alike : AlikeOn keys s t) (sender : Account) {v : Address}
    (member : validatorKey v ∈ keys) (amount fee : U256) (nonce era : U64) :
    Related (Executed.SameWrites keys s t) (s.applyUnstake sender v amount fee nonce era)
      (t.applyUnstake sender v amount fee nonce era) := by
  unfold StateMachine.applyUnstake
  rw [alike.getValidator member]
  apply Related.ite SameWrites.idle
  cases t.getValidator v with
  | none => exact SameWrites.idle
  | some entry =>
    apply Related.ite SameWrites.idle
    apply Related.ite SameWrites.idle
    apply Related.ite SameWrites.idle
    apply Related.ite SameWrites.idle
    apply Related.bind_same
    intro balance
    apply Related.bind_same
    intro nextNonce
    apply Related.bind_same
    intro releaseEra
    cases status : entry.status with
    | unstaking existingEra existingAmount =>
      dsimp only
      cases checkedAdd existingAmount amount with
      | none => exact SameWrites.idle
      | some newAmount =>
        exact Related.ite SameWrites.idle ((SameWrites.entry member _).done)
    | _ => exact (SameWrites.entry member _).done

theorem execute {tx : Transaction} (alike : AlikeOn tx.keys s t) (sender : Account) :
    Related (Executed.SameWrites tx.keys s t) (s.execute sender tx) (t.execute sender tx) := by
  unfold StateMachine.execute
  cases body : tx.body with
  | transfer recipient amount | burn target amount =>
    exact alike.tryTransfer _
      (Transaction.account_mem_keys (by simp [Transaction.accounts, body, TxBody.payment])) _ _ _
  | registerValidator publicKey =>
    exact alike.applyRegisterValidator _
      (Transaction.entry_mem_keys (by simp [Transaction.entries, body])) _ _ _
  | stake v amount =>
    exact alike.applyStake _
      (Transaction.entry_mem_keys (by simp [Transaction.entries, body])) _ _ _
  | registerAndStake v amount =>
    exact alike.applyRegisterAndStake _
      (Transaction.entry_mem_keys (by simp [Transaction.entries, body])) _ _ _ _
  | unstake v amount =>
    exact alike.applyUnstake _
      (Transaction.entry_mem_keys (by simp [Transaction.entries, body])) _ _ _ _
  | propose _ _ _ _ | vote _ _ | cancelProposal _ => exact chargeFee _ _ _

end AlikeOn

/-- One round of the block loop without its tallies. -/
def settle (s : StateMachine) (chainId : U64) (tx : Transaction) : Exec (StateMachine × Tally) := do
  if tx.chainId ≠ chainId then
    return (s, ⟨0, false⟩)
  let some sender ← s.getAccount tx.sender | return (s, ⟨0, false⟩)
  let done ← s.execute sender tx
  match done.result with
  | .ok () => return (done.machine.setAccount tx.sender done.sender, ⟨feeAsU128 tx.fee, true⟩)
  | .error _ =>
    if tx.fee ≤ done.sender.balance then
      let balance ← sub done.sender.balance tx.fee
      return (done.machine.setAccount tx.sender { done.sender with balance },
        ⟨feeAsU128 tx.fee, false⟩)
    else
      return (done.machine, ⟨0, false⟩)

theorem applyTx_eq (chainId : U64) (p : Progress) (tx : Transaction) :
    applyTx chainId p tx =
      p.machine.settle chainId tx >>= fun settled => p.record settled.1 settled.2 := by
  have idle (machine : StateMachine) : p.record machine ⟨0, false⟩ =
      add p.failedCount 1 >>= fun failedCount =>
        pure ⟨machine, p.blockFees, p.txCount, failedCount⟩ := by
    have nothing : add p.blockFees 0 = .ok p.blockFees := add_eq_ok.mpr (by simp)
    rw [Progress.record, nothing]
    rfl
  unfold applyTx settle
  split
  next => exact (idle _).symm
  next =>
    rw [bind_assoc]
    congr 1
    funext found
    cases found with
    | none => exact (idle _).symm
    | some sender =>
      dsimp only
      rw [bind_assoc]
      congr 1
      funext done
      cases done.result with
      | ok _ => rfl
      | error _ =>
        dsimp only
        split
        next =>
          rw [bind_assoc]
          rfl
        next => exact (idle _).symm

/-- A round reads and writes within the keys of its transaction. -/
theorem AlikeOn.settle {s t : StateMachine} {tx : Transaction} (alike : AlikeOn tx.keys s t)
    (chainId : U64) :
    Related (fun x y => SameWrites tx.keys s t x.1 y.1 ∧ x.2 = y.2) (s.settle chainId tx)
      (t.settle chainId tx) := by
  have sender := Transaction.sender_mem_keys tx
  unfold StateMachine.settle
  apply Related.ite (.pure ⟨.none, rfl⟩)
  rw [alike.getAccount sender]
  apply Related.bind_same
  intro found
  cases found with
  | none => exact .pure ⟨.none, rfl⟩
  | some account =>
    apply Related.bind (alike.execute account)
    rintro ⟨after, left, result⟩ ⟨other, _, _⟩ ⟨same, rfl, rfl⟩
    cases result with
    | ok _ => exact .pure ⟨same.trans (.account sender _), rfl⟩
    | error _ =>
      apply Related.ite
      · apply Related.bind_same
        intro balance
        exact .pure ⟨same.trans (.account sender _), rfl⟩
      · exact .pure ⟨same, rfl⟩

end StateMachine

end Mononium
