import Mononium.Core.Runs
import Mononium.Core.Footprint

/-! What a block leaves alone. All namespaces share the hashed keys of one tree, so the
frame is stated for a finite part of the store whose keys BLAKE3 keeps apart: the
accounts and entries of some addresses and the records under some governance keys. -/
namespace Mononium

open Rust Scale

theorem governanceKey_injective : Function.Injective governanceKey := by
  intro a b same
  exact (List.cons.inj same).2

theorem accountKey_ne_governanceKey (a : Address) (k : Bytes) : accountKey a ≠ governanceKey k := by
  intro same
  exact absurd (List.cons.inj same).1 (by decide)

theorem validatorKey_ne_governanceKey (a : Address) (k : Bytes) :
    validatorKey a ≠ governanceKey k := by
  intro same
  exact absurd (List.cons.inj same).1 (by decide)

/-- The keys of the accounts and entries of `A` and of the governance records of `G`. -/
def storeKeys (A : Finset Address) (G : Finset Bytes) : Finset Bytes :=
  A.image accountKey ∪ A.image validatorKey ∪ G.image governanceKey

/-- BLAKE3 does not collide on these keys. -/
def StoreApart [Blake3] (A : Finset Address) (G : Finset Bytes) : Prop :=
  ∀ key ∈ storeKeys A G, ∀ other ∈ storeKeys A G, blake3 key = blake3 other → key = other

instance [Blake3] (A : Finset Address) (G : Finset Bytes) : Decidable (StoreApart A G) :=
  inferInstanceAs (Decidable (∀ _ ∈ _, ∀ _ ∈ _, _))

section Keys

variable {A : Finset Address} {G : Finset Bytes} {a : Address} {k : Bytes}

theorem mem_storeKeys_account (member : a ∈ A) : accountKey a ∈ storeKeys A G := by
  simp only [storeKeys, Finset.mem_union, Finset.mem_image]
  exact .inl (.inl ⟨a, member, rfl⟩)

theorem mem_storeKeys_validator (member : a ∈ A) : validatorKey a ∈ storeKeys A G := by
  simp only [storeKeys, Finset.mem_union, Finset.mem_image]
  exact .inl (.inr ⟨a, member, rfl⟩)

theorem mem_storeKeys_governance (member : k ∈ G) : governanceKey k ∈ storeKeys A G := by
  simp only [storeKeys, Finset.mem_union, Finset.mem_image]
  exact .inr ⟨k, member, rfl⟩

theorem Transaction.Within.keys {tx : Transaction} (within : tx.Within A) {key : Bytes}
    (member : key ∈ tx.keys) : key ∈ storeKeys A G := by
  obtain ⟨a, touched, shape⟩ := Transaction.keys_touched member
  have inside : a ∈ A := by
    rcases List.mem_cons.mp touched with rfl | named
    · exact within.1
    · exact within.2 a named
  rcases shape with rfl | rfl
  · exact mem_storeKeys_account inside
  · exact mem_storeKeys_validator inside

end Keys

namespace StateMachine

section

variable [Blake3] {A : Finset Address} {G : Finset Bytes} {s t u : StateMachine}

/-- The part of the store is changed at the keys of `written` only, and only the `payers`
lose balance. -/
structure Framed (A : Finset Address) (G : Finset Bytes) (written : Set Bytes)
    (payers : Set Address) (s t : StateMachine) : Prop where
  kept : ∀ key ∈ storeKeys A G, key ∉ written → t.state.get key = s.state.get key
  balance : ∀ a ∈ A, a ∉ payers → s.balance a ≤ t.balance a
  activeSet : t.activeSet = s.activeSet

theorem balance_congr {a : Address}
    (same : t.state.get (accountKey a) = s.state.get (accountKey a)) : t.balance a = s.balance a := by
  rw [balance, balance, account, account, same]

namespace Framed

variable {written : Set Bytes} {payers : Set Address}

theorem of_leaves (leaves : ∀ digest, t.state.leaves.lookup digest = s.state.leaves.lookup digest)
    (active : t.activeSet = s.activeSet) : Framed A G written payers s t where
  kept key _ _ := leaves (blake3 key)
  balance a _ _ := (balance_congr (leaves (blake3 (accountKey a)))).ge
  activeSet := active

theorem refl (s : StateMachine) : Framed A G written payers s s := of_leaves (fun _ => rfl) rfl

theorem trans (first : Framed A G written payers s t) (second : Framed A G written payers t u) :
    Framed A G written payers s u where
  kept key member other := (second.kept key member other).trans (first.kept key member other)
  balance a ha other := (first.balance a ha other).trans (second.balance a ha other)
  activeSet := second.activeSet.trans first.activeSet

theorem mono {more : Set Bytes} {others : Set Address} (framed : Framed A G written payers s t)
    (keys : written ⊆ more) (people : payers ⊆ others) : Framed A G more others s t where
  kept key member other := framed.kept key member fun here => other (keys here)
  balance a ha other := framed.balance a ha fun here => other (people here)
  activeSet := framed.activeSet

end Framed

theorem get_insert_of_ne {key other : Bytes} (apart : StoreApart A G) (s : StateMachine)
    (value : Bytes) (hk : key ∈ storeKeys A G) (ho : other ∈ storeKeys A G) (different : other ≠ key) :
    (s.state.insert key value).get other = s.state.get other := by
  rw [SparseMerkleTree.get, SparseMerkleTree.insert, HashMap.lookup_insert_if,
    if_neg fun collision => different (apart other ho key hk collision), SparseMerkleTree.get]

theorem setAccount_framed {a : Address} {x : Account} {payers : Set Address} (apart : StoreApart A G)
    (member : a ∈ A) (grows : a ∉ payers → s.balance a ≤ x.balance.toNat) :
    Framed A G {accountKey a} payers s (s.setAccount a x) where
  kept key here other := get_insert_of_ne apart s _ (mem_storeKeys_account member) here other
  balance b hb other := by
    by_cases same : b = a
    · subst same
      have written : (s.setAccount b x).account b = some x := by
        simp [account, setAccount, SparseMerkleTree.get, SparseMerkleTree.insert,
          Codec.decode_encode_nil]
      have balance : (s.setAccount b x).balance b = x.balance.toNat := by
        rw [StateMachine.balance, written, Option.getD_some]
      exact balance ▸ grows other
    · have kept := get_insert_of_ne apart s (Codec.account.encode x)
        (mem_storeKeys_account member) (mem_storeKeys_account hb)
        fun collision => same (accountKey_injective collision)
      exact (balance_congr kept).ge
  activeSet := rfl

theorem setValidator_framed {a : Address} {e : ValidatorEntry} {payers : Set Address}
    (apart : StoreApart A G) (member : a ∈ A) :
    Framed A G {validatorKey a} payers s (s.setValidator a e) where
  kept key here other := get_insert_of_ne apart s _ (mem_storeKeys_validator member) here other
  balance b hb _ := by
    have kept := get_insert_of_ne apart s (Codec.validatorEntry.encode e)
      (mem_storeKeys_validator member) (mem_storeKeys_account hb) (accountKey_ne_validatorKey b a)
    exact (balance_congr kept).ge
  activeSet := rfl

/-- What a handler writes lies at the keys of its transaction. -/
theorem Effect.framed {tx : Transaction} {payers : Set Address} (effect : Effect s tx t)
    (apart : StoreApart A G) (within : tx.Within A) :
    Framed A G {key | key ∈ tx.keys} payers s t := by
  have entry {a : Address} {e : ValidatorEntry} (member : a ∈ tx.entries) (inside : a ∈ A) :
      Framed A G {key | key ∈ tx.keys} payers s (s.setValidator a e) := by
    refine (setValidator_framed apart inside).mono ?_ (Set.Subset.refl payers)
    rintro _ rfl
    exact Transaction.entry_mem_keys member
  cases effect with
  | @pays recipient amount credited body sum =>
    have paid : recipient ∈ tx.accounts := by simp [Transaction.accounts, body]
    refine (setAccount_framed apart (within.recipient body) fun _ => ?_).mono ?_
      (Set.Subset.refl payers)
    · dsimp only
      omega
    · rintro _ rfl
      exact Transaction.account_mem_keys paid
  | registers body _ => exact entry (by simp [Transaction.entries, body]) within.1
  | founds body _ => exact entry (by simp [Transaction.entries, body]) within.1
  | stakes body _ _ =>
    exact entry (by simp [Transaction.entries, body]) (within.validator (.inl body))
  | unstakes body _ _ _ =>
    exact entry (by simp [Transaction.entries, body]) (within.validator (.inr body))
  | charges _ => exact .refl s

theorem Outcome.framed {chainId : U64} {p q : Progress} {tx : Transaction}
    (outcome : Outcome chainId p tx q) (apart : StoreApart A G) (within : tx.Within A) :
    Framed A G {key | key ∈ tx.keys} {tx.sender} p.machine q.machine := by
  have charged (m : StateMachine) (x : Account) :
      Framed A G {key | key ∈ tx.keys} {tx.sender} m (m.setAccount tx.sender x) := by
    have own : Framed A G {accountKey tx.sender} {tx.sender} m (m.setAccount tx.sender x) :=
      setAccount_framed apart within.1 fun other => absurd rfl other
    refine own.mono ?_ (Set.Subset.refl _)
    rintro _ rfl
    exact Transaction.sender_mem_keys tx
  cases outcome with
  | skipped _ _ | unpaid _ _ _ _ _ _ | spoiledUnpaid _ _ _ _ _ => exact .refl _
  | executed _ _ _ _ effect _ _ => exact (effect.framed apart within).trans (charged _ _)
  | rejected _ _ _ _ _ _ _ | spoiled _ _ _ _ _ _ _ => exact charged _ _

def blockKeys (txs : List Transaction) : Set Bytes := {key | ∃ tx ∈ txs, key ∈ tx.keys}

def senders (txs : List Transaction) : Set Address := {a | ∃ tx ∈ txs, a = tx.sender}

theorem applyTxs_framed {chainId : U64} {p q : Progress} {txs : List Transaction}
    (apart : StoreApart A G) (within : ∀ tx ∈ txs, tx.Within A)
    (h : applyTxs chainId p txs = .ok q) :
    Framed A G (blockKeys txs) (senders txs) p.machine q.machine := by
  refine foldlM_invariant
    (P := fun q => Framed A G (blockKeys txs) (senders txs) p.machine q.machine) ?_ (.refl _) h
  intro q tx member r framed stepped
  refine framed.trans (((applyTx_outcome stepped).framed apart (within tx member)).mono ?_ ?_)
  · exact fun key own => ⟨tx, member, own⟩
  · rintro _ rfl
    exact ⟨tx, member, rfl⟩

theorem creditBalance_framed {a : Address} {amount : U256} (apart : StoreApart A G)
    (member : a ∈ A) (h : s.creditBalance a amount = .ok t) :
    Framed A G {accountKey a} ∅ s t := by
  obtain ⟨found, read, h⟩ := bind_eq_ok.mp h
  cases h
  apply setAccount_framed apart member
  intro _
  have known := account_of_getAccount read
  rw [StateMachine.balance, known, saturatingAdd_toNat]
  have bound := (found.getD (Account.new 0)).balance.isLt
  omega

theorem distributeFees_framed {fees : U128} (apart : StoreApart A G)
    (active : ∀ a ∈ s.activeSet, a ∈ A) (h : s.distributeFees fees = .ok t) :
    Framed A G {key | ∃ a ∈ s.activeSet, key = accountKey a} ∅ s t := by
  have members {pairs : List (U256 × Address)} (perm : pairs.Perm s.stakePairs) :
      ∀ pair ∈ pairs, pair.2 ∈ s.activeSet := by
    intro pair here
    obtain ⟨a, listed, made⟩ := List.mem_filterMap.mp (perm.mem_iff.mp here)
    obtain ⟨v, -, rfl⟩ := Option.map_eq_some_iff.mp made
    exact listed
  have sorted := members (List.perm_insertionSort remainderOrder s.stakePairs)
  have credit {m n : StateMachine} {pair : U256 × Address} {amount : U256}
      (listed : pair.2 ∈ s.activeSet) (paid : m.creditBalance pair.2 amount = .ok n) :
      Framed A G {key | ∃ a ∈ s.activeSet, key = accountKey a} ∅ m n := by
    refine (creditBalance_framed apart (active _ listed) paid).mono ?_ (Set.Subset.refl _)
    rintro _ rfl
    exact ⟨pair.2, listed, rfl⟩
  unfold distributeFees at h
  split at h
  next =>
    cases h
    exact .refl s
  next =>
    dsimp only at h
    split at h
    next =>
      cases h
      exact .refl s
    next =>
      obtain ⟨⟨middle, distributed⟩, looped, h⟩ := bind_eq_ok.mp h
      have shares : Framed A G {key | ∃ a ∈ s.activeSet, key = accountKey a} ∅ s middle := by
        refine foldlM_invariant (P := fun acc : StateMachine × U256 =>
          Framed A G {key | ∃ a ∈ s.activeSet, key = accountKey a} ∅ s acc.1) ?_ (.refl s) looped
        rintro acc pair here after framed credited
        obtain ⟨product, -, credited⟩ := bind_eq_ok.mp credited
        obtain ⟨share, -, credited⟩ := bind_eq_ok.mp credited
        split at credited
        next =>
          cases credited
          exact framed
        next =>
          obtain ⟨machine, paid, credited⟩ := bind_eq_ok.mp credited
          cases credited
          exact framed.trans (credit (sorted pair here) paid)
      dsimp only at h
      split at h
      next =>
        split at h
        next a top =>
          obtain ⟨remainder, -, paid⟩ := bind_eq_ok.mp h
          exact shares.trans (credit (sorted _ (List.mem_of_mem_head? top)) paid)
        next =>
          cases h
          exact shares
      next =>
        cases h
        exact shares

/-- The accounts and entries that a block may change. -/
def writtenByBlock (s : StateMachine) (block : Block) : Set Bytes :=
  blockKeys block.body.transactions ∪ {key | ∃ a ∈ s.activeSet, key = accountKey a}

omit [Blake3] in
theorem governanceKey_not_written (block : Block) (k : Bytes) :
    governanceKey k ∉ s.writtenByBlock block := by
  rintro (⟨tx, -, own⟩ | ⟨b, -, same⟩)
  · obtain ⟨a, -, shape | shape⟩ := Transaction.keys_touched own
    · exact accountKey_ne_governanceKey a k shape.symm
    · exact validatorKey_ne_governanceKey a k shape.symm
  · exact accountKey_ne_governanceKey b k same.symm

theorem applyBlock_framed {block : Block} {receipt : BlockReceipt} (apart : StoreApart A G)
    (within : ∀ tx ∈ block.body.transactions, tx.Within A) (active : ∀ a ∈ s.activeSet, a ∈ A)
    (h : s.applyBlock block = .ok (receipt, t)) :
    Framed A G (s.writtenByBlock block) (senders block.body.transactions) s t := by
  obtain ⟨p, looped, h⟩ := bind_eq_ok.mp h
  obtain ⟨middle, distributed, h⟩ := bind_eq_ok.mp h
  obtain ⟨⟨root, after⟩, rooted, h⟩ := bind_eq_ok.mp h
  cases h
  have loop := applyTxs_framed apart within looped
  have same : p.machine.activeSet = s.activeSet := loop.activeSet
  have shares := distributeFees_framed apart (same ▸ active) distributed
  have contents := SameContents.stateRoot rooted
  rw [same] at shares
  refine (loop.mono Set.subset_union_left (Set.Subset.refl _)).trans ?_
  refine (shares.mono Set.subset_union_right (Set.empty_subset _)).trans ?_
  exact .of_leaves (fun digest => (contents.leaves digest).symm) contents.activeSet.symm

/-- A block changes no account but those of the senders, the recipients and the active
set, no entry but those registered or staked on by name, no governance record, and not the
active set itself. Only senders lose balance. -/
theorem applyBlock_frame {block : Block} {receipt : BlockReceipt} (apart : StoreApart A G)
    (within : ∀ tx ∈ block.body.transactions, tx.Within A) (active : ∀ a ∈ s.activeSet, a ∈ A)
    (applied : s.applyBlock block = .ok (receipt, t)) :
    (∀ a ∈ A, a ∉ s.activeSet → (∀ tx ∈ block.body.transactions, a ∉ tx.accounts) →
      t.getAccount a = s.getAccount a) ∧
    (∀ a ∈ A, (∀ tx ∈ block.body.transactions, a ∉ tx.entries) →
      t.getValidator a = s.getValidator a) ∧
    (∀ k ∈ G, t.governanceGet k = s.governanceGet k) ∧
    t.activeSet = s.activeSet ∧
    (∀ a ∈ A, (∀ tx ∈ block.body.transactions, a ≠ tx.sender) → s.balance a ≤ t.balance a) := by
  have framed := applyBlock_framed apart within active applied
  refine ⟨?_, ?_, ?_, framed.activeSet, ?_⟩
  · intro a ha idle untouched
    have kept : t.state.get (accountKey a) = s.state.get (accountKey a) := by
      apply framed.kept _ (mem_storeKeys_account ha)
      rintro (⟨tx, member, own⟩ | ⟨b, listed, same⟩)
      · exact untouched tx member (Transaction.mem_accounts_of_key own)
      · exact idle (accountKey_injective same ▸ listed)
    rw [getAccount, getAccount, kept]
  · intro a ha untouched
    have kept : t.state.get (validatorKey a) = s.state.get (validatorKey a) := by
      apply framed.kept _ (mem_storeKeys_validator ha)
      rintro (⟨tx, member, own⟩ | ⟨b, -, same⟩)
      · exact untouched tx member (Transaction.mem_entries_of_key own)
      · exact accountKey_ne_validatorKey b a same.symm
    rw [getValidator, getValidator, kept]
  · intro k hk
    exact framed.kept _ (mem_storeKeys_governance hk) (governanceKey_not_written block k)
  · intro a ha other
    apply framed.balance a ha
    rintro ⟨tx, member, same⟩
    exact other tx member same

end

section Sample

attribute [local instance] prefixBlake3

def carol : Address := repeated 0xCC

def recorded : StateMachine := ((new founders).governanceInsert [1] [7]).setActiveSet [carol]

def toCarol : Block := testBlock [transferTx alice carol 5 0]

def paidCarol : Exec StateMachine := do
  let p ← applyTxs 0 ⟨recorded, 0, 0, 0⟩ toCarol.body.transactions
  p.machine.distributeFees p.blockFees

theorem toCarol_applied : Returns (recorded.applyBlock toCarol) := by
  have returns : Returns paidCarol := by decide
  have paid := returns.eq_ok recorded
  obtain ⟨p, looped, distributed⟩ := bind_eq_ok.mp paid
  obtain ⟨⟨root, t⟩, rooted⟩ := stateRoot_returns (valueD paidCarol recorded)
  refine ⟨(⟨p.blockFees, p.txCount, p.failedCount, root⟩, t), ?_⟩
  refine bind_eq_ok.mpr ⟨p, looped, bind_eq_ok.mpr ⟨_, distributed, bind_eq_ok.mpr ⟨_, rooted, rfl⟩⟩⟩

/-- Bob, the record and the active set are as before. -/
theorem toCarol_frame :
    ∃ receipt t, recorded.applyBlock toCarol = .ok (receipt, t) ∧
      t.getAccount bob = recorded.getAccount bob ∧
      t.governanceGet [1] = recorded.governanceGet [1] ∧ t.activeSet = [carol] ∧
      recorded.balance bob ≤ t.balance bob := by
  obtain ⟨⟨receipt, t⟩, applied⟩ := toCarol_applied
  obtain ⟨account, -, record, active, balance⟩ :=
    applyBlock_frame (A := {alice, bob, carol}) (G := {[1]}) (by decide) (by decide)
      (by decide) applied
  exact ⟨receipt, t, applied, account bob (by decide) (by decide) (by decide),
    record [1] (by decide), active, balance bob (by decide) (by decide)⟩

end Sample

end StateMachine

end Mononium
