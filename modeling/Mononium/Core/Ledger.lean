import Mononium.Core.Execute
import Mononium.Crypto.TrieRoot
import Mathlib.Algebra.BigOperators.Group.Finset.Basic
import Mathlib.Algebra.Order.BigOperators.Group.Finset

/-! The machine read as a ledger: an account and a validator entry for each address
of a finite set. Keys of the tree are hashed, so the reading is faithful only where
BLAKE3 keeps the keys of that set apart; `Sound` carries this with what every run
of the machine preserves. -/
namespace Mononium

open Rust Scale

theorem accountKey_ne_validatorKey (a b : Address) : accountKey a ≠ validatorKey b := by
  intro same
  exact absurd (List.cons.inj same).1 (by decide)

theorem accountKey_injective : Function.Injective accountKey := by
  intro a b same
  exact Address.asBytes_injective (List.cons.inj same).2

theorem validatorKey_injective : Function.Injective validatorKey := by
  intro a b same
  exact Address.asBytes_injective (List.cons.inj same).2

/-- The tree keys of a set of addresses. -/
def treeKeys (A : Finset Address) : Set Bytes :=
  {key | ∃ a ∈ A, key = accountKey a ∨ key = validatorKey a}

/-- BLAKE3 does not collide on the tree keys of these addresses. -/
def KeysApart [Blake3] (A : Finset Address) : Prop := Set.InjOn blake3 (treeKeys A)

theorem mem_treeKeys_account {A : Finset Address} {a : Address} (member : a ∈ A) :
    accountKey a ∈ treeKeys A := ⟨a, member, .inl rfl⟩

theorem mem_treeKeys_validator {A : Finset Address} {a : Address} (member : a ∈ A) :
    validatorKey a ∈ treeKeys A := ⟨a, member, .inr rfl⟩

theorem keysApart_iff [Blake3] {A : Finset Address} : KeysApart A ↔ ∀ a ∈ A, ∀ b ∈ A,
    (blake3 (accountKey a) = blake3 (accountKey b) → a = b) ∧
    (blake3 (validatorKey a) = blake3 (validatorKey b) → a = b) ∧
    blake3 (accountKey a) ≠ blake3 (validatorKey b) := by
  constructor
  · intro apart a ha b hb
    refine ⟨fun same => ?_, fun same => ?_, fun same => ?_⟩
    · exact accountKey_injective (apart (mem_treeKeys_account ha) (mem_treeKeys_account hb) same)
    · exact validatorKey_injective (apart (mem_treeKeys_validator ha) (mem_treeKeys_validator hb) same)
    · exact accountKey_ne_validatorKey a b
        (apart (mem_treeKeys_account ha) (mem_treeKeys_validator hb) same)
  · rintro apart x ⟨a, ha, rfl | rfl⟩ y ⟨b, hb, rfl | rfl⟩ same
    · rw [(apart a ha b hb).1 same]
    · exact absurd same (apart a ha b hb).2.2
    · exact absurd same.symm (apart b hb a ha).2.2
    · rw [(apart a ha b hb).2.1 same]

instance [Blake3] (A : Finset Address) : Decidable (KeysApart A) :=
  decidable_of_iff _ keysApart_iff.symm

theorem sum_add_of_single_change [DecidableEq ι] {A : Finset ι} {f g : ι → Nat} {a : ι}
    (member : a ∈ A) (elsewhere : ∀ b ∈ A, b ≠ a → f b = g b) :
    ∑ b ∈ A, f b + g a = ∑ b ∈ A, g b + f a := by
  have rest : ∑ b ∈ A.erase a, f b = ∑ b ∈ A.erase a, g b :=
    Finset.sum_congr rfl fun b h => elsewhere b (Finset.mem_of_mem_erase h) (Finset.ne_of_mem_erase h)
  rw [← Finset.add_sum_erase A f member, ← Finset.add_sum_erase A g member, rest]
  omega

theorem SparseMerkleTree.get_insert [Blake3] {keys : Set Bytes} (apart : Set.InjOn blake3 keys)
    (t : SparseMerkleTree) {key other : Bytes} (value : Bytes) (hk : key ∈ keys)
    (ho : other ∈ keys) :
    (t.insert key value).get other = if other = key then some value else t.get other := by
  rw [get, insert, HashMap.lookup_insert_if]
  by_cases same : other = key
  · simp [same]
  · rw [if_neg fun collision => same (apart ho hk collision), if_neg same, get]

namespace StateMachine

variable [Blake3]

def account (s : StateMachine) (a : Address) : Option Account :=
  (s.state.get (accountKey a)).bind fun bytes => (Codec.account.decode bytes).map Prod.fst

def balance (s : StateMachine) (a : Address) : Nat :=
  ((s.account a).getD (Account.new 0)).balance.toNat

def stake (s : StateMachine) (a : Address) : Nat :=
  ((s.getValidator a).map fun e => e.stake.toNat).getD 0

def total (A : Finset Address) (s : StateMachine) : Nat := ∑ a ∈ A, (s.balance a + s.stake a)

/-- What every run keeps, for a set of addresses that the run stays within. -/
structure Sound (A : Finset Address) (s : StateMachine) : Prop where
  apart : KeysApart A
  accounts : ∀ a ∈ A, ∀ bytes, s.state.get (accountKey a) = some bytes →
    ∃ x, bytes = Codec.account.encode x
  entries : ∀ a ∈ A, ∀ bytes, s.state.get (validatorKey a) = some bytes →
    ∃ e, e.address = a ∧ bytes = Codec.validatorEntry.encode e
  leaves : ∀ digest, s.state.leaves.lookup digest ≠ none → ∃ key ∈ treeKeys A, digest = blake3 key
  index : ∀ a, a ∈ s.validators ↔ a ∈ A ∧ (s.getValidator a).isSome
  active : ∀ a ∈ s.activeSet, a ∈ A
  cache : s.state.CacheValid

section Reads

variable {A : Finset Address} {s : StateMachine} {a b : Address}

theorem account_setAccount (apart : KeysApart A) (ha : a ∈ A) (hb : b ∈ A) (x : Account) :
    (s.setAccount a x).account b = if b = a then some x else s.account b := by
  rw [account, setAccount, SparseMerkleTree.get_insert apart _ _ (mem_treeKeys_account ha)
    (mem_treeKeys_account hb)]
  by_cases same : b = a
  · simp [same, Codec.decode_encode_nil]
  · rw [if_neg fun h => same (accountKey_injective h), if_neg same, account]

theorem getValidator_setAccount (apart : KeysApart A) (ha : a ∈ A) (hb : b ∈ A) (x : Account) :
    (s.setAccount a x).getValidator b = s.getValidator b := by
  rw [getValidator, setAccount, SparseMerkleTree.get_insert apart _ _ (mem_treeKeys_account ha)
    (mem_treeKeys_validator hb), if_neg (accountKey_ne_validatorKey a b).symm, getValidator]

theorem account_setValidator (apart : KeysApart A) (ha : a ∈ A) (hb : b ∈ A) (e : ValidatorEntry) :
    (s.setValidator a e).account b = s.account b := by
  rw [account, setValidator, SparseMerkleTree.get_insert apart _ _ (mem_treeKeys_validator ha)
    (mem_treeKeys_account hb), if_neg (accountKey_ne_validatorKey b a), account]

theorem getValidator_setValidator (apart : KeysApart A) (ha : a ∈ A) (hb : b ∈ A)
    (e : ValidatorEntry) :
    (s.setValidator a e).getValidator b = if b = a then some e else s.getValidator b := by
  rw [getValidator, setValidator, SparseMerkleTree.get_insert apart _ _ (mem_treeKeys_validator ha)
    (mem_treeKeys_validator hb)]
  by_cases same : b = a
  · simp [same, Codec.decode_encode_nil]
  · rw [if_neg fun h => same (validatorKey_injective h), if_neg same, getValidator]

theorem total_setAccount (apart : KeysApart A) (s : StateMachine) (ha : a ∈ A) (x : Account) :
    (s.setAccount a x).total A + s.balance a = s.total A + x.balance.toNat := by
  have here : (s.setAccount a x).balance a = x.balance.toNat := by
    simp [balance, account_setAccount apart ha ha]
  have change := sum_add_of_single_change (f := fun b => (s.setAccount a x).balance b +
    (s.setAccount a x).stake b) (g := fun b => s.balance b + s.stake b) ha ?_
  · simp only [here, stake, getValidator_setAccount apart ha ha] at change
    simp only [total, stake]
    omega
  · intro b hb other
    simp [balance, stake, account_setAccount apart ha hb, getValidator_setAccount apart ha hb, other]

theorem total_setValidator (apart : KeysApart A) (s : StateMachine) (ha : a ∈ A)
    (e : ValidatorEntry) :
    (s.setValidator a e).total A + s.stake a = s.total A + e.stake.toNat := by
  have here : (s.setValidator a e).stake a = e.stake.toNat := by
    simp [stake, getValidator_setValidator apart ha ha]
  have change := sum_add_of_single_change (f := fun b => (s.setValidator a e).balance b +
    (s.setValidator a e).stake b) (g := fun b => s.balance b + s.stake b) ha ?_
  · simp only [here, balance, account_setValidator apart ha ha] at change
    simp only [total, balance]
    omega
  · intro b hb other
    simp [balance, stake, account_setValidator apart ha hb, getValidator_setValidator apart ha hb,
      other]

end Reads

namespace Sound

variable {A : Finset Address} {s : StateMachine} {a b : Address}

theorem getAccount (sound : Sound A s) (ha : a ∈ A) : s.getAccount a = .ok (s.account a) := by
  unfold StateMachine.getAccount StateMachine.account
  cases found : s.state.get (accountKey a) with
  | none => rfl
  | some bytes =>
    obtain ⟨x, rfl⟩ := sound.accounts a ha bytes found
    simp [scaleDecodeAccount, Codec.decode_encode_nil, Functor.map, Except.map]

theorem getValidator_address (sound : Sound A s) (ha : a ∈ A) {e : ValidatorEntry}
    (found : s.getValidator a = some e) : e.address = a := by
  unfold StateMachine.getValidator at found
  cases leaf : s.state.get (validatorKey a) with
  | none => simp [leaf] at found
  | some bytes =>
    obtain ⟨x, same, rfl⟩ := sound.entries a ha bytes leaf
    simp only [leaf, Option.bind_some, Codec.decode_encode_nil _ (validatorEntry_fits x),
      Option.map_some, Option.some.injEq] at found
    rw [← found, same]

theorem insert_leaves (sound : Sound A s) {key : Bytes} (member : key ∈ treeKeys A) (value : Bytes) :
    ∀ digest, (s.state.insert key value).leaves.lookup digest ≠ none →
      ∃ key ∈ treeKeys A, digest = blake3 key := by
  intro digest present
  rw [SparseMerkleTree.insert, HashMap.lookup_insert_if] at present
  split at present
  next here => exact ⟨key, member, here⟩
  next => exact sound.leaves digest present

theorem setAccount (sound : Sound A s) (ha : a ∈ A) (x : Account) : Sound A (s.setAccount a x) where
  apart := sound.apart
  accounts := by
    intro b hb bytes found
    rw [StateMachine.setAccount, SparseMerkleTree.get_insert sound.apart _ _
      (mem_treeKeys_account ha) (mem_treeKeys_account hb)] at found
    split at found
    next => exact ⟨x, (Option.some.inj found).symm⟩
    next => exact sound.accounts b hb bytes found
  entries := by
    intro b hb bytes found
    rw [StateMachine.setAccount, SparseMerkleTree.get_insert sound.apart _ _
      (mem_treeKeys_account ha) (mem_treeKeys_validator hb),
      if_neg (accountKey_ne_validatorKey a b).symm] at found
    exact sound.entries b hb bytes found
  leaves := insert_leaves sound (mem_treeKeys_account ha) _
  index := by
    intro b
    rw [show (s.setAccount a x).validators = s.validators from rfl, sound.index]
    exact and_congr_right fun hb => by rw [getValidator_setAccount sound.apart ha hb]
  active := sound.active
  cache := SparseMerkleTree.insert_cacheValid _ _ _

theorem setValidator (sound : Sound A s) (ha : a ∈ A) {e : ValidatorEntry} (same : e.address = a) :
    Sound A (s.setValidator a e) where
  apart := sound.apart
  accounts := by
    intro b hb bytes found
    rw [StateMachine.setValidator, SparseMerkleTree.get_insert sound.apart _ _
      (mem_treeKeys_validator ha) (mem_treeKeys_account hb),
      if_neg (accountKey_ne_validatorKey b a)] at found
    exact sound.accounts b hb bytes found
  entries := by
    intro b hb bytes found
    rw [StateMachine.setValidator, SparseMerkleTree.get_insert sound.apart _ _
      (mem_treeKeys_validator ha) (mem_treeKeys_validator hb)] at found
    split at found
    next here => exact ⟨e, same.trans (validatorKey_injective here).symm, (Option.some.inj found).symm⟩
    next => exact sound.entries b hb bytes found
  leaves := insert_leaves sound (mem_treeKeys_validator ha) _
  index := by
    intro b
    rw [show (s.setValidator a e).validators = insert a s.validators from rfl, Finset.mem_insert,
      sound.index]
    constructor
    · rintro (rfl | ⟨hb, found⟩)
      · exact ⟨ha, by simp [getValidator_setValidator sound.apart ha ha]⟩
      · refine ⟨hb, ?_⟩
        rw [getValidator_setValidator sound.apart ha hb]
        split <;> simp [found]
    · rintro ⟨hb, found⟩
      rw [getValidator_setValidator sound.apart ha hb] at found
      split at found
      next here => exact .inl here
      next => exact .inr ⟨hb, found⟩
  active := sound.active
  cache := SparseMerkleTree.insert_cacheValid _ _ _

theorem setActiveSet (sound : Sound A s) {set : List Address} (within : ∀ a ∈ set, a ∈ A) :
    Sound A (s.setActiveSet set) :=
  ⟨sound.apart, sound.accounts, sound.entries, sound.leaves, sound.index, within, sound.cache⟩

/-- A leaf is the encoding of what the ledger reads there. -/
theorem get_accountKey (sound : Sound A s) (ha : a ∈ A) :
    s.state.get (accountKey a) = (s.account a).map Codec.account.encode := by
  unfold StateMachine.account
  cases found : s.state.get (accountKey a) with
  | none => rfl
  | some bytes =>
    obtain ⟨x, rfl⟩ := sound.accounts a ha bytes found
    simp [Codec.decode_encode_nil]

theorem get_validatorKey (sound : Sound A s) (ha : a ∈ A) :
    s.state.get (validatorKey a) = (s.getValidator a).map Codec.validatorEntry.encode := by
  unfold StateMachine.getValidator
  cases found : s.state.get (validatorKey a) with
  | none => rfl
  | some bytes =>
    obtain ⟨e, _, rfl⟩ := sound.entries a ha bytes found
    simp [Codec.decode_encode_nil]

end Sound

/-- A cached root is returned, and without one the root is computed. -/
theorem stateRoot_returns (s : StateMachine) : Returns s.stateRoot := by
  have returns : Returns s.state.root := by
    cases cached : s.state.cachedRoot with
    | some root => exact ⟨(root, s.state), by simp [SparseMerkleTree.root, SparseMerkleTree.rootIn, cached]⟩
    | none =>
      have valid : s.state.CacheValid := by
        intro root same
        rw [cached] at same
        cases same
      obtain ⟨after, same, -⟩ := SparseMerkleTree.root_eq valid
      exact ⟨_, same⟩
  obtain ⟨root, read⟩ := returns
  rw [stateRoot, read, ok_bind]
  exact returns_pure _

/-- Reading the root leaves everything but the cached root as it was. -/
theorem Sound.stateRoot {A : Finset Address} {s : StateMachine} (sound : Sound A s) :
    ∃ t, s.stateRoot = .ok (SparseMerkleTree.referenceRoot s.state.leaves, t) ∧ Sound A t ∧
      t.state.leaves = s.state.leaves ∧ t.activeSet = s.activeSet ∧ t.validators = s.validators := by
  obtain ⟨after, root, same, valid⟩ := SparseMerkleTree.root_eq sound.cache
  refine ⟨{ s with state := after }, ?_, ?_, same, rfl, rfl⟩
  · rw [StateMachine.stateRoot, root, ok_bind]
    rfl
  · have get (key : Bytes) : after.get key = s.state.get key := by
      rw [SparseMerkleTree.get, SparseMerkleTree.get, same]
    have entry (a : Address) : ({ s with state := after } : StateMachine).getValidator a =
        s.getValidator a := by rw [getValidator, getValidator, get]
    refine ⟨sound.apart, ?_, ?_, ?_, ?_, sound.active, valid⟩
    · simpa only [get] using sound.accounts
    · simpa only [get] using sound.entries
    · simpa only [same] using sound.leaves
    · simpa only [entry] using sound.index

/-- Two machines hold the same accounts and the same entries. -/
structure SameLedger (A : Finset Address) (s t : StateMachine) : Prop where
  account : ∀ a ∈ A, s.account a = t.account a
  entry : ∀ a ∈ A, s.getValidator a = t.getValidator a

/-- The ledger determines every leaf of the tree. -/
theorem SameLedger.lookup_eq {A : Finset Address} {s t : StateMachine} (same : SameLedger A s t)
    (hs : Sound A s) (ht : Sound A t) (digest : Digest) :
    s.state.leaves.lookup digest = t.state.leaves.lookup digest := by
  have agree {key : Bytes} (member : key ∈ treeKeys A) : s.state.get key = t.state.get key := by
    obtain ⟨a, ha, rfl | rfl⟩ := member
    · rw [hs.get_accountKey ha, ht.get_accountKey ha, same.account a ha]
    · rw [hs.get_validatorKey ha, ht.get_validatorKey ha, same.entry a ha]
  by_cases left : s.state.leaves.lookup digest = none
  · by_cases right : t.state.leaves.lookup digest = none
    · rw [left, right]
    · obtain ⟨key, member, rfl⟩ := ht.leaves digest right
      exact agree member
  · obtain ⟨key, member, rfl⟩ := hs.leaves digest left
    exact agree member

theorem sameLedger_of_lookup_eq {A : Finset Address} {s t : StateMachine}
    (same : ∀ digest, s.state.leaves.lookup digest = t.state.leaves.lookup digest) :
    SameLedger A s t where
  account a _ := by rw [account, account, SparseMerkleTree.get, SparseMerkleTree.get, same]
  entry a _ := by
    rw [getValidator, getValidator, SparseMerkleTree.get, SparseMerkleTree.get, same]

/-- Whoever reads the root is left with the same ledger. -/
theorem Sound.rooted {A : Finset Address} {s t : StateMachine} {root : Digest} (sound : Sound A s)
    (read : s.stateRoot = .ok (root, t)) :
    Sound A t ∧ SameLedger A s t ∧ t.activeSet = s.activeSet := by
  obtain ⟨after, same, soundAfter, leaves, active, -⟩ := sound.stateRoot
  rw [same] at read
  cases read
  exact ⟨soundAfter, sameLedger_of_lookup_eq fun digest => by rw [leaves], active⟩

end StateMachine

/-- The tree maps the same keys to the same values. Of the cached root nothing is said. -/
structure SameContents (s t : StateMachine) : Prop where
  leaves : ∀ key, s.state.leaves.lookup key = t.state.leaves.lookup key
  validators : s.validators = t.validators
  activeSet : s.activeSet = t.activeSet

namespace SameContents

variable {s t u : StateMachine}

theorem refl (s : StateMachine) : SameContents s s := ⟨fun _ => rfl, rfl, rfl⟩

theorem trans (first : SameContents s t) (second : SameContents t u) : SameContents s u :=
  ⟨fun key => (first.leaves key).trans (second.leaves key), first.validators.trans second.validators,
    first.activeSet.trans second.activeSet⟩

variable [Blake3]

theorem get (same : SameContents s t) (key : Bytes) : t.state.get key = s.state.get key :=
  (same.leaves (blake3 key)).symm

theorem stateRoot {root : Digest} (read : s.stateRoot = .ok (root, t)) : SameContents s t := by
  obtain ⟨⟨_, tree⟩, rooted, read⟩ := bind_eq_ok.mp read
  cases read
  have leaves : tree.leaves = s.state.leaves := by
    simp only [SparseMerkleTree.root, SparseMerkleTree.rootIn] at rooted
    split at rooted
    next =>
      cases rooted
      rfl
    next =>
      split at rooted
      next =>
        cases rooted
        rfl
      next =>
        obtain ⟨_, -, rooted⟩ := bind_eq_ok.mp rooted
        cases rooted
        rfl
  exact ⟨fun key => by rw [leaves], rfl, rfl⟩

theorem setValidator {a : Address} {entry : ValidatorEntry} (listed : a ∈ s.validators)
    (there : s.state.get (validatorKey a) = some (Codec.validatorEntry.encode entry)) :
    SameContents s (s.setValidator a entry) := by
  refine ⟨fun key => ?_, (Finset.insert_eq_of_mem listed).symm, rfl⟩
  change _ = (s.state.leaves.insert _ _).lookup key
  rw [HashMap.lookup_insert_if]
  split
  next same =>
    rw [same]
    exact there
  next => rfl

end SameContents

end Mononium
