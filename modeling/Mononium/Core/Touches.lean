import Mononium.Core.Frame

/-! The writes of the ledger. Whatever operation is carried out, the store changes by writes of
accounts, of entries under their own addresses, and of the active set; the governance namespace
stays what it is. -/
namespace Mononium

open Rust Scale

namespace StateMachine

structure Placed [Blake3] (A : Finset Address) (s : StateMachine) : Prop where
  entries : ∀ a ∈ A, ∀ e, s.getValidator a = some e → e.address = a
  active : ∀ a ∈ s.activeSet, a ∈ A

/-- One write of the ledger within `A`. -/
inductive Touch [Blake3] (A : Finset Address) (s : StateMachine) : StateMachine → Prop
  | account {a : Address} (member : a ∈ A) (x : Account) : Touch A s (s.setAccount a x)
  | entry {a : Address} {e : ValidatorEntry} (member : a ∈ A) (own : e.address = a) :
    Touch A s (s.setValidator a e)
  | active {activeSet : List Address} (within : ∀ a ∈ activeSet, a ∈ A) :
    Touch A s (s.setActiveSet activeSet)
  | cache {t : StateMachine} (contents : SameContents s t) : Touch A s t

abbrev Touches [Blake3] (A : Finset Address) : StateMachine → StateMachine → Prop :=
  Relation.ReflTransGen (Touch A)

variable [Blake3] {A : Finset Address} {G : Finset Bytes} {s t : StateMachine}

theorem Touch.governance (touch : Touch A s t) (apart : StoreApart A G) {k : Bytes} (member : k ∈ G) :
    t.governanceGet k = s.governanceGet k := by
  have there : governanceKey k ∈ storeKeys A G := mem_storeKeys_governance member
  cases touch with
  | account within x =>
    exact get_insert_of_ne apart s _ (mem_storeKeys_account within) there
      (accountKey_ne_governanceKey _ k).symm
  | entry within own =>
    exact get_insert_of_ne apart s _ (mem_storeKeys_validator within) there
      (validatorKey_ne_governanceKey _ k).symm
  | active within => rfl
  | cache contents => exact contents.get _

theorem Touch.placed (touch : Touch A s t) (apart : StoreApart A G) (placed : Placed A s) :
    Placed A t := by
  cases touch with
  | @account a within x =>
    refine ⟨fun b hb e found => placed.entries b hb e ?_, placed.active⟩
    have kept := get_insert_of_ne apart s (Codec.account.encode x) (mem_storeKeys_account within)
      (mem_storeKeys_validator hb) (accountKey_ne_validatorKey a b).symm
    rwa [getValidator, setAccount, kept] at found
  | @entry a written within own =>
    refine ⟨fun b hb e found => ?_, placed.active⟩
    by_cases same : b = a
    · subst same
      have stored : (s.setValidator b written).getValidator b = some written := by
        simp [getValidator, setValidator, SparseMerkleTree.get, SparseMerkleTree.insert,
          Codec.decode_encode_nil]
      cases stored.symm.trans found
      exact own
    · have kept := get_insert_of_ne apart s (Codec.validatorEntry.encode written)
        (mem_storeKeys_validator within) (mem_storeKeys_validator hb)
        fun collision => same (validatorKey_injective collision)
      refine placed.entries b hb e ?_
      rwa [getValidator, setValidator, kept] at found
  | active within => exact ⟨placed.entries, within⟩
  | cache contents =>
    refine ⟨fun b hb e found => placed.entries b hb e ?_, ?_⟩
    · rwa [getValidator, contents.get] at found
    · rw [← contents.activeSet]
      exact placed.active

theorem Touches.governance (touches : Touches A s t) (apart : StoreApart A G) {k : Bytes}
    (member : k ∈ G) : t.governanceGet k = s.governanceGet k := by
  induction touches with
  | refl => rfl
  | tail _ touch ih => rw [touch.governance apart member, ih]

theorem Touches.placed (touches : Touches A s t) (apart : StoreApart A G) (placed : Placed A s) :
    Placed A t := by
  induction touches with
  | refl => exact placed
  | tail _ touch ih => exact touch.placed apart ih

/-! Blocks. -/

theorem Effect.touches {tx : Transaction} (effect : Effect s tx t) (placed : Placed A s)
    (within : tx.Within A) : Touches A s t := by
  cases effect with
  | pays body _ => exact .single (.account (within.recipient body) _)
  | registers _ _ | founds _ _ => exact .single (.entry within.1 rfl)
  | stakes body found _ =>
    have member := within.validator (.inl body)
    have own := placed.entries _ member _ found
    exact .single (.entry member own)
  | unstakes body found _ _ =>
    have member := within.validator (.inr body)
    have own := placed.entries _ member _ found
    exact .single (.entry member own)
  | charges _ => exact .refl

theorem Outcome.touches {chainId : U64} {p q : Progress} {tx : Transaction}
    (outcome : Outcome chainId p tx q) (placed : Placed A p.machine) (within : tx.Within A) :
    Touches A p.machine q.machine := by
  cases outcome with
  | skipped _ _ | unpaid _ _ _ _ _ _ | spoiledUnpaid _ _ _ _ _ => exact .refl
  | executed _ _ _ _ effect _ _ => exact (effect.touches placed within).tail (.account within.1 _)
  | rejected _ _ _ _ _ _ _ | spoiled _ _ _ _ _ _ _ => exact .single (.account within.1 _)

theorem applyTxs_touches {chainId : U64} {p q : Progress} {txs : List Transaction}
    (apart : StoreApart A G) (placed : Placed A p.machine) (within : ∀ tx ∈ txs, tx.Within A)
    (h : applyTxs chainId p txs = .ok q) : Touches A p.machine q.machine := by
  refine foldlM_invariant (P := fun q => Touches A p.machine q.machine) ?_ .refl h
  intro q tx member r before stepped
  exact before.trans ((applyTx_outcome stepped).touches (before.placed apart placed) (within tx member))

theorem creditBalance_touches {a : Address} {amount : U256} (member : a ∈ A)
    (h : s.creditBalance a amount = .ok t) : Touches A s t := by
  obtain ⟨found, -, h⟩ := bind_eq_ok.mp h
  cases h
  exact .single (.account member _)

theorem distributeFees_touches {fees : U128} (active : ∀ a ∈ s.activeSet, a ∈ A)
    (h : s.distributeFees fees = .ok t) : Touches A s t := by
  have paid {pair : U256 × Address} (listed : pair ∈ s.stakePairs.insertionSort remainderOrder) :
      pair.2 ∈ A := by
    obtain ⟨a, here, made⟩ :=
      List.mem_filterMap.mp ((List.perm_insertionSort remainderOrder s.stakePairs).mem_iff.mp listed)
    obtain ⟨v, -, rfl⟩ := Option.map_eq_some_iff.mp made
    exact active a here
  unfold distributeFees at h
  split at h
  next =>
    cases h
    exact .refl
  next =>
    dsimp only at h
    split at h
    next =>
      cases h
      exact .refl
    next =>
      obtain ⟨⟨middle, distributed⟩, looped, h⟩ := bind_eq_ok.mp h
      have shares : Touches A s middle := by
        refine foldlM_invariant (P := fun acc : StateMachine × U256 => Touches A s acc.1) ?_ .refl looped
        rintro acc pair here after before credited
        obtain ⟨product, -, credited⟩ := bind_eq_ok.mp credited
        obtain ⟨share, -, credited⟩ := bind_eq_ok.mp credited
        split at credited
        next =>
          cases credited
          exact before
        next =>
          obtain ⟨machine, share_, credited⟩ := bind_eq_ok.mp credited
          cases credited
          exact before.trans (creditBalance_touches (paid here) share_)
      dsimp only at h
      split at h
      next =>
        split at h
        next a top =>
          obtain ⟨remainder, -, rest⟩ := bind_eq_ok.mp h
          exact shares.trans (creditBalance_touches (paid (List.mem_of_mem_head? top)) rest)
        next =>
          cases h
          exact shares
      next =>
        cases h
        exact shares

theorem applyBlock_touches {block : Block} {receipt : BlockReceipt} (apart : StoreApart A G)
    (placed : Placed A s) (within : ∀ tx ∈ block.body.transactions, tx.Within A)
    (h : s.applyBlock block = .ok (receipt, t)) : Touches A s t := by
  obtain ⟨p, looped, h⟩ := bind_eq_ok.mp h
  obtain ⟨middle, distributed, h⟩ := bind_eq_ok.mp h
  obtain ⟨⟨root, after⟩, rooted, h⟩ := bind_eq_ok.mp h
  cases h
  have loop : Touches A s p.machine := applyTxs_touches apart placed within looped
  have shares := distributeFees_touches (loop.placed apart placed).active distributed
  exact (loop.trans shares).tail (.cache (SameContents.stateRoot rooted))

/-! The operations between blocks. -/

theorem applySlash_touches {proposer reporter : Address} {era : U64} {result : Result SlashResult}
    (placed : Placed A s) (hp : proposer ∈ A) (hr : reporter ∈ A) (hb : burnAddress ∈ A)
    (h : s.applySlash proposer reporter era = .ok (result, t)) : Touches A s t := by
  unfold applySlash at h
  cases found : s.getValidator proposer with
  | none =>
    simp only [found] at h
    cases h
    exact .refl
  | some e =>
    simp only [found] at h
    split at h
    next =>
      cases h
      exact .refl
    next =>
      obtain ⟨product, -, h⟩ := bind_eq_ok.mp h
      obtain ⟨cut, -, h⟩ := bind_eq_ok.mp h
      obtain ⟨product, -, h⟩ := bind_eq_ok.mp h
      obtain ⟨burnt, -, h⟩ := bind_eq_ok.mp h
      obtain ⟨product, -, h⟩ := bind_eq_ok.mp h
      obtain ⟨bounty, -, h⟩ := bind_eq_ok.mp h
      obtain ⟨remaining, -, h⟩ := bind_eq_ok.mp h
      obtain ⟨first, burn, h⟩ := bind_eq_ok.mp h
      obtain ⟨second, reward, h⟩ := bind_eq_ok.mp h
      obtain ⟨frozenUntil, -, h⟩ := bind_eq_ok.mp h
      cases h
      have own := placed.entries proposer hp e found
      exact ((creditBalance_touches hb burn).trans (creditBalance_touches hr reward)).tail
        (.entry hp own)

theorem processUnstakingCooldown_touches {v : Address} {era : U64} (placed : Placed A s)
    (member : v ∈ A) (h : s.processUnstakingCooldown v era = .ok t) : Touches A s t := by
  unfold processUnstakingCooldown at h
  cases found : s.getValidator v with
  | none =>
    simp only [found] at h
    cases h
    exact .refl
  | some e =>
    have own := placed.entries v member e found
    simp only [found] at h
    split at h
    next =>
      split at h
      next =>
        cases h
        exact .refl
      next =>
        split at h
        next =>
          cases h
          exact .single (.entry member own)
        next =>
          obtain ⟨rest, -, h⟩ := bind_eq_ok.mp h
          cases h
          exact .single (.entry member own)
    next =>
      cases h
      exact .refl

theorem processThaw_touches {v : Address} (era : U64) (placed : Placed A s) (member : v ∈ A) :
    Touches A s (s.processThaw v era).1 := by
  unfold processThaw
  split
  next => exact .refl
  next e found =>
    have own := placed.entries v member e found
    split
    next =>
      split
      next => exact .refl
      next => exact .single (.entry member own)
    next => exact .refl

theorem thawAll_touches {addrs : List Address} (era : U64) (apart : StoreApart A G)
    (placed : Placed A s) (within : ∀ a ∈ addrs, a ∈ A) : Touches A s (s.thawAll addrs era).1 := by
  rw [thawAll_fst]
  induction addrs generalizing s with
  | nil => exact .refl
  | cons a addrs ih =>
    have first := processThaw_touches era placed (within a List.mem_cons_self)
    rw [List.foldl_cons]
    exact first.trans (ih (first.placed apart placed) fun b later => within b (List.mem_cons_of_mem _ later))

theorem runElection_touches {candidates : List Address} (max : Nat) (era : U64) (placed : Placed A s)
    (within : ∀ a ∈ candidates, a ∈ A) :
    Touches A s ((s.runElection candidates max era).2.setActiveSet (s.runElection candidates max era).1) := by
  have inside : ∀ e ∈ s.elected candidates max era, e.address ∈ A := by
    intro e member
    obtain ⟨a, here, found, -⟩ := eligible_member ((elected_subperm _ _ _ _).subset member)
    rw [placed.entries a (within a here) e found]
    exact within a here
  have loop (entries : List ValidatorEntry) (inside : ∀ e ∈ entries, e.address ∈ A) (m : StateMachine) :
      Touches A m (entries.foldl
        (fun machine e => machine.setValidator (activated e).address (activated e)) m) := by
    induction entries generalizing m with
    | nil => exact .refl
    | cons e entries ih =>
      rw [List.foldl_cons]
      refine .head (.entry ?_ rfl) (ih (fun e later => inside e (List.mem_cons_of_mem _ later)) _)
      rw [activated_address]
      exact inside e List.mem_cons_self
  refine (loop _ inside s).tail (.active fun a member => ?_)
  obtain ⟨e, here, rfl⟩ := List.mem_map.mp member
  exact inside e here

theorem step_touches {op : Op} (apart : StoreApart A G) (placed : Placed A s) (within : op.Within A)
    (h : s.step op = .ok t) : Touches A s t := by
  cases op with
  | block b =>
    obtain ⟨⟨receipt, m⟩, applied, h⟩ := bind_eq_ok.mp h
    cases h
    exact applyBlock_touches apart placed within applied
  | slash proposer reporter era =>
    obtain ⟨⟨result, m⟩, applied, h⟩ := bind_eq_ok.mp h
    cases h
    exact applySlash_touches placed within.1 within.2.1 within.2.2 applied
  | cooldown v era => exact processUnstakingCooldown_touches placed within h
  | thaw v era =>
    cases h
    exact processThaw_touches era placed within
  | thawAll addrs era =>
    cases h
    exact thawAll_touches era apart placed within
  | election candidates max era =>
    cases h
    exact runElection_touches max era placed within
  | setActiveSet activeSet =>
    cases h
    exact .single (.active within)
  | stateRoot =>
    obtain ⟨⟨root, m⟩, rooted, h⟩ := bind_eq_ok.mp h
    cases h
    exact .single (.cache (SameContents.stateRoot rooted))

end StateMachine

end Mononium
