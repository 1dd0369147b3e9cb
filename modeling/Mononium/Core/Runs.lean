import Mononium.Core.Block

/-! Runs of the state machine: the public operations as one step function, and what
every run from the initial accounts keeps. -/
namespace Mononium

open Rust Scale

/-- The operations of a run. An election here is `run_election` followed by
`set_active_set` of its result, as at an era boundary. -/
inductive Op where
  | block (block : Block)
  | slash (proposer reporter : Address) (currentEra : U64)
  | cooldown (validator : Address) (currentEra : U64)
  | thaw (validator : Address) (currentEra : U64)
  | thawAll (addrs : List Address) (currentEra : U64)
  | election (candidates : List Address) (max : Nat) (era : U64)
  | setActiveSet (activeSet : List Address)
  | stateRoot

def Op.Within (A : Finset Address) : Op → Prop
  | .block b => ∀ tx ∈ b.body.transactions, tx.Within A
  | .slash proposer reporter _ => proposer ∈ A ∧ reporter ∈ A ∧ burnAddress ∈ A
  | .cooldown validator _ | .thaw validator _ => validator ∈ A
  | .thawAll addrs _ => ∀ a ∈ addrs, a ∈ A
  | .election candidates _ _ => ∀ a ∈ candidates, a ∈ A
  | .setActiveSet activeSet => ∀ a ∈ activeSet, a ∈ A
  | .stateRoot => True

instance (A : Finset Address) : DecidablePred (Op.Within A)
  | .block b => inferInstanceAs (Decidable (∀ tx ∈ b.body.transactions, tx.Within A))
  | .slash proposer reporter _ =>
    inferInstanceAs (Decidable (proposer ∈ A ∧ reporter ∈ A ∧ burnAddress ∈ A))
  | .cooldown validator _ | .thaw validator _ => inferInstanceAs (Decidable (validator ∈ A))
  | .thawAll addrs _ => inferInstanceAs (Decidable (∀ a ∈ addrs, a ∈ A))
  | .election candidates _ _ => inferInstanceAs (Decidable (∀ a ∈ candidates, a ∈ A))
  | .setActiveSet activeSet => inferInstanceAs (Decidable (∀ a ∈ activeSet, a ∈ A))
  | .stateRoot => inferInstanceAs (Decidable True)

/-- The active set changes only through elections over distinct candidates. -/
def Op.Elective : Op → Prop
  | .election candidates _ _ => candidates.Nodup
  | .setActiveSet _ => False
  | _ => True

/-- What a slash takes of a stake, and what it makes of that, each part rounded down. -/
structure SlashResult.Splits (amounts : SlashResult) (stake : U256) : Prop where
  slashed : amounts.slashedAmount.toNat = stake.toNat * 90 / 100
  burned : amounts.burnAmount.toNat = amounts.slashedAmount.toNat * 90 / 100
  bounty : amounts.bountyAmount.toNat = amounts.slashedAmount.toNat * 10 / 100
  remaining : amounts.remainingStake.toNat + amounts.slashedAmount.toNat = stake.toNat

namespace StateMachine

theorem activated_address (e : ValidatorEntry) : (activated e).address = e.address := by
  cases status : e.status <;> simp [activated, status]

theorem activated_stake (e : ValidatorEntry) : (activated e).stake = e.stake := by
  cases status : e.status <;> simp [activated, status]

section Semantics

variable [Blake3]

def step (s : StateMachine) : Op → Exec StateMachine
  | .block block => do
    let (_, machine) ← s.applyBlock block
    return machine
  | .slash proposer reporter currentEra => do
    let (_, machine) ← s.applySlash proposer reporter currentEra
    return machine
  | .cooldown validator currentEra => s.processUnstakingCooldown validator currentEra
  | .thaw validator currentEra => return (s.processThaw validator currentEra).1
  | .thawAll addrs currentEra => return (s.thawAll addrs currentEra).1
  | .election candidates max era =>
    let (active, machine) := s.runElection candidates max era
    return machine.setActiveSet active
  | .setActiveSet activeSet => return s.setActiveSet activeSet
  | .stateRoot => do
    let (_, machine) ← s.stateRoot
    return machine

def run (s : StateMachine) (ops : List Op) : Exec StateMachine := ops.foldlM step s

/-- A machine that some run from the initial accounts leads to. -/
structure Reachable (A : Finset Address) (accounts : List (Address × Account))
    (s : StateMachine) : Prop where
  apart : KeysApart A
  genesis : ∀ p ∈ accounts, p.1 ∈ A
  reached : ∃ ops, (∀ op ∈ ops, op.Within A) ∧ run (new accounts) ops = .ok s

/-- A machine that a run from the initial accounts leads to in which the active set
changes only through elections. -/
structure ElectiveReachable (A : Finset Address) (accounts : List (Address × Account))
    (s : StateMachine) : Prop where
  apart : KeysApart A
  genesis : ∀ p ∈ accounts, p.1 ∈ A
  reached : ∃ ops, (∀ op ∈ ops, op.Within A ∧ op.Elective) ∧ run (new accounts) ops = .ok s

variable {A : Finset Address} {s t : StateMachine}

section Initial

theorem new_eq (accounts : List (Address × Account)) :
    new accounts = accounts.foldl (fun s p => s.setAccount p.1 p.2) (new []) := by
  have general (tree : SparseMerkleTree) :
      (⟨accounts.foldl (fun state p => state.insert (accountKey p.1) (Codec.account.encode p.2)) tree,
        [], ∅⟩ : StateMachine) = accounts.foldl (fun s p => s.setAccount p.1 p.2) ⟨tree, [], ∅⟩ := by
    induction accounts generalizing tree with
    | nil => rfl
    | cons p accounts ih => exact ih _
  exact general _

theorem sound_empty (apart : KeysApart A) : Sound A (new []) where
  apart := apart
  accounts _ _ _ found := by cases found
  entries _ _ _ found := by cases found
  leaves _ present := absurd rfl present
  index a := by simp [new, getValidator, SparseMerkleTree.get, SparseMerkleTree.new]
  active _ member := by cases member
  cache _ cached := by cases cached

theorem new_sound {accounts : List (Address × Account)} (apart : KeysApart A)
    (within : ∀ p ∈ accounts, p.1 ∈ A) :
    Sound A (new accounts) ∧ (new accounts).activeSet = [] ∧
      (new accounts).total A ≤ (accounts.map fun p => p.2.balance.toNat).sum := by
  have general (s : StateMachine) (sound : Sound A s) :
      Sound A (accounts.foldl (fun s p => s.setAccount p.1 p.2) s) ∧
      (accounts.foldl (fun s p => s.setAccount p.1 p.2) s).activeSet = s.activeSet ∧
      (accounts.foldl (fun s p => s.setAccount p.1 p.2) s).total A ≤
        s.total A + (accounts.map fun p => p.2.balance.toNat).sum := by
    induction accounts generalizing s with
    | nil => exact ⟨sound, rfl, by simp⟩
    | cons p accounts ih =>
      have member := within p List.mem_cons_self
      have written := total_setAccount apart s member p.2
      have rest := ih (fun p h => within p (List.mem_cons_of_mem _ h)) (s.setAccount p.1 p.2)
        (sound.setAccount member p.2)
      refine ⟨rest.1, rest.2.1, ?_⟩
      have bound := rest.2.2
      simp only [List.foldl_cons, List.map_cons, List.sum_cons]
      omega
  have zero : (new []).total A = 0 := by
    apply Finset.sum_eq_zero
    intro a _
    rfl
  rw [new_eq]
  have result := general _ (sound_empty apart)
  rw [zero, Nat.zero_add] at result
  exact result

end Initial

/-- Entries change without a gain of stake; accounts and the active set stay. -/
structure Adjusted (A : Finset Address) (s t : StateMachine) : Prop where
  sound : Sound A t
  account : ∀ a ∈ A, t.account a = s.account a
  stake : ∀ a ∈ A, t.stake a ≤ s.stake a
  active : t.activeSet = s.activeSet

namespace Adjusted

theorem refl (sound : Sound A s) : Adjusted A s s :=
  ⟨sound, fun _ _ => rfl, fun _ _ => Nat.le_refl _, rfl⟩

theorem trans {u : StateMachine} (first : Adjusted A s t) (second : Adjusted A t u) :
    Adjusted A s u :=
  ⟨second.sound, fun a ha => (second.account a ha).trans (first.account a ha),
    fun a ha => (second.stake a ha).trans (first.stake a ha), second.active.trans first.active⟩

theorem setValidator (sound : Sound A s) {a : Address} (ha : a ∈ A) {e : ValidatorEntry}
    (same : e.address = a) (le : e.stake.toNat ≤ s.stake a) : Adjusted A s (s.setValidator a e) where
  sound := sound.setValidator ha same
  account b hb := account_setValidator sound.apart ha hb e
  stake b hb := by
    rw [StateMachine.stake, getValidator_setValidator sound.apart ha hb]
    split
    next here => simpa [here] using le
    next => exact Nat.le_refl _
  active := rfl

theorem balance (adjusted : Adjusted A s t) {a : Address} (ha : a ∈ A) : t.balance a = s.balance a := by
  rw [StateMachine.balance, StateMachine.balance, adjusted.account a ha]

theorem total_le (adjusted : Adjusted A s t) : t.total A ≤ s.total A := by
  apply Finset.sum_le_sum
  intro a ha
  have same := adjusted.balance ha
  have less := adjusted.stake a ha
  omega

/-- Stake that is taken from one validator is missing from the total. -/
theorem total_lt (adjusted : Adjusted A s t) {v : Address} (hv : v ∈ A)
    (lost : t.stake v < s.stake v) : t.total A < s.total A := by
  apply Finset.sum_lt_sum
  · intro a ha
    have same := adjusted.balance ha
    have less := adjusted.stake a ha
    omega
  · have same := adjusted.balance hv
    exact ⟨v, hv, by omega⟩

end Adjusted

theorem stake_of_found {a : Address} {e : ValidatorEntry} (found : s.getValidator a = some e) :
    s.stake a = e.stake.toNat := by
  rw [stake, found]
  rfl

theorem processUnstakingCooldown_adjusted {v : Address} {era : U64} (sound : Sound A s)
    (member : v ∈ A) (h : s.processUnstakingCooldown v era = .ok t) : Adjusted A s t := by
  unfold processUnstakingCooldown at h
  cases found : s.getValidator v with
  | none =>
    simp only [found] at h
    cases h
    exact .refl sound
  | some e =>
    have same := sound.getValidator_address member found
    have stake := stake_of_found found
    simp only [found] at h
    split at h
    next release amount status =>
      split at h
      next => cases h; exact .refl sound
      next =>
        split at h
        next => cases h; exact .setValidator sound member same (Nat.zero_le _)
        next partial_ =>
          obtain ⟨rest, left, h⟩ := bind_eq_ok.mp h
          cases h
          have value := sub_eq_ok.mp left
          exact .setValidator sound member same (by dsimp only; omega)
    next => cases h; exact .refl sound

theorem processThaw_adjusted (v : Address) (era : U64) (sound : Sound A s) (member : v ∈ A) :
    Adjusted A s (s.processThaw v era).1 := by
  unfold processThaw
  split
  next => exact .refl sound
  next e found =>
    have same := sound.getValidator_address member found
    split
    next =>
      split
      next => exact .refl sound
      next => exact .setValidator sound member same (by rw [stake_of_found found])
    next => exact .refl sound

theorem thawAll_fst (s : StateMachine) (addrs : List Address) (era : U64) :
    (s.thawAll addrs era).1 = addrs.foldl (fun s a => (s.processThaw a era).1) s := by
  rw [thawAll]
  exact (List.foldl_hom Prod.fst (fun _ _ => rfl)).symm

theorem thawAll_adjusted (addrs : List Address) (era : U64) (sound : Sound A s)
    (within : ∀ a ∈ addrs, a ∈ A) : Adjusted A s (s.thawAll addrs era).1 := by
  rw [thawAll_fst]
  induction addrs generalizing s with
  | nil => exact .refl sound
  | cons a addrs ih =>
    have first := processThaw_adjusted a era sound (within a List.mem_cons_self)
    rw [List.foldl_cons]
    exact first.trans (ih first.sound fun a h => within a (List.mem_cons_of_mem _ h))

section Election

variable {candidates : List Address} {max : Nat} {era : U64}

theorem eligible_member {e : ValidatorEntry} (member : e ∈ s.eligible candidates) :
    ∃ a ∈ candidates, s.getValidator a = some e ∧ e.status.isFrozenOrUnstaking = false := by
  obtain ⟨a, here, found⟩ := List.mem_filterMap.mp member
  obtain ⟨found, open_⟩ := Option.filter_eq_some_iff.mp found
  exact ⟨a, here, found, by simpa using open_⟩

/-- Who is elected was eligible, once for each time it was. -/
theorem elected_subperm (s : StateMachine) (candidates : List Address) (max : Nat) (era : U64) :
    (s.elected candidates max era).Subperm (s.eligible candidates) := by
  unfold elected
  split
  next => exact (List.take_sublist _ _).subperm
  next =>
    exact ((List.take_sublist _ _).trans List.filter_sublist).subperm.trans
      (List.perm_insertionSort electionOrder _).subperm

theorem eligible_addresses_sublist (sound : Sound A s) (within : ∀ a ∈ candidates, a ∈ A) :
    ((s.eligible candidates).map (·.address)).Sublist candidates := by
  induction candidates with
  | nil => exact List.Sublist.slnil
  | cons a rest ih =>
    have below := ih fun a h => within a (List.mem_cons_of_mem _ h)
    cases found : (s.getValidator a).filter fun e => !e.status.isFrozenOrUnstaking with
    | none =>
      have skip : s.eligible (a :: rest) = s.eligible rest := by simp [eligible, found]
      rw [skip]
      exact below.cons a
    | some e =>
      have same := sound.getValidator_address (within a List.mem_cons_self)
        (Option.filter_eq_some_iff.mp found).1
      have keep : s.eligible (a :: rest) = e :: s.eligible rest := by simp [eligible, found]
      rw [keep, List.map_cons, same]
      exact below.cons_cons a

theorem elected_nodup (sound : Sound A s) (within : ∀ a ∈ candidates, a ∈ A)
    (nodup : candidates.Nodup) : ((s.elected candidates max era).map (·.address)).Nodup := by
  have distinct := nodup.sublist (eligible_addresses_sublist sound within)
  obtain ⟨reordered, perm, sublist⟩ := elected_subperm s candidates max era
  exact (((perm.map _).nodup_iff).mp (distinct.sublist (sublist.map _)))

theorem elected_known (sound : Sound A s) (within : ∀ a ∈ candidates, a ∈ A) {e : ValidatorEntry}
    (member : e ∈ s.elected candidates max era) :
    e.address ∈ A ∧ s.getValidator e.address = some e ∧ e.status.isFrozenOrUnstaking = false := by
  obtain ⟨a, here, found, open_⟩ := eligible_member ((elected_subperm _ _ _ _).subset member)
  have same := sound.getValidator_address (within a here) found
  exact same ▸ ⟨within a here, found, open_⟩

/-- Electing changes the status of the elected entries and nothing else. -/
theorem runElection_adjusted (candidates : List Address) (max : Nat) (era : U64) (sound : Sound A s)
    (within : ∀ a ∈ candidates, a ∈ A) :
    Adjusted A s (s.runElection candidates max era).2 ∧
      ∀ a ∈ (s.runElection candidates max era).1, a ∈ A := by
  have known : ∀ e ∈ s.elected candidates max era,
      e.address ∈ A ∧ s.getValidator e.address = some e := by
    intro e member
    obtain ⟨inside, found, -⟩ := elected_known sound within member
    exact ⟨inside, found⟩
  have general (entries : List ValidatorEntry) (known : ∀ e ∈ entries,
      e.address ∈ A ∧ s.getValidator e.address = some e) (m : StateMachine)
      (adjusted : Adjusted A s m) (kept : ∀ a ∈ A, m.stake a = s.stake a) :
      Adjusted A s (entries.foldl
        (fun machine e => machine.setValidator (activated e).address (activated e)) m) := by
    induction entries generalizing m with
    | nil => exact adjusted
    | cons e entries ih =>
      obtain ⟨member, found⟩ := known e List.mem_cons_self
      have stake : (activated e).stake.toNat = s.stake e.address := by
        rw [activated_stake, stake_of_found found]
      rw [List.foldl_cons, activated_address]
      refine ih (fun e h => known e (List.mem_cons_of_mem _ h)) _ ?_ ?_
      · exact adjusted.trans (.setValidator adjusted.sound member (activated_address e)
          (by rw [stake, kept _ member]))
      · intro a ha
        rw [StateMachine.stake, getValidator_setValidator adjusted.sound.apart member ha]
        split
        next here => simpa [here] using stake
        next => exact kept a ha
  refine ⟨general _ known s (.refl sound) fun _ _ => rfl, ?_⟩
  intro a member
  obtain ⟨e, here, rfl⟩ := List.mem_map.mp member
  exact (known e here).1

end Election

theorem total_credit_le (sound : Sound A s) {a : Address} (ha : a ∈ A) (amount : Nat) :
    (s.creditTo a amount).total A ≤ s.total A + amount := by
  have written := total_setAccount sound.apart s ha
    (((s.account a).getD (Account.new 0)).credit amount)
  rw [Account.credit_balance] at written
  unfold balance at written
  unfold creditTo
  omega

def slashed (s : StateMachine) (proposer reporter : Address) (e : ValidatorEntry)
    (amounts : SlashResult) (frozenUntil : U64) : StateMachine :=
  ((s.creditTo burnAddress amounts.burnAmount.toNat).creditTo reporter
    amounts.bountyAmount.toNat).setValidator proposer
      { e with stake := amounts.remainingStake, status := .frozen frozenUntil }

/-- A slash is refused and leaves the machine as it was, or it is carried out. -/
theorem applySlash_cases {proposer reporter : Address} {era : U64} {result : Result SlashResult}
    (sound : Sound A s) (hr : reporter ∈ A) (hb : burnAddress ∈ A)
    (h : s.applySlash proposer reporter era = .ok (result, t)) :
    (t = s ∧ (∃ reason, result = .error reason) ∧
      ∀ e, s.getValidator proposer = some e → e.status.isFrozen = true) ∨
    ∃ e amounts frozenUntil, s.getValidator proposer = some e ∧ e.status.isFrozen = false ∧
      amounts.Splits e.stake ∧ frozenUntil.toNat = era.toNat + 72 ∧
      result = .ok amounts ∧ t = s.slashed proposer reporter e amounts frozenUntil := by
  unfold applySlash at h
  cases found : s.getValidator proposer with
  | none =>
    simp only [found] at h
    cases h
    exact .inl ⟨rfl, ⟨_, rfl⟩, fun e absent => by cases absent⟩
  | some e =>
    simp only [found] at h
    split at h
    next frozen =>
      cases h
      refine .inl ⟨rfl, ⟨_, rfl⟩, fun other same => ?_⟩
      cases same
      exact frozen
    next unfrozen =>
      obtain ⟨product, p1, h⟩ := bind_eq_ok.mp h
      obtain ⟨slashed, q1, h⟩ := bind_eq_ok.mp h
      obtain ⟨burnProduct, p2, h⟩ := bind_eq_ok.mp h
      obtain ⟨burned, q2, h⟩ := bind_eq_ok.mp h
      obtain ⟨bountyProduct, p3, h⟩ := bind_eq_ok.mp h
      obtain ⟨bounty, q3, h⟩ := bind_eq_ok.mp h
      obtain ⟨remaining, left, h⟩ := bind_eq_ok.mp h
      rw [creditBalance_eq sound hb, ok_bind] at h
      have soundBurn : Sound A (s.creditTo burnAddress burned.toNat) := sound.setAccount hb _
      rw [creditBalance_eq soundBurn hr, ok_bind] at h
      obtain ⟨frozenUntil, later, h⟩ := bind_eq_ok.mp h
      cases h
      have splits : SlashResult.Splits ⟨slashed, burned, bounty, remaining⟩ e.stake := by
        constructor
        · rw [(div_eq_ok.mp q1).2, mul_eq_ok.mp p1]
          rfl
        · rw [(div_eq_ok.mp q2).2, mul_eq_ok.mp p2]
          rfl
        · rw [(div_eq_ok.mp q3).2, mul_eq_ok.mp p3]
          rfl
        · exact sub_eq_ok.mp left
      exact .inr ⟨e, _, frozenUntil, rfl, by simpa using unfrozen, splits, add_eq_ok.mp later, rfl, rfl⟩

/-- A slash hands on at most what it takes from the stake. -/
theorem applySlash_spec {proposer reporter : Address} {era : U64} {result : Result SlashResult}
    (sound : Sound A s) (hp : proposer ∈ A) (hr : reporter ∈ A) (hb : burnAddress ∈ A)
    (h : s.applySlash proposer reporter era = .ok (result, t)) :
    Sound A t ∧ t.activeSet = s.activeSet ∧ t.total A ≤ s.total A := by
  rcases applySlash_cases sound hr hb h with
    ⟨rfl, -⟩ | ⟨e, amounts, frozenUntil, found, -, splits, -, -, rfl⟩
  · exact ⟨sound, rfl, Nat.le_refl _⟩
  · have same := sound.getValidator_address hp found
    have soundBurn : Sound A (s.creditTo burnAddress amounts.burnAmount.toNat) :=
      sound.setAccount hb _
    refine ⟨(soundBurn.setAccount hr _).setValidator hp same, rfl, ?_⟩
    have burnBound := total_credit_le sound hb amounts.burnAmount.toNat
    have bountyBound := total_credit_le soundBurn hr amounts.bountyAmount.toNat
    have written := total_setValidator sound.apart ((s.creditTo burnAddress
      amounts.burnAmount.toNat).creditTo reporter amounts.bountyAmount.toNat) hp
      { e with stake := amounts.remainingStake, status := .frozen frozenUntil }
    rw [StateMachine.stake, getValidator_creditTo sound.apart hr hp,
      getValidator_creditTo sound.apart hb hp, found, Option.map_some, Option.getD_some] at written
    rw [slashed]
    have burned := splits.burned
    have bounty := splits.bounty
    have remaining := splits.remaining
    dsimp only at written
    omega

/-- What a step that returns has done. -/
inductive Stepped (s : StateMachine) : Op → StateMachine → Prop
  | block {block : Block} {receipt : BlockReceipt} {t : StateMachine}
      (applied : s.applyBlock block = .ok (receipt, t)) : Stepped s (.block block) t
  | slash {proposer reporter : Address} {era : U64} {result : Result SlashResult} {t : StateMachine}
      (applied : s.applySlash proposer reporter era = .ok (result, t)) :
      Stepped s (.slash proposer reporter era) t
  | cooldown {v : Address} {era : U64} {t : StateMachine}
      (applied : s.processUnstakingCooldown v era = .ok t) : Stepped s (.cooldown v era) t
  | thaw (v : Address) (era : U64) : Stepped s (.thaw v era) (s.processThaw v era).1
  | thawAll (addrs : List Address) (era : U64) :
      Stepped s (.thawAll addrs era) (s.thawAll addrs era).1
  | election (candidates : List Address) (max : Nat) (era : U64) :
      Stepped s (.election candidates max era)
        ((s.runElection candidates max era).2.setActiveSet (s.runElection candidates max era).1)
  | setActiveSet (activeSet : List Address) :
      Stepped s (.setActiveSet activeSet) (s.setActiveSet activeSet)
  | stateRoot {root : Digest} {t : StateMachine} (read : s.stateRoot = .ok (root, t)) :
      Stepped s .stateRoot t

theorem step_cases {op : Op} (h : s.step op = .ok t) : Stepped s op t := by
  cases op with
  | block b =>
    obtain ⟨⟨receipt, after⟩, applied, h⟩ := bind_eq_ok.mp h
    cases h
    exact .block applied
  | slash proposer reporter era =>
    obtain ⟨⟨result, after⟩, applied, h⟩ := bind_eq_ok.mp h
    cases h
    exact .slash applied
  | cooldown v era => exact .cooldown h
  | thaw v era =>
    cases h
    exact .thaw v era
  | thawAll addrs era =>
    cases h
    exact .thawAll addrs era
  | election candidates max era =>
    cases h
    exact .election candidates max era
  | setActiveSet set =>
    cases h
    exact .setActiveSet set
  | stateRoot =>
    obtain ⟨⟨root, after⟩, read, h⟩ := bind_eq_ok.mp h
    cases h
    exact .stateRoot read

/-- Every operation keeps the machine sound. -/
theorem step_sound {op : Op} (sound : Sound A s) (within : op.Within A) (h : s.step op = .ok t) :
    Sound A t := by
  cases step_cases h with
  | block applied =>
    obtain ⟨_, _, _, _, credited, _⟩ := applyBlock_spec sound within applied
    exact credited.sound
  | slash applied => exact (applySlash_spec sound within.1 within.2.1 within.2.2 applied).1
  | cooldown applied => exact (processUnstakingCooldown_adjusted sound within applied).sound
  | thaw v era => exact (processThaw_adjusted v era sound within).sound
  | thawAll addrs era => exact (thawAll_adjusted addrs era sound within).sound
  | election candidates max era =>
    obtain ⟨adjusted, members⟩ := runElection_adjusted candidates max era sound within
    exact adjusted.sound.setActiveSet members
  | setActiveSet set => exact sound.setActiveSet within
  | stateRoot read => exact (sound.rooted read).1

theorem run_sound {ops : List Op} (sound : Sound A s) (within : ∀ op ∈ ops, op.Within A)
    (h : s.run ops = .ok t) : Sound A t :=
  foldlM_invariant (P := fun s => Sound A s)
    (fun _ op member _ sound stepped => step_sound sound (within op member) stepped) sound h

theorem Reachable.sound {accounts : List (Address × Account)} (reachable : Reachable A accounts s) :
    Sound A s := by
  obtain ⟨ops, within, ran⟩ := reachable.reached
  exact run_sound (new_sound reachable.apart reachable.genesis).1 within ran

theorem new_reachable {accounts : List (Address × Account)} (apart : KeysApart A)
    (genesis : ∀ p ∈ accounts, p.1 ∈ A) : Reachable A accounts (new accounts) :=
  ⟨apart, genesis, [], by simp, rfl⟩

theorem Reachable.step {accounts : List (Address × Account)} (reachable : Reachable A accounts s)
    {op : Op} (within : op.Within A) (h : s.step op = .ok t) : Reachable A accounts t := by
  obtain ⟨ops, closed, ran⟩ := reachable.reached
  refine ⟨reachable.apart, reachable.genesis, ops ++ [op], ?_, ?_⟩
  · intro other member
    rcases List.mem_append.mp member with before | last
    · exact closed other before
    · exact List.mem_singleton.mp last ▸ within
  · rw [run, List.foldlM_append, ← run, ran, ok_bind, List.foldlM_cons, h]
    rfl

theorem Reachable.run {accounts : List (Address × Account)} (reachable : Reachable A accounts s)
    {ops : List Op} (within : ∀ op ∈ ops, op.Within A) (h : s.run ops = .ok t) :
    Reachable A accounts t :=
  foldlM_invariant (P := Reachable A accounts)
    (fun _ op member _ reachable stepped => reachable.step (within op member) stepped) reachable h

/-- Elections over distinct candidates keep the active set free of duplicates. -/
theorem step_distinct {op : Op} (sound : Sound A s) (distinct : s.activeSet.Nodup)
    (within : op.Within A) (elective : op.Elective) (h : s.step op = .ok t) :
    t.activeSet.Nodup := by
  cases step_cases h with
  | block applied =>
    obtain ⟨_, _, _, active, credited, _⟩ := applyBlock_spec sound within applied
    exact (credited.active.trans active) ▸ distinct
  | slash applied =>
    exact (applySlash_spec sound within.1 within.2.1 within.2.2 applied).2.1 ▸ distinct
  | cooldown applied => exact (processUnstakingCooldown_adjusted sound within applied).active ▸ distinct
  | thaw v era => exact (processThaw_adjusted v era sound within).active ▸ distinct
  | thawAll addrs era => exact (thawAll_adjusted addrs era sound within).active ▸ distinct
  | election candidates max era => exact elected_nodup sound within elective
  | setActiveSet set => exact elective.elim
  | stateRoot read => exact (sound.rooted read).2.2 ▸ distinct

theorem ElectiveReachable.sound {accounts : List (Address × Account)}
    (reached : ElectiveReachable A accounts s) : Sound A s ∧ s.activeSet.Nodup := by
  obtain ⟨ops, regular, ran⟩ := reached.reached
  obtain ⟨sound, active, _⟩ := new_sound reached.apart reached.genesis
  refine foldlM_invariant (P := fun s => Sound A s ∧ s.activeSet.Nodup) ?_
    ⟨sound, by rw [active]; exact List.nodup_nil⟩ ran
  intro s op member t ⟨sound, distinct⟩ stepped
  obtain ⟨within, elective⟩ := regular op member
  exact ⟨step_sound sound within stepped, step_distinct sound distinct within elective stepped⟩

end Semantics

section Sample

attribute [local instance] prefixBlake3

set_option maxRecDepth 4096

def founders : List (Address × Account) :=
  [(alice, Account.new (10 ^ 33)), (bob, Account.new (10 ^ 33))]

def founded (a : Address) (stake : U256) : ValidatorEntry :=
  ⟨a, FixedBytes.replicate 897 0, stake, .staked stake, 0⟩

def foundingBlock : Block :=
  testBlock [⟨0, 0, alice, 100, .registerAndStake alice (2 * 10 ^ 32), dummySig⟩,
    ⟨0, 0, bob, 100, .registerAndStake bob (10 ^ 32), dummySig⟩]

theorem founded_reachable :
    ∃ s, Reachable {alice, bob} founders s ∧
      s.getValidator alice = some (founded alice (2 * 10 ^ 32)) ∧
      s.getValidator bob = some (founded bob (10 ^ 32)) := by
  have apart : KeysApart {alice, bob} := by decide
  have genesis : ∀ p ∈ founders, p.1 ∈ ({alice, bob} : Finset Address) := by decide
  have within : ∀ tx ∈ foundingBlock.body.transactions, tx.Within {alice, bob} := by decide
  have sound := (new_sound apart genesis).1
  have looped : Returns (applyTxs 0 ⟨new founders, 0, 0, 0⟩ foundingBlock.body.transactions) := by
    decide
  have reached := looped.eq_ok ⟨new [], 0, 0, 0⟩
  obtain ⟨⟨receipt, s⟩, applied⟩ : Returns ((new founders).applyBlock foundingBlock) :=
    applyBlock_returns_idle sound within rfl reached
  obtain ⟨p, same, -, -, credited, -⟩ := applyBlock_spec sound within applied
  cases reached.symm.trans same
  refine ⟨s, ⟨apart, genesis, [.block foundingBlock], ?_, ?_⟩, ?_, ?_⟩
  · intro op member
    cases List.mem_singleton.mp member
    exact within
  · change (step (new founders) (.block foundingBlock) >>= fun s => pure s) = _
    rw [step, applied]
    rfl
  · rw [credited.entry alice (by decide)]
    decide
  · rw [credited.entry bob (by decide)]
    decide

end Sample

end StateMachine

end Mononium
