import Mononium.Core.Registry

/-! Where a slashed stake goes. Three roundings split one amount, and what the burn address
and the reporter receive is all of it exactly when it is a multiple of ten. -/
namespace Mononium

open Rust Scale

def slashedPart (stake : U256) : Nat := stake.toNat * 90 / 100

def burnedPart (stake : U256) : Nat := slashedPart stake * 90 / 100

def bountyPart (stake : U256) : Nat := slashedPart stake * 10 / 100

/-- What the slash of a stake adds to the balance of `a`. The reporter may be the burn
address. -/
def slashGrant (stake : U256) (reporter a : Address) : Nat :=
  (if a = burnAddress then burnedPart stake else 0) + if a = reporter then bountyPart stake else 0

def SlashResult.grant (amounts : SlashResult) (reporter a : Address) : Nat :=
  (if a = burnAddress then amounts.burnAmount.toNat else 0) +
    if a = reporter then amounts.bountyAmount.toNat else 0

namespace SlashResult.Splits

variable {amounts : SlashResult} {stake : U256}

theorem grant_eq (splits : amounts.Splits stake) (reporter a : Address) :
    amounts.grant reporter a = slashGrant stake reporter a := by
  simp only [grant, slashGrant, burnedPart, bountyPart, slashedPart, splits.burned, splits.bounty,
    splits.slashed]

/-- The rounded parts of an amount make it up when it is a multiple of ten. -/
theorem parts_iff (splits : amounts.Splits stake) :
    amounts.slashedAmount.toNat = amounts.burnAmount.toNat + amounts.bountyAmount.toNat ↔
      slashedPart stake % 10 = 0 := by
  rw [splits.burned, splits.bounty, splits.slashed, slashedPart]
  omega

theorem whole_iff (splits : amounts.Splits stake) :
    amounts.remainingStake.toNat + amounts.burnAmount.toNat + amounts.bountyAmount.toNat =
      stake.toNat ↔ slashedPart stake % 10 = 0 := by
  have remaining := splits.remaining
  rw [← splits.parts_iff]
  omega

end SlashResult.Splits

namespace StateMachine

section

variable [Blake3] {A : Finset Address} {s t : StateMachine} {proposer reporter a : Address}
  {e : ValidatorEntry} {amounts : SlashResult} {era frozenUntil : U64}

/-- What leaves the stake arrives at the burn address and at the reporter, and nothing else
changes. -/
structure ConservesSlash (A : Finset Address) (s t : StateMachine) (proposer reporter : Address)
    (e : ValidatorEntry) (amounts : SlashResult) : Prop where
  whole : amounts.remainingStake.toNat + amounts.burnAmount.toNat + amounts.bountyAmount.toNat =
    e.stake.toNat
  parts : amounts.slashedAmount.toNat = amounts.burnAmount.toNat + amounts.bountyAmount.toNat
  entry : ∃ frozenUntil, t.getValidator proposer =
    some { e with stake := amounts.remainingStake, status := .frozen frozenUntil }
  balances : ∀ a ∈ A, t.balance a = s.balance a + amounts.grant reporter a
  records : ∀ a ∈ A, a = burnAddress ∨ a = reporter → ∃ balance,
    t.account a = some { (s.account a).getD (Account.new 0) with balance }
  accounts : ∀ a ∈ A, a ≠ burnAddress → a ≠ reporter → t.account a = s.account a
  entries : ∀ a ∈ A, a ≠ proposer → t.getValidator a = s.getValidator a
  index : t.validators = s.validators
  active : t.activeSet = s.activeSet

theorem account_creditTo {b : Address} (apart : KeysApart A) (hb : b ∈ A) (ha : a ∈ A)
    (amount : Nat) : (s.creditTo b amount).account a =
      if a = b then some (((s.account a).getD (Account.new 0)).credit amount) else s.account a := by
  rw [creditTo, account_setAccount apart hb ha]
  split
  next same => rw [same]
  next => rfl

/-- Two credits of one account add up, so it does not matter who the reporter is. -/
theorem account_slashed (sound : Sound A s) (hp : proposer ∈ A) (hr : reporter ∈ A)
    (hb : burnAddress ∈ A) (ha : a ∈ A) :
    (s.slashed proposer reporter e amounts frozenUntil).account a =
      if a = burnAddress ∨ a = reporter then
        some (((s.account a).getD (Account.new 0)).credit (amounts.grant reporter a))
      else s.account a := by
  rw [slashed, account_setValidator sound.apart hp ha, account_creditTo sound.apart hr ha,
    account_creditTo sound.apart hb ha]
  by_cases burns : a = burnAddress
  · by_cases reports : a = reporter
    · simp [SlashResult.grant, burns, ← reports, Account.credit_credit]
    · simp [SlashResult.grant, burns, burns ▸ reports]
  · by_cases reports : a = reporter
    · simp [SlashResult.grant, reports, reports ▸ burns]
    · simp [burns, reports]

theorem balance_slashed (sound : Sound A s) (hp : proposer ∈ A) (hr : reporter ∈ A)
    (hb : burnAddress ∈ A) (ha : a ∈ A)
    (unsaturated : s.balance a + amounts.grant reporter a < 2 ^ 256) :
    (s.slashed proposer reporter e amounts frozenUntil).balance a =
      s.balance a + amounts.grant reporter a := by
  rw [balance, account_slashed sound hp hr hb ha]
  split
  next =>
    rw [balance] at unsaturated
    rw [Option.getD_some, Account.credit_balance, balance]
    omega
  next other =>
    rw [not_or] at other
    simp [SlashResult.grant, other, balance]

theorem getValidator_slashed (sound : Sound A s) (hp : proposer ∈ A) (hr : reporter ∈ A)
    (hb : burnAddress ∈ A) (ha : a ∈ A) :
    (s.slashed proposer reporter e amounts frozenUntil).getValidator a =
      if a = proposer then
        some { e with stake := amounts.remainingStake, status := .frozen frozenUntil }
      else s.getValidator a := by
  rw [slashed, getValidator_setValidator sound.apart hp ha, getValidator_creditTo sound.apart hr ha,
    getValidator_creditTo sound.apart hb ha]

/-- A slash that is carried out conserves value if its parts do. -/
theorem slashed_conserves (sound : Sound A s) (hp : proposer ∈ A) (hr : reporter ∈ A)
    (hb : burnAddress ∈ A) (found : s.getValidator proposer = some e)
    (splits : amounts.Splits e.stake) (exact_ : slashedPart e.stake % 10 = 0)
    (unsaturated : ∀ a ∈ A, s.balance a + slashGrant e.stake reporter a < 2 ^ 256) :
    ConservesSlash A s (s.slashed proposer reporter e amounts frozenUntil) proposer reporter e
      amounts where
  whole := splits.whole_iff.mpr exact_
  parts := splits.parts_iff.mpr exact_
  entry := ⟨frozenUntil, by rw [getValidator_slashed sound hp hr hb hp, if_pos rfl]⟩
  balances a ha := by
    have room := unsaturated a ha
    rw [← splits.grant_eq] at room
    exact balance_slashed sound hp hr hb ha room
  records a ha credited := by
    rw [account_slashed sound hp hr hb ha, if_pos credited]
    exact ⟨_, rfl⟩
  accounts a ha burns reports := by
    rw [account_slashed sound hp hr hb ha, if_neg (by simp [burns, reports])]
  entries a ha other := by
    rw [getValidator_slashed sound hp hr hb ha, if_neg other]
  index := Finset.insert_eq_of_mem ((sound.index proposer).mpr ⟨hp, by simp [found]⟩)
  active := rfl

theorem applySlash_returns (sound : Sound A s) (hr : reporter ∈ A) (hb : burnAddress ∈ A)
    (found : s.getValidator proposer = some e) (unfrozen : e.status.isFrozen = false) :
    Returns (s.applySlash proposer reporter era) ↔
      e.stake.toNat * 90 < 2 ^ 256 ∧ era.toNat + 72 < 2 ^ 64 := by
  have wide : Returns (mul e.stake 90) ↔ e.stake.toNat * 90 < 2 ^ 256 := mul_returns
  have late : Returns (add era 72) ↔ era.toNat + 72 < 2 ^ 64 := add_returns
  rw [← wide, ← late]
  simp only [applySlash, found, unfrozen, Bool.false_eq_true, if_false]
  refine returns_bind_iff fun product p1 => ?_
  have less := e.stake.isLt
  have slashedProduct : product.toNat = e.stake.toNat * 90 := mul_eq_ok.mp p1
  obtain ⟨slashed, q1⟩ : Returns (div product 100) := div_returns.mpr (by decide)
  have slashedValue : slashed.toNat = product.toNat / 100 := (div_eq_ok.mp q1).2
  have bound := product.isLt
  obtain ⟨burnProduct, p2⟩ : Returns (mul slashed 90) := mul_returns.mpr (by
    rw [show (90 : U256).toNat = 90 from rfl]
    omega)
  obtain ⟨burned, q2⟩ : Returns (div burnProduct 100) := div_returns.mpr (by decide)
  obtain ⟨bountyProduct, p3⟩ : Returns (mul slashed 10) := mul_returns.mpr (by
    rw [show (10 : U256).toNat = 10 from rfl]
    omega)
  obtain ⟨bounty, q3⟩ : Returns (div bountyProduct 100) := div_returns.mpr (by decide)
  obtain ⟨remaining, left⟩ : Returns (sub e.stake slashed) := sub_returns.mpr (by omega)
  have soundBurn : Sound A (s.creditTo burnAddress burned.toNat) := sound.setAccount hb _
  rw [q1, ok_bind, p2, ok_bind, q2, ok_bind, p3, ok_bind, q3, ok_bind, left, ok_bind,
    creditBalance_eq sound hb, ok_bind, creditBalance_eq soundBurn hr, ok_bind]
  exact returns_bind_of_forall fun frozenUntil _ => returns_pure _

/-- A slash conserves value exactly when the freeze ends in an era that can be written and
the slashed amount is a multiple of ten. -/
theorem applySlash_conserves_iff (sound : Sound A s) (hp : proposer ∈ A) (hr : reporter ∈ A)
    (hb : burnAddress ∈ A) (found : s.getValidator proposer = some e)
    (unfrozen : e.status.isFrozen = false) (narrow : e.stake.toNat * 90 < 2 ^ 256)
    (unsaturated : ∀ a ∈ A, s.balance a + slashGrant e.stake reporter a < 2 ^ 256) :
    (∃ amounts t, s.applySlash proposer reporter era = .ok (.ok amounts, t) ∧
      ConservesSlash A s t proposer reporter e amounts) ↔
    era.toNat + 72 < 2 ^ 64 ∧ slashedPart e.stake % 10 = 0 := by
  have returns : Returns (s.applySlash proposer reporter era) ↔ _ :=
    applySlash_returns sound hr hb found unfrozen
  constructor
  · rintro ⟨amounts, t, applied, conserves⟩
    refine ⟨(returns.mp ⟨_, applied⟩).2, ?_⟩
    rcases applySlash_cases sound hr hb applied with
      ⟨-, ⟨reason, refused⟩, -⟩ | ⟨e', parts, frozenUntil, same, -, splits, -, carried, -⟩
    · cases refused
    · cases found.symm.trans same
      cases carried
      exact splits.whole_iff.mp conserves.whole
  · rintro ⟨late, exact_⟩
    obtain ⟨⟨result, t⟩, applied⟩ := returns.mpr ⟨narrow, late⟩
    rcases applySlash_cases sound hr hb applied with
      ⟨-, -, frozen⟩ | ⟨e', amounts, frozenUntil, same, -, splits, -, rfl, rfl⟩
    · simp [frozen e found] at unfrozen
    · cases found.symm.trans same
      exact ⟨amounts, _, applied, slashed_conserves sound hp hr hb found splits exact_ unsaturated⟩

end

section Sample

attribute [local instance] prefixBlake3

set_option maxRecDepth 8192

/-- Bob, whose stake is one MONEX, reports himself. -/
theorem bobSlash_conserves :
    ∃ e amounts t, frozenMachine.getValidator bob = some e ∧
      frozenMachine.applySlash bob bob 6 = .ok (.ok amounts, t) ∧
      ConservesSlash registryAddresses frozenMachine t bob bob e amounts := by
  have known : (frozenMachine.getValidator bob).map (fun e => (e.stake, e.status.isFrozen)) =
      some (10 ^ 32, false) := by decide
  obtain ⟨e, found, same⟩ := Option.map_eq_some_iff.mp known
  obtain ⟨stake, unfrozen⟩ := Prod.mk.inj same
  have unsaturated : ∀ a ∈ registryAddresses,
      frozenMachine.balance a + slashGrant e.stake bob a < 2 ^ 256 := by
    rw [stake]
    decide
  have late : (6 : U64).toNat + 72 < 2 ^ 64 := by decide
  obtain ⟨amounts, t, applied, conserves⟩ := (applySlash_conserves_iff
    frozenMachine_reachable.sound (by decide) (by decide) (by decide) found unfrozen
    (by rw [stake]; decide) unsaturated).mpr ⟨late, by rw [stake]; decide⟩
  exact ⟨e, amounts, t, found, applied, conserves⟩

def oddRun : List Op := [.block (testBlock [⟨0, 0, alice, 100, .registerAndStake alice 11, dummySig⟩])]

def oddMachine : StateMachine := valueD (run (new founders) oddRun) (new [])

/-- Of 11 nine are slashed, of these eight are burned, and nothing is left for the reporter. -/
theorem oddSlash_not_conserves :
    ∃ e, Reachable registryAddresses founders oddMachine ∧
      oddMachine.getValidator alice = some e ∧ e.status.isFrozen = false ∧
      e.stake.toNat * 90 < 2 ^ 256 ∧
      (∀ a ∈ registryAddresses, oddMachine.balance a + slashGrant e.stake bob a < 2 ^ 256) ∧
      Returns (oddMachine.applySlash alice bob 5) ∧
      ¬∃ amounts t, oddMachine.applySlash alice bob 5 = .ok (.ok amounts, t) ∧
        ConservesSlash registryAddresses oddMachine t alice bob e amounts := by
  have ran : Returns (run (new founders) oddRun) := by decide
  have reachable : Reachable registryAddresses founders oddMachine :=
    ⟨by decide, by decide, oddRun, by decide, ran.eq_ok _⟩
  have known : (oddMachine.getValidator alice).map (fun e => (e.stake, e.status.isFrozen)) =
      some (11, false) := by decide
  obtain ⟨e, found, same⟩ := Option.map_eq_some_iff.mp known
  obtain ⟨stake, unfrozen⟩ := Prod.mk.inj same
  have narrow : e.stake.toNat * 90 < 2 ^ 256 := by rw [stake]; decide
  have returns : Returns (oddMachine.applySlash alice bob 5) :=
    (applySlash_returns reachable.sound (by decide) (by decide) found unfrozen).mpr
      ⟨narrow, by decide⟩
  refine ⟨e, reachable, found, unfrozen, narrow, by rw [stake]; decide, returns, ?_⟩
  rintro ⟨amounts, t, applied, conserves⟩
  rcases applySlash_cases reachable.sound (by decide) (by decide) applied with
    ⟨-, ⟨reason, refused⟩, -⟩ | ⟨e', parts, frozenUntil, same, -, splits, -, carried, -⟩
  · cases refused
  · cases found.symm.trans same
    cases carried
    have exact_ := splits.whole_iff.mp conserves.whole
    rw [stake] at exact_
    revert exact_
    decide

end Sample

end StateMachine

end Mononium
