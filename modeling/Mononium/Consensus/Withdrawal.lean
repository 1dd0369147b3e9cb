import Mononium.Consensus.Loop
import Mononium.Core.Replay

/-! Withdrawals of stake. A request is paid out by the cooldown hook in the era that its
status record names, and blocks record era 168 whatever era they are applied in. -/
namespace Mononium

open Rust Scale

/-- Stake is being withdrawn. -/
def Withdrawing (o : Option ValidatorEntry) : Prop :=
  ∃ e release amount, o = some e ∧ e.status = .unstaking release amount

/-- Whatever is being withdrawn is due in era 168. -/
def DueIn168 (o : Option ValidatorEntry) : Prop :=
  ∀ e release amount, o = some e → e.status = .unstaking release amount →
    release.toNat = unstakingCooldownEras.toNat

theorem Rewrite.dueIn168 {a : Address} {op : Op} {o m : Option ValidatorEntry}
    (rewrite : Rewrite a op o m) (before : DueIn168 o) : DueIn168 m := by
  obtain ⟨after, rfl, -⟩ := rewrite.covers
  rintro e release amount same status
  cases same
  cases rewrite with
  | registers | founds | slashes _ => cases status
  | @stakes _ e stake open_ =>
    have stays := stakedEntry_open stake open_
    rw [status] at stays
    cases stays
  | @unstakes _ e _ _ _ cooled _ _ =>
    cases status
    cases held : e.status with
    | unstaking first pending =>
      rw [e.releasedIn_of_unstaking held] at cooled
      exact cooled.trans (before e first pending rfl held)
    | _ => simpa [ValidatorEntry.releasedIn, held] using cooled
  | releases _ _ settled =>
    rcases settled with rfl | rfl
    · cases status
    · cases status
  | @thaws _ _ _ e _ _ _ =>
    rcases e.thawed_status with same | same
    · cases same.symm.trans status
    · cases same.symm.trans status
  | activates open_ => simp [activated_status open_] at status

/-- Within a block a withdrawal can only grow. -/
theorem Rewrite.withdrawing {a : Address} {b : Block} {o m : Option ValidatorEntry}
    (rewrite : Rewrite a (.block b) o m) (before : Withdrawing o) : Withdrawing m := by
  obtain ⟨e, release, amount, rfl, status⟩ := before
  cases rewrite with
  | stakes open_ => simp [status, ValidatorStatus.isFrozenOrUnstaking] at open_
  | unstakes _ _ _ _ => exact ⟨_, _, _, rfl, rfl⟩
  | thaws asked _ _ => cases asked

namespace StateMachine

section

variable [Blake3] {A : Finset Address} {s t m : StateMachine} {v : Address}

def StaysWithdrawing (m : StateMachine) (ops : List Op) (v : Address) : Prop :=
  ∀ before after u, ops = before ++ after → m.run before = .ok u → Withdrawing (u.getValidator v)

/-- What is being withdrawn from `v` is not paid out before the cooldown from `era` on is
over, as long as it is the same withdrawal. -/
def WaitsOut (A : Finset Address) (m : StateMachine) (v : Address) (era : U64) : Prop :=
  ∀ ops u current w, (∀ op ∈ ops, op.Within A) → m.run ops = .ok u → StaysWithdrawing m ops v →
    era < current → u.processUnstakingCooldown v current = .ok w → w.stake v < u.stake v →
    era.toNat + unstakingCooldownEras.toNat ≤ current.toNat

theorem Reachable.dueIn168 {accounts : List (Address × Account)} (reachable : Reachable A accounts s)
    (hv : v ∈ A) : DueIn168 (s.getValidator v) := by
  obtain ⟨ops, within, ran⟩ := reachable.reached
  refine run_entry_invariant (new_sound reachable.apart reachable.genesis).1 within hv
    (fun op _ _ _ rewrite before => rewrite.dueIn168 before) ?_ ran
  rw [getValidator_new reachable.apart reachable.genesis hv]
  intro e release amount absent
  cases absent

theorem processUnstakingCooldown_early {e : ValidatorEntry} {release current : U64} {amount : U256}
    (found : s.getValidator v = some e) (status : e.status = .unstaking release amount)
    (early : current < release) : s.processUnstakingCooldown v current = .ok s := by
  simp [processUnstakingCooldown, found, status, early]

theorem processUnstakingCooldown_due {e : ValidatorEntry} {release current : U64} {amount : U256}
    (sound : Sound A s) (hv : v ∈ A) (found : s.getValidator v = some e)
    (status : e.status = .unstaking release amount) (due : release ≤ current) (covers : e.Covers) :
    ∃ w, s.processUnstakingCooldown v current = .ok w ∧ w.stake v < s.stake v := by
  obtain ⟨positive, covered⟩ := covers release amount status
  have stake := stake_of_found found
  have written (x : ValidatorEntry) : (s.setValidator v x).stake v = x.stake.toNat := by
    simp [StateMachine.stake, getValidator_setValidator sound.apart hv hv]
  by_cases all : e.stake ≤ amount
  · refine ⟨s.setValidator v { e with stake := 0, status := .registered }, ?_, ?_⟩
    · simp [processUnstakingCooldown, found, status, BitVec.not_lt.mpr due, all]
    · rw [written, stake]
      exact lt_of_lt_of_le positive covered
  · obtain ⟨rest, left⟩ := sub_returns.mpr covered
    have value := sub_eq_ok.mp left
    refine ⟨s.setValidator v { e with
      stake := rest
      status := if minStake ≤ rest then .staked rest else .registered }, ?_, ?_⟩
    · simp [processUnstakingCooldown, found, status, BitVec.not_lt.mpr due, all, left]
    · rw [written, stake]
      dsimp only
      omega

/-- A withdrawal from `v` is due. -/
def Due (s : StateMachine) (v : Address) (era : U64) : Prop :=
  ∃ e release amount, s.getValidator v = some e ∧ e.status = .unstaking release amount ∧ release ≤ era

theorem processUnstakingCooldown_idle {era : U64} (idle : ¬s.Due v era) :
    s.processUnstakingCooldown v era = .ok s := by
  cases found : s.getValidator v with
  | none =>
    simp only [processUnstakingCooldown, found]
    rfl
  | some e =>
    cases status : e.status with
    | unstaking release amount =>
      have early : ¬release ≤ era := fun due => idle ⟨e, release, amount, found, status, due⟩
      exact processUnstakingCooldown_early found status (BitVec.not_le.mp early)
    | _ =>
      simp only [processUnstakingCooldown, found, status]
      rfl

/-- The hook credits nobody, so what the accounts and the stakes hold together is the same
after it exactly if no withdrawal from the validator is due. -/
theorem cooldown_total_iff {accounts : List (Address × Account)} (reachable : Reachable A accounts s)
    (hv : v ∈ A) (era : U64) :
    ∃ t, s.processUnstakingCooldown v era = .ok t ∧ (∀ a ∈ A, t.account a = s.account a) ∧
      (t.total A = s.total A ↔ ¬s.Due v era) := by
  by_cases due : s.Due v era
  · obtain ⟨e, release, amount, found, status, released⟩ := id due
    obtain ⟨t, paid, lost⟩ := processUnstakingCooldown_due reachable.sound hv found status released
      (reachable.covers hv found)
    have adjusted := processUnstakingCooldown_adjusted reachable.sound hv paid
    have less := adjusted.total_lt hv lost
    exact ⟨t, paid, adjusted.account, iff_of_false (Nat.ne_of_lt less) (not_not_intro due)⟩
  · exact ⟨s, processUnstakingCooldown_idle due, fun _ _ => rfl, iff_of_true rfl due⟩

section Blocks

variable {chainId : U64} {p q : Progress} {tx : Transaction} {txs : List Transaction} {amount : U256}

theorem Outcome.withdrawing (outcome : Outcome chainId p tx q) (sound : Sound A p.machine)
    (within : tx.Within A) (body : tx.body = .unstake v amount) (counted : q.txCount ≠ p.txCount) :
    Withdrawing (q.machine.getValidator v) := by
  have hv := within.validator (.inr body)
  cases outcome with
  | executed _ _ _ _ effect _ _ =>
    rw [getValidator_setAccount sound.apart within.1 hv]
    cases effect with
    | unstakes same _ _ _ =>
      cases body.symm.trans same
      rw [getValidator_setValidator sound.apart hv hv, if_pos rfl]
      exact ⟨_, _, _, rfl, rfl⟩
    | pays same _ | charges same => simp [body, TxBody.payment, TxBody.isGovernance] at same
    | registers same _ | stakes same _ _ | founds same _ => cases body.symm.trans same
  | _ => exact absurd rfl counted

theorem applyTxs_withdrawing (sound : Sound A p.machine) (within : ∀ tx ∈ txs, tx.Within A)
    (member : tx ∈ executedTxs chainId p txs) (body : tx.body = .unstake v amount)
    (h : applyTxs chainId p txs = .ok q) (b : Block) : Withdrawing (q.machine.getValidator v) := by
  induction txs generalizing p with
  | nil => cases member
  | cons first txs ih =>
    rw [applyTxs_cons] at h
    obtain ⟨r, stepped, looped⟩ := bind_eq_ok.mp h
    have here := within first List.mem_cons_self
    have later : ∀ tx ∈ txs, tx.Within A := fun tx rest => within tx (List.mem_cons_of_mem _ rest)
    have outcome := applyTx_outcome stepped
    have soundRest := outcome.sound sound here
    rw [executedTxs_cons stepped] at member
    split at member
    next => exact ih soundRest later member looped
    next counted =>
      rcases List.mem_cons.mp member with rfl | rest
      · -- Nothing that follows in the block ends the withdrawal.
        have rewrites : Rewrites v (.block b) (r.machine.getValidator v) (q.machine.getValidator v) :=
          applyTxs_rewrites soundRest later looped (here.validator (.inr body))
        exact rewrites.invariant (fun _ _ rewrite before => rewrite.withdrawing before)
          (outcome.withdrawing sound here body counted)
      · exact ih soundRest later rest looped

end Blocks

/-- An unstake that a block executes waits out its cooldown, in every continuation of the
run, exactly if the block is applied in era 0. -/
theorem unstake_waits_iff {accounts : List (Address × Account)} {b : Block} {receipt : BlockReceipt}
    {tx : Transaction} {amount : U256} (reachable : Reachable A accounts s)
    (within : ∀ tx ∈ b.body.transactions, tx.Within A) (applied : s.applyBlock b = .ok (receipt, m))
    (member : tx ∈ executed s (.block b)) (body : tx.body = .unstake v amount) (height : U64) :
    WaitsOut A m v (eraAtHeight height) ↔ eraAtHeight height = 0 := by
  obtain ⟨p, looped, -, -, credited, -⟩ := applyBlock_spec reachable.sound within applied
  have stepped : s.step (.block b) = .ok m := by
    rw [step, applied]
    rfl
  have inside : (Op.block b).Within A := within
  have reached : Reachable A accounts m := reachable.step inside stepped
  have hv : v ∈ A := (within tx (executedTxs_subset member)).validator (.inr body)
  have due : unstakingCooldownEras.toNat = 168 := rfl
  constructor
  · intro waits
    obtain ⟨e, release, pending, found, status⟩ :=
      applyTxs_withdrawing reachable.sound within member body looped b
    rw [← credited.entry v hv] at found
    have released := reached.dueIn168 hv e release pending found status
    by_contra nonzero
    -- The first boundary after the block at which the withdrawal is due.
    obtain ⟨current, value⟩ : ∃ current : U64,
        current.toNat = max 168 ((eraAtHeight height).toNat + 1) := by
      have bound : (eraAtHeight height).toNat = height.toNat / 720 := BitVec.toNat_udiv
      have := height.isLt
      exact ⟨BitVec.ofNat 64 (max 168 ((eraAtHeight height).toNat + 1)),
        by rw [BitVec.toNat_ofNat, Nat.mod_eq_of_lt (by omega)]⟩
    have positive : 0 < (eraAtHeight height).toNat := by
      have := fun zero => nonzero (BitVec.eq_of_toNat_eq (y := 0) zero)
      exact Nat.pos_of_ne_zero this
    have isDue : release ≤ current := by
      rw [BitVec.le_def]
      omega
    obtain ⟨w, paid, lost⟩ := processUnstakingCooldown_due reached.sound hv found status isDue
      (reached.covers hv found)
    have stays : StaysWithdrawing m [] v := by
      intro before after u split ran
      obtain ⟨rfl, rfl⟩ := List.append_eq_nil_iff.mp split.symm
      cases ran
      exact ⟨e, release, pending, found, status⟩
    have wait := waits [] m current w (by simp) rfl stays
      (by rw [BitVec.lt_def]; omega) paid lost
    omega
  · intro zero ops u current w closed ran stays _ paid lost
    obtain ⟨e, release, pending, found, status⟩ := stays ops [] u (by simp) ran
    have released := (reached.run closed ran).dueIn168 hv e release pending found status
    by_contra early
    have before : current < release := by
      rw [zero] at early
      rw [BitVec.lt_def]
      simp at early
      omega
    rw [processUnstakingCooldown_early found status before] at paid
    cases paid
    exact lt_irrefl _ lost

end

section Sample

attribute [local instance] prefixBlake3

set_option maxRecDepth 8192

def withdrawal : Transaction := ⟨0, 1, alice, 100, .unstake alice (10 ^ 32), dummySig⟩

def withdrawalBlock : Block := testBlock [withdrawal]

def foundedMachine : StateMachine := valueD (run (new founders) [.block foundingBlock]) (new [])

def withdrawnMachine : StateMachine := valueD (foundedMachine.step (.block withdrawalBlock)) (new [])

theorem withdrawal_computed :
    Returns (run (new founders) [.block foundingBlock]) ∧
    Returns (foundedMachine.step (.block withdrawalBlock)) ∧
    withdrawal ∈ executed foundedMachine (.block withdrawalBlock) ∧
    (withdrawnMachine.getValidator alice).map (·.status) = some (.unstaking 168 (10 ^ 32)) ∧
    Returns (withdrawnMachine.processUnstakingCooldown alice 168) ∧
    (valueD (withdrawnMachine.processUnstakingCooldown alice 168) (new [])).stake alice <
      withdrawnMachine.stake alice := by
  decide +kernel

theorem foundedMachine_reachable : Reachable {alice, bob} founders foundedMachine :=
  ⟨by decide, by decide, _, by decide, withdrawal_computed.1.eq_ok (new [])⟩

theorem withdrawalBlock_applied :
    ∃ receipt, foundedMachine.applyBlock withdrawalBlock = .ok (receipt, withdrawnMachine) := by
  have returns := withdrawal_computed.2.1
  obtain ⟨⟨receipt, m⟩, applied, same⟩ := bind_eq_ok.mp (returns.eq_ok (new []))
  have there : m = withdrawnMachine := pure_eq_ok.mp same
  exact ⟨receipt, there ▸ applied⟩

/-- At height 5 the withdrawal waits as long as it should. -/
theorem withdrawal_waits :
    ∃ receipt, foundedMachine.applyBlock withdrawalBlock = .ok (receipt, withdrawnMachine) ∧
      WaitsOut {alice, bob} withdrawnMachine alice (eraAtHeight 5) := by
  obtain ⟨receipt, applied⟩ := withdrawalBlock_applied
  have executes := withdrawal_computed.2.2.1
  exact ⟨receipt, applied, (unstake_waits_iff foundedMachine_reachable (by decide) applied
    executes rfl 5).mpr (by decide)⟩

/-- At height 720 era 1 has begun, and in era 168 the withdrawal is paid out. -/
theorem withdrawal_paid_early :
    Reachable {alice, bob} founders foundedMachine ∧
    (∃ receipt, foundedMachine.applyBlock withdrawalBlock = .ok (receipt, withdrawnMachine)) ∧
    withdrawal ∈ executed foundedMachine (.block withdrawalBlock) ∧
    ¬WaitsOut {alice, bob} withdrawnMachine alice (eraAtHeight 720) := by
  obtain ⟨-, -, executes, status, paid, lost⟩ := withdrawal_computed
  refine ⟨foundedMachine_reachable, withdrawalBlock_applied, executes, fun waits => ?_⟩
  obtain ⟨e, found, unstaking⟩ := Option.map_eq_some_iff.mp status
  have stays : StaysWithdrawing withdrawnMachine [] alice := by
    intro before after u split ran
    obtain ⟨rfl, rfl⟩ := List.append_eq_nil_iff.mp split.symm
    have same : withdrawnMachine = u := pure_eq_ok.mp ran
    exact same ▸ ⟨e, 168, 10 ^ 32, found, unstaking⟩
  have wait := waits [] withdrawnMachine 168 _ (by simp) rfl stays (by decide) (paid.eq_ok (new [])) lost
  revert wait
  decide

theorem withdrawnMachine_reachable : Reachable {alice, bob} founders withdrawnMachine := by
  have within : Op.Within {alice, bob} (.block withdrawalBlock) := by decide
  exact foundedMachine_reachable.step within (withdrawal_computed.2.1.eq_ok (new []))

/-- Before era 168 nothing is paid out and nothing is lost. -/
theorem withdrawal_kept :
    ∃ t, withdrawnMachine.processUnstakingCooldown alice 167 = .ok t ∧
      t.total {alice, bob} = withdrawnMachine.total {alice, bob} := by
  obtain ⟨t, ran, -, kept⟩ := cooldown_total_iff withdrawnMachine_reachable (v := alice)
    (by decide) 167
  refine ⟨t, ran, kept.mpr ?_⟩
  rintro ⟨e, release, amount, found, status, due⟩
  obtain ⟨-, -, -, unstaking, -⟩ := withdrawal_computed
  rw [found] at unstaking
  have same := status.symm.trans (Option.some.inj unstaking)
  cases same
  revert due
  decide

/-- In era 168 the stake that Alice withdrew is gone, and no account has it. -/
theorem withdrawal_lost :
    Reachable {alice, bob} founders withdrawnMachine ∧
    ∃ t, withdrawnMachine.processUnstakingCooldown alice 168 = .ok t ∧
      t.stake alice < withdrawnMachine.stake alice ∧
      (∀ a ∈ ({alice, bob} : Finset Address), t.account a = withdrawnMachine.account a) ∧
      t.total {alice, bob} ≠ withdrawnMachine.total {alice, bob} := by
  obtain ⟨-, -, -, status, paid, lost⟩ := withdrawal_computed
  have member : alice ∈ ({alice, bob} : Finset Address) := by decide
  have ran := paid.eq_ok (new [])
  have adjusted := processUnstakingCooldown_adjusted withdrawnMachine_reachable.sound member ran
  refine ⟨withdrawnMachine_reachable, _, ran, lost, adjusted.account, fun same => ?_⟩
  exact absurd same (adjusted.total_lt member lost).ne

end Sample

end StateMachine

end Mononium
