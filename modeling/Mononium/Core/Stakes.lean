import Mononium.Core.Registry

/-! The stake of a validator that waits outside the active set is stored twice, in the
entry and in its status. Every operation but one keeps the two equal: a further stake
raises the entry alone. -/
namespace Mononium

open Rust Scale

/-- The status repeats the stake. -/
def ValidatorEntry.Agrees (e : ValidatorEntry) : Prop := ∀ held, e.status = .staked held → held = e.stake

/-- Outside of blocks nobody stakes, and every write leaves the two equal. -/
theorem Rewrite.agrees {a : Address} {op : Op} {o m : Option ValidatorEntry}
    (rewrite : Rewrite a op o m) (outside : ∀ b, op ≠ .block b) : ∃ e, m = some e ∧ e.Agrees := by
  cases rewrite with
  | @registers b | @founds b | @stakes b | @unstakes b => exact absurd rfl (outside b)
  | releases _ _ settled =>
    refine ⟨_, rfl, fun held status => ?_⟩
    rcases settled with rfl | rfl
    · cases status
    · cases status
      rfl
  | @thaws _ _ _ e _ _ _ =>
    refine ⟨_, rfl, fun held status => ?_⟩
    rcases e.thawed_status with same | same
    · cases same.symm.trans status
    · cases same.symm.trans status
  | activates open_ => exact ⟨_, rfl, fun _ status => by simp [activated_status open_] at status⟩
  | slashes _ => exact ⟨_, rfl, fun _ status => by cases status⟩

namespace StateMachine

section

variable [Blake3] {A : Finset Address} {s t : StateMachine} {a : Address}

/-- The transaction would add to the stake of a validator that already has status `Staked`. -/
def TopsUp (s : StateMachine) (chainId : U64) (tx : Transaction) : Prop :=
  tx.chainId = chainId ∧ ∃ sender v amount e held, s.account tx.sender = some sender ∧
    tx.body = .stake v amount ∧ Accepts s sender tx ∧ s.getValidator v = some e ∧
    e.status = .staked held

/-- No transaction of the block adds to a stake when the loop comes to it. -/
def NoTopUp (s : StateMachine) (block : Block) : Prop :=
  ∀ r tx, ComesTo block.header.chainId ⟨s, 0, 0, 0⟩ block.body.transactions r tx →
    ¬TopsUp r.machine block.header.chainId tx

def AllAgree (A : Finset Address) (s : StateMachine) : Prop :=
  ∀ a ∈ A, ∀ e, s.getValidator a = some e → e.Agrees

theorem AllAgree.setValidator (agree : AllAgree A s) (apart : KeysApart A) {v : Address} (hv : v ∈ A)
    {e : ValidatorEntry} (here : e.Agrees) : AllAgree A (s.setValidator v e) := by
  intro a ha x found
  rw [getValidator_setValidator apart hv ha] at found
  split at found
  next => exact Option.some.inj found ▸ here
  next => exact agree a ha x found

theorem AllAgree.setAccount (agree : AllAgree A s) (apart : KeysApart A) {b : Address} (hb : b ∈ A)
    (x : Account) : AllAgree A (s.setAccount b x) := by
  intro a ha e found
  rw [getValidator_setAccount apart hb ha] at found
  exact agree a ha e found

section Blocks

variable {chainId : U64} {p q : Progress} {tx : Transaction}

theorem Outcome.agree (outcome : Outcome chainId p tx q) (sound : Sound A p.machine)
    (within : tx.Within A) (agree : AllAgree A p.machine) (none : ¬TopsUp p.machine chainId tx) :
    AllAgree A q.machine := by
  cases outcome with
  | skipped _ _ | unpaid _ _ _ _ _ _ | spoiledUnpaid _ _ _ _ _ => exact agree
  | rejected _ _ _ _ _ _ _ | spoiled _ _ _ _ _ _ _ => exact agree.setAccount sound.apart within.1 _
  | executed chain known accepts _ effect _ _ =>
    refine AllAgree.setAccount ?_ sound.apart within.1 _
    cases effect with
    | pays body _ => exact agree.setAccount sound.apart (within.recipient body) _
    | charges _ => exact agree
    | registers _ _ => exact agree.setValidator sound.apart within.1 fun _ status => by cases status
    | founds _ _ =>
      refine agree.setValidator sound.apart within.1 fun held status => ?_
      cases status
      rfl
    | @stakes v amount stake e body found _ =>
      refine agree.setValidator sound.apart (within.validator (.inl body)) fun held status => ?_
      unfold stakedEntry at status ⊢
      dsimp only at status ⊢
      split at status
      next =>
        cases status
        rfl
      next => exact absurd ⟨chain, _, v, amount, e, held, known, body, accepts, found, status⟩ none
    | unstakes body _ _ _ =>
      exact agree.setValidator sound.apart (within.validator (.inr body)) fun _ status => by cases status

theorem applyTxs_agree {txs : List Transaction} (sound : Sound A p.machine)
    (within : ∀ tx ∈ txs, tx.Within A) (agree : AllAgree A p.machine)
    (none : ∀ r tx, ComesTo chainId p txs r tx → ¬TopsUp r.machine chainId tx)
    (h : applyTxs chainId p txs = .ok q) : AllAgree A q.machine := by
  induction txs generalizing p with
  | nil =>
    cases h
    exact agree
  | cons tx txs ih =>
    rw [applyTxs_cons] at h
    obtain ⟨r, stepped, h⟩ := bind_eq_ok.mp h
    have here := within tx List.mem_cons_self
    have outcome := applyTx_outcome stepped
    obtain ⟨first, rest⟩ := (forall_comesTo_cons stepped).mp none
    exact ih (outcome.sound sound here) (fun tx later => within tx (List.mem_cons_of_mem _ later))
      (outcome.agree sound here agree first) rest h

end Blocks

theorem step_agree {op : Op} (sound : Sound A s) (within : op.Within A) (agree : AllAgree A s)
    (none : ∀ block, op = .block block → NoTopUp s block) (h : s.step op = .ok t) : AllAgree A t := by
  cases step_cases h with
  | @block b _ _ applied =>
    obtain ⟨p, looped, -, -, credited, -⟩ := applyBlock_spec sound within applied
    have loop := applyTxs_agree sound within agree (none b rfl) looped
    intro a ha e found
    rw [credited.entry a ha] at found
    exact loop a ha e found
  | _ =>
    intro a ha
    refine (step_rewrites sound within h ha).invariant
      (P := fun o => ∀ e, o = some e → e.Agrees) ?_ (agree a ha)
    rintro x y rewrite - e rfl
    obtain ⟨after, same, agrees⟩ := rewrite.agrees (by simp)
    exact Option.some.inj same ▸ agrees

theorem run_agree {ops : List Op} (sound : Sound A s) (within : ∀ op ∈ ops, op.Within A)
    (agree : AllAgree A s) (none : ∀ before block after m, ops = before ++ .block block :: after →
      s.run before = .ok m → NoTopUp m block) (ran : s.run ops = .ok t) : AllAgree A t := by
  induction ops generalizing s with
  | nil =>
    cases ran
    exact agree
  | cons op ops ih =>
    rw [run, List.foldlM_cons] at ran
    obtain ⟨m, stepped, ran⟩ := bind_eq_ok.mp ran
    have here := within op List.mem_cons_self
    have first : ∀ block, op = .block block → NoTopUp s block := by
      rintro block rfl
      exact none [] block ops s rfl rfl
    refine ih (step_sound sound here stepped) (fun op later => within op (List.mem_cons_of_mem _ later))
      (step_agree sound here agree first stepped) ?_ ran
    rintro before block after u rfl early
    refine none (op :: before) block after u rfl ?_
    rw [run, List.foldlM_cons, stepped]
    exact early

/-- In every run in which no accepted `Stake` names a validator that has status `Staked`
already, the status of every validator agrees with its stake. -/
theorem staked_agrees {accounts : List (Address × Account)} {ops : List Op} (apart : KeysApart A)
    (genesis : ∀ p ∈ accounts, p.1 ∈ A) (within : ∀ op ∈ ops, op.Within A)
    (none : ∀ before block after m, ops = before ++ .block block :: after →
      run (new accounts) before = .ok m → NoTopUp m block)
    (ran : run (new accounts) ops = .ok t) :
    ∀ a ∈ A, ∀ e held, t.getValidator a = some e → e.status = .staked held → held = e.stake := by
  have start : AllAgree A (new accounts) := by
    intro a ha e found
    rw [getValidator_new apart genesis ha] at found
    cases found
  intro a ha e held found
  exact run_agree (new_sound apart genesis).1 within start none ran a ha e found held

end

section Sample

attribute [local instance] prefixBlake3

set_option maxRecDepth 8192

theorem founders_agree :
    ∃ t, run (new founders) [.block foundingBlock] = .ok t ∧ ∀ a ∈ ({alice, bob} : Finset Address),
      ∀ e held, t.getValidator a = some e → e.status = .staked held → held = e.stake := by
  have returns : Returns (run (new founders) [.block foundingBlock]) := by decide
  obtain ⟨t, ran⟩ := returns
  have none : ∀ before block after m, [Op.block foundingBlock] = before ++ .block block :: after →
      run (new founders) before = .ok m → NoTopUp m block := by
    intro before block after m split _ r tx comes topsUp
    obtain ⟨-, -, v, amount, -, -, -, body, -⟩ := topsUp
    have member : Op.block block ∈ [Op.block foundingBlock] := by
      rw [split]
      simp
    cases List.mem_singleton.mp member
    have founding : ∀ tx ∈ foundingBlock.body.transactions, ∀ v amount, tx.body ≠ .stake v amount := by
      simp [foundingBlock, testBlock]
    exact founding tx comes.mem v amount body
  exact ⟨t, ran, staked_agrees (by decide) (by decide) (by decide) none ran⟩

def toppingBlock : Block := testBlock [⟨0, 1, bob, 100, .stake alice 5, dummySig⟩]

theorem topUp_disagrees :
    ∃ t e held, Reachable {alice, bob} founders t ∧ t.getValidator alice = some e ∧
      e.status = .staked held ∧ held ≠ e.stake := by
  obtain ⟨returns, entry⟩ :
      Returns (run (new founders) [.block foundingBlock, .block toppingBlock]) ∧
      ((valueD (run (new founders) [.block foundingBlock, .block toppingBlock])
        (new [])).getValidator alice).map (fun e => (e.status, e.stake)) =
          some (.staked (2 * 10 ^ 32), 2 * 10 ^ 32 + 5) := by decide +kernel
  obtain ⟨e, found, values⟩ := Option.map_eq_some_iff.mp entry
  obtain ⟨status, stake⟩ := Prod.mk.inj values
  refine ⟨_, e, _, ⟨by decide, by decide, _, ?_, returns.eq_ok (new [])⟩, found, status, ?_⟩
  · decide
  · rw [stake]
    decide

end Sample

end StateMachine

end Mononium
