import Mononium.Ledger.Reading
import Mononium.Core.Agreement
import Mononium.Core.Slash

/-! The machine refines the book: every operation that returns does to the book what the book's
own operation does, so a run never overflows or saturates. What the state root commits to is then
the book's purses and bonds, and nothing of the active set. -/
namespace Mononium

open Rust Scale

theorem pooled_toNat {pool fees : U128} {fee : U256} (pooled : add pool (feeAsU128 fee) = .ok fees) :
    fees.toNat = pool.toNat + min fee.toNat (2 ^ 128 - 1) := by
  rw [add_eq_ok.mp pooled, feeAsU128_toNat]

namespace StateMachine

section

variable [Blake3] {A : Finset Address} {s t : StateMachine} {a : Address}

section Blocks

variable {chainId : U64} {p q : Progress} {tx : Transaction}

def readProgress (A : Finset Address) (p : Progress) : Book × Nat :=
  (p.machine.book A, p.blockFees.toNat)

theorem applyTx_serves (sound : Sound A p.machine) (within : tx.Within A)
    (fits : p.machine.total A < 2 ^ 256) (h : applyTx chainId p tx = .ok q) :
    readProgress A q = Book.serve chainId (readProgress A p) tx := by
  have apart := sound.apart
  have purse := book_purse (s := p.machine) within.1
  unfold applyTx at h
  simp only [Book.serve, readProgress, purse]
  split at h
  next foreign =>
    obtain ⟨failed, -, h⟩ := bind_eq_ok.mp h
    cases h
    rw [if_pos foreign]
  next chain =>
    rw [if_neg chain]
    rw [sound.getAccount within.1, ok_bind] at h
    cases known : p.machine.account tx.sender with
    | none =>
      simp only [known] at h
      obtain ⟨failed, -, h⟩ := bind_eq_ok.mp h
      cases h
      rfl
    | some sender =>
      simp only [known] at h
      obtain ⟨done, ran, h⟩ := bind_eq_ok.mp h
      have performs := execute_performs sound within known fits ran
      simp only [Option.map_some]
      generalize (p.machine.book A).verdict sender.read tx = verdict at performs ⊢
      cases performs with
      | done charged =>
        obtain ⟨fees, pooled, h⟩ := bind_eq_ok.mp h
        obtain ⟨count, -, h⟩ := bind_eq_ok.mp h
        cases h
        dsimp only
        rw [← charged.read, ← book_setAccount apart within.1,
          ← pooled_toNat pooled]
      | refused reason =>
        dsimp only at h ⊢
        split at h
        next rich =>
          rw [BitVec.le_def] at rich
          obtain ⟨balance, paid, h⟩ := bind_eq_ok.mp h
          obtain ⟨fees, pooled, h⟩ := bind_eq_ok.mp h
          obtain ⟨failed, -, h⟩ := bind_eq_ok.mp h
          cases h
          rw [sender.read_balance, if_pos rich, ← Account.read_paid (sub_eq_ok.mp paid), ← book_setAccount apart within.1,
            ← pooled_toNat pooled]
        next poor =>
          rw [BitVec.le_def] at poor
          obtain ⟨failed, -, h⟩ := bind_eq_ok.mp h
          cases h
          rw [sender.read_balance, if_neg poor]
      | late reason charged =>
        have left := charged.balance
        dsimp only at h ⊢
        split at h
        next rich =>
          rw [BitVec.le_def] at rich
          obtain ⟨balance, paid, h⟩ := bind_eq_ok.mp h
          obtain ⟨fees, pooled, h⟩ := bind_eq_ok.mp h
          obtain ⟨failed, -, h⟩ := bind_eq_ok.mp h
          cases h
          rw [sender.read_balance, if_pos (by omega), Nat.add_comm tx.debit, ← Purse.pay_spend,
            ← charged.read, ← Account.read_paid (sub_eq_ok.mp paid), ← book_setAccount apart within.1,
            ← pooled_toNat pooled]
        next poor =>
          rw [BitVec.le_def] at poor
          obtain ⟨failed, -, h⟩ := bind_eq_ok.mp h
          cases h
          rw [sender.read_balance, if_neg (by omega)]

theorem claims_read (sound : Sound A s) : (s.book A).claims = s.claims := by
  have listed : (s.book A).active.filterMap (fun a => ((s.book A).bond a).map fun bond => (a, bond.stake)) =
      s.stakePairs.map fun p => (p.2, p.1.toNat) := by
    rw [stakePairs, List.map_filterMap]
    refine List.filterMap_congr fun a member => ?_
    rw [book_bond (sound.active a member)]
    cases s.getValidator a <;> rfl
  rw [Book.claims, listed, claims]
  refine (List.map_insertionSort remainderOrder ClaimsBefore _ _ fun p _ q _ => ?_).symm
  rw [remainderOrder, ClaimsBefore, BitVec.lt_def, BitVec.toNat_inj]

theorem payouts_read (sound : Sound A s) (nodup : s.activeSet.Nodup) (fits : s.total A < 2 ^ 256)
    (fees : U128) : (s.book A).payouts fees.toNat = s.payouts fees := by
  have bound := sum_active_le sound nodup
  have weight : ProRata.amount (s.book A).claims = (totalStake s.stakePairs).toNat := by
    rw [claims_read sound, amount_claims, totalStake_toNat, sum_stakePairs]
    omega
  have zero : totalStake s.stakePairs = 0 ↔ (totalStake s.stakePairs).toNat = 0 := by
    rw [← BitVec.toNat_inj]
    rfl
  rw [Book.payouts, payouts, weight]
  simp only [zero, claims_read sound]

theorem book_distribute {fees : U128} (sound : Sound A s) (nodup : s.activeSet.Nodup)
    (fits : s.total A + fees.toNat < 2 ^ 256) (credited : Credited A s t (s.feeShare fees)) :
    t.book A = (s.book A).distribute fees.toNat := by
  have payouts := payouts_read sound nodup (by omega) fees
  have shares (a : Address) : ProRata.received ((s.book A).payouts fees.toNat) a = s.feeShare fees a := by
    rw [payouts, feeShare]
  have paid : ∑ a ∈ A, s.feeShare fees a ≤ fees.toNat := by
    rw [sum_feeShare sound, amount_payouts sound nodup (by omega)]
    split <;> omega
  ext1
  · funext a
    simp only [Book.distribute, shares]
    by_cases ha : a ∈ A
    · have grant : s.feeShare fees a ≤ ∑ a ∈ A, s.feeShare fees a :=
        Finset.single_le_sum (fun _ _ => Nat.zero_le _) ha
      have held := balance_add_stake_le (s := s) ha ha
      have room : ((s.account a).getD (Account.new 0)).balance.toNat + s.feeShare fees a < 2 ^ 256 := by
        change s.balance a + _ < _
        omega
      rw [book_purse ha, book_purse ha, book_held ha, credited.account a ha, ← Account.read_credit room]
      split
      next => rfl
      next => rfl
    · have absent : a ∉ s.activeSet := fun member => ha (sound.active a member)
      rw [if_pos (feeShare_of_inactive absent fees)]
      simp [book, ha]
  · funext a
    by_cases ha : a ∈ A
    · rw [book_bond ha, credited.entry a ha, ← book_bond ha]
      rfl
    · simp [Book.distribute, book, ha]
  · exact credited.active

/-- What the loop keeps: soundness, the active set, and that value is not created. -/
structure Serving (A : Finset Address) (s : StateMachine) (p : Progress) : Prop where
  sound : Sound A p.machine
  active : p.machine.activeSet = s.activeSet
  value : p.machine.total A + p.blockFees.toNat ≤ s.total A

/-- A block does to the book what the book's block does. -/
theorem applyBlock_book {b : Block} {receipt : BlockReceipt} (solvent : Solvent A s)
    (within : ∀ tx ∈ b.body.transactions, tx.Within A) (h : s.applyBlock b = .ok (receipt, t)) :
    t.book A = (s.book A).block b := by
  have fits := solvent.fits
  obtain ⟨p, looped, -, -, credited, -⟩ := applyBlock_spec solvent.sound within h
  have start : Serving A s ⟨s, 0, 0, 0⟩ := ⟨solvent.sound, rfl, Nat.le_of_eq rfl⟩
  obtain ⟨serving, served⟩ : Serving A s p ∧ readProgress A p =
      b.body.transactions.foldl (Book.serve b.header.chainId) (readProgress A ⟨s, 0, 0, 0⟩) :=
    foldlM_simulates (fun q tx member r serving stepped => by
      have here := within tx member
      have outcome := applyTx_outcome stepped
      obtain ⟨leak, balanced, -⟩ := outcome.accounting serving.sound here
      have value := serving.value
      exact ⟨⟨outcome.sound serving.sound here, outcome.activeSet.trans serving.active, by omega⟩,
        applyTx_serves serving.sound here (by omega) stepped⟩) start looped
  have value := serving.value
  have distinct : p.machine.activeSet.Nodup := serving.active ▸ solvent.distinct
  rw [book_distribute serving.sound distinct (by omega) credited]
  change readProgress A p = b.body.transactions.foldl _ (s.book A, 0) at served
  rw [Book.block, ← served, readProgress]

end Blocks

section Hooks

variable {v : Address} {era : U64}

theorem book_creditTo (apart : KeysApart A) (ha : a ∈ A) {amount : Nat}
    (fits : s.balance a + amount < 2 ^ 256) :
    (s.creditTo a amount).book A = (s.book A).credit a amount := by
  rw [creditTo, book_setAccount apart ha, Account.read_credit fits, Book.credit, book_held ha]

theorem balance_creditTo_le {b : Address} (apart : KeysApart A) (hb : b ∈ A) (ha : a ∈ A)
    (amount : Nat) : (s.creditTo b amount).balance a ≤ s.balance a + amount := by
  rw [balance, account_creditTo apart hb ha]
  split
  next =>
    rw [Option.getD_some, Account.credit_balance, balance]
    omega
  next => exact Nat.le_add_right _ _

theorem applySlash_book {proposer reporter : Address} {result : Result SlashResult}
    (sound : Sound A s) (fits : s.total A < 2 ^ 256) (hp : proposer ∈ A) (hr : reporter ∈ A)
    (hb : burnAddress ∈ A) (h : s.applySlash proposer reporter era = .ok (result, t)) :
    t.book A = (s.book A).slash proposer reporter era.toNat := by
  rw [Book.slash, book_bond hp]
  rcases applySlash_cases sound hr hb h with
    ⟨rfl, -, frozen⟩ | ⟨e, amounts, frozenUntil, found, unfrozen, splits, later, -, rfl⟩
  · cases found : t.getValidator proposer with
    | none => rfl
    | some e => simp [e.read_isFrozen, frozen e found]
  · have taken : e.read.penalty = amounts.slashedAmount.toNat := splits.slashed.symm
    have burned := splits.burned
    have bounty := splits.bounty
    have remaining := splits.remaining
    have atBurn := balance_add_stake_le (s := s) hb hp
    have atReporter := balance_add_stake_le (s := s) hr hp
    have after := balance_creditTo_le (s := s) sound.apart hb hr amounts.burnAmount.toNat
    rw [stake_of_found found] at atBurn atReporter
    have frozen : ({ e with stake := amounts.remainingStake, status := .frozen frozenUntil } :
        ValidatorEntry).read = e.read.freeze era.toNat := by
      rw [Bond.freeze, taken, e.read_stake, ← later, ← remaining, Nat.add_sub_cancel]
      rfl
    rw [found, Option.map_some]
    dsimp only
    rw [e.read_isFrozen, unfrozen, if_neg Bool.false_ne_true, slashed,
      book_setValidator sound.apart hp, frozen, book_creditTo sound.apart hr (by omega),
      book_creditTo sound.apart hb (by omega), taken, ← burned, ← bounty]

/-- One entry is replaced by what `f` makes of it. -/
theorem book_update {f : ValidatorEntry → ValidatorEntry} {g : Bond → Bond} (hv : v ∈ A)
    (adjusted : Adjusted A s t) (reads : ∀ e, s.getValidator v = some e → (f e).read = g e.read)
    (entry : ∀ a ∈ A, t.getValidator a =
      if a = v then (s.getValidator a).map f else s.getValidator a) :
    t.book A = (s.book A).updateBond v g := by
  ext1
  · funext a
    by_cases ha : a ∈ A
    · rw [book_purse ha, adjusted.account a ha, ← book_purse ha]
      rfl
    · simp [Book.updateBond, book, ha]
  · funext a
    by_cases ha : a ∈ A
    · rw [book_bond ha, entry a ha, Book.updateBond, book_bond hv]
      by_cases same : a = v
      · subst same
        cases found : s.getValidator a with
        | none => simp
        | some e => simp [reads e found]
      · simp [same, book_bond ha]
    · have other : a ≠ v := fun same => ha (same ▸ hv)
      simp [Book.updateBond, book, ha, other]
  · exact adjusted.active

theorem processThaw_book (sound : Sound A s) (hv : v ∈ A) :
    (s.processThaw v era).1.book A = (s.book A).updateBond v fun bond => bond.thaw era.toNat :=
  book_update hv (processThaw_adjusted v era sound hv) (fun e _ => e.read_thawedIn era)
    fun _ ha => processThaw_getValidator sound hv ha

theorem thawAll_book {addrs : List Address} (sound : Sound A s) (within : ∀ a ∈ addrs, a ∈ A) :
    (s.thawAll addrs era).1.book A =
      addrs.foldl (fun b a => b.updateBond a fun bond => bond.thaw era.toNat) (s.book A) := by
  rw [thawAll_fst]
  induction addrs generalizing s with
  | nil => rfl
  | cons v rest ih =>
    have hv := within v List.mem_cons_self
    rw [List.foldl_cons, List.foldl_cons, ← processThaw_book sound hv]
    exact ih (processThaw_adjusted v era sound hv).sound fun a later =>
      within a (List.mem_cons_of_mem _ later)

theorem updateBond_of_fixed {g : Bond → Bond} (hv : v ∈ A)
    (fixed : ∀ e, s.getValidator v = some e → g e.read = e.read) :
    (s.book A).updateBond v g = s.book A := by
  have same : ((s.book A).bond v).map g = (s.book A).bond v := by
    rw [book_bond hv]
    cases found : s.getValidator v with
    | none => rfl
    | some e => simp [fixed e found]
  rw [Book.updateBond, same, Function.update_eq_self]

theorem book_rewritten {g : Bond → Bond} {e after : ValidatorEntry} (apart : KeysApart A) (hv : v ∈ A)
    (found : s.getValidator v = some e) (reads : after.read = g e.read) :
    (s.setValidator v after).book A = (s.book A).updateBond v g := by
  rw [book_setValidator apart hv, Book.updateBond, book_bond hv, found, Option.map_some,
    Option.map_some, reads]
  rfl

theorem processUnstakingCooldown_book (sound : Sound A s) (hv : v ∈ A)
    (h : s.processUnstakingCooldown v era = .ok t) :
    t.book A = (s.book A).updateBond v fun bond => bond.release era.toNat := by
  unfold processUnstakingCooldown at h
  cases found : s.getValidator v with
  | none =>
    simp only [found] at h
    cases h
    exact (updateBond_of_fixed hv fun e there => by rw [found] at there; cases there).symm
  | some e =>
    simp only [found] at h
    split at h
    next release amount status =>
      have standing : e.read.standing = .unstaking release.toNat amount.toNat := by
        simp [ValidatorEntry.read, ValidatorStatus.read, status]
      split at h
      next early =>
        cases h
        rw [BitVec.lt_def] at early
        refine (updateBond_of_fixed hv fun e' there => ?_).symm
        cases found.symm.trans there
        simp [Bond.release, standing, early]
      next due =>
        rw [BitVec.lt_def] at due
        split at h
        next whole =>
          cases h
          rw [BitVec.le_def, ← e.read_stake] at whole
          refine book_rewritten sound.apart hv found ?_
          simp only [Bond.release, standing, if_neg due, if_pos whole]
          rfl
        next partial_ =>
          obtain ⟨rest, left, h⟩ := bind_eq_ok.mp h
          cases h
          have value : rest.toNat = e.read.stake - amount.toNat := by
            rw [e.read_stake, ← sub_eq_ok.mp left, Nat.add_sub_cancel]
          rw [BitVec.le_def, ← e.read_stake] at partial_
          refine book_rewritten sound.apart hv found ?_
          simp only [Bond.release, standing, if_neg due, if_neg partial_, ← value]
          by_cases enough : minStake ≤ rest
          · simp [enough, BitVec.le_def.mp enough, ValidatorEntry.read, ValidatorStatus.read]
          · simp [enough, mt BitVec.le_def.mpr enough, ValidatorEntry.read, ValidatorStatus.read]
    next idle =>
      cases h
      refine (updateBond_of_fixed hv fun e' there => ?_).symm
      cases found.symm.trans there
      cases status : e.status with
      | unstaking release amount => exact absurd status (idle release amount)
      | _ => simp [Bond.release, ValidatorEntry.read, ValidatorStatus.read, status]

end Hooks

section Election

variable {candidates : List Address} {max : Nat} {era : U64}

theorem eligible_read (within : ∀ a ∈ candidates, a ∈ A) :
    (candidates.filterMap fun a => ((s.book A).bond a).filter Bond.isOpen) =
      (s.eligible candidates).map ValidatorEntry.read := by
  rw [eligible, List.map_filterMap]
  refine List.filterMap_congr fun a member => ?_
  rw [book_bond (within a member)]
  cases s.getValidator a with
  | none => rfl
  | some e => by_cases open_ : e.status.isFrozenOrUnstaking <;> simp [Option.filter, e.read_isOpen, open_]

theorem elected_read (within : ∀ a ∈ candidates, a ∈ A) :
    (s.book A).elected candidates max era.toNat =
      (s.elected candidates max era).map ValidatorEntry.read := by
  have first : era = 0 ↔ era.toNat = 0 := by
    rw [← BitVec.toNat_inj]
    rfl
  have sorted : ((s.eligible candidates).map ValidatorEntry.read).insertionSort Bond.Before =
      ((s.eligible candidates).insertionSort electionOrder).map ValidatorEntry.read := by
    refine (List.map_insertionSort electionOrder Bond.Before _ _ fun x _ y _ => ?_).symm
    rw [electionOrder, Bond.Before, BitVec.lt_def, BitVec.le_def, ← BitVec.toNat_inj]
    rfl
  unfold Book.elected elected
  simp only [eligible_read within, sorted, first]
  split
  next => rw [List.map_take]
  next =>
    rw [List.map_take, List.filter_map]
    rfl

theorem elections_book {entries : List ValidatorEntry} (sound : Sound A s)
    (inside : ∀ e ∈ entries, e.address ∈ A) :
    (entries.foldl (fun machine e => machine.setValidator (activated e).address (activated e)) s).book A =
      (entries.map ValidatorEntry.read).foldl (fun b bond => b.setBond bond.owner bond.activate)
        (s.book A) := by
  induction entries generalizing s with
  | nil => rfl
  | cons e rest ih =>
    have here := inside e List.mem_cons_self
    have same := activated_address e
    rw [List.foldl_cons, List.map_cons, List.foldl_cons,
      ih (sound.setValidator (same ▸ here) rfl) fun e later => inside e (List.mem_cons_of_mem _ later),
      book_setValidator sound.apart (same ▸ here), e.read_activated, same]
    rfl

theorem runElection_book (sound : Sound A s) (within : ∀ a ∈ candidates, a ∈ A) :
    ((s.runElection candidates max era).2.setActiveSet (s.runElection candidates max era).1).book A =
      (s.book A).elect candidates max era.toNat := by
  have inside : ∀ e ∈ s.elected candidates max era, e.address ∈ A :=
    fun e member => (elected_known sound within member).1
  have owners : (s.elected candidates max era).map (·.address) =
      ((s.elected candidates max era).map ValidatorEntry.read).map (·.owner) := by
    rw [List.map_map]
    rfl
  have bonds := elections_book sound inside
  rw [Book.elect, elected_read within, ← bonds, ← owners]
  rfl

end Election

/-- Every operation that returns does to the book what the book's operation does. -/
theorem step_book {op : Op} (solvent : Solvent A s) (within : op.Within A) (h : s.step op = .ok t) :
    t.book A = (s.book A).step op := by
  have sound := solvent.sound
  cases step_cases h with
  | block applied => exact applyBlock_book solvent within applied
  | slash applied =>
    exact applySlash_book sound solvent.fits within.1 within.2.1 within.2.2 applied
  | cooldown applied => exact processUnstakingCooldown_book sound within applied
  | thaw v era => exact processThaw_book sound within
  | thawAll addrs era => exact thawAll_book sound within
  | election candidates max era => exact runElection_book sound within
  | setActiveSet set => rfl
  | stateRoot read =>
    obtain ⟨-, ledger, active⟩ := sound.rooted read
    exact book_congr (fun a ha => (ledger.account a ha).symm) (fun a ha => (ledger.entry a ha).symm) active

theorem run_book {ops : List Op} (solvent : Solvent A s) (within : ∀ op ∈ ops, op.Within A)
    (elective : ∀ op ∈ ops, op.Elective) (h : s.run ops = .ok t) :
    Solvent A t ∧ t.book A = (s.book A).run ops :=
  foldlM_simulates (P := Solvent A) (fun _ op member _ solvent stepped =>
    ⟨step_solvent solvent (within op member) (elective op member) stepped,
      step_book solvent (within op member) stepped⟩) solvent h

theorem new_book {accounts : List (Address × Account)} (apart : KeysApart A)
    (genesis : ∀ p ∈ accounts, p.1 ∈ A) :
    (new accounts).book A = Book.opening (accounts.map fun p => (p.1, p.2.read)) := by
  have general (s : StateMachine) (sound : Sound A s) :
      (accounts.foldl (fun s p => s.setAccount p.1 p.2) s).book A =
        (accounts.map fun p => (p.1, p.2.read)).foldl (fun b p => b.setPurse p.1 p.2) (s.book A) := by
    induction accounts generalizing s with
    | nil => rfl
    | cons p rest ih =>
      have here := genesis p List.mem_cons_self
      rw [List.foldl_cons, List.map_cons, List.foldl_cons,
        ih (fun p later => genesis p (List.mem_cons_of_mem _ later)) _ (sound.setAccount here _),
        book_setAccount apart here]
  have blank : (new []).book A = Book.empty := by
    ext1
    · funext a
      simp [book, Book.empty, account, new, SparseMerkleTree.get, SparseMerkleTree.new]
    · funext a
      simp [book, Book.empty, getValidator, new, SparseMerkleTree.get, SparseMerkleTree.new]
    · rfl
  rw [new_eq, general _ (sound_empty apart), blank]
  rfl

/-- The machine was opened with less than `2 ^ 256` in all and has been through these operations,
in which the active set changed through elections only. -/
structure Regular (A : Finset Address) (accounts : List (Address × Account)) (ops : List Op)
    (s : StateMachine) : Prop where
  apart : KeysApart A
  genesis : ∀ p ∈ accounts, p.1 ∈ A
  supply : (accounts.map fun p => p.2.balance.toNat).sum < 2 ^ 256
  within : ∀ op ∈ ops, op.Within A
  elective : ∀ op ∈ ops, op.Elective
  ran : run (new accounts) ops = .ok s

theorem Regular.book {accounts : List (Address × Account)} {ops : List Op}
    (regular : Regular A accounts ops s) : Solvent A s ∧ s.book A = Book.after accounts ops := by
  rw [Book.after, ← new_book regular.apart regular.genesis]
  exact run_book (new_solvent regular.apart regular.genesis regular.supply) regular.within
    regular.elective regular.ran

theorem Regular.sound {accounts : List (Address × Account)} {ops : List Op}
    (regular : Regular A accounts ops s) : Sound A s :=
  regular.book.1.sound

/-- The machine is a ledger in numbers without a bound: whatever has been done to it, it holds
what the book holds after the same operations. -/
theorem run_refines_book {accounts : List (Address × Account)} {ops : List Op}
    (regular : Regular A accounts ops s) : s.book A = Book.after accounts ops :=
  regular.book.2

/-- The same ledger is the same book, whatever the active sets are. -/
theorem sameLedger_iff_book :
    SameLedger A s t ↔ (s.book A).purse = (t.book A).purse ∧ (s.book A).bond = (t.book A).bond := by
  constructor
  · intro same
    constructor
    · funext a
      by_cases ha : a ∈ A
      · rw [book_purse ha, book_purse ha, same.account a ha]
      · simp [book, ha]
    · funext a
      by_cases ha : a ∈ A
      · rw [book_bond ha, book_bond ha, same.entry a ha]
      · simp [book, ha]
  · rintro ⟨purse, bond⟩
    refine ⟨fun a ha => ?_, fun a ha => ?_⟩
    · have here := congrFun purse a
      rw [book_purse ha, book_purse ha] at here
      exact Option.map_injective Account.read_injective here
    · have here := congrFun bond a
      rw [book_bond ha, book_bond ha] at here
      exact Option.map_injective ValidatorEntry.read_injective here

/-- Two machines have the same state root exactly when their books agree on every purse and
every bond, however they came about. -/
theorem roots_agree_iff {accounts accounts' : List (Address × Account)} {ops ops' : List Op}
    {root root' : Digest} {u u' : StateMachine} (regular : Regular A accounts ops s)
    (regular' : Regular A accounts' ops' t)
    (free : SparseMerkleTree.CollisionFree s.state.leaves t.state.leaves)
    (read : s.stateRoot = .ok (root, u)) (read' : t.stateRoot = .ok (root', u')) :
    root = root' ↔ (Book.after accounts ops).purse = (Book.after accounts' ops').purse ∧
      (Book.after accounts ops).bond = (Book.after accounts' ops').bond := by
  obtain ⟨_, same, -⟩ := regular.sound.stateRoot
  obtain ⟨_, same', -⟩ := regular'.sound.stateRoot
  cases read.symm.trans same
  cases read'.symm.trans same'
  rw [← regular.book.2, ← regular'.book.2, ← sameLedger_iff_book]
  constructor
  · intro equal
    exact sameLedger_of_lookup_eq (SparseMerkleTree.lookup_eq_of_referenceRoot_eq free equal)
  · intro ledger
    exact SparseMerkleTree.referenceRoot_congr (ledger.lookup_eq regular.sound regular'.sound)

end

section Sample

attribute [local instance] prefixBlake3

theorem frozenMachine_book :
    Regular registryAddresses founders frozenRun frozenMachine ∧
      frozenMachine.book registryAddresses = Book.after founders frozenRun := by
  have regular : Regular registryAddresses founders frozenRun frozenMachine :=
    ⟨by decide, by decide, by decide, by decide, by simp [frozenRun, Op.Elective],
      frozen_computed.1.eq_ok _⟩
  exact ⟨regular, run_refines_book regular⟩

end Sample

section Sample

attribute [local instance] peakBlake3

def soloVote (nonce : U64) : Transaction :=
  ⟨0, nonce, alice, 100, .vote (FixedBytes.replicate 32 0) true, dummySig⟩

def votesApart : List Op := [.block (testBlock [soloVote 0]), .block (testBlock [soloVote 1])]

def votesTogether : List Op := [.block (testBlock [soloVote 0, soloVote 1])]

def votesOnce : List Op := [.block (testBlock [soloVote 0])]

def votedMachine (ops : List Op) : StateMachine := valueD (run (new solo) ops) (new [])

theorem voted_computed :
    (Returns (run (new solo) votesApart) ∧
      (votedMachine votesApart).account alice = some ⟨10 ^ 33 - 200, 2, none⟩ ∧
      (votedMachine votesApart).getValidator alice = none) ∧
    (Returns (run (new solo) votesTogether) ∧
      (votedMachine votesTogether).account alice = some ⟨10 ^ 33 - 200, 2, none⟩ ∧
      (votedMachine votesTogether).getValidator alice = none) ∧
    (Returns (run (new solo) votesOnce) ∧
      (votedMachine votesOnce).account alice = some ⟨10 ^ 33 - 100, 1, none⟩ ∧
      (votedMachine votesOnce).getValidator alice = none) := by
  decide +kernel

theorem voted_regular {ops : List Op} (within : ∀ op ∈ ops, op.Within {alice})
    (elective : ∀ op ∈ ops, op.Elective) (returns : Returns (run (new solo) ops)) :
    Regular {alice} solo ops (votedMachine ops) :=
  ⟨by decide, by decide, by decide, within, elective, returns.eq_ok _⟩

/-- In how many blocks Alice votes is not seen in the root; how often she votes is. -/
theorem solo_roots_differ :
    ∃ root other u v w, (votedMachine votesApart).stateRoot = .ok (root, u) ∧
      (votedMachine votesTogether).stateRoot = .ok (root, v) ∧
      (votedMachine votesOnce).stateRoot = .ok (other, w) ∧ root ≠ other := by
  obtain ⟨⟨ranU, knownU, noneU⟩, ⟨ranV, knownV, noneV⟩, ranW, knownW, noneW⟩ := voted_computed
  have first : Regular {alice} solo votesApart (votedMachine votesApart) :=
    voted_regular (by decide) (by simp [votesApart, Op.Elective]) ranU
  have second : Regular {alice} solo votesTogether (votedMachine votesTogether) :=
    voted_regular (by decide) (by simp [votesTogether, Op.Elective]) ranV
  have third : Regular {alice} solo votesOnce (votedMachine votesOnce) :=
    voted_regular (by decide) (by simp [votesOnce, Op.Elective]) ranW
  obtain ⟨u, readU, -⟩ := first.sound.stateRoot
  obtain ⟨v, readV, -⟩ := second.sound.stateRoot
  obtain ⟨w, readW, -⟩ := third.sound.stateRoot
  have freeUV := collisionFree_of_single first.sound second.sound knownU knownV rfl rfl
    (noneU.trans noneV.symm) fun _ => rfl
  have freeUW := collisionFree_of_single first.sound third.sound knownU knownW rfl rfl
    (noneU.trans noneW.symm) (by decide)
  have same := (roots_agree_iff first second freeUV readU readV).mpr
  have other := (roots_agree_iff first third freeUW readU readW).mp
  simp only [← first.book.2, ← second.book.2, ← third.book.2] at same other
  have alike : (votedMachine votesTogether).book {alice} = (votedMachine votesApart).book {alice} := by
    apply book_congr
    · intro a member
      rw [Finset.mem_singleton.mp member, knownU, knownV]
    · intro a member
      rw [Finset.mem_singleton.mp member, noneU, noneV]
    · decide +kernel
  rw [same ⟨by rw [alike], by rw [alike]⟩] at readU other
  refine ⟨_, _, u, v, w, readU, readV, readW, fun equal => ?_⟩
  have here := congrFun (other equal).1 alice
  rw [book_purse (by simp), book_purse (by simp), knownU, knownW] at here
  exact absurd (Option.map_injective Account.read_injective here) (by decide)

end Sample

end StateMachine

end Mononium
