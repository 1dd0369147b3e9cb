import Mononium.Core.Runs
import Mathlib.Logic.Relation

/-! The validator registry over whole runs. Eight operations write validator entries; what
each of them can make of an entry is one case of a relation, and every law of the registry
is a property of entries that these cases keep. -/
namespace Mononium

open Rust Scale

/-- The era in which the operation thaws `a`, if it tries to. -/
def Op.thawEra (a : Address) : Op → Option U64
  | .thaw validator currentEra => if validator = a then some currentEra else none
  | .thawAll addrs currentEra => if a ∈ addrs then some currentEra else none
  | _ => none

def ValidatorEntry.thawed (e : ValidatorEntry) : ValidatorEntry :=
  { e with status := if minStake ≤ e.stake then .thawed else .registered }

theorem ValidatorEntry.thawed_status (e : ValidatorEntry) :
    e.thawed.status = .thawed ∨ e.thawed.status = .registered := by
  unfold ValidatorEntry.thawed
  split
  next => exact .inl rfl
  next => exact .inr rfl

/-- The validator set in the order in which it is listed. -/
structure Lists (listing : List Address) (s : StateMachine) : Prop where
  nodup : listing.Nodup
  mem : ∀ a, a ∈ listing ↔ a ∈ s.validators

theorem Lists.eq_nil {listing : List Address} {s : StateMachine} (lists : Lists listing s)
    (none : s.validators = ∅) : listing = [] := by
  apply List.eq_nil_iff_forall_not_mem.mpr
  intro a member
  have := (lists.mem a).mp member
  simp [none] at this

/-- One write to the entry of `a`. Blocks unstake with era 0. -/
inductive Rewrite (a : Address) : Op → Option ValidatorEntry → Option ValidatorEntry → Prop
  | registers {b : Block} {publicKey : FixedBytes 897} :
      Rewrite a (.block b) none (some ⟨a, publicKey, 0, .registered, 0⟩)
  | founds {b : Block} {amount : U256} :
      Rewrite a (.block b) none (some ⟨a, FixedBytes.replicate 897 0, amount, .staked amount, 0⟩)
  | stakes {b : Block} {e : ValidatorEntry} {stake : U256}
      (open_ : e.status.isFrozenOrUnstaking = false) :
      Rewrite a (.block b) (some e) (some (StateMachine.stakedEntry e stake))
  | unstakes {b : Block} {e : ValidatorEntry} {release : U64} {pending : U256}
      (unfrozen : e.status.isFrozen = false) (cooled : release.toNat = e.releasedIn 0)
      (positive : 0 < pending.toNat) (covered : pending.toNat ≤ e.stake.toNat) :
      Rewrite a (.block b) (some e) (some { e with status := .unstaking release pending })
  | releases {era release : U64} {e : ValidatorEntry} {amount stake : U256} {status : ValidatorStatus}
      (was : e.status = .unstaking release amount) (due : release ≤ era)
      (settled : status = .registered ∨ status = .staked stake) :
      Rewrite a (.cooldown a era) (some e) (some { e with stake, status })
  | thaws {op : Op} {era frozenUntil : U64} {e : ValidatorEntry} (asked : op.thawEra a = some era)
      (was : e.status = .frozen frozenUntil) (due : frozenUntil ≤ era) :
      Rewrite a op (some e) (some e.thawed)
  | activates {candidates : List Address} {max : Nat} {era : U64} {e : ValidatorEntry}
      (open_ : e.status.isFrozenOrUnstaking = false) :
      Rewrite a (.election candidates max era) (some e) (some (StateMachine.activated e))
  | slashes {reporter : Address} {era frozenUntil : U64} {e : ValidatorEntry} {remaining : U256}
      (unfrozen : e.status.isFrozen = false) :
      Rewrite a (.slash a reporter era) (some e)
        (some { e with stake := remaining, status := .frozen frozenUntil })

/-- The only write to a frozen entry is the thaw. -/
theorem Rewrite.of_frozen {a : Address} {op : Op} {e : ValidatorEntry} {f : U64}
    {o : Option ValidatorEntry} (frozen : e.status = .frozen f) (rewrite : Rewrite a op (some e) o) :
    ∃ era, op.thawEra a = some era ∧ f ≤ era ∧ o = some e.thawed := by
  cases rewrite with
  | stakes open_ | activates open_ => simp [frozen, ValidatorStatus.isFrozenOrUnstaking] at open_
  | unstakes unfrozen _ _ _ | slashes unfrozen => simp [frozen, ValidatorStatus.isFrozen] at unfrozen
  | releases was _ _ => simp [frozen] at was
  | thaws asked was due =>
    cases frozen.symm.trans was
    exact ⟨_, asked, due, rfl⟩

/-- An operation that thaws does not write an entry again that it has thawed. -/
theorem not_rewrite_thawed {a : Address} {op : Op} {e : ValidatorEntry} {era : U64}
    {o : Option ValidatorEntry} (asked : op.thawEra a = some era) : ¬Rewrite a op (some e.thawed) o := by
  intro rewrite
  cases rewrite with
  | thaws _ was _ =>
    rcases e.thawed_status with same | same
    · cases same.symm.trans was
    · cases same.symm.trans was
  | _ => cases asked

/-- What is being withdrawn is something, and the stake covers it. -/
def ValidatorEntry.Covers (e : ValidatorEntry) : Prop :=
  ∀ release amount, e.status = .unstaking release amount →
    0 < amount.toNat ∧ amount.toNat ≤ e.stake.toNat

/-- What identifies a validator stays. -/
structure ValidatorEntry.SameIdentity (e after : ValidatorEntry) : Prop where
  address : after.address = e.address
  publicKey : after.publicKey = e.publicKey
  registrationEra : after.registrationEra = e.registrationEra

theorem activated_status {e : ValidatorEntry} (open_ : e.status.isFrozenOrUnstaking = false) :
    (StateMachine.activated e).status = .active := by
  cases status : e.status <;>
    simp_all [StateMachine.activated, ValidatorStatus.isFrozenOrUnstaking]

theorem stakedEntry_open {e : ValidatorEntry} (stake : U256) (open_ : e.status.isFrozenOrUnstaking = false) :
    (StateMachine.stakedEntry e stake).status.isFrozenOrUnstaking = false := by
  unfold StateMachine.stakedEntry
  dsimp only
  split
  next => rfl
  next => exact open_

/-- A write leaves an entry, and no withdrawal that the stake does not cover. -/
theorem Rewrite.covers {a : Address} {op : Op} {o m : Option ValidatorEntry}
    (rewrite : Rewrite a op o m) : ∃ e, m = some e ∧ e.Covers := by
  cases rewrite with
  | registers | founds => exact ⟨_, rfl, fun _ _ status => by cases status⟩
  | @stakes _ e stake open_ =>
    refine ⟨_, rfl, fun release amount status => ?_⟩
    have stays := stakedEntry_open stake open_
    rw [status] at stays
    cases stays
  | unstakes _ _ positive covered =>
    refine ⟨_, rfl, fun release amount status => ?_⟩
    cases status
    exact ⟨positive, covered⟩
  | releases _ _ settled =>
    refine ⟨_, rfl, fun release amount status => ?_⟩
    rcases settled with rfl | rfl
    · cases status
    · cases status
  | @thaws _ _ _ e _ _ _ =>
    refine ⟨_, rfl, fun release amount status => ?_⟩
    rcases e.thawed_status with same | same
    · cases same.symm.trans status
    · cases same.symm.trans status
  | activates open_ =>
    exact ⟨_, rfl, fun release amount status => by simp [activated_status open_] at status⟩
  | slashes _ => exact ⟨_, rfl, fun _ _ status => by cases status⟩

theorem Rewrite.sameIdentity {a : Address} {op : Op} {e : ValidatorEntry} {o : Option ValidatorEntry}
    (rewrite : Rewrite a op (some e) o) : ∃ after, o = some after ∧ e.SameIdentity after := by
  cases rewrite with
  | activates open_ =>
    refine ⟨_, rfl, ?_⟩
    cases status : e.status <;> exact ⟨by simp [StateMachine.activated, status],
      by simp [StateMachine.activated, status], by simp [StateMachine.activated, status]⟩
  | _ => exact ⟨_, rfl, rfl, rfl, rfl⟩

/-- What an operation does to the entry of `a`. -/
def Rewrites (a : Address) (op : Op) : Option ValidatorEntry → Option ValidatorEntry → Prop :=
  Relation.ReflTransGen (Rewrite a op)

namespace Rewrites

variable {a : Address} {op : Op} {o m n : Option ValidatorEntry}

theorem of_eq (same : m = o) : Rewrites a op o m := same ▸ .refl

theorem single (rewrite : Rewrite a op o m) : Rewrites a op o m := Relation.ReflTransGen.single rewrite

theorem trans (first : Rewrites a op o m) (second : Rewrites a op m n) : Rewrites a op o n :=
  Relation.ReflTransGen.trans first second

theorem invariant {P : Option ValidatorEntry → Prop} (rewrites : Rewrites a op o m)
    (kept : ∀ x y, Rewrite a op x y → P x → P y) (start : P o) : P m := by
  induction rewrites with
  | refl => exact start
  | tail _ last ih => exact kept _ _ last ih

end Rewrites

theorem Lists.within [Blake3] {A : Finset Address} {listing : List Address} {s : StateMachine}
    (lists : Lists listing s) (sound : s.Sound A) : ∀ a ∈ listing, a ∈ A :=
  fun a member => ((sound.index a).mp ((lists.mem a).mp member)).1

namespace StateMachine

section

variable [Blake3] {A : Finset Address} {s t : StateMachine} {a : Address}

theorem rewrites_setValidator {op : Op} {v : Address} {e : ValidatorEntry} (sound : Sound A s)
    (hv : v ∈ A) (ha : a ∈ A) (rewrite : Rewrite v op (s.getValidator v) (some e)) :
    Rewrites a op (s.getValidator a) ((s.setValidator v e).getValidator a) := by
  rw [getValidator_setValidator sound.apart hv ha]
  split
  next same =>
    subst same
    exact .single rewrite
  next => exact .refl

section Blocks

variable {chainId : U64} {p q : Progress} {tx : Transaction} {b : Block}

theorem execute_unstake {sender : Account} {done : Executed} {v : Address} {amount : U256}
    (body : tx.body = .unstake v amount) (h : s.execute sender tx = .ok done) :
    done.machine = s ∨ ∃ e release total, s.getValidator v = some e ∧
      release.toNat = e.releasedIn 0 ∧
      done.machine = s.setValidator v { e with status := .unstaking release total } := by
  unfold execute at h
  simp only [body] at h
  rcases applyUnstake_cases h with ⟨-, reason, rfl⟩ |
    ⟨e, from_, -, ⟨-, machine, -⟩ | ⟨release, total, cooled, -, -, -, machine⟩⟩
  · exact .inl rfl
  · exact .inl machine
  · exact .inr ⟨e, release, total, from_.found, cooled, machine⟩

theorem applyTx_unstake (sound : Sound A p.machine) (within : tx.Within A) {v : Address}
    {amount : U256} (body : tx.body = .unstake v amount) (h : applyTx chainId p tx = .ok q) :
    q.machine.getValidator v = p.machine.getValidator v ∨ ∃ e release total,
      p.machine.getValidator v = some e ∧ release.toNat = e.releasedIn 0 ∧
      q.machine.getValidator v = some { e with status := .unstaking release total } := by
  have hv := within.validator (.inr body)
  unfold applyTx at h
  split at h
  next =>
    obtain ⟨failed, -, h⟩ := bind_eq_ok.mp h
    cases h
    exact .inl rfl
  next =>
    rw [sound.getAccount within.1, ok_bind] at h
    cases known : p.machine.account tx.sender with
    | none =>
      simp only [known] at h
      obtain ⟨failed, -, h⟩ := bind_eq_ok.mp h
      cases h
      exact .inl rfl
    | some sender =>
      simp only [known] at h
      obtain ⟨done, ran, h⟩ := bind_eq_ok.mp h
      have left : q.machine.getValidator v = done.machine.getValidator v := by
        split at h
        next =>
          obtain ⟨fees, -, h⟩ := bind_eq_ok.mp h
          obtain ⟨count, -, h⟩ := bind_eq_ok.mp h
          cases h
          exact getValidator_setAccount sound.apart within.1 hv _
        next =>
          split at h
          next =>
            obtain ⟨balance, -, h⟩ := bind_eq_ok.mp h
            obtain ⟨fees, -, h⟩ := bind_eq_ok.mp h
            obtain ⟨failed, -, h⟩ := bind_eq_ok.mp h
            cases h
            exact getValidator_setAccount sound.apart within.1 hv _
          next =>
            obtain ⟨failed, -, h⟩ := bind_eq_ok.mp h
            cases h
            rfl
      rcases execute_unstake body ran with same | ⟨e, release, total, found, cooled, machine⟩
      · exact .inl (by rw [left, same])
      · refine .inr ⟨e, release, total, found, cooled, ?_⟩
        rw [left, machine, getValidator_setValidator sound.apart hv hv, if_pos rfl]

theorem applyTx_rewrites (sound : Sound A p.machine) (within : tx.Within A)
    (h : applyTx chainId p tx = .ok q) (ha : a ∈ A) :
    Rewrites a (.block b) (p.machine.getValidator a) (q.machine.getValidator a) := by
  have kept (machine : StateMachine) (x : Account) :
      (machine.setAccount tx.sender x).getValidator a = machine.getValidator a :=
    getValidator_setAccount sound.apart within.1 ha x
  have outcome := applyTx_outcome h
  cases outcome with
  | skipped _ _ | unpaid _ _ _ _ _ _ | spoiledUnpaid _ _ _ _ _ => exact .refl
  | rejected _ _ _ _ _ _ _ | spoiled _ _ _ _ _ _ _ => exact .of_eq (kept _ _)
  | executed _ _ accepts _ effect _ _ =>
    rw [kept]
    cases effect with
    | pays body _ => exact .of_eq (getValidator_setAccount sound.apart (within.recipient body) ha _)
    | charges _ => exact .refl
    | registers _ unknown =>
      apply rewrites_setValidator sound within.1 ha
      rw [unknown]
      exact .registers
    | founds _ unknown =>
      apply rewrites_setValidator sound within.1 ha
      rw [unknown]
      exact .founds
    | stakes body found _ =>
      apply rewrites_setValidator sound (within.validator (.inl body)) ha
      simp only [Accepts, body] at accepts
      obtain ⟨e, on, -⟩ := accepts
      cases found.symm.trans on.found
      rw [found]
      exact .stakes on.open_
    | @unstakes v amount pending release e body found sum covered =>
      have hv := within.validator (.inr body)
      simp only [Accepts, body] at accepts
      obtain ⟨e, from_, -⟩ := accepts
      cases found.symm.trans from_.found
      have positive : 0 < amount.toNat := by
        have := from_.positive
        bv_omega
      have written : (p.machine.setValidator v { e with status := .unstaking release pending }).getValidator
          v = some { e with status := .unstaking release pending } := by
        rw [getValidator_setValidator sound.apart hv hv, if_pos rfl]
      have cooled : release.toNat = e.releasedIn 0 := by
        have left := applyTx_unstake sound within body h
        rw [getValidator_setAccount sound.apart within.1 hv, written, found] at left
        rcases left with same | ⟨_, _, _, same, cooled, again⟩
        · have status : ValidatorStatus.unstaking release pending = e.status :=
            congrArg ValidatorEntry.status (Option.some.inj same)
          exact (e.releasedIn_of_unstaking status.symm).symm
        · cases same
          have status := congrArg ValidatorEntry.status (Option.some.inj again)
          simp only [ValidatorStatus.unstaking.injEq] at status
          rw [status.1, cooled]
      apply rewrites_setValidator sound hv ha
      rw [found]
      exact .unstakes from_.unfrozen cooled (by omega) (by omega)

theorem applyTxs_rewrites {txs : List Transaction} (sound : Sound A p.machine)
    (within : ∀ tx ∈ txs, tx.Within A) (h : applyTxs chainId p txs = .ok q) (ha : a ∈ A) :
    Rewrites a (.block b) (p.machine.getValidator a) (q.machine.getValidator a) := by
  refine (foldlM_invariant (P := fun q => Sound A q.machine ∧ Rewrites a (.block b)
    (p.machine.getValidator a) (q.machine.getValidator a)) ?_ ⟨sound, .of_eq rfl⟩ h).2
  intro q tx member r ⟨sound, before⟩ stepped
  have here := within tx member
  exact ⟨(applyTx_outcome stepped).sound sound here,
    before.trans (applyTx_rewrites sound here stepped ha)⟩

end Blocks

section Hooks

theorem processUnstakingCooldown_rewrites {v : Address} {era : U64} (sound : Sound A s) (hv : v ∈ A)
    (h : s.processUnstakingCooldown v era = .ok t) (ha : a ∈ A) :
    Rewrites a (.cooldown v era) (s.getValidator a) (t.getValidator a) := by
  unfold processUnstakingCooldown at h
  cases found : s.getValidator v with
  | none =>
    simp only [found] at h
    cases h
    exact .refl
  | some e =>
    simp only [found] at h
    split at h
    next release amount status =>
      split at h
      next => cases h; exact .refl
      next due =>
        rw [BitVec.not_lt] at due
        split at h
        next =>
          cases h
          apply rewrites_setValidator sound hv ha
          rw [found]
          exact .releases status due (.inl rfl)
        next =>
          obtain ⟨rest, -, h⟩ := bind_eq_ok.mp h
          cases h
          apply rewrites_setValidator sound hv ha
          rw [found]
          refine .releases status due ?_
          split
          next => exact .inr rfl
          next => exact .inl rfl
    next => cases h; exact .refl

theorem processThaw_rewrites {op : Op} {v : Address} {era : U64} (sound : Sound A s) (hv : v ∈ A)
    (asked : op.thawEra v = some era) (ha : a ∈ A) :
    Rewrites a op (s.getValidator a) ((s.processThaw v era).1.getValidator a) := by
  unfold processThaw
  split
  next => exact .refl
  next e found =>
    split
    next frozenUntil status =>
      split
      next => exact .refl
      next due =>
        apply rewrites_setValidator sound hv ha
        rw [found]
        exact .thaws asked status (BitVec.not_lt.mp due)
    next => exact .refl

theorem thawAll_rewrites {addrs : List Address} {era : U64} (sound : Sound A s)
    (within : ∀ a ∈ addrs, a ∈ A) (ha : a ∈ A) :
    Rewrites a (.thawAll addrs era) (s.getValidator a) ((s.thawAll addrs era).1.getValidator a) := by
  have general (some : List Address) (listed : ∀ v ∈ some, v ∈ addrs) (s : StateMachine)
      (sound : Sound A s) :
      Rewrites a (.thawAll addrs era) (s.getValidator a)
        ((some.foldl (fun s a => (s.processThaw a era).1) s).getValidator a) := by
    induction some generalizing s with
    | nil => exact .refl
    | cons v rest ih =>
      have here := listed v List.mem_cons_self
      have first : Rewrites a (.thawAll addrs era) (s.getValidator a)
          ((s.processThaw v era).1.getValidator a) :=
        processThaw_rewrites sound (within v here) (if_pos here) ha
      rw [List.foldl_cons]
      exact first.trans (ih (fun v member => listed v (List.mem_cons_of_mem _ member)) _
        (processThaw_adjusted v era sound (within v here)).sound)
  rw [thawAll_fst]
  exact general addrs (fun _ member => member) s sound

theorem runElection_getValidator {candidates : List Address} {max : Nat} {era : U64}
    (sound : Sound A s) (within : ∀ a ∈ candidates, a ∈ A) (ha : a ∈ A) :
    (s.runElection candidates max era).2.getValidator a =
      if a ∈ (s.runElection candidates max era).1 then (s.getValidator a).map activated
      else s.getValidator a := by
  have general (entries : List ValidatorEntry)
      (known : ∀ e ∈ entries, e ∈ s.elected candidates max era) (m : StateMachine) :
      (entries.foldl (fun machine e => machine.setValidator (activated e).address (activated e))
          m).getValidator a =
        if a ∈ entries.map (·.address) then (s.getValidator a).map activated
        else m.getValidator a := by
    induction entries generalizing m with
    | nil => rfl
    | cons e rest ih =>
      obtain ⟨inside, found, -⟩ := elected_known sound within (known e List.mem_cons_self)
      rw [List.foldl_cons, ih (fun e later => known e (List.mem_cons_of_mem _ later)),
        activated_address, getValidator_setValidator sound.apart inside ha]
      by_cases same : a = e.address
      · simp [same, found]
      · simp [same]
  exact general (s.elected candidates max era) (fun _ member => member) s

theorem runElection_rewrites {candidates : List Address} {max : Nat} {era : U64} (sound : Sound A s)
    (within : ∀ a ∈ candidates, a ∈ A) (ha : a ∈ A) :
    Rewrites a (.election candidates max era) (s.getValidator a)
      ((s.runElection candidates max era).2.getValidator a) := by
  rw [runElection_getValidator sound within ha]
  split
  next member =>
    obtain ⟨e, here, rfl⟩ := List.mem_map.mp member
    obtain ⟨-, found, open_⟩ := elected_known sound within here
    have rewrite : Rewrite e.address (.election candidates max era) (some e) (some (activated e)) :=
      .activates open_
    rw [found]
    exact .single rewrite
  next => exact .refl

theorem applySlash_rewrites {proposer reporter : Address} {era : U64} {result : Result SlashResult}
    (sound : Sound A s) (hp : proposer ∈ A) (hr : reporter ∈ A) (hb : burnAddress ∈ A)
    (h : s.applySlash proposer reporter era = .ok (result, t)) (ha : a ∈ A) :
    Rewrites a (.slash proposer reporter era) (s.getValidator a) (t.getValidator a) := by
  rcases applySlash_cases sound hr hb h with
    ⟨rfl, -⟩ | ⟨e, amounts, frozenUntil, found, unfrozen, -, -, -, rfl⟩
  · exact .refl
  · have credited (v : Address) (hv : v ∈ A) :
        ((s.creditTo burnAddress amounts.burnAmount.toNat).creditTo reporter
          amounts.bountyAmount.toNat).getValidator v = s.getValidator v := by
      rw [getValidator_creditTo sound.apart hr hv, getValidator_creditTo sound.apart hb hv]
    have soundCredited : Sound A ((s.creditTo burnAddress amounts.burnAmount.toNat).creditTo
        reporter amounts.bountyAmount.toNat) := (sound.setAccount hb _).setAccount hr _
    rw [← credited a ha]
    apply rewrites_setValidator soundCredited hp ha
    rw [credited proposer hp, found]
    exact .slashes unfrozen

end Hooks

/-- Every operation is a sequence of such writes, whatever entry one looks at. -/
theorem step_rewrites {op : Op} (sound : Sound A s) (within : op.Within A) (h : s.step op = .ok t)
    (ha : a ∈ A) : Rewrites a op (s.getValidator a) (t.getValidator a) := by
  cases step_cases h with
  | @block b _ _ applied =>
    obtain ⟨p, looped, -, -, credited, -⟩ := applyBlock_spec sound within applied
    rw [credited.entry a ha]
    have rewrites : Rewrites a (.block b) (s.getValidator a) (p.machine.getValidator a) :=
      applyTxs_rewrites sound within looped ha
    exact rewrites
  | slash applied => exact applySlash_rewrites sound within.1 within.2.1 within.2.2 applied ha
  | cooldown applied => exact processUnstakingCooldown_rewrites sound within applied ha
  | thaw v era => exact processThaw_rewrites sound within (if_pos rfl) ha
  | thawAll addrs era => exact thawAll_rewrites sound within ha
  | election candidates max era => exact runElection_rewrites sound within ha
  | setActiveSet set => exact .refl
  | stateRoot read => exact .of_eq ((sound.rooted read).2.1.entry a ha).symm

/-- What every write keeps of an entry, a run keeps. -/
theorem run_entry_invariant {ops : List Op} {P : Option ValidatorEntry → Prop} (sound : Sound A s)
    (within : ∀ op ∈ ops, op.Within A) (ha : a ∈ A)
    (kept : ∀ op ∈ ops, ∀ x y, Rewrite a op x y → P x → P y) (start : P (s.getValidator a))
    (h : s.run ops = .ok t) : P (t.getValidator a) := by
  refine (foldlM_invariant (P := fun t => Sound A t ∧ P (t.getValidator a)) ?_ ⟨sound, start⟩ h).2
  intro t op member u ⟨sound, here⟩ stepped
  exact ⟨step_sound sound (within op member) stepped,
    (step_rewrites sound (within op member) stepped ha).invariant (kept op member) here⟩

theorem getValidator_new {accounts : List (Address × Account)} (apart : KeysApart A)
    (within : ∀ p ∈ accounts, p.1 ∈ A) (ha : a ∈ A) : (new accounts).getValidator a = none := by
  have none : a ∉ (new accounts).validators := by simp [new]
  rw [(new_sound apart within).1.index] at none
  simpa [ha] using none

theorem Reachable.covers {accounts : List (Address × Account)} (reachable : Reachable A accounts s)
    (ha : a ∈ A) {e : ValidatorEntry} (found : s.getValidator a = some e) : e.Covers := by
  obtain ⟨ops, within, ran⟩ := reachable.reached
  have sound := (new_sound reachable.apart reachable.genesis).1
  have all : ∀ e, s.getValidator a = some e → e.Covers := by
    refine run_entry_invariant (P := fun o => ∀ e, o = some e → e.Covers) sound within ha ?_ ?_ ran
    · rintro op - x y rewrite - e rfl
      obtain ⟨after, same, covers⟩ := rewrite.covers
      exact Option.some.inj same ▸ covers
    · rw [getValidator_new reachable.apart reachable.genesis ha]
      intro e absent
      cases absent
  exact all e found

/-- The registry over whole runs: the index lists the stored entries, every entry stands under
its own address and covers what is being withdrawn from it, and no entry is ever lost or
becomes that of another validator. -/
theorem registry_kept {accounts : List (Address × Account)} {ops : List Op} {listing : List Address}
    (reachable : Reachable A accounts s) (within : ∀ op ∈ ops, op.Within A) (ran : s.run ops = .ok t)
    (lists : Lists listing t) :
    listing.Nodup ∧ (∀ a ∈ listing, a ∈ A) ∧
    ∀ a ∈ A, (a ∈ listing ↔ ∃ e, t.getValidator a = some e) ∧
      (∀ e, t.getValidator a = some e → e.address = a ∧ e.Covers) ∧
      ∀ e, s.getValidator a = some e → ∃ after, t.getValidator a = some after ∧ e.SameIdentity after := by
  have sound := run_sound reachable.sound within ran
  refine ⟨lists.nodup, lists.within sound, fun a ha => ⟨?_, ?_, ?_⟩⟩
  · rw [lists.mem, sound.index, Option.isSome_iff_exists]
    exact and_iff_right ha
  · intro e found
    exact ⟨sound.getValidator_address ha found, (reachable.run within ran).covers ha found⟩
  · intro e found
    refine run_entry_invariant (P := fun o => ∃ after, o = some after ∧ e.SameIdentity after)
      reachable.sound within ha ?_ ⟨e, found, rfl, rfl, rfl⟩ ran
    rintro op - x y rewrite ⟨before, rfl, first⟩
    obtain ⟨after, rfl, second⟩ := rewrite.sameIdentity
    exact ⟨after, rfl, second.address.trans first.address, second.publicKey.trans first.publicKey,
      second.registrationEra.trans first.registrationEra⟩

/-- A freeze cannot be shortened or altered: until a thaw of the validator itself in an era
that is late enough, its entry stays as it is, and that thaw changes nothing but the status. -/
theorem freeze_kept {accounts : List (Address × Account)} {ops : List Op} {e : ValidatorEntry}
    {f : U64} (reachable : Reachable A accounts s) (ha : a ∈ A) (found : s.getValidator a = some e)
    (frozen : e.status = .frozen f) (within : ∀ op ∈ ops, op.Within A)
    (early : ∀ op ∈ ops, ∀ era, op.thawEra a = some era → era < f) (ran : s.run ops = .ok t) :
    t.getValidator a = some e ∧
    (∀ op u, op.Within A → t.step op = .ok u → u.getValidator a = some e ∨
      ∃ era, op.thawEra a = some era ∧ f ≤ era ∧ u.getValidator a = some e.thawed) ∧
    ∀ era, f ≤ era → (t.processThaw a era).1.getValidator a = some e.thawed := by
  have sound := run_sound reachable.sound within ran
  have kept : t.getValidator a = some e := by
    refine run_entry_invariant (P := (· = some e)) reachable.sound within ha ?_ found ran
    rintro op member x y rewrite rfl
    obtain ⟨era, asked, due, -⟩ := rewrite.of_frozen frozen
    exact absurd due (BitVec.not_le.mpr (early op member era asked))
  refine ⟨kept, ?_, ?_⟩
  · intro op u inside stepped
    have rewrites := step_rewrites sound inside stepped ha
    rw [kept] at rewrites
    refine rewrites.invariant (P := fun x => x = some e ∨
      ∃ era, op.thawEra a = some era ∧ f ≤ era ∧ x = some e.thawed) ?_ (.inl rfl)
    rintro x y rewrite (rfl | ⟨era, asked, -, rfl⟩)
    · exact .inr (rewrite.of_frozen frozen)
    · exact absurd rewrite (not_rewrite_thawed asked)
  · intro era due
    have written : (t.processThaw a era).1 = t.setValidator a e.thawed := by
      simp [processThaw, kept, frozen, BitVec.not_lt.mpr due, ValidatorEntry.thawed]
    rw [written, getValidator_setValidator sound.apart ha ha, if_pos rfl]

end

section Sample

attribute [local instance] prefixBlake3

set_option maxRecDepth 8192

def registryAddresses : Finset Address := {alice, bob, burnAddress}

def frozenRun : List Op := [.block foundingBlock, .slash alice bob 5]

def frozenMachine : StateMachine := valueD (run (new founders) frozenRun) (new [])

def thawingRun : List Op :=
  [.slash alice bob 6, .election [alice, bob] 2 6, .cooldown alice 400, .thawAll [bob, alice] 76]

theorem frozen_computed :
    Returns (run (new founders) frozenRun) ∧ Returns (frozenMachine.run thawingRun) ∧
    (frozenMachine.getValidator alice).isSome ∧
    (frozenMachine.getValidator alice).map (·.status) = some (.frozen 77) := by
  decide +kernel

theorem frozenMachine_reachable : Reachable registryAddresses founders frozenMachine :=
  ⟨by decide, by decide, frozenRun, by decide, frozen_computed.1.eq_ok _⟩

theorem thawingRun_within : ∀ op ∈ thawingRun, op.Within registryAddresses := by
  decide

theorem freeze_kept_alice :
    ∃ e t, frozenMachine.getValidator alice = some e ∧ e.status = .frozen 77 ∧
      frozenMachine.run thawingRun = .ok t ∧ t.getValidator alice = some e ∧
      (t.processThaw alice 77).1.getValidator alice = some e.thawed := by
  obtain ⟨-, ⟨t, ran⟩, present, status⟩ := frozen_computed
  obtain ⟨e, found⟩ := Option.isSome_iff_exists.mp present
  rw [found, Option.map_some, Option.some.injEq] at status
  have early : ∀ op ∈ thawingRun, ∀ era, op.thawEra alice = some era → era < 77 := by
    simp only [thawingRun, List.forall_mem_cons]
    refine ⟨by simp [Op.thawEra], by simp [Op.thawEra], by simp [Op.thawEra], ?_, by simp⟩
    simp [Op.thawEra]
  obtain ⟨kept, -, thawed⟩ := freeze_kept frozenMachine_reachable (by decide) found status
    thawingRun_within early ran
  exact ⟨e, t, found, status, ran, kept, thawed 77 (by decide)⟩

theorem registry_kept_alice :
    ∃ t, frozenMachine.run thawingRun = .ok t ∧
      ∃ after, t.getValidator alice = some after ∧ after.address = alice := by
  obtain ⟨-, ⟨t, ran⟩, present, -⟩ := frozen_computed
  have sound := run_sound frozenMachine_reachable.sound thawingRun_within ran
  obtain ⟨e, found⟩ := Option.isSome_iff_exists.mp present
  have lists : Lists t.validators.toList t := ⟨t.validators.nodup_toList, by simp⟩
  obtain ⟨-, -, kept⟩ := registry_kept frozenMachine_reachable thawingRun_within ran lists
  obtain ⟨-, own, persists⟩ := kept alice (by decide)
  obtain ⟨after, there, -⟩ := persists e found
  exact ⟨t, ran, after, there, (own after there).1⟩

end Sample

end StateMachine

end Mononium
