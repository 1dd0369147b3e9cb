import Mononium.Consensus.Withdrawal

/-! What is overdue after an era boundary. The boundary thaws whoever is due, then elects;
the cooldown hook is not part of it. -/
namespace Mononium

open Rust Scale

namespace ValidatorEntry

/-- The status should have ended by `era`. -/
def Overdue (e : ValidatorEntry) (era : U64) : Prop :=
  match e.status with
  | .frozen frozenUntil => frozenUntil ≤ era
  | .unstaking releaseEra _ => releaseEra ≤ era
  | _ => False

/-- The entry after the thaw hook. -/
def thawedIn (era : U64) (e : ValidatorEntry) : ValidatorEntry :=
  match e.status with
  | .frozen frozenUntil => if era < frozenUntil then e else e.thawed
  | _ => e

theorem thawedIn_thawed (e : ValidatorEntry) (era : U64) : e.thawed.thawedIn era = e.thawed := by
  unfold thawedIn
  split
  next frozenUntil status =>
    rcases e.thawed_status with same | same
    · cases same.symm.trans status
    · cases same.symm.trans status
  next => rfl

theorem thawedIn_idem (e : ValidatorEntry) (era : U64) :
    (e.thawedIn era).thawedIn era = e.thawedIn era := by
  cases status : e.status with
  | frozen frozenUntil =>
    by_cases early : era < frozenUntil
    · simp [thawedIn, status, early]
    · have due : e.thawedIn era = e.thawed := by simp [thawedIn, status, early]
      rw [due, thawedIn_thawed]
  | _ => simp [thawedIn, status]

theorem overdue_thawedIn {e : ValidatorEntry} {era : U64} :
    (e.thawedIn era).Overdue era ↔ ∃ release amount, e.status = .unstaking release amount ∧ release ≤ era := by
  cases status : e.status with
  | frozen frozenUntil =>
    by_cases early : era < frozenUntil
    · simp [thawedIn, Overdue, status, early]
    · by_cases enough : minStake ≤ e.stake
      · simp [thawedIn, thawed, Overdue, status, early, enough]
      · simp [thawedIn, thawed, Overdue, status, early, enough]
  | unstaking release amount => simp [thawedIn, Overdue, status]
  | _ => simp [thawedIn, Overdue, status]

end ValidatorEntry

namespace StateMachine

section

variable [Blake3] {A : Finset Address} {s : StateMachine} {a v : Address} {era : U64}

theorem processThaw_getValidator (sound : Sound A s) (hv : v ∈ A) (ha : a ∈ A) :
    (s.processThaw v era).1.getValidator a =
      if a = v then (s.getValidator a).map (ValidatorEntry.thawedIn era) else s.getValidator a := by
  have same : a = v → s.getValidator a = s.getValidator v := fun h => h ▸ rfl
  unfold processThaw
  split
  next none => by_cases h : a = v <;> simp [h, none]
  next e found =>
    split
    next frozenUntil status =>
      split
      next early => by_cases h : a = v <;> simp [h, found, ValidatorEntry.thawedIn, status, early]
      next due =>
        rw [getValidator_setValidator sound.apart hv ha]
        by_cases h : a = v <;>
          simp [h, found, ValidatorEntry.thawedIn, ValidatorEntry.thawed, status, due]
    next open_ =>
      have stays : e.thawedIn era = e := by
        unfold ValidatorEntry.thawedIn
        split
        next frozenUntil status => exact absurd status (open_ frozenUntil)
        next => rfl
      by_cases h : a = v <;> simp [h, found, stays]

theorem thawAll_getValidator (addrs : List Address) (era : U64) (sound : Sound A s)
    (within : ∀ a ∈ addrs, a ∈ A) (ha : a ∈ A) :
    (s.thawAll addrs era).1.getValidator a =
      if a ∈ addrs then (s.getValidator a).map (ValidatorEntry.thawedIn era) else s.getValidator a := by
  rw [thawAll_fst]
  induction addrs generalizing s with
  | nil => rfl
  | cons v rest ih =>
    have hv := within v List.mem_cons_self
    have first := processThaw_adjusted v era sound hv
    rw [List.foldl_cons, ih first.sound fun b later => within b (List.mem_cons_of_mem _ later),
      processThaw_getValidator sound hv ha]
    by_cases here : a = v
    · cases s.getValidator a <;> simp [here, ValidatorEntry.thawedIn_idem]
    · simp [here]

end

end StateMachine

section

variable [Blake3] {A : Finset Address} {s : StateMachine} {listing : List Address} {height : U64}

/-- An entry after the boundary is active, or it is what the thaw left of it. -/
theorem enterEra_entry {a : Address} (engine : ConsensusEngine) (sound : s.Sound A)
    (lists : Lists listing s) (boundary : isEraBoundary height = true) (ha : a ∈ A) :
    (s.getValidator a = none ∧ (enterEra engine s listing height).2.getValidator a = none) ∨
    ∃ e after, s.getValidator a = some e ∧
      (enterEra engine s listing height).2.getValidator a = some after ∧
      (after = e.thawedIn (eraAtHeight height) ∨ after.status = .active ∧
        (e.thawedIn (eraAtHeight height)).status.isFrozenOrUnstaking = false) := by
  have within := lists.within sound
  have thawed := StateMachine.thawAll_adjusted listing (eraAtHeight height) sound within
  have entry := StateMachine.thawAll_getValidator listing (eraAtHeight height) sound within ha
  rw [enterEra_of_boundary engine s listing boundary]
  change (_ ∧ ((s.thawAll listing (eraAtHeight height)).1.runElection listing maxValidators
    (eraAtHeight height)).2.getValidator a = none) ∨ ∃ e after, _ ∧
    ((s.thawAll listing (eraAtHeight height)).1.runElection listing maxValidators
      (eraAtHeight height)).2.getValidator a = some after ∧ _
  rw [StateMachine.runElection_getValidator thawed.sound within ha]
  cases found : s.getValidator a with
  | none =>
    have unlisted : a ∉ listing := by
      rw [lists.mem, sound.index, found]
      simp
    rw [if_neg unlisted, found] at entry
    exact .inl ⟨rfl, by simp [entry]⟩
  | some e =>
    have listed : a ∈ listing := (lists.mem a).mpr ((sound.index a).mpr ⟨ha, by simp [found]⟩)
    rw [if_pos listed, found, Option.map_some] at entry
    refine .inr ⟨e, ?_⟩
    rw [entry]
    split
    next member =>
      obtain ⟨x, chosen, same⟩ := List.mem_map.mp member
      obtain ⟨-, known, isOpen⟩ := StateMachine.elected_known thawed.sound within chosen
      rw [same, entry] at known
      cases known
      exact ⟨_, rfl, rfl, .inr ⟨activated_status isOpen, isOpen⟩⟩
    next => exact ⟨_, rfl, rfl, .inl rfl⟩

/-- No freeze is overdue after a boundary. Nothing at all is overdue exactly if no withdrawal
was due before it. -/
theorem boundary_settles_iff {accounts : List (Address × Account)} (engine : ConsensusEngine)
    (reachable : s.Reachable A accounts) (lists : Lists listing s)
    (boundary : isEraBoundary height = true) :
    (∀ a ∈ A, ∀ e frozenUntil, (enterEra engine s listing height).2.getValidator a = some e →
      e.status = .frozen frozenUntil → eraAtHeight height < frozenUntil) ∧
    ((∀ a ∈ A, ∀ e, (enterEra engine s listing height).2.getValidator a = some e →
      ¬e.Overdue (eraAtHeight height)) ↔ ∀ a ∈ A, ¬s.Due a (eraAtHeight height)) := by
  have entry (a : Address) (ha : a ∈ A) := enterEra_entry engine reachable.sound lists boundary ha
  refine ⟨?_, ?_, ?_⟩
  · intro a ha e frozenUntil found frozen
    rcases entry a ha with ⟨-, none⟩ | ⟨x, after, -, now, left⟩
    · cases found.symm.trans none
    · cases found.symm.trans now
      rcases left with rfl | ⟨active, -⟩
      · by_contra late
        have overdue : (x.thawedIn (eraAtHeight height)).Overdue (eraAtHeight height) := by
          simp only [ValidatorEntry.Overdue, frozen]
          exact BitVec.not_lt.mp late
        obtain ⟨release, amount, status, -⟩ := ValidatorEntry.overdue_thawedIn.mp overdue
        simp [ValidatorEntry.thawedIn, status] at frozen
      · cases frozen.symm.trans active
  · rintro settled a ha ⟨x, release, amount, found, status, due⟩
    have overdue : (x.thawedIn (eraAtHeight height)).Overdue (eraAtHeight height) :=
      ValidatorEntry.overdue_thawedIn.mpr ⟨release, amount, status, due⟩
    rcases entry a ha with ⟨none, -⟩ | ⟨y, after, known, now, left⟩
    · cases found.symm.trans none
    · cases found.symm.trans known
      rcases left with rfl | ⟨-, isOpen⟩
      · exact settled a ha _ now overdue
      · -- The election passes over whoever withdraws.
        simp [ValidatorEntry.thawedIn, status, ValidatorStatus.isFrozenOrUnstaking] at isOpen
  · intro idle a ha e found overdue
    rcases entry a ha with ⟨-, none⟩ | ⟨x, after, known, now, left⟩
    · cases found.symm.trans none
    · cases found.symm.trans now
      rcases left with rfl | ⟨active, -⟩
      · obtain ⟨release, amount, status, due⟩ := ValidatorEntry.overdue_thawedIn.mp overdue
        exact idle a ha ⟨x, release, amount, known, status, due⟩
      · simp [ValidatorEntry.Overdue, active] at overdue

end

section Sample

attribute [local instance] prefixBlake3

set_option maxRecDepth 8192

open StateMachine

theorem withdrawnMachine_lists : Lists [alice, bob] withdrawnMachine := by
  have index : withdrawnMachine.validators = {alice, bob} := by decide +kernel
  refine ⟨by decide, fun a => ?_⟩
  rw [index]
  simp

theorem withdrawnMachine_entries :
    (withdrawnMachine.getValidator alice).map (·.status) = some (.unstaking 168 (10 ^ 32)) ∧
    (withdrawnMachine.getValidator bob).map (·.status) = some (.staked (10 ^ 32)) := by
  obtain ⟨-, -, -, unstaking, -⟩ := withdrawal_computed
  exact ⟨unstaking, by decide +kernel⟩

/-- At the boundary of era 167 nothing is due yet. -/
theorem boundary_settles_early :
    Lists [alice, bob] withdrawnMachine ∧ ∀ a ∈ ({alice, bob} : Finset Address), ∀ e,
      (enterEra ⟨none, none, 0⟩ withdrawnMachine [alice, bob] 120240).2.getValidator a = some e →
      ¬e.Overdue 167 := by
  refine ⟨withdrawnMachine_lists, ?_⟩
  obtain ⟨atAlice, atBob⟩ := withdrawnMachine_entries
  have boundary : isEraBoundary 120240 = true := by decide
  refine (boundary_settles_iff ⟨none, none, 0⟩ withdrawnMachine_reachable withdrawnMachine_lists
    boundary).2.mpr ?_
  rintro a ha ⟨e, release, amount, found, status, due⟩
  rcases Finset.mem_insert.mp ha with rfl | other
  · rw [found, Option.map_some, status] at atAlice
    cases atAlice
    revert due
    decide
  · rw [Finset.mem_singleton.mp other] at found
    rw [found, Option.map_some, status] at atBob
    cases atBob

/-- At the boundary of era 168 Alice's withdrawal is due, and it stays. -/
theorem boundary_leaves_withdrawal :
    Reachable {alice, bob} founders withdrawnMachine ∧ Lists [alice, bob] withdrawnMachine ∧
    isEraBoundary 120960 = true ∧ eraAtHeight 120960 = 168 ∧
    ∃ e, (enterEra ⟨none, none, 0⟩ withdrawnMachine [alice, bob] 120960).2.getValidator alice = some e ∧
      e.Overdue 168 := by
  have boundary : isEraBoundary 120960 = true := by decide
  refine ⟨withdrawnMachine_reachable, withdrawnMachine_lists, boundary, by decide, ?_⟩
  obtain ⟨e, found, status⟩ := Option.map_eq_some_iff.mp withdrawnMachine_entries.1
  have member : alice ∈ ({alice, bob} : Finset Address) := by decide
  rcases enterEra_entry ⟨none, none, 0⟩ withdrawnMachine_reachable.sound withdrawnMachine_lists
    boundary member with ⟨none, -⟩ | ⟨x, after, known, now, left⟩
  · cases found.symm.trans none
  · cases found.symm.trans known
    rcases left with rfl | ⟨-, isOpen⟩
    · refine ⟨_, now, ?_⟩
      exact ValidatorEntry.overdue_thawedIn.mpr ⟨168, 10 ^ 32, status, by decide⟩
    · simp [ValidatorEntry.thawedIn, status, ValidatorStatus.isFrozenOrUnstaking] at isOpen

end Sample

end Mononium
