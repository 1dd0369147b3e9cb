import Mononium.Consensus.Boundary
import Mononium.Core.Agreement
import Mononium.Core.Election

/-! The boundary of an era, again and again. While a node waits for the first block of the era, each
tick of its slot loop thaws and elects anew. The second time finds statuses that the first time has
changed, but none of the changes bears on who is elected. -/
namespace Mononium

open Rust Scale

namespace ValidatorEntry

theorem thawedIn_of_not_frozen {e : ValidatorEntry} (era : U64) (melted : e.status.isFrozen = false) :
    e.thawedIn era = e := by
  unfold thawedIn
  split
  next frozenUntil status => simp [status, ValidatorStatus.isFrozen] at melted
  next => rfl

end ValidatorEntry

namespace StateMachine

theorem activated_idem (e : ValidatorEntry) : activated (activated e) = activated e := by
  cases status : e.status <;> simp [activated, status]

theorem activated_era (e : ValidatorEntry) : (activated e).registrationEra = e.registrationEra := by
  cases status : e.status <;> simp [activated, status]

section

variable [Blake3]

/-- What the slot loop does at a boundary, with the new active set. -/
def processBoundary (s : StateMachine) (candidates : List Address) (max : Nat) (era : U64) :
    List Address × StateMachine :=
  let (machine, _) := s.thawAll candidates era
  let (active, machine) := machine.runElection candidates max era
  (active, machine.setActiveSet active)

/-- The boundary processed once, and then as often again. -/
def repeatBoundary (s : StateMachine) (candidates : List Address) (max : Nat) (era : U64) :
    Nat → List Address × StateMachine
  | 0 => s.processBoundary candidates max era
  | times + 1 => (s.repeatBoundary candidates max era times).2.processBoundary candidates max era

/-- At a boundary the slot loop processes it for all validators. -/
theorem enterEra_processBoundary (engine : ConsensusEngine) (s : StateMachine) (listing : List Address)
    {height : U64} (boundary : isEraBoundary height = true) : (enterEra engine s listing height).2 =
      (s.processBoundary listing maxValidators (eraAtHeight height)).2 := by
  rw [enterEra_of_boundary engine s listing boundary]
  rfl

variable {A : Finset Address} {s t u : StateMachine} {candidates : List Address} {max : Nat} {era : U64}
  {a : Address}

theorem elected_map {g : ValidatorEntry → ValidatorEntry}
    (entries : ∀ a ∈ candidates, u.getValidator a = (t.getValidator a).map g)
    (isOpen : ∀ a ∈ candidates, ∀ x, t.getValidator a = some x →
      (g x).status.isFrozenOrUnstaking = x.status.isFrozenOrUnstaking)
    (stake : ∀ x, (g x).stake = x.stake) (registered : ∀ x, (g x).registrationEra = x.registrationEra) :
    u.elected candidates max era = (t.elected candidates max era).map g := by
  have eligible : u.eligible candidates = (t.eligible candidates).map g := by
    rw [StateMachine.eligible, StateMachine.eligible, List.map_filterMap]
    refine List.filterMap_congr fun a listed => ?_
    rw [entries a listed]
    cases found : t.getValidator a with
    | none => rfl
    | some x =>
      have same := isOpen a listed x found
      cases closed : x.status.isFrozenOrUnstaking <;> simp [Option.filter_some, same, closed]
  have rule (x y : ValidatorEntry) : electionRule era x y ↔ electionRule era (g x) (g y) := by
    simp only [electionRule, electionOrder, stake, registered]
  have enough : contends era ∘ g = contends era := by
    funext x
    simp only [Function.comp_apply, contends, stake]
  rw [elected_eq, elected_eq, eligible,
    ← List.map_insertionSort (electionRule era) (electionRule era) g _ fun x _ y _ => rule x y,
    List.filter_map, enough, List.map_take]

theorem processBoundary_getValidator (sound : Sound A s) (within : ∀ a ∈ candidates, a ∈ A) (ha : a ∈ A) :
    (s.processBoundary candidates max era).2.getValidator a =
      if a ∈ (s.processBoundary candidates max era).1
      then ((s.thawAll candidates era).1.getValidator a).map activated
      else (s.thawAll candidates era).1.getValidator a :=
  runElection_getValidator (thawAll_adjusted candidates era sound within).sound within ha

theorem processBoundary_adjusted (sound : Sound A s) (within : ∀ a ∈ candidates, a ∈ A) :
    Sound A (s.processBoundary candidates max era).2 ∧
      ∀ a ∈ A, (s.processBoundary candidates max era).2.account a = s.account a := by
  have thawed := thawAll_adjusted candidates era sound within
  obtain ⟨elected, inside⟩ := runElection_adjusted candidates max era thawed.sound within
  exact ⟨elected.sound.setActiveSet inside, (thawed.trans elected).account⟩

/-- The statuses that a boundary leaves are those that it would leave again. -/
theorem thawAll_fixed {v : StateMachine} (sound : Sound A s) (other : Sound A v)
    (within : ∀ a ∈ candidates, a ∈ A)
    (same : SameLedger A (s.processBoundary candidates max era).2 v) (ha : a ∈ A) :
    (v.thawAll candidates era).1.getValidator a =
      (s.processBoundary candidates max era).2.getValidator a := by
  have thawed := thawAll_adjusted candidates era sound within
  rw [thawAll_getValidator candidates era other within ha, ← same.entry a ha]
  split
  next listed =>
    have left := thawAll_getValidator candidates era sound within ha
    rw [if_pos listed] at left
    rw [processBoundary_getValidator sound within ha]
    split
    next chosen =>
      obtain ⟨x, member, rfl⟩ := List.mem_map.mp chosen
      obtain ⟨-, known, isOpen⟩ := elected_known thawed.sound within member
      have melted : (activated x).status.isFrozen = false := by
        rw [activated_status isOpen]
        rfl
      rw [known, Option.map_some, Option.map_some, ValidatorEntry.thawedIn_of_not_frozen era melted]
    next =>
      rw [left]
      cases s.getValidator a <;> simp [ValidatorEntry.thawedIn_idem]
  next => rfl

/-- A machine with the contents that a boundary leaves keeps them at the next one. -/
theorem processBoundary_fixed {v : StateMachine} (sound : Sound A s) (other : Sound A v)
    (within : ∀ a ∈ candidates, a ∈ A)
    (same : SameLedger A (s.processBoundary candidates max era).2 v) :
    (v.processBoundary candidates max era).1 = (s.processBoundary candidates max era).1 ∧
      SameContents (s.processBoundary candidates max era).2 (v.processBoundary candidates max era).2 := by
  have thawed := thawAll_adjusted candidates era sound within
  have again := thawAll_adjusted candidates era other within
  let chosen := (s.processBoundary candidates max era).1
  have entries (a) (ha : a ∈ A) : (v.thawAll candidates era).1.getValidator a =
      if a ∈ chosen then ((s.thawAll candidates era).1.getValidator a).map activated
      else (s.thawAll candidates era).1.getValidator a := by
    rw [thawAll_fixed sound other within same ha]
    exact processBoundary_getValidator sound within ha
  -- The second election sees the first one's entries, of which it has activated the elected.
  have elected : (v.thawAll candidates era).1.elected candidates max era =
      ((s.thawAll candidates era).1.elected candidates max era).map fun x =>
        if x.address ∈ chosen then activated x else x := by
    refine elected_map (fun a listed => ?_) (fun a listed x found => ?_) (fun x => ?_) fun x => ?_
    · rw [entries a (within a listed)]
      cases found : (s.thawAll candidates era).1.getValidator a with
      | none => simp
      | some x =>
        have own := thawed.sound.getValidator_address (within a listed) found
        by_cases member : a ∈ chosen <;> simp [own, member]
    · have own := thawed.sound.getValidator_address (within a listed) found
      split
      next member =>
        obtain ⟨y, taken, address⟩ := List.mem_map.mp (own ▸ member : a ∈ chosen)
        obtain ⟨-, known, isOpen⟩ := elected_known thawed.sound within taken
        rw [address, found] at known
        cases known
        rw [activated_status isOpen, isOpen]
        rfl
      next => rfl
    · split
      next => exact activated_stake x
      next => rfl
    · split
      next => exact activated_era x
      next => rfl
  have list : (v.processBoundary candidates max era).1 = chosen := by
    change ((v.thawAll candidates era).1.elected candidates max era).map (·.address) =
      ((s.thawAll candidates era).1.elected candidates max era).map (·.address)
    rw [elected, List.map_map]
    refine List.map_congr_left fun x _ => ?_
    simp only [Function.comp_apply]
    split
    next => exact activated_address x
    next => rfl
  have first := @processBoundary_adjusted _ A s candidates max era sound within
  have second := @processBoundary_adjusted _ A v candidates max era other within
  have ledger : SameLedger A (s.processBoundary candidates max era).2
      (v.processBoundary candidates max era).2 := by
    refine ⟨fun a ha => ?_, fun a ha => ?_⟩
    · rw [second.2 a ha, ← same.account a ha]
    · rw [processBoundary_getValidator other within ha, list, entries a ha,
        processBoundary_getValidator sound within ha]
      by_cases member : a ∈ chosen
      · simp only [if_pos member, Option.map_map]
        cases (s.thawAll candidates era).1.getValidator a <;> simp [member, chosen, activated_idem]
      · rw [if_neg member, if_neg member]
  refine ⟨list, ledger.lookup_eq first.1 second.1, ?_, list.symm⟩
  ext a
  rw [first.1.index, second.1.index]
  exact and_congr_right fun ha => by rw [ledger.entry a ha]

/-- However often a boundary is processed, the state and the active set are those of the first time. -/
theorem repeatBoundary_eq {accounts : List (Address × Account)} (reachable : Reachable A accounts s)
    (within : ∀ a ∈ candidates, a ∈ A) (max : Nat) (era : U64) (times : Nat) :
    (s.repeatBoundary candidates max era times).1 = (s.processBoundary candidates max era).1 ∧
      SameContents (s.processBoundary candidates max era).2
        (s.repeatBoundary candidates max era times).2 ∧
      SameRoot (s.processBoundary candidates max era).2 (s.repeatBoundary candidates max era times).2 := by
  have sound := reachable.sound
  have first := @processBoundary_adjusted _ A s candidates max era sound within
  have general : Sound A (s.repeatBoundary candidates max era times).2 ∧
      (s.repeatBoundary candidates max era times).1 = (s.processBoundary candidates max era).1 ∧
      SameContents (s.processBoundary candidates max era).2
        (s.repeatBoundary candidates max era times).2 := by
    induction times with
    | zero => exact ⟨first.1, rfl, .refl _⟩
    | succ times ih =>
      obtain ⟨soundOnce, -, contents⟩ := ih
      have same := sameLedger_of_lookup_eq (A := A) contents.leaves
      exact ⟨(processBoundary_adjusted soundOnce within).1,
        processBoundary_fixed sound soundOnce within same⟩
  obtain ⟨soundLast, list, contents⟩ := general
  refine ⟨list, contents, (sameRoot_iff first.1 soundLast).mpr ?_⟩
  exact SparseMerkleTree.referenceRoot_congr contents.leaves

end

section Sample

attribute [local instance] prefixBlake3

/-- The era in which Alice thaws, with Bob listed twice. -/
theorem thawing_repeated :
    (frozenMachine.repeatBoundary [bob, alice, bob] maxValidators 77 3).1 =
      (frozenMachine.processBoundary [bob, alice, bob] maxValidators 77).1 ∧
    SameContents (frozenMachine.processBoundary [bob, alice, bob] maxValidators 77).2
      (frozenMachine.repeatBoundary [bob, alice, bob] maxValidators 77 3).2 ∧
    SameRoot (frozenMachine.processBoundary [bob, alice, bob] maxValidators 77).2
      (frozenMachine.repeatBoundary [bob, alice, bob] maxValidators 77 3).2 :=
  repeatBoundary_eq frozenMachine_reachable (by decide) maxValidators 77 3

end Sample

end StateMachine

end Mononium
