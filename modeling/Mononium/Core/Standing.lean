import Mononium.Core.Election
import Mononium.Core.Registry

/-! Who is active after an election. An election activates whoever it elects and leaves all
others as they are, so a validator that was active before and is passed over stays active. -/
namespace Mononium

open Rust Scale

namespace StateMachine

section

variable [Blake3] {A : Finset Address} {s : StateMachine} {candidates : List Address} {max : Nat}
  {era : U64} {a : Address} {e : ValidatorEntry}

/-- The validator has enough stake, and fewer than `max` contenders come before it: by
stake, then by registration era, then by the order of the candidates. -/
def HasPlace (s : StateMachine) (candidates : List Address) (max : Nat) (era : U64)
    (e : ValidatorEntry) : Prop :=
  contends era e ∧ StableSort.place (electionRule era) (s.contenders candidates era) e < max

instance (s : StateMachine) (candidates : List Address) (max : Nat) (era : U64) (e : ValidatorEntry) :
    Decidable (s.HasPlace candidates max era e) := inferInstanceAs (Decidable (_ ∧ _))

theorem mem_contenders (listed : a ∈ candidates) (found : s.getValidator a = some e)
    (isOpen : e.status.isFrozenOrUnstaking = false) (contends : contends era e = true) :
    e ∈ s.contenders candidates era := by
  apply List.mem_filter.mpr
  refine ⟨List.mem_filterMap.mpr ⟨a, listed, ?_⟩, contends⟩
  simp [found, isOpen]

theorem mem_runElection_iff (sound : Sound A s) (within : ∀ a ∈ candidates, a ∈ A)
    (listed : a ∈ candidates) (found : s.getValidator a = some e)
    (isOpen : e.status.isFrozenOrUnstaking = false) :
    a ∈ (s.runElection candidates max era).1 ↔ s.HasPlace candidates max era e := by
  have own := sound.getValidator_address (within a listed) found
  constructor
  · intro member
    obtain ⟨x, chosen, same⟩ := List.mem_map.mp member
    obtain ⟨-, known, -⟩ := elected_known sound within chosen
    rw [same, found] at known
    cases known
    rw [elected_eq] at chosen
    have contends := (List.mem_filter.mp (List.mem_of_mem_take chosen)).2
    have inside := mem_contenders listed found isOpen contends
    exact ⟨contends, (StableSort.mem_select_iff inside).mp chosen⟩
  · rintro ⟨contends, early⟩
    have inside := mem_contenders listed found isOpen contends
    refine List.mem_map.mpr ⟨e, ?_, own⟩
    rw [elected_eq]
    exact (StableSort.mem_select_iff inside).mpr early

/-- After an election the active validators are the elected ones exactly if every validator
that was active before has a place. -/
theorem active_elected_iff {accounts : List (Address × Account)} (reachable : Reachable A accounts s)
    (lists : Lists candidates s) (max : Nat) (era : U64) :
    (∀ a ∈ (s.runElection candidates max era).1, a ∈ A) ∧
    ((∀ a ∈ A, (∃ e, (s.runElection candidates max era).2.getValidator a = some e ∧
        e.status = .active) ↔ a ∈ (s.runElection candidates max era).1) ↔
      ∀ a ∈ A, ∀ e, s.getValidator a = some e → e.status = .active →
        s.HasPlace candidates max era e) := by
  have sound := reachable.sound
  have within := lists.within sound
  have after (a : Address) (ha : a ∈ A) : (s.runElection candidates max era).2.getValidator a = _ :=
    runElection_getValidator sound within ha
  have listed {a : Address} {e : ValidatorEntry} (ha : a ∈ A) (found : s.getValidator a = some e) :
      a ∈ candidates := (lists.mem a).mpr ((sound.index a).mpr ⟨ha, by simp [found]⟩)
  refine ⟨(runElection_adjusted candidates max era sound within).2, ?_, ?_⟩
  · intro mirrors a ha e found active
    have isOpen : e.status.isFrozenOrUnstaking = false := by
      simp [active, ValidatorStatus.isFrozenOrUnstaking]
    by_contra placeless
    have passed : a ∉ (s.runElection candidates max era).1 := fun chosen =>
      placeless ((mem_runElection_iff sound within (listed ha found) found isOpen).mp chosen)
    have stays := after a ha
    rw [if_neg passed, found] at stays
    exact passed ((mirrors a ha).mp ⟨e, stays, active⟩)
  · intro placed a ha
    constructor
    · rintro ⟨e, now, active⟩
      by_contra passed
      have stays := after a ha
      rw [if_neg passed, now] at stays
      have isOpen : e.status.isFrozenOrUnstaking = false := by
        simp [active, ValidatorStatus.isFrozenOrUnstaking]
      exact passed ((mem_runElection_iff sound within (listed ha stays.symm) stays.symm isOpen).mpr
        (placed a ha e stays.symm active))
    · intro chosen
      obtain ⟨x, member, rfl⟩ := List.mem_map.mp chosen
      obtain ⟨-, known, isOpen⟩ := elected_known sound within member
      refine ⟨activated x, ?_, activated_status isOpen⟩
      rw [after _ ha, if_pos chosen, known, Option.map_some]

end

section Sample

attribute [local instance] prefixBlake3

set_option maxRecDepth 4096

theorem founded_lists {s : StateMachine} (reachable : Reachable {alice, bob} founders s)
    {x y : ValidatorEntry} (atAlice : s.getValidator alice = some x)
    (atBob : s.getValidator bob = some y) : Lists [alice, bob] s := by
  refine ⟨by decide, fun a => ?_⟩
  rw [reachable.sound.index]
  constructor
  · intro member
    rcases List.mem_pair.mp member with rfl | rfl
    · exact ⟨by decide, by simp [atAlice]⟩
    · exact ⟨by decide, by simp [atBob]⟩
  · rintro ⟨member, -⟩
    simpa using member

theorem firstElection_mirrors :
    ∃ s, Reachable {alice, bob} founders s ∧ Lists [alice, bob] s ∧
      ∀ a ∈ ({alice, bob} : Finset Address),
        (∃ e, (s.runElection [alice, bob] 1 1).2.getValidator a = some e ∧ e.status = .active) ↔
          a ∈ (s.runElection [alice, bob] 1 1).1 := by
  obtain ⟨s, reachable, atAlice, atBob⟩ := founded_reachable
  have lists := founded_lists reachable atAlice atBob
  refine ⟨s, reachable, lists, (active_elected_iff reachable lists 1 1).2.mpr ?_⟩
  intro a ha e found active
  rcases Finset.mem_insert.mp ha with rfl | other
  · cases found.symm.trans atAlice
    cases active
  · rw [Finset.mem_singleton.mp other] at found
    cases found.symm.trans atBob
    cases active

/-- Both are elected while there are two places. With one place only Alice is elected, and
Bob stays active. -/
theorem passedOver_active :
    ∃ s, Reachable {alice, bob} founders s ∧ Lists [alice, bob] s ∧
      (s.runElection [alice, bob] 1 2).1 = [alice] ∧
      ∃ e, (s.runElection [alice, bob] 1 2).2.getValidator bob = some e ∧ e.status = .active := by
  obtain ⟨s, reachable, atAlice, atBob⟩ := founded_reachable
  have within : ∀ a ∈ [alice, bob], a ∈ ({alice, bob} : Finset Address) := by decide
  have both : (s.runElection [alice, bob] 2 1).1 = [alice, bob] := by
    have elected : s.elected [alice, bob] 2 1 =
        [founded alice (2 * 10 ^ 32), founded bob (10 ^ 32)] := by
      rw [elected_eq, eligible_cons_of_member atAlice rfl, eligible_cons_of_member atBob rfl,
        show s.eligible [] = [] from rfl]
      decide
    rw [runElection, elected]
    rfl
  have stepped : s.step (.election [alice, bob] 2 1) =
      .ok ((s.runElection [alice, bob] 2 1).2.setActiveSet (s.runElection [alice, bob] 2 1).1) := rfl
  have next := reachable.step (show Op.Within {alice, bob} (.election [alice, bob] 2 1) from within)
    stepped
  generalize second : (s.runElection [alice, bob] 2 1).2.setActiveSet
    (s.runElection [alice, bob] 2 1).1 = t at next
  have entry (a : Address) (ha : a ∈ ({alice, bob} : Finset Address)) :
      t.getValidator a = (s.getValidator a).map activated := by
    have elected : (s.runElection [alice, bob] 2 1).2.getValidator a = _ :=
      runElection_getValidator reachable.sound within ha
    rw [both, if_pos (by simpa using ha)] at elected
    exact second ▸ elected
  have nowAlice := entry alice (by decide)
  have nowBob := entry bob (by decide)
  rw [atAlice, Option.map_some] at nowAlice
  rw [atBob, Option.map_some] at nowBob
  have only : (t.runElection [alice, bob] 1 2).1 = [alice] := by
    have elected : t.elected [alice, bob] 1 2 = [activated (founded alice (2 * 10 ^ 32))] := by
      rw [elected_eq, eligible_cons_of_member nowAlice (by decide),
        eligible_cons_of_member nowBob (by decide), show t.eligible [] = [] from rfl]
      decide
    rw [runElection, elected]
    rfl
  refine ⟨t, next, founded_lists next nowAlice nowBob, only, activated (founded bob (10 ^ 32)), ?_,
    by decide⟩
  rw [runElection_getValidator next.sound within (by decide), only, if_neg (by decide), nowBob]

end Sample

end StateMachine

end Mononium
