import Mononium.Core.Standing

/-! What an election from era 1 on elects: the best of the candidates that may be elected, in the
order of their stakes, and each of them becomes active. -/
namespace Mononium

open Rust Scale

namespace StateMachine

theorem activated_eq {e : ValidatorEntry} (isOpen : e.status.isFrozenOrUnstaking = false) :
    StateMachine.activated e = { e with status := .active } := by
  cases status : e.status <;> simp_all [StateMachine.activated, ValidatorStatus.isFrozenOrUnstaking]
  cases e
  simp_all

theorem contends_iff {era : U64} {e : ValidatorEntry} (later : era ≠ 0) : contends era e = true ↔ minStake ≤ e.stake :=
  decide_eq_true_iff.trans (or_iff_right later)

section

variable [Blake3]

/-- Registered, neither frozen nor withdrawing, and with the minimum stake. -/
def electable (s : StateMachine) (a : Address) : Bool :=
  (s.getValidator a).any fun e => !e.status.isFrozenOrUnstaking && decide (minStake ≤ e.stake)

/-- The stake is higher, or it is the same and the registration not later. -/
def Precedes (s : StateMachine) (a b : Address) : Prop :=
  ∃ x y, s.getValidator a = some x ∧ s.getValidator b = some y ∧ electionOrder x y

/-- The outcome of an election of at most `max` candidates. -/
structure TopElection (A : Finset Address) (s : StateMachine) (candidates : List Address) (max : Nat)
    (elected : List Address) (t : StateMachine) : Prop where
  distinct : elected.Nodup
  length : elected.length = min max (candidates.filter s.electable).length
  chosen : ∀ a ∈ elected, a ∈ candidates ∧ s.electable a
  sorted : elected.Pairwise s.Precedes
  best : ∀ a ∈ elected, ∀ b ∈ candidates, s.electable b → b ∉ elected → s.Precedes a b
  activated : ∀ a ∈ elected, ∃ e, s.getValidator a = some e ∧
    t.getValidator a = some { e with status := .active }
  entry : ∀ a ∈ A, a ∉ elected → t.getValidator a = s.getValidator a
  account : ∀ a ∈ A, t.account a = s.account a
  index : t.validators = s.validators
  active : t.activeSet = s.activeSet
  leaves : ∀ digest, (∀ a ∈ elected, digest ≠ blake3 (validatorKey a)) →
    t.state.leaves.lookup digest = s.state.leaves.lookup digest

variable {A : Finset Address} {s : StateMachine} {candidates : List Address} {max : Nat} {era : U64}
  {a : Address} {e : ValidatorEntry}

theorem electable_iff (found : s.getValidator a = some e) : s.electable a = true ↔
    e.status.isFrozenOrUnstaking = false ∧ minStake ≤ e.stake := by
  simp [electable, found]

theorem eligible_cons_of_not (out : (s.getValidator a).all fun e => e.status.isFrozenOrUnstaking)
    (rest : List Address) : s.eligible (a :: rest) = s.eligible rest := by
  cases found : s.getValidator a with
  | none => simp [eligible, found]
  | some e =>
    have closed : e.status.isFrozenOrUnstaking = true := by simpa [found] using out
    have dropped : (s.getValidator a).filter (fun e => !e.status.isFrozenOrUnstaking) = none := by
      simp [found, closed]
    simp [eligible, dropped]

/-- The contenders are the electable candidates, in the order of the list. -/
theorem contenders_addresses (later : era ≠ 0) (sound : Sound A s) (within : ∀ a ∈ candidates, a ∈ A) :
    (s.contenders candidates era).map (·.address) = candidates.filter s.electable := by
  induction candidates with
  | nil => rfl
  | cons a rest ih =>
    have tail := ih fun b member => within b (List.mem_cons_of_mem _ member)
    rw [contenders] at tail ⊢
    by_cases out : (s.getValidator a).all fun e => e.status.isFrozenOrUnstaking
    · have refused : s.electable a = false := by
        cases found : s.getValidator a <;> simp_all [electable]
      rw [eligible_cons_of_not out, List.filter_cons_of_neg (by simp [refused]), tail]
    · obtain ⟨e, found, isOpen⟩ : ∃ e, s.getValidator a = some e ∧
          e.status.isFrozenOrUnstaking = false := by
        cases found : s.getValidator a <;> simp_all
      have own := sound.getValidator_address (within a List.mem_cons_self) found
      rw [eligible_cons_of_member found isOpen]
      by_cases enough : minStake ≤ e.stake
      · rw [List.filter_cons_of_pos ((contends_iff later).mpr enough),
          List.filter_cons_of_pos ((electable_iff found).mpr ⟨isOpen, enough⟩), List.map_cons, own, tail]
      · rw [List.filter_cons_of_neg fun contends => enough ((contends_iff later).mp contends),
          List.filter_cons_of_neg fun electable => enough ((electable_iff found).mp electable).2, tail]

def ranking (s : StateMachine) (candidates : List Address) (era : U64) : List ValidatorEntry :=
  ((s.eligible candidates).insertionSort (electionRule era)).filter (contends era)

theorem ranking_perm (s : StateMachine) (candidates : List Address) (era : U64) :
    (s.ranking candidates era).Perm (s.contenders candidates era) :=
  (List.perm_insertionSort _ _).filter _

theorem ranking_sorted (s : StateMachine) (candidates : List Address) (era : U64) :
    (s.ranking candidates era).Pairwise (electionRule era) :=
  (List.pairwise_insertionSort _ _).filter _

theorem contender_known (sound : Sound A s) (within : ∀ a ∈ candidates, a ∈ A) (later : era ≠ 0)
    (member : e ∈ s.contenders candidates era) :
    e.address ∈ candidates ∧ s.getValidator e.address = some e ∧ s.electable e.address := by
  obtain ⟨eligible, enough⟩ := List.mem_filter.mp member
  obtain ⟨a, here, found, isOpen⟩ := eligible_member eligible
  have own := sound.getValidator_address (within a here) found
  subst own
  exact ⟨here, found, (electable_iff found).mpr ⟨isOpen, (contends_iff later).mp enough⟩⟩

theorem mem_contenders_of_electable (later : era ≠ 0) (listed : a ∈ candidates)
    (electable : s.electable a) : ∃ e ∈ s.contenders candidates era, s.getValidator a = some e := by
  cases found : s.getValidator a with
  | none => simp [StateMachine.electable, found] at electable
  | some e =>
    obtain ⟨isOpen, enough⟩ := (electable_iff found).mp electable
    exact ⟨e, mem_contenders listed found isOpen ((contends_iff later).mpr enough), rfl⟩

/-- An election writes the entries of the elected and no other leaf of the tree. -/
theorem runElection_leaves {digest : Digest}
    (elsewhere : ∀ a ∈ (s.runElection candidates max era).1, digest ≠ blake3 (validatorKey a)) :
    (s.runElection candidates max era).2.state.leaves.lookup digest = s.state.leaves.lookup digest := by
  refine List.foldlRecOn (motive := fun t : StateMachine =>
    t.state.leaves.lookup digest = s.state.leaves.lookup digest) _ _ rfl fun t same e member => ?_
  rw [activated_address, setValidator, SparseMerkleTree.insert, HashMap.lookup_insert_if,
    if_neg (elsewhere e.address (List.mem_map_of_mem member)), same]

/-- From era 1 on the election elects the best and makes them active, and does nothing else. -/
theorem runElection_optimal {accounts : List (Address × Account)} (reachable : Reachable A accounts s)
    (within : ∀ a ∈ candidates, a ∈ A) (nodup : candidates.Nodup) (later : era ≠ 0) (max : Nat) :
    TopElection A s candidates max (s.runElection candidates max era).1
      (s.runElection candidates max era).2 := by
  have sound := reachable.sound
  have elected : s.elected candidates max era = (s.ranking candidates era).take max :=
    elected_eq s candidates max era
  have listed : (s.runElection candidates max era).1 =
      ((s.ranking candidates era).take max).map (·.address) := by
    rw [← elected]
    rfl
  have known {e : ValidatorEntry} (member : e ∈ s.ranking candidates era) :=
    contender_known sound within later ((ranking_perm s candidates era).mem_iff.mp member)
  have precedes {x y : ValidatorEntry} (hx : x ∈ s.ranking candidates era)
      (hy : y ∈ s.ranking candidates era) (order : electionRule era x y) :
      s.Precedes x.address y.address :=
    ⟨x, y, (known hx).2.1, (known hy).2.1, order.resolve_left later⟩
  have split := List.take_append_drop max (s.ranking candidates era)
  have sorted := ranking_sorted s candidates era
  rw [← split, List.pairwise_append] at sorted
  obtain ⟨first, -, between⟩ := sorted
  obtain ⟨adjusted, -⟩ := runElection_adjusted candidates max era sound within
  have after {a : Address} (ha : a ∈ A) :
      (s.runElection candidates max era).2.getValidator a = _ := runElection_getValidator sound within ha
  refine ⟨elected_nodup sound within nodup, ?_, ?_, ?_, ?_, ?_, ?_, adjusted.account, ?_, adjusted.active,
    fun digest => runElection_leaves⟩
  · rw [listed, ← contenders_addresses later sound within]
    simp [(ranking_perm s candidates era).length_eq]
  · intro a member
    rw [listed] at member
    obtain ⟨e, taken, rfl⟩ := List.mem_map.mp member
    obtain ⟨here, -, electable⟩ := known (List.mem_of_mem_take taken)
    exact ⟨here, electable⟩
  · rw [listed, List.pairwise_map]
    exact first.imp_of_mem fun hx hy => precedes (List.mem_of_mem_take hx) (List.mem_of_mem_take hy)
  · intro a member b candidate electable left
    rw [listed] at member left
    obtain ⟨x, taken, rfl⟩ := List.mem_map.mp member
    obtain ⟨y, contends, found⟩ := mem_contenders_of_electable later candidate electable
    have inside := (ranking_perm s candidates era).mem_iff.mpr contends
    have own := sound.getValidator_address (within b candidate) found
    subst own
    have ranked := inside
    rw [← split] at ranked
    rcases List.mem_append.mp ranked with early | late
    · exact absurd (List.mem_map_of_mem early) left
    · exact precedes (List.mem_of_mem_take taken) inside (between x taken y late)
  · intro a member
    obtain ⟨e, chosen, rfl⟩ := List.mem_map.mp member
    obtain ⟨inside, found, isOpen⟩ := elected_known sound within chosen
    refine ⟨e, found, ?_⟩
    rw [after inside, if_pos member, found, Option.map_some, activated_eq isOpen]
  · intro a ha left
    rw [after ha, if_neg left]
  · ext a
    rw [adjusted.sound.index, sound.index]
    refine and_congr_right fun ha => ?_
    rw [after ha]
    split <;> simp

end

section Sample

attribute [local instance] prefixBlake3

theorem founders_optimal : ∃ s, Reachable {alice, bob} founders s ∧
    TopElection {alice, bob} s [bob, alice] 1 (s.runElection [bob, alice] 1 1).1
      (s.runElection [bob, alice] 1 1).2 := by
  obtain ⟨s, reachable, -, -⟩ := founded_reachable
  exact ⟨s, reachable, runElection_optimal reachable (by decide) (by decide) (by decide) 1⟩

end Sample

end StateMachine

end Mononium
