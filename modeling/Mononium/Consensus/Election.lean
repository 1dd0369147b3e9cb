import Mononium.Core.Optimality

/-! The election strategy of `consensus::election` beside the election of the state machine. Both go
by stake. Of equal stakes the strategy takes the lower address, and the state machine what it comes
across first in the list of candidates. -/
namespace Mononium

open Rust Scale

structure ValidatorCandidate where
  address : Address
  stake : U256
  deriving DecidableEq, Repr

/-- Stake descending, then address ascending. -/
def candidateOrder (a b : ValidatorCandidate) : Prop :=
  b.stake < a.stake ∨ a.stake = b.stake ∧ beValue a.address.asBytes ≤ beValue b.address.asBytes

instance : DecidableRel candidateOrder := fun _ _ => inferInstanceAs (Decidable (_ ∨ _ ∧ _))

def TopNElection.elect (candidates : List ValidatorCandidate) (max : Nat) : List Address :=
  if candidates = [] ∨ max = 0 then []
  else ((candidates.insertionSort candidateOrder).take max).map (·.address)

namespace StateMachine

def topNOrder (x y : ValidatorEntry) : Prop :=
  candidateOrder ⟨x.address, x.stake⟩ ⟨y.address, y.stake⟩

instance : DecidableRel topNOrder := fun _ _ => inferInstanceAs (Decidable (candidateOrder _ _))

instance : Std.Total topNOrder where
  total x y := by
    unfold topNOrder candidateOrder
    bv_omega

instance : IsTrans ValidatorEntry topNOrder where
  trans x y z first second := by
    unfold topNOrder candidateOrder at *
    bv_omega

section

variable [Blake3]

/-- The candidates that may be elected, with their stakes. -/
def validatorCandidates (s : StateMachine) (candidates : List Address) : List ValidatorCandidate :=
  (candidates.filter s.electable).filterMap fun a => (s.getValidator a).map fun e => ⟨a, e.stake⟩

variable {A : Finset Address} {s : StateMachine} {candidates : List Address} {max : Nat} {era : U64}

theorem validatorCandidates_eq (later : era ≠ 0) (sound : Sound A s) (within : ∀ a ∈ candidates, a ∈ A) :
    s.validatorCandidates candidates =
      (s.contenders candidates era).map fun e => ⟨e.address, e.stake⟩ := by
  rw [validatorCandidates, ← contenders_addresses later sound within, List.filterMap_map,
    ← List.filterMap_eq_map]
  refine List.filterMap_congr fun e member => ?_
  obtain ⟨-, found, -⟩ := contender_known sound within later member
  simp [found]

theorem elect_eq (later : era ≠ 0) (sound : Sound A s) (within : ∀ a ∈ candidates, a ∈ A) (max : Nat) :
    TopNElection.elect (s.validatorCandidates candidates) max =
      (((s.contenders candidates era).insertionSort topNOrder).take max).map (·.address) := by
  unfold TopNElection.elect
  rw [validatorCandidates_eq later sound within]
  split
  next none =>
    rcases none with empty | zero
    · simp [List.map_eq_nil_iff.mp empty]
    · simp [zero]
  next =>
    rw [← List.map_insertionSort topNOrder candidateOrder _ _ fun _ _ _ _ => Iff.rfl, ← List.map_take,
      List.map_map]
    rfl

/-- The two elections agree exactly if no two contenders with equal stakes, of which the one with
the higher address comes first in the list, get among the first `max`. -/
theorem elections_agree_iff {accounts : List (Address × Account)} (reachable : Reachable A accounts s)
    (within : ∀ a ∈ candidates, a ∈ A) (nodup : candidates.Nodup) (later : era ≠ 0) (max : Nat) :
    (s.runElection candidates max era).1 =
        TopNElection.elect (s.validatorCandidates candidates) max ↔
      ∀ x ∈ s.contenders candidates era, ∀ y ∈ s.contenders candidates era, x.stake = y.stake →
        beValue y.address.asBytes < beValue x.address.asBytes →
        StableSort.place (electionRule era) (s.contenders candidates era) x <
          StableSort.place (electionRule era) (s.contenders candidates era) y →
        max ≤ StableSort.place (electionRule era) (s.contenders candidates era) x := by
  have sound := reachable.sound
  have addresses : ((s.contenders candidates era).map (·.address)).Nodup := by
    rw [contenders_addresses later sound within]
    exact nodup.filter _
  have own {x y : ValidatorEntry} (hx : x ∈ s.contenders candidates era)
      (hy : y ∈ s.contenders candidates era) (same : x.address = y.address) : x = y :=
    List.inj_on_of_nodup_map addresses hx hy same
  have apart : ∀ x ∈ s.contenders candidates era, ∀ y ∈ s.contenders candidates era,
      topNOrder x y → topNOrder y x → x = y := by
    intro x hx y hy one two
    refine own hx hy (Address.asBytes_injective (beValue_injective (by simp) ?_))
    unfold topNOrder candidateOrder at one two
    bv_omega
  have back {l : List ValidatorEntry} (perm : l.Perm (s.contenders candidates era)) :
      ((l.take max).map (·.address)).map s.getValidator = (l.take max).map some := by
    rw [List.map_map]
    refine List.map_congr_left fun x member => ?_
    exact (contender_known sound within later (perm.mem_iff.mp (List.mem_of_mem_take member))).2.1
  have lists : (s.runElection candidates max era).1 =
        TopNElection.elect (s.validatorCandidates candidates) max ↔
      (s.ranking candidates era).take max =
        ((s.contenders candidates era).insertionSort topNOrder).take max := by
    rw [elect_eq later sound within max]
    change (s.elected candidates max era).map (·.address) = _ ↔ _
    rw [show s.elected candidates max era = (s.ranking candidates era).take max from
      elected_eq s candidates max era]
    refine ⟨fun same => ?_, fun same => by rw [same]⟩
    have entries := congrArg (List.map s.getValidator) same
    rw [back (ranking_perm s candidates era), back (List.perm_insertionSort _ _)] at entries
    exact List.map_injective_iff.mpr (Option.some_injective _) entries
  refine lists.trans ((StableSort.select_eq_take_iff (addresses.of_map _) apart).trans ?_)
  constructor
  · intro agree x hx y hy stake address first
    exact agree x hx y hy first (.inr ⟨stake.symm, Nat.le_of_lt address⟩)
  · intro agree x hx y hy first second
    have order : electionOrder x y := (StableSort.rel_of_place_lt hx hy first).resolve_left later
    have different : beValue x.address.asBytes ≠ beValue y.address.asBytes := by
      intro same
      have equal := own hx hy (Address.asBytes_injective (beValue_injective (by simp) same))
      rw [equal] at first
      exact Nat.lt_irrefl _ first
    unfold electionOrder at order
    unfold topNOrder candidateOrder at second
    exact agree x hx y hy (by bv_omega) (by bv_omega) first

end

section Sample

attribute [local instance] prefixBlake3

set_option maxRecDepth 8192

/-- The founders have different stakes, so the elections agree however they are listed. -/
theorem founders_elections_agree : ∃ s, Reachable {alice, bob} founders s ∧
    (s.runElection [alice, bob] maxValidators 1).1 =
      TopNElection.elect (s.validatorCandidates [alice, bob]) maxValidators := by
  obtain ⟨s, reachable, atAlice, atBob⟩ := founded_reachable
  refine ⟨s, reachable, (elections_agree_iff reachable (by decide) (by decide) (by decide) _).mpr ?_⟩
  have listed : s.contenders [alice, bob] 1 =
      [founded alice (2 * 10 ^ 32), founded bob (10 ^ 32)] := by
    rw [contenders, eligible_cons_of_member atAlice rfl, eligible_cons_of_member atBob rfl,
      show s.eligible [] = [] from rfl]
    decide
  rw [listed]
  decide

/-- Alice and Bob found validators with one MONEX each. -/
def evenBlock : Block :=
  testBlock [⟨0, 0, alice, 100, .registerAndStake alice (10 ^ 32), dummySig⟩,
    ⟨0, 0, bob, 100, .registerAndStake bob (10 ^ 32), dummySig⟩]

def evenMachine : StateMachine := valueD (run (new founders) [.block evenBlock]) (new [])

theorem even_computed :
    Returns (run (new founders) [.block evenBlock]) ∧
    (evenMachine.runElection [bob, alice] maxValidators 1).1 = [bob, alice] ∧
    TopNElection.elect (evenMachine.validatorCandidates [bob, alice]) maxValidators = [alice, bob] := by
  decide

/-- With equal stakes the one lists Bob first as the caller does, the other Alice. -/
theorem evenStakes_disagree : Reachable {alice, bob} founders evenMachine ∧ [bob, alice].Nodup ∧
    (evenMachine.runElection [bob, alice] maxValidators 1).1 ≠
      TopNElection.elect (evenMachine.validatorCandidates [bob, alice]) maxValidators := by
  obtain ⟨returns, first, second⟩ := even_computed
  refine ⟨⟨by decide, by decide, _, by decide, returns.eq_ok (new [])⟩, by decide, ?_⟩
  rw [first, second]
  decide

end Sample

end StateMachine

end Mononium
