import Mononium.Core.Runs
import Mononium.Lib.StableSort

/-! The election and the order in which candidates are listed. The caller lists the
candidates by iterating over a hash set, so two nodes may list them differently. -/
namespace Mononium

open Rust Scale

namespace StateMachine

/-- In era 0 every order of the candidates is as good as any other. -/
def electionRule (era : U64) (a b : ValidatorEntry) : Prop := era = 0 ∨ electionOrder a b

instance (era : U64) : DecidableRel (electionRule era) :=
  fun _ _ => inferInstanceAs (Decidable (_ ∨ _))

/-- From era 1 on a validator needs the minimum stake. -/
def contends (era : U64) (e : ValidatorEntry) : Bool := era = 0 ∨ minStake ≤ e.stake

instance (era : U64) : Std.Total (electionRule era) where
  total a b := by
    simp only [electionRule, electionOrder, BitVec.lt_def, BitVec.le_def, ← BitVec.toNat_inj]
    omega

instance (era : U64) : IsTrans ValidatorEntry (electionRule era) where
  trans a b c := by
    simp only [electionRule, electionOrder, BitVec.lt_def, BitVec.le_def, ← BitVec.toNat_inj]
    omega

section

variable [Blake3] {A : Finset Address} {s : StateMachine} {candidates : List Address} {max : Nat}
  {era : U64}

/-- Both branches of the election are one selection. -/
theorem elected_eq (s : StateMachine) (candidates : List Address) (max : Nat) (era : U64) :
    s.elected candidates max era =
      (((s.eligible candidates).insertionSort (electionRule era)).filter (contends era)).take max := by
  unfold elected
  split
  next first =>
    have sorted : (s.eligible candidates).Pairwise (electionRule era) :=
      List.pairwise_of_forall fun _ _ => .inl first
    rw [sorted.insertionSort_eq, List.filter_eq_self.mpr]
    intro e _
    simp [contends, first]
  next later =>
    have rule : electionRule era = electionOrder := by
      funext a b
      exact propext (or_iff_right later)
    have bar : contends era = fun e => decide (minStake ≤ e.stake) := by
      funext e
      exact decide_eq_decide.mpr (or_iff_right later)
    simp only [rule, bar]

theorem eligible_perm (s : StateMachine) {other : List Address} (perm : candidates.Perm other) :
    (s.eligible candidates).Perm (s.eligible other) :=
  perm.filterMap _

structure SameState (A : Finset Address) (s t : StateMachine) : Prop where
  ledger : SameLedger A s t
  index : s.validators = t.validators
  active : s.activeSet = t.activeSet

/-- The election comes out the same for every order of the candidates. -/
def OrderFree (A : Finset Address) (s : StateMachine) (candidates : List Address) (max : Nat)
    (era : U64) : Prop :=
  ∀ first second, first.Perm candidates → second.Perm candidates →
    (s.runElection first max era).1 = (s.runElection second max era).1 ∧
      SameState A (s.runElection first max era).2 (s.runElection second max era).2

def contenders (s : StateMachine) (candidates : List Address) (era : U64) : List ValidatorEntry :=
  (s.eligible candidates).filter (contends era)

theorem orderFree_of_decided
    (decided : StableSort.Decided (electionRule era) (s.contenders candidates era) max) :
    OrderFree A s candidates max era := by
  intro first second permFirst permSecond
  have same : s.elected first max era = s.elected second max era := by
    rw [elected_eq, elected_eq]
    apply StableSort.select_eq_of_perm (eligible_perm s (permFirst.trans permSecond.symm))
    exact (StableSort.decided_perm ((eligible_perm s permFirst).filter _)).mpr decided
  have equal : s.runElection first max era = s.runElection second max era := by
    rw [runElection, runElection, same]
  rw [equal]
  exact ⟨rfl, ⟨fun _ _ => rfl, fun _ _ => rfl⟩, rfl, rfl⟩

theorem eligible_cons_of_member {a : Address} {e : ValidatorEntry}
    (found : s.getValidator a = some e) (isOpen : e.status.isFrozenOrUnstaking = false)
    (rest : List Address) : s.eligible (a :: rest) = e :: s.eligible rest := by
  have kept : (s.getValidator a).filter (fun e => !e.status.isFrozenOrUnstaking) = some e := by
    simp [found, isOpen]
  simp [eligible, kept]

/-- A contender listed first is elected at its rank. -/
theorem elected_getElem?_rank {e : ValidatorEntry} (sound : Sound A s)
    (within : ∀ a ∈ candidates, a ∈ A) (member : e ∈ s.contenders candidates era)
    (early : StableSort.rank (electionRule era) (s.contenders candidates era) e < max) :
    ∃ order, order.Perm candidates ∧ (s.runElection order max era).1[StableSort.rank
      (electionRule era) (s.contenders candidates era) e]? = some e.address := by
  obtain ⟨eligible, chosen⟩ := List.mem_filter.mp member
  obtain ⟨a, here, found, isOpen⟩ := eligible_member eligible
  have same := sound.getValidator_address (within a here) found
  have perm : (a :: candidates.erase a).Perm candidates := (List.perm_cons_erase here).symm
  refine ⟨_, perm, ?_⟩
  have first := eligible_cons_of_member found isOpen (candidates.erase a)
  have rank : StableSort.rank (electionRule era) (s.contenders candidates era) e =
      StableSort.rank (electionRule era) ((e :: s.eligible (candidates.erase a)).filter
        (contends era)) e := by
    rw [← first]
    exact StableSort.rank_perm ((eligible_perm s perm.symm).filter _) e
  rw [rank] at early ⊢
  rw [runElection, List.getElem?_map, elected_eq, first, List.getElem?_take_of_lt early,
    StableSort.select_getElem?_rank chosen]
  rfl

theorem decided_of_orderFree (sound : Sound A s) (within : ∀ a ∈ candidates, a ∈ A)
    (free : OrderFree A s candidates max era) :
    StableSort.Decided (electionRule era) (s.contenders candidates era) max := by
  intro e he x hx different tied
  by_contra early
  rw [Nat.not_le] at early
  have sameRank := StableSort.rank_eq_of_tied tied (s.contenders candidates era)
  obtain ⟨first, permFirst, atFirst⟩ := elected_getElem?_rank sound within he early
  obtain ⟨second, permSecond, atSecond⟩ := elected_getElem?_rank sound within hx (sameRank ▸ early)
  rw [← sameRank, ← (free first second permFirst permSecond).1, atFirst, Option.some.injEq] at atSecond
  obtain ⟨a, ha, foundE, _⟩ := eligible_member (List.mem_filter.mp he).1
  obtain ⟨b, hb, foundX, _⟩ := eligible_member (List.mem_filter.mp hx).1
  rw [sound.getValidator_address (within a ha) foundE,
    sound.getValidator_address (within b hb) foundX] at atSecond
  subst atSecond
  exact different (Option.some.inj (foundE.symm.trans foundX))

/-- Nodes that list the candidates in different orders agree on the election exactly when
no two contenders are tied with fewer than `max` contenders ahead of them. -/
theorem runElection_orderFree_iff {accounts : List (Address × Account)}
    (reachable : Reachable A accounts s) (within : ∀ a ∈ candidates, a ∈ A) :
    OrderFree A s candidates max era ↔
      StableSort.Decided (electionRule era) (s.contenders candidates era) max :=
  ⟨decided_of_orderFree reachable.sound within, orderFree_of_decided⟩

end

section Sample

attribute [local instance] prefixBlake3

set_option maxRecDepth 4096

theorem distinctStakes_orderFree :
    ∃ s, Reachable {alice, bob} founders s ∧
      OrderFree {alice, bob} s [alice, bob] maxValidators 1 := by
  obtain ⟨s, reachable, atAlice, atBob⟩ := founded_reachable
  refine ⟨s, reachable, (runElection_orderFree_iff reachable (by decide)).mpr ?_⟩
  have listed : s.contenders [alice, bob] 1 =
      [founded alice (2 * 10 ^ 32), founded bob (10 ^ 32)] := by
    rw [contenders, eligible_cons_of_member atAlice rfl, eligible_cons_of_member atBob rfl,
      show s.eligible [] = [] from rfl]
    decide
  rw [listed]
  decide

/-- In era 0 the first in the list comes first. -/
theorem eraZero_not_orderFree :
    ∃ s, Reachable {alice, bob} founders s ∧ [alice, bob].Nodup ∧
      ¬OrderFree {alice, bob} s [alice, bob] maxValidators 0 := by
  obtain ⟨s, reachable, atAlice, atBob⟩ := founded_reachable
  refine ⟨s, reachable, by decide, fun free => ?_⟩
  have decided := decided_of_orderFree reachable.sound (by decide) free
  have listed : s.contenders [alice, bob] 0 =
      [founded alice (2 * 10 ^ 32), founded bob (10 ^ 32)] := by
    rw [contenders, eligible_cons_of_member atAlice rfl, eligible_cons_of_member atBob rfl,
      show s.eligible [] = [] from rfl]
    decide
  rw [listed] at decided
  revert decided
  decide

end Sample

end StateMachine

end Mononium
