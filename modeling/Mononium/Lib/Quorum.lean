import Mathlib.Algebra.BigOperators.Group.Finset.Basic
import Mathlib.Algebra.Order.BigOperators.Group.Finset

/-! Weighted quorums. Two sets that each hold more than two thirds of a weight share more than a
third of it, and so a member of every set that leaves out less than that. -/
namespace Mononium.Quorum

open Finset

variable {α : Type} [DecidableEq α] {weight : α → Nat} {all first second faulty : Finset α}

def Holds (weight : α → Nat) (all quorum : Finset α) : Prop :=
  quorum ⊆ all ∧ 2 * ∑ a ∈ all, weight a < 3 * ∑ a ∈ quorum, weight a

theorem inter_weight (left : Holds weight all first) (right : Holds weight all second) :
    ∑ a ∈ all, weight a < 3 * ∑ a ∈ first ∩ second, weight a := by
  have parts : ∑ a ∈ first ∪ second, weight a + ∑ a ∈ first ∩ second, weight a =
      ∑ a ∈ first, weight a + ∑ a ∈ second, weight a := sum_union_inter
  have union : ∑ a ∈ first ∪ second, weight a ≤ ∑ a ∈ all, weight a :=
    sum_le_sum_of_subset (union_subset left.1 right.1)
  have one := left.2
  have two := right.2
  omega

/-- What holds more than a third is not all faulty, if no more than a third is. -/
theorem exists_not_faulty (heavy : ∑ a ∈ all, weight a < 3 * ∑ a ∈ first, weight a)
    (light : 3 * ∑ a ∈ faulty, weight a ≤ ∑ a ∈ all, weight a) : ∃ a ∈ first, a ∉ faulty := by
  by_contra none
  have inside : first ⊆ faulty := by
    intro a member
    by_contra honest
    exact none ⟨a, member, honest⟩
  have less : ∑ a ∈ first, weight a ≤ ∑ a ∈ faulty, weight a := sum_le_sum_of_subset inside
  omega

/-- Two quorums share somebody who is not faulty. -/
theorem exists_common (left : Holds weight all first) (right : Holds weight all second)
    (light : 3 * ∑ a ∈ faulty, weight a ≤ ∑ a ∈ all, weight a) :
    ∃ a, a ∈ first ∧ a ∈ second ∧ a ∉ faulty := by
  obtain ⟨a, common, honest⟩ := exists_not_faulty (inter_weight left right) light
  obtain ⟨one, two⟩ := mem_inter.mp common
  exact ⟨a, one, two, honest⟩

end Mononium.Quorum
