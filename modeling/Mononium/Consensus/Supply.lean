import Mononium.Core.Types
import Mathlib.Data.List.Pairwise
import Mathlib.Tactic.GCongr

/-! The supply policies of `consensus::supply`. A reward is rounded down three times, and the rates
may be above the whole; it still is never more than what is left to the cap. -/
namespace Mononium

open Rust

def blocksPerYear : U64 := 6307200

def basisPoints : U256 := limbs 10000 0 0 0

def baseMaxSupply : U256 := limbs 11806718586779598848 13574535716559052564 2938 0

example : baseMaxSupply.toNat = 10 ^ 10 * oneMonex.toNat := by decide

def supplyCeilingRate : U32 := 350

def supplyHeadroomRate : U32 := 500

class SupplyPolicy (P : Type) where
  blockReward : P → (height : U64) → (currentSupply effectiveMax : U256) → Exec U256

export SupplyPolicy (blockReward)

structure FixedSupply where

instance : SupplyPolicy FixedSupply := ⟨fun _ _ _ _ => return 0⟩

structure CappedInflation where
  baseMaxSupply : U256
  ceilingRate : U32
  headroomRate : U32

namespace CappedInflation

def new : CappedInflation := ⟨Mononium.baseMaxSupply, supplyCeilingRate, supplyHeadroomRate⟩

def computeReward (currentSupply effectiveMax : U256) (ceilingRate headroomRate : U32) :
    Exec U256 := do
  if effectiveMax ≤ currentSupply then
    return 0
  let headroom ← sub effectiveMax currentSupply
  let annualHeadroom ← div (← mul headroom (headroomRate.setWidth 256)) basisPoints
  let annualCeiling ← div (← mul effectiveMax (ceilingRate.setWidth 256)) basisPoints
  let annualReward := if annualCeiling < annualHeadroom then annualCeiling else annualHeadroom
  div annualReward (blocksPerYear.setWidth 256)

instance : SupplyPolicy CappedInflation where
  blockReward self _ currentSupply effectiveMax :=
    computeReward currentSupply effectiveMax self.ceilingRate self.headroomRate

end CappedInflation

/-- What a block adds, and the supply after it. -/
structure Issue where
  effectiveMax : U256
  reward : U256
  supply : U256

/-- Each block, given by its height and the maximum at that time, adds its reward to the supply. -/
def issue {P : Type} [SupplyPolicy P] (policy : P) (supply : U256) :
    List (U64 × U256) → Exec (List Issue)
  | [] => return []
  | (height, effectiveMax) :: blocks => do
    let reward ← blockReward policy height supply effectiveMax
    let supply ← add supply reward
    return ⟨effectiveMax, reward, supply⟩ :: (← issue policy supply blocks)

/-- A reward in terms of supply and maximum that leaves the cap unbroken and falls as the supply
grows. -/
structure Tapers (reward : Nat → Nat → Nat) : Prop where
  within : ∀ supply max, reward supply max ≤ max - supply
  falls : ∀ supply later max, supply ≤ later → reward later max ≤ reward supply max

section Runs

variable {P : Type} [SupplyPolicy P] {policy : P} {reward : Nat → Nat → Nat} {supply : U256}
  {blocks : List (U64 × U256)}

/-- What holds of the issues of a run that starts from this supply. -/
structure Regular (reward : Nat → Nat → Nat) (supply : U256) (issues : List Issue) : Prop where
  rising : (supply :: issues.map Issue.supply).Pairwise (· ≤ ·)
  capped : ∀ i ∈ issues, i.supply ≤ i.effectiveMax
  falling : issues.Pairwise fun i j => i.effectiveMax = j.effectiveMax → j.reward ≤ i.reward
  paid : ∀ i ∈ issues, ∃ before, supply.toNat ≤ before ∧
    i.reward.toNat = reward before i.effectiveMax.toNat

theorem issue_regular (tapers : Tapers reward)
    (pays : ∀ b ∈ blocks, ∀ supply : U256, ∃ r, blockReward policy b.1 supply b.2 = .ok r ∧
      r.toNat = reward supply.toNat b.2.toNat)
    (rising : (blocks.map Prod.snd).Pairwise (· ≤ ·)) (start : ∀ b ∈ blocks.head?, supply ≤ b.2) :
    ∃ issues, issue policy supply blocks = .ok issues ∧
      issues.map Issue.effectiveMax = blocks.map Prod.snd ∧ Regular reward supply issues := by
  induction blocks generalizing supply with
  | nil => exact ⟨[], rfl, rfl, by simp, by simp, by simp, by simp⟩
  | cons block blocks ih =>
    obtain ⟨height, effectiveMax⟩ := block
    obtain ⟨later, rest⟩ := List.pairwise_cons.mp rising
    obtain ⟨r, rewarded, value⟩ := pays _ List.mem_cons_self supply
    change r.toNat = reward supply.toNat effectiveMax.toNat at value
    have below : supply.toNat ≤ effectiveMax.toNat := BitVec.le_def.mp (start _ rfl)
    have within := tapers.within supply.toNat effectiveMax.toNat
    have bound := effectiveMax.isLt
    obtain ⟨next, added⟩ := add_returns.mpr (show supply.toNat + r.toNat < 2 ^ 256 by
      rw [value]
      omega)
    have sum := add_eq_ok.mp added
    rw [value] at sum
    have more : supply ≤ next := by
      rw [BitVec.le_def]
      omega
    have capped : next ≤ effectiveMax := by
      rw [BitVec.le_def]
      omega
    obtain ⟨issues, ran, maxima, regular⟩ := @ih next
      (fun b member => pays b (List.mem_cons_of_mem _ member)) rest fun b head =>
        BitVec.le_trans capped (later _ (List.mem_map_of_mem (List.mem_of_mem_head? head)))
    refine ⟨⟨effectiveMax, r, next⟩ :: issues, ?_, by simp [maxima], ?_, ?_, ?_, ?_⟩
    · rw [issue, rewarded, ok_bind, added, ok_bind, ran]
      rfl
    · refine List.pairwise_cons.mpr ⟨fun s member => ?_, regular.rising⟩
      rcases List.mem_cons.mp member with rfl | after
      · exact more
      · exact BitVec.le_trans more (List.rel_of_pairwise_cons regular.rising after)
    · rintro i (_ | ⟨_, member⟩)
      · exact capped
      · exact regular.capped i member
    · refine List.pairwise_cons.mpr ⟨fun j member same => ?_, regular.falling⟩
      obtain ⟨before, grown, paid⟩ := regular.paid j member
      change effectiveMax = j.effectiveMax at same
      rw [BitVec.le_def, paid, value, ← same]
      exact tapers.falls _ _ _ (by omega)
    · rintro i (_ | ⟨_, member⟩)
      · exact ⟨supply.toNat, le_rfl, value⟩
      · obtain ⟨before, grown, paid⟩ := regular.paid i member
        exact ⟨before, by omega, paid⟩

end Runs

namespace CappedInflation

variable {supply effectiveMax : U256} {ceilingRate headroomRate : U32}

def rewardOf (ceilingRate headroomRate supply max : Nat) : Nat :=
  min ((max - supply) * headroomRate / 10000) (max * ceilingRate / 10000) / 6307200

theorem computeReward_spec (small : effectiveMax.toNat * 2 ^ 32 < 2 ^ 256) :
    ∃ r, computeReward supply effectiveMax ceilingRate headroomRate = .ok r ∧
      r.toNat = rewardOf ceilingRate.toNat headroomRate.toNat supply.toNat effectiveMax.toNat := by
  unfold computeReward
  split
  next full =>
    have none : effectiveMax.toNat - supply.toNat = 0 := Nat.sub_eq_zero_of_le (BitVec.le_def.mp full)
    exact ⟨0, rfl, by simp [rewardOf, none]⟩
  next more =>
    have less : supply.toNat ≤ effectiveMax.toNat := by
      rw [BitVec.le_def] at more
      omega
    have wide (rate : U32) : (rate.setWidth 256).toNat = rate.toNat :=
      BitVec.toNat_setWidth_of_le (by decide)
    have fits (x : Nat) (rate : U32) (part : x ≤ effectiveMax.toNat) :
        x * (rate.setWidth 256).toNat < 2 ^ 256 := by
      rw [wide]
      exact (Nat.mul_le_mul part rate.isLt.le).trans_lt small
    have points : basisPoints.toNat = 10000 := by decide
    have year : (blocksPerYear.setWidth 256).toNat = 6307200 := by decide
    obtain ⟨headroom, left⟩ := sub_returns.mpr less
    have room : headroom.toNat = effectiveMax.toNat - supply.toNat := by
      have sum := sub_eq_ok.mp left
      omega
    obtain ⟨h, hm⟩ := mul_returns.mpr (fits headroom.toNat headroomRate (by omega))
    obtain ⟨c, cm⟩ := mul_returns.mpr (fits effectiveMax.toNat ceilingRate le_rfl)
    have dividing (x y : U256) (nonzero : y.toNat ≠ 0) : div x y = .ok (x / y) :=
      div_eq_ok.mpr ⟨nonzero, BitVec.toNat_udiv⟩
    rw [left, ok_bind, hm, ok_bind, dividing h _ (by rw [points]; decide), ok_bind, cm, ok_bind,
      dividing c _ (by rw [points]; decide), ok_bind]
    refine ⟨_, dividing _ _ (by rw [year]; decide), ?_⟩
    have least : (if c / basisPoints < h / basisPoints then c / basisPoints else h / basisPoints).toNat =
        min (h.toNat / 10000) (c.toNat / 10000) := by
      simp only [BitVec.lt_def, BitVec.toNat_udiv, points]
      split
      next lower => rw [BitVec.toNat_udiv, points, Nat.min_eq_right lower.le]
      next upper => rw [BitVec.toNat_udiv, points, Nat.min_eq_left (Nat.le_of_not_lt upper)]
    rw [BitVec.toNat_udiv, year, least, mul_eq_ok.mp hm, mul_eq_ok.mp cm, wide, wide, room]
    rfl

/-- A rate of 32 bits stays below the whole of a year's blocks. -/
theorem rewardOf_tapers (ceilingRate headroomRate : U32) :
    Tapers (rewardOf ceilingRate.toNat headroomRate.toNat) where
  within supply max := by
    have rate : headroomRate.toNat ≤ 10000 * 6307200 := by
      have bound := headroomRate.isLt
      omega
    calc rewardOf ceilingRate.toNat headroomRate.toNat supply max
      _ ≤ (max - supply) * headroomRate.toNat / 10000 / 6307200 :=
        Nat.div_le_div_right (Nat.min_le_left _ _)
      _ = (max - supply) * headroomRate.toNat / (10000 * 6307200) := Nat.div_div_eq_div_mul _ _ _
      _ ≤ (max - supply) * (10000 * 6307200) / (10000 * 6307200) :=
        Nat.div_le_div_right (Nat.mul_le_mul_left _ rate)
      _ = max - supply := Nat.mul_div_cancel _ (by decide)
  falls supply later max grown := by
    have room : max - later ≤ max - supply := Nat.sub_le_sub_left grown max
    unfold rewardOf
    gcongr

/-- The supply rises towards the maximum and never passes it, whatever the rates, nothing
overflows, and as long as the maximum stays the rewards fall. -/
theorem supply_capped (policy : CappedInflation) {blocks : List (U64 × U256)}
    (rising : (blocks.map Prod.snd).Pairwise (· ≤ ·))
    (small : ∀ b ∈ blocks, b.2.toNat * 2 ^ 32 < 2 ^ 256)
    (start : ∀ b ∈ blocks.head?, supply ≤ b.2) :
    ∃ issues, issue policy supply blocks = .ok issues ∧
      issues.map Issue.effectiveMax = blocks.map Prod.snd ∧
      (supply :: issues.map Issue.supply).Pairwise (· ≤ ·) ∧
      (∀ i ∈ issues, i.supply ≤ i.effectiveMax) ∧
      issues.Pairwise fun i j => i.effectiveMax = j.effectiveMax → j.reward ≤ i.reward := by
  have pays (b) (member : b ∈ blocks) (supply : U256) : ∃ r,
      blockReward policy b.1 supply b.2 = .ok r ∧ r.toNat =
        rewardOf policy.ceilingRate.toNat policy.headroomRate.toNat supply.toNat b.2.toNat :=
    computeReward_spec (small b member)
  obtain ⟨issues, ran, maxima, regular⟩ := issue_regular
    (rewardOf_tapers policy.ceilingRate policy.headroomRate) pays rising start
  exact ⟨issues, ran, maxima, regular.rising, regular.capped, regular.falling⟩

/-- The highest rates, and a maximum that is raised for the third block. -/
theorem steep_capped : ∃ issues,
    issue (⟨Mononium.baseMaxSupply, BitVec.allOnes 32, BitVec.allOnes 32⟩ : CappedInflation) 0
      [(1, 1000), (2, 1000), (3, 2000)] = .ok issues ∧
    issues.map Issue.effectiveMax = [1000, 1000, 2000] ∧
    (0 :: issues.map Issue.supply).Pairwise (· ≤ ·) ∧
    (∀ i ∈ issues, i.supply ≤ i.effectiveMax) ∧
    issues.Pairwise fun i j => i.effectiveMax = j.effectiveMax → j.reward ≤ i.reward := by
  refine supply_capped ⟨Mononium.baseMaxSupply, BitVec.allOnes 32, BitVec.allOnes 32⟩ ?_ ?_ ?_
  · simp
  · simp only [List.forall_mem_cons]
    exact ⟨by decide, by decide, by decide, by simp⟩
  · intro b head
    cases head
    decide

end CappedInflation

end Mononium
