import Mononium.Consensus.Finality

/-! The fork choice of `consensus::fork_choice`: the chain whose proposers hold more stake, each
counted once. The proposers are collected in a hash set, which is iterated in any order. -/
namespace Mononium

open Rust Scale CommitTracker

inductive ForkChoiceResult where
  | preferA
  | preferB
  | equal
  deriving DecidableEq, Repr

/-- The hash set of the proposers of a chain, in one of its iteration orders. -/
structure UniqueProposers (chain : List Block) where
  order : List Address
  distinct : order.Nodup
  collected : ∀ a, a ∈ order ↔ a ∈ chain.map (·.header.proposer)

/-- The order in which each proposer occurs last. -/
def UniqueProposers.collect (chain : List Block) : UniqueProposers chain :=
  ⟨(chain.map (·.header.proposer)).dedup, List.nodup_dedup _, fun _ => List.mem_dedup⟩

namespace ForkChoice

def totalStakeBacking {chain : List Block} (uniqueProposers : UniqueProposers chain)
    (stakeWeights : HashMap Address U256) : Exec U256 :=
  (uniqueProposers.order.filterMap stakeWeights.lookup).foldlM add 0

def selectCanonical {chainA chainB : List Block} (proposersA : UniqueProposers chainA)
    (proposersB : UniqueProposers chainB) (stakeWeights : HashMap Address U256) :
    Exec ForkChoiceResult := do
  let weightA ← totalStakeBacking proposersA stakeWeights
  let weightB ← totalStakeBacking proposersB stakeWeights
  return if weightB < weightA then .preferA else if weightA < weightB then .preferB else .equal

def proposers (chain : List Block) : Finset Address := (chain.map (·.header.proposer)).toFinset

/-- The stake behind a set of addresses. -/
def backing (stakeWeights : HashMap Address U256) (addresses : Finset Address) : Nat :=
  ∑ a ∈ addresses, weightOf stakeWeights a

/-- The preference between two weights. -/
def prefer (a b : Nat) : ForkChoiceResult :=
  if b < a then .preferA else if a < b then .preferB else .equal

def swap : ForkChoiceResult → ForkChoiceResult
  | .preferA => .preferB
  | .preferB => .preferA
  | .equal => .equal

section

variable {stakeWeights : HashMap Address U256} {chain other : List Block}

theorem prefer_swap (a b : Nat) : prefer b a = swap (prefer a b) := by
  unfold prefer
  split
  next less => simp [swap, Nat.lt_asymm less]
  next => split <;> simp [swap]

/-- Two preferences that do not point apart compose. -/
theorem prefer_trans {a b c : Nat}
    (agree : prefer a b = .equal ∨ prefer b c = .equal ∨ prefer a b = prefer b c) :
    prefer a c = if prefer a b = .equal then prefer b c else prefer a b := by
  unfold prefer at *
  grind

theorem backing_append_le (chain extension : List Block) :
    backing stakeWeights (proposers chain) ≤
      backing stakeWeights (proposers (chain ++ extension)) := by
  apply Finset.sum_le_sum_of_subset
  rw [proposers, proposers, List.map_append, List.toFinset_append]
  exact Finset.subset_union_left

/-- Nobody outside the map has any weight, so no set holds more than the whole map. -/
theorem backing_le_total (addresses : Finset Address) :
    backing stakeWeights addresses ≤ totalWeight stakeWeights := by
  have keys : totalWeight stakeWeights = backing stakeWeights stakeWeights.keys.toFinset := by
    have distinct : stakeWeights.keys.Nodup := stakeWeights.nodupKeys
    rw [backing, List.sum_toFinset _ distinct, totalWeight]
  rw [keys]
  apply Finset.sum_le_sum_of_ne_zero
  intro a _ weighs
  rw [List.mem_toFinset, ← AList.mem_keys, ← AList.lookup_isSome]
  by_contra absent
  simp [weightOf, Option.not_isSome_iff_eq_none.mp absent] at weighs

theorem sum_filterMap_lookup (order : List Address) :
    ((order.filterMap stakeWeights.lookup).map BitVec.toNat).sum =
      (order.map (weightOf stakeWeights)).sum := by
  induction order with
  | nil => rfl
  | cons a order ih => cases found : stakeWeights.lookup a <;> simp [weightOf, found, ih]

/-- The loop over the hash set gives the stake behind the set, in whatever order. -/
theorem totalStakeBacking_eq_ok {unique : UniqueProposers chain} {weight : U256} :
    totalStakeBacking unique stakeWeights = .ok weight ↔
      weight.toNat = backing stakeWeights (proposers chain) := by
  have same : proposers chain = unique.order.toFinset := by
    ext a
    rw [proposers, List.mem_toFinset, List.mem_toFinset, unique.collected]
  rw [totalStakeBacking, foldlM_add_eq_ok, sum_filterMap_lookup, same, backing,
    List.sum_toFinset _ unique.distinct]
  simp

section Bounded

variable (bounded : totalWeight stakeWeights < 2 ^ 256)

include bounded

theorem totalStakeBacking_returns (unique : UniqueProposers chain) :
    totalStakeBacking unique stakeWeights =
      .ok (BitVec.ofNat 256 (backing stakeWeights (proposers chain))) := by
  have below := (backing_le_total (proposers chain)).trans_lt bounded
  rw [totalStakeBacking_eq_ok, BitVec.toNat_ofNat, Nat.mod_eq_of_lt below]

theorem selectCanonical_eq (first : UniqueProposers chain) (second : UniqueProposers other) :
    selectCanonical first second stakeWeights =
      .ok (prefer (backing stakeWeights (proposers chain))
        (backing stakeWeights (proposers other))) := by
  have left := (backing_le_total (proposers chain)).trans_lt bounded
  have right := (backing_le_total (proposers other)).trans_lt bounded
  simp only [selectCanonical, totalStakeBacking_returns bounded, ok_bind, prefer, BitVec.lt_def,
    BitVec.toNat_ofNat, Nat.mod_eq_of_lt left, Nat.mod_eq_of_lt right]
  rfl

theorem totalStakeBacking_append (extension : List Block) (shorter : UniqueProposers chain)
    (longer : UniqueProposers (chain ++ extension)) :
    ∃ before after, totalStakeBacking shorter stakeWeights = .ok before ∧
      totalStakeBacking longer stakeWeights = .ok after ∧ before ≤ after := by
  refine ⟨_, _, totalStakeBacking_returns bounded shorter,
    totalStakeBacking_returns bounded longer, ?_⟩
  have left := (backing_le_total (proposers chain)).trans_lt bounded
  have right := (backing_le_total (proposers (chain ++ extension))).trans_lt bounded
  rw [BitVec.le_def, BitVec.toNat_ofNat, BitVec.toNat_ofNat, Nat.mod_eq_of_lt left,
    Nat.mod_eq_of_lt right]
  exact backing_append_le chain extension

/-- A chain is not preferred over one that extends it. -/
theorem selectCanonical_append (extension : List Block) (shorter : UniqueProposers chain)
    (longer : UniqueProposers (chain ++ extension)) :
    ∃ result, selectCanonical shorter longer stakeWeights = .ok result ∧ result ≠ .preferA := by
  refine ⟨_, selectCanonical_eq bounded shorter longer, ?_⟩
  have grown : backing stakeWeights (proposers chain) ≤ _ := backing_append_le chain extension
  rw [prefer, if_neg (Nat.not_lt_of_le grown)]
  split <;> simp

end Bounded

end

/-- The fork choice is a consistent preference. The sum of the stakes never overflows, depends
only on who proposed and does not shrink when a chain grows; the comparison is antisymmetric
and transitive, and never prefers a chain over one that extends it. -/
theorem consistent_preference (stakeWeights : HashMap Address U256)
    (bounded : totalWeight stakeWeights < 2 ^ 256) :
    (∀ (chain : List Block) (unique : UniqueProposers chain),
      Returns (totalStakeBacking unique stakeWeights)) ∧
    (∀ (chain other : List Block) (unique : UniqueProposers chain)
        (others : UniqueProposers other), proposers chain = proposers other →
      totalStakeBacking unique stakeWeights = totalStakeBacking others stakeWeights) ∧
    (∀ (chain extension : List Block) (shorter : UniqueProposers chain)
        (longer : UniqueProposers (chain ++ extension)),
      ∃ before after, totalStakeBacking shorter stakeWeights = .ok before ∧
        totalStakeBacking longer stakeWeights = .ok after ∧ before ≤ after) ∧
    (∀ (chainA chainB : List Block) (a a' : UniqueProposers chainA)
        (b b' : UniqueProposers chainB), ∃ result,
      selectCanonical a b stakeWeights = .ok result ∧
        selectCanonical b' a' stakeWeights = .ok (swap result)) ∧
    (∀ (chainA chainB chainC : List Block) (a a' : UniqueProposers chainA)
        (b b' : UniqueProposers chainB) (c c' : UniqueProposers chainC)
        (first second : ForkChoiceResult),
      selectCanonical a b stakeWeights = .ok first →
      selectCanonical b' c stakeWeights = .ok second →
      first = .equal ∨ second = .equal ∨ first = second →
      selectCanonical a' c' stakeWeights = .ok (if first = .equal then second else first)) ∧
    (∀ (chain extension : List Block) (shorter : UniqueProposers chain)
        (longer : UniqueProposers (chain ++ extension)), ∃ result,
      selectCanonical shorter longer stakeWeights = .ok result ∧ result ≠ .preferA) := by
  refine ⟨fun chain unique => ?_, fun chain other unique others same => ?_,
    fun _ => totalStakeBacking_append bounded, fun chainA chainB a a' b b' => ?_,
    fun chainA chainB chainC a a' b b' c c' first second one two agree => ?_,
    fun _ => selectCanonical_append bounded⟩
  · exact ⟨_, totalStakeBacking_returns bounded unique⟩
  · rw [totalStakeBacking_returns bounded, totalStakeBacking_returns bounded, same]
  · exact ⟨_, selectCanonical_eq bounded a b, by rw [selectCanonical_eq bounded, prefer_swap]⟩
  · rw [selectCanonical_eq bounded] at one two ⊢
    cases one
    cases two
    rw [prefer_trans agree]

section Sample

def proposedBy (proposer : Address) : Block :=
  { testBlock [] with header := { (testBlock []).header with proposer := proposer } }

def twoStakes : HashMap Address U256 := HashMap.insertAll ∅ [(alice, 100), (bob, 200)]

theorem twoStakes_preference : totalWeight twoStakes < 2 ^ 256 ∧ ∃ result,
    selectCanonical (.collect [proposedBy alice])
      (.collect ([proposedBy alice] ++ [proposedBy bob, proposedBy alice])) twoStakes =
      .ok result ∧ result ≠ .preferA := by
  have bounded : totalWeight twoStakes < 2 ^ 256 := by decide
  obtain ⟨-, -, -, -, -, grown⟩ := consistent_preference twoStakes bounded
  exact ⟨bounded, grown _ _ _ _⟩

end Sample

end ForkChoice

end Mononium
