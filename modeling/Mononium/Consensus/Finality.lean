import Mononium.Core.Types
import Mononium.Lib.HashMap
import Mathlib.Algebra.BigOperators.Group.Finset.Basic
import Mathlib.Algebra.Order.BigOperators.Group.Finset

/-! The commit tracker of `consensus::finality`. A height becomes final when the
validators that voted at it hold more than two thirds of the stake; which block each
of them voted for is recorded but not looked at. -/
namespace Mononium

open Rust Scale

structure CommitTracker where
  commits : HashMap U64 (List CommitVote)
  stakeWeights : HashMap Address U256
  totalActiveStake : U256
  finalized : Finset U64

namespace CommitTracker

def new (stakeWeights : HashMap Address U256) : CommitTracker :=
  ⟨∅, stakeWeights, stakeWeights.entries.foldl (fun acc e => saturatingAdd acc e.2) 0, ∅⟩

/-- The accepted votes at a height, oldest first. -/
def votesAt (self : CommitTracker) (height : U64) : List CommitVote :=
  (self.commits.lookup height).getD []

def cumulativeWeight (self : CommitTracker) (height : U64) : U256 :=
  ((self.votesAt height).filterMap fun v => self.stakeWeights.lookup v.validator).foldl
    saturatingAdd 0

/-- `cumulative * 3 > total * 2`, where a product that overflows decides by itself. -/
def crosses (self : CommitTracker) (height : U64) : Bool :=
  match checkedMul (self.cumulativeWeight height) 3 with
  | none => false
  | some c3 =>
    match checkedMul self.totalActiveStake 2 with
    | none => true
    | some t2 => t2 < c3

/-- The flag tells whether the vote was accepted. -/
def addVote (self : CommitTracker) (vote : CommitVote) : CommitTracker × Bool :=
  if vote.height ∈ self.finalized then (self, false)
  else if (self.stakeWeights.lookup vote.validator).isNone then (self, false)
  else if (self.votesAt vote.height).any fun v => v.validator = vote.validator then (self, false)
  else
    let self := { self with
      commits := self.commits.insert vote.height (self.votesAt vote.height ++ [vote]) }
    if self.crosses vote.height then
      ({ self with finalized := insert vote.height self.finalized }, true)
    else (self, true)

def isFinal (self : CommitTracker) (height : U64) : Bool := height ∈ self.finalized

def after (stakeWeights : HashMap Address U256) (votes : List CommitVote) : CommitTracker :=
  votes.foldl (fun tracker vote => (tracker.addVote vote).1) (new stakeWeights)

theorem after_append (stakeWeights : HashMap Address U256) (votes : List CommitVote)
    (vote : CommitVote) :
    after stakeWeights (votes ++ [vote]) = ((after stakeWeights votes).addVote vote).1 := by
  simp [after]

def weightOf (weights : HashMap Address U256) (a : Address) : Nat :=
  ((weights.lookup a).map BitVec.toNat).getD 0

def totalWeight (weights : HashMap Address U256) : Nat := (weights.keys.map (weightOf weights)).sum

def weight (weights : HashMap Address U256) (votes : List CommitVote) : Nat :=
  (votes.map fun v => weightOf weights v.validator).sum

/-- The votes for one block. -/
def votesFor (votes : List CommitVote) (blockHash : Digest) : List CommitVote :=
  votes.filter fun v => v.blockHash = blockHash

def votesAgainst (votes : List CommitVote) (blockHash : Digest) : List CommitVote :=
  votes.filter fun v => v.blockHash ≠ blockHash

section Weights

variable {weights : HashMap Address U256}

@[simp] theorem weight_nil : weight weights [] = 0 := rfl

@[simp] theorem weight_append (first second : List CommitVote) :
    weight weights (first ++ second) = weight weights first + weight weights second := by
  simp [weight]

theorem weight_for_add_against (weights : HashMap Address U256) (votes : List CommitVote)
    (blockHash : Digest) :
    weight weights (votesFor votes blockHash) + weight weights (votesAgainst votes blockHash) =
      weight weights votes := by
  induction votes with
  | nil => rfl
  | cons v votes ih =>
    by_cases same : v.blockHash = blockHash
    · simp_all [votesFor, votesAgainst, weight]
      omega
    · simp_all [votesFor, votesAgainst, weight]
      omega

theorem weight_eq_sum {votes : List CommitVote} (distinct : (votes.map (·.validator)).Nodup) :
    weight weights votes = ∑ a ∈ (votes.map (·.validator)).toFinset, weightOf weights a := by
  rw [List.sum_toFinset _ distinct, weight, List.map_map]
  rfl

theorem weight_le_total {votes : List CommitVote}
    (distinct : (votes.map (·.validator)).Nodup)
    (known : ∀ v ∈ votes, v.validator ∈ weights) : weight weights votes ≤ totalWeight weights := by
  have keys : weights.keys.Nodup := weights.nodupKeys
  have right : totalWeight weights = ∑ a ∈ weights.keys.toFinset, weightOf weights a := by
    rw [List.sum_toFinset _ keys, totalWeight]
  rw [weight_eq_sum distinct, right]
  apply Finset.sum_le_sum_of_subset
  intro a member
  obtain ⟨v, here, rfl⟩ := List.mem_map.mp (List.mem_toFinset.mp member)
  exact List.mem_toFinset.mpr (AList.mem_keys.mp (known v here))

theorem totalWeight_eq (weights : HashMap Address U256) :
    totalWeight weights = (weights.entries.map fun e => e.2.toNat).sum := by
  rw [totalWeight, AList.keys, List.keys, List.map_map]
  congr 1
  apply List.map_congr_left
  intro e member
  have found : weights.lookup e.1 = some e.2 := Option.mem_def.mp (AList.mem_lookup_iff.mpr member)
  simp [weightOf, found]

end Weights

/-- The vote passes the three checks of `addVote`. -/
structure Admits (t : CommitTracker) (vote : CommitVote) : Prop where
  unsettled : vote.height ∉ t.finalized
  known : vote.validator ∈ t.stakeWeights
  fresh : ∀ v ∈ t.votesAt vote.height, v.validator ≠ vote.validator

/-- What every sequence of votes keeps. -/
structure Valid (weights : HashMap Address U256) (t : CommitTracker) : Prop where
  same : t.stakeWeights = weights
  total : t.totalActiveStake.toNat = totalWeight weights
  distinct : ∀ height, ((t.votesAt height).map (·.validator)).Nodup
  voters : ∀ height, ∀ v ∈ t.votesAt height, v.validator ∈ weights
  final : ∀ height, height ∈ t.finalized ↔
    2 * totalWeight weights < 3 * weight weights (t.votesAt height)

section Steps

variable {weights : HashMap Address U256} {t : CommitTracker} {vote : CommitVote}

theorem new_valid (small : 3 * totalWeight weights < 2 ^ 256) : Valid weights (new weights) where
  same := rfl
  total := by
    rw [new, foldl_saturatingAdd_toNat, ← totalWeight_eq, show (0 : U256).toNat = 0 from rfl]
    omega
  distinct height := by simp [new, votesAt]
  voters height v member := by simp [new, votesAt] at member
  final height := by simp [new, votesAt]

theorem cumulativeWeight_toNat (same : t.stakeWeights = weights) (height : U64)
    (fits : weight weights (t.votesAt height) < 2 ^ 256) :
    (t.cumulativeWeight height).toNat = weight weights (t.votesAt height) := by
  have sum : (((t.votesAt height).filterMap fun v => t.stakeWeights.lookup v.validator).map
      fun w => w.toNat).sum = weight weights (t.votesAt height) := by
    clear fits
    rw [same]
    induction t.votesAt height with
    | nil => rfl
    | cons v votes ih =>
      simp only [weight] at ih
      cases found : weights.lookup v.validator <;> simp [weight, weightOf, found, ih]
  have folded := foldl_saturatingAdd_toNat
    ((t.votesAt height).filterMap fun v => t.stakeWeights.lookup v.validator) id 0
  simp only [id_eq, sum] at folded
  rw [cumulativeWeight, folded, show (0 : U256).toNat = 0 from rfl]
  omega

theorem crosses_iff (same : t.stakeWeights = weights)
    (total : t.totalActiveStake.toNat = totalWeight weights)
    (small : 3 * totalWeight weights < 2 ^ 256) (height : U64)
    (distinct : ((t.votesAt height).map (·.validator)).Nodup)
    (voters : ∀ v ∈ t.votesAt height, v.validator ∈ weights) :
    t.crosses height ↔ 2 * totalWeight weights < 3 * weight weights (t.votesAt height) := by
  have bound := weight_le_total distinct voters
  have value := cumulativeWeight_toNat same height (by omega)
  have three : (t.cumulativeWeight height).toNat * (3 : U256).toNat < 2 ^ 256 := by
    rw [value, show (3 : U256).toNat = 3 from rfl]
    omega
  have two : t.totalActiveStake.toNat * (2 : U256).toNat < 2 ^ 256 := by
    rw [total, show (2 : U256).toNat = 2 from rfl]
    omega
  rw [crosses, checkedMul_of_lt three]
  dsimp only
  rw [checkedMul_of_lt two]
  dsimp only
  rw [decide_eq_true_iff, BitVec.lt_def, mul_toNat two, mul_toNat three, total, value,
    show (3 : U256).toNat = 3 from rfl, show (2 : U256).toNat = 2 from rfl]
  omega

theorem addVote_rejects (rejects : ¬Admits t vote) : (t.addVote vote).1 = t := by
  unfold addVote
  split
  next => rfl
  next unsettled =>
    split
    next => rfl
    next known =>
      split
      next => rfl
      next fresh =>
        refine absurd ⟨unsettled, ?_, ?_⟩ rejects
        · rwa [Option.isNone_iff_eq_none, ← ne_eq, Option.ne_none_iff_isSome, AList.lookup_isSome]
            at known
        · simpa using fresh

/-- The tracker with one more vote, before the threshold is looked at. -/
def record (t : CommitTracker) (vote : CommitVote) : CommitTracker :=
  { t with commits := t.commits.insert vote.height (t.votesAt vote.height ++ [vote]) }

theorem votesAt_record (t : CommitTracker) (vote : CommitVote) (height : U64) :
    (t.record vote).votesAt height =
      if height = vote.height then t.votesAt vote.height ++ [vote] else t.votesAt height := by
  rw [votesAt, record, HashMap.lookup_insert_if]
  split <;> rfl

theorem addVote_admits (admits : Admits t vote) :
    (t.addVote vote).1 =
      if (t.record vote).crosses vote.height then
        { t.record vote with finalized := insert vote.height t.finalized }
      else t.record vote := by
  have known : ¬(t.stakeWeights.lookup vote.validator).isNone := by
    rw [Option.isNone_iff_eq_none, ← ne_eq, Option.ne_none_iff_isSome, AList.lookup_isSome]
    exact admits.known
  have fresh : ¬(t.votesAt vote.height).any fun v => v.validator = vote.validator := by
    simpa using admits.fresh
  rw [addVote, if_neg admits.unsettled, if_neg known, if_neg fresh]
  dsimp only
  change (if (t.record vote).crosses vote.height then _ else _ : CommitTracker × Bool).1 = _
  split <;> rfl

theorem record_distinct (valid : Valid weights t) (admits : Admits t vote) (height : U64) :
    (((t.record vote).votesAt height).map (·.validator)).Nodup := by
  rw [votesAt_record]
  split
  next =>
    rw [List.map_append, List.map_singleton, List.nodup_append]
    refine ⟨valid.distinct _, by simp, ?_⟩
    intro a member b single
    obtain ⟨v, here, rfl⟩ := List.mem_map.mp member
    rw [List.mem_singleton.mp single]
    exact admits.fresh v here
  next => exact valid.distinct height

theorem record_voters (valid : Valid weights t) (admits : Admits t vote) (height : U64) :
    ∀ v ∈ (t.record vote).votesAt height, v.validator ∈ weights := by
  intro v member
  rw [votesAt_record] at member
  split at member
  next =>
    rcases List.mem_append.mp member with old | new
    · exact valid.voters _ v old
    · rw [List.mem_singleton.mp new, ← valid.same]
      exact admits.known
  next => exact valid.voters height v member

/-- The step of the invariant, with the votes and the settled heights it leaves. -/
theorem addVote_spec (valid : Valid weights t) (small : 3 * totalWeight weights < 2 ^ 256)
    (admits : Admits t vote) :
    Valid weights (t.addVote vote).1 ∧
      ∀ height, (t.addVote vote).1.votesAt height =
        if height = vote.height then t.votesAt vote.height ++ [vote] else t.votesAt height := by
  have crossing := crosses_iff (t := t.record vote) valid.same valid.total small vote.height
    (record_distinct valid admits vote.height) (record_voters valid admits vote.height)
  have elsewhere (height : U64) (other : height ≠ vote.height) :
      (t.record vote).votesAt height = t.votesAt height := by
    rw [votesAt_record, if_neg other]
  rw [addVote_admits admits]
  split
  next crossed =>
    refine ⟨⟨valid.same, valid.total, record_distinct valid admits, record_voters valid admits, ?_⟩,
      votesAt_record t vote⟩
    intro height
    rw [Finset.mem_insert]
    change _ ↔ _ < 3 * weight weights ((t.record vote).votesAt height)
    by_cases here : height = vote.height
    · rw [here]
      exact iff_of_true (.inl rfl) (crossing.mp crossed)
    · rw [elsewhere height here, ← valid.final height]
      exact or_iff_right here
  next open_ =>
    refine ⟨⟨valid.same, valid.total, record_distinct valid admits, record_voters valid admits, ?_⟩,
      votesAt_record t vote⟩
    intro height
    by_cases here : height = vote.height
    · rw [here]
      exact iff_of_false admits.unsettled fun above => open_ (crossing.mpr above)
    · rw [elsewhere height here]
      exact valid.final height

theorem addVote_valid (valid : Valid weights t) (small : 3 * totalWeight weights < 2 ^ 256)
    (vote : CommitVote) : Valid weights (t.addVote vote).1 := by
  by_cases admits : Admits t vote
  · exact (addVote_spec valid small admits).1
  · rwa [addVote_rejects admits]

theorem after_valid (small : 3 * totalWeight weights < 2 ^ 256) (votes : List CommitVote) :
    Valid weights (after weights votes) := by
  induction votes using List.reverseRecOn with
  | nil => exact new_valid small
  | append_singleton votes vote ih =>
    rw [after_append]
    exact addVote_valid ih small vote

/-- Every final height has one block that more than two thirds of the stake voted for. -/
def Backed (weights : HashMap Address U256) (t : CommitTracker) : Prop :=
  ∀ height, t.isFinal height → ∃ blockHash,
    2 * totalWeight weights < 3 * weight weights (votesFor (t.votesAt height) blockHash)

/-- If the vote settles its height, the earlier votes for other blocks weigh less than the
surplus over two thirds. -/
def Clean (weights : HashMap Address U256) (t : CommitTracker) (vote : CommitVote) : Prop :=
  Admits t vote →
    2 * totalWeight weights <
      3 * (weight weights (t.votesAt vote.height) + weightOf weights vote.validator) →
    2 * totalWeight weights + 3 * weight weights (votesAgainst (t.votesAt vote.height) vote.blockHash) <
      3 * (weight weights (t.votesAt vote.height) + weightOf weights vote.validator)

/-- If the vote settles its height, the earlier votes of the height name the same block. -/
def Unanimous (weights : HashMap Address U256) (t : CommitTracker) (vote : CommitVote) : Prop :=
  Admits t vote →
    2 * totalWeight weights <
      3 * (weight weights (t.votesAt vote.height) + weightOf weights vote.validator) →
    ∀ v ∈ t.votesAt vote.height, v.blockHash = vote.blockHash

/-- Nobody has voted against the block. -/
theorem Unanimous.clean (unanimous : Unanimous weights t vote) : Clean weights t vote := by
  intro admits settles
  have nobody : votesAgainst (t.votesAt vote.height) vote.blockHash = [] :=
    List.filter_eq_nil_iff.mpr fun v member => by simpa using unanimous admits settles v member
  rwa [nobody, weight_nil, Nat.mul_zero, Nat.add_zero]

theorem isFinal_iff (valid : Valid weights t) (height : U64) :
    t.isFinal height ↔ 2 * totalWeight weights < 3 * weight weights (t.votesAt height) := by
  rw [isFinal, decide_eq_true_iff, valid.final]

/-- Of the votes that settle a height only those for the last one's block can be enough:
without the last vote the height was not settled. -/
theorem settling_backed_iff (unsettled : 3 * weight weights votes ≤ 2 * totalWeight weights) :
    (∃ blockHash, 2 * totalWeight weights <
        3 * weight weights (votesFor (votes ++ [vote]) blockHash)) ↔
      2 * totalWeight weights + 3 * weight weights (votesAgainst votes vote.blockHash) <
        3 * (weight weights votes + weightOf weights vote.validator) := by
  have last (blockHash : Digest) : weight weights (votesFor (votes ++ [vote]) blockHash) =
      weight weights (votesFor votes blockHash) +
        if vote.blockHash = blockHash then weightOf weights vote.validator else 0 := by
    rw [votesFor, List.filter_append, weight_append]
    by_cases same : vote.blockHash = blockHash <;> simp [same, votesFor, weight]
  constructor
  · rintro ⟨blockHash, enough⟩
    rw [last] at enough
    have parts := weight_for_add_against weights votes blockHash
    split at enough
    next same =>
      rw [same]
      omega
    next => omega
  · intro clean
    refine ⟨vote.blockHash, ?_⟩
    have parts := weight_for_add_against weights votes vote.blockHash
    rw [last, if_pos rfl]
    omega

theorem backed_addVote_iff (valid : Valid weights t) (small : 3 * totalWeight weights < 2 ^ 256) :
    Backed weights (t.addVote vote).1 ↔ Backed weights t ∧ Clean weights t vote := by
  by_cases admits : Admits t vote
  · obtain ⟨next, votes⟩ := addVote_spec valid small admits
    have unsettled : 3 * weight weights (t.votesAt vote.height) ≤ 2 * totalWeight weights :=
      Nat.not_lt.mp fun above => admits.unsettled ((valid.final _).mpr above)
    have sum : weight weights (t.votesAt vote.height ++ [vote]) =
        weight weights (t.votesAt vote.height) + weightOf weights vote.validator := by
      simp [weight]
    have here : ((t.addVote vote).1.isFinal vote.height → ∃ blockHash, 2 * totalWeight weights <
        3 * weight weights (votesFor ((t.addVote vote).1.votesAt vote.height) blockHash)) ↔
        Clean weights t vote := by
      rw [isFinal_iff next, votes, if_pos rfl, sum, settling_backed_iff unsettled, Clean,
        forall_prop_of_true admits]
    have elsewhere (height : U64) (other : height ≠ vote.height) :
        ((t.addVote vote).1.isFinal height → ∃ blockHash, 2 * totalWeight weights <
          3 * weight weights (votesFor ((t.addVote vote).1.votesAt height) blockHash)) ↔
        (t.isFinal height → ∃ blockHash, 2 * totalWeight weights <
          3 * weight weights (votesFor (t.votesAt height) blockHash)) := by
      rw [isFinal_iff next, isFinal_iff valid, votes, if_neg other]
    constructor
    · intro backed
      refine ⟨fun height => ?_, here.mp (backed vote.height)⟩
      by_cases other : height = vote.height
      · rw [other, isFinal_iff valid]
        exact fun above => by omega
      · exact (elsewhere height other).mp (backed height)
    · rintro ⟨backed, clean⟩ height
      by_cases other : height = vote.height
      · rw [other]
        exact here.mpr clean
      · exact (elsewhere height other).mpr (backed height)
  · rw [addVote_rejects admits]
    exact ⟨fun backed => ⟨backed, fun accepted => absurd accepted admits⟩, fun both => both.1⟩

/-- Finality is per block over a sequence of votes exactly when every vote of it is clean in
the state it meets. -/
theorem after_backed_iff (small : 3 * totalWeight weights < 2 ^ 256) (votes : List CommitVote) :
    Backed weights (after weights votes) ↔
      ∀ before vote later, votes = before ++ vote :: later →
        Clean weights (after weights before) vote := by
  induction votes using List.reverseRecOn with
  | nil =>
    refine iff_of_true ?_ fun before vote later split => by simp at split
    intro height final
    simp [after, new, isFinal] at final
  | append_singleton votes vote ih =>
    rw [after_append, backed_addVote_iff (after_valid small votes) small, ih]
    constructor
    · rintro ⟨earlier, clean⟩ before other later split
      rcases List.eq_nil_or_concat later with rfl | ⟨rest, last, rfl⟩
      · obtain ⟨rfl, single⟩ := List.append_inj' split rfl
        cases single
        exact clean
      · rw [List.concat_eq_append, ← List.cons_append, ← List.append_assoc] at split
        exact earlier before other rest (List.append_inj' split rfl).1
    · intro all
      refine ⟨fun before other later split => ?_, all votes vote [] rfl⟩
      exact all before other (later ++ [vote]) (by rw [split]; simp)

/-- In every run in which each height is settled by votes for one block, finality is per block, at
every point of the run. -/
theorem backed_of_unanimous (small : 3 * totalWeight weights < 2 ^ 256) (votes : List CommitVote)
    (unanimous : ∀ before vote later, votes = before ++ vote :: later →
      Unanimous weights (after weights before) vote) :
    ∀ before, before <+: votes → Backed weights (after weights before) := by
  rintro seen ⟨rest, rfl⟩
  rw [after_backed_iff small]
  rintro before vote later rfl
  apply Unanimous.clean
  exact unanimous before vote (later ++ rest) (by rw [List.append_assoc, List.cons_append])

end Steps

def threeValidators : HashMap Address U256 :=
  HashMap.insertAll ∅ [(repeated 1, 1), (repeated 2, 1), (repeated 3, 1)]

def voteOf (validator block : UInt8) : CommitVote :=
  ⟨1, FixedBytes.replicate 32 block, repeated validator, dummySig⟩

theorem unanimous_backed :
    Backed threeValidators (after threeValidators [voteOf 1 7, voteOf 2 7, voteOf 3 7]) ∧
      (after threeValidators [voteOf 1 7, voteOf 2 7, voteOf 3 7]).isFinal 1 := by
  refine ⟨backed_of_unanimous (by decide) _ ?_ _ List.prefix_rfl, by decide⟩
  intro before vote later split _ _
  match before with
  | [] =>
    cases split
    decide
  | [_] =>
    cases split
    decide
  | [_, _] =>
    cases split
    decide
  | _ :: _ :: _ :: rest => simp at split

/-- Three conflicting votes finalise a height at which no block has more than one. -/
theorem conflicting_not_backed :
    3 * totalWeight threeValidators < 2 ^ 256 ∧
      ¬Backed threeValidators (after threeValidators [voteOf 1 7, voteOf 2 8, voteOf 3 9]) := by
  refine ⟨by decide, fun backed => ?_⟩
  obtain ⟨blockHash, enough⟩ := backed 1 (by decide)
  have votes : (after threeValidators [voteOf 1 7, voteOf 2 8, voteOf 3 9]).votesAt 1 =
      [voteOf 1 7, voteOf 2 8] ++ [voteOf 3 9] := by decide +kernel
  rw [votes] at enough
  have surplus := (settling_backed_iff (by decide)).mp ⟨blockHash, enough⟩
  revert surplus
  decide

end CommitTracker

end Mononium
