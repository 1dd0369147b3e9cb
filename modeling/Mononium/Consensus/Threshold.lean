import Mononium.Consensus.Finality

/-! The commit threshold as a function of who has voted. The tracker sums up a list of votes that it
filters as they come in and closes once the height is settled; the verdict is that of the whole
sequence all the same. -/
namespace Mononium.CommitTracker

open Rust

def voters (weights : HashMap Address U256) (votes : List CommitVote) (height : U64) : Finset Address :=
  ((votes.filter fun v => v.height = height ∧ v.validator ∈ weights).map (·.validator)).toFinset

/-- The weight of these validators, each counted once. -/
def tally (weights : HashMap Address U256) (votes : List CommitVote) (height : U64) : Nat :=
  ∑ a ∈ voters weights votes height, weightOf weights a

section

variable {weights : HashMap Address U256} {votes other : List CommitVote} {height : U64} {a : Address}

theorem mem_voters : a ∈ voters weights votes height ↔
    a ∈ weights ∧ ∃ v ∈ votes, v.height = height ∧ v.validator = a := by
  simp only [voters, List.mem_toFinset, List.mem_map, List.mem_filter, decide_eq_true_eq]
  constructor
  · rintro ⟨v, ⟨member, here, active⟩, rfl⟩
    exact ⟨active, v, member, here, rfl⟩
  · rintro ⟨active, v, member, here, rfl⟩
    exact ⟨v, ⟨member, here, active⟩, rfl⟩

theorem voters_append : voters weights (votes ++ other) height =
    voters weights votes height ∪ voters weights other height := by
  simp [voters]

theorem mem_voters_single {vote : CommitVote} : a ∈ voters weights [vote] height ↔
    vote.height = height ∧ vote.validator = a ∧ a ∈ weights := by
  simp only [mem_voters, List.mem_singleton, exists_eq_left]
  tauto

/-- The tracker holds votes of those that have voted, and of all of them until the height is
settled. -/
structure Tracks (weights : HashMap Address U256) (votes : List CommitVote) (t : CommitTracker) :
    Prop where
  counted : ∀ height, ∀ v ∈ t.votesAt height, v.validator ∈ voters weights votes height
  complete : ∀ height, height ∉ t.finalized → ∀ a ∈ voters weights votes height,
    ∃ v ∈ t.votesAt height, v.validator = a

theorem Tracks.rejects {t : CommitTracker} {vote : CommitVote} (valid : Valid weights t)
    (tracks : Tracks weights votes t) (rejects : ¬Admits t vote) : Tracks weights (votes ++ [vote]) t where
  counted height v member := by
    rw [voters_append]
    exact Finset.mem_union_left _ (tracks.counted height v member)
  complete height unsettled a member := by
    rw [voters_append] at member
    rcases Finset.mem_union.mp member with before | now
    · exact tracks.complete height unsettled a before
    · obtain ⟨rfl, rfl, active⟩ := mem_voters_single.mp now
      -- The height is open and the voter active, so the vote was refused as a second one.
      by_contra fresh
      exact rejects ⟨unsettled, by rwa [valid.same], fun v there same => fresh ⟨v, there, same⟩⟩

theorem Tracks.admits {t : CommitTracker} {vote : CommitVote} (valid : Valid weights t)
    (small : 3 * totalWeight weights < 2 ^ 256) (tracks : Tracks weights votes t)
    (admits : Admits t vote) : Tracks weights (votes ++ [vote]) (t.addVote vote).1 := by
  obtain ⟨next, listed⟩ := addVote_spec valid small admits
  have active : vote.validator ∈ weights := by
    rw [← valid.same]
    exact admits.known
  refine ⟨fun height v member => ?_, fun height unsettled a member => ?_⟩
  · rw [voters_append, Finset.mem_union]
    rw [listed] at member
    split at member
    next here =>
      subst here
      rcases List.mem_append.mp member with before | now
      · exact .inl (tracks.counted _ v before)
      · rw [List.mem_singleton.mp now]
        exact .inr (mem_voters_single.mpr ⟨rfl, rfl, active⟩)
    next => exact .inl (tracks.counted height v member)
  · rw [voters_append] at member
    have open_ : height ∉ t.finalized := fun settled => by
      by_cases here : height = vote.height
      · exact admits.unsettled (here ▸ settled)
      · refine unsettled ((next.final height).mpr ?_)
        rw [listed, if_neg here]
        exact (valid.final height).mp settled
    rw [listed]
    rcases Finset.mem_union.mp member with before | now
    · obtain ⟨v, there, rfl⟩ := tracks.complete height open_ a before
      refine ⟨v, ?_, rfl⟩
      split
      next here =>
        subst here
        exact List.mem_append_left _ there
      next => exact there
    · obtain ⟨rfl, rfl, -⟩ := mem_voters_single.mp now
      exact ⟨vote, by simp, rfl⟩

theorem after_tracks (small : 3 * totalWeight weights < 2 ^ 256) (votes : List CommitVote) :
    Tracks weights votes (after weights votes) := by
  induction votes using List.reverseRecOn with
  | nil =>
    refine ⟨fun height v member => ?_, fun height _ a member => ?_⟩
    · simp [after, new, votesAt] at member
    · simp [voters] at member
  | append_singleton votes vote ih =>
    have valid := after_valid small votes
    rw [after_append]
    by_cases admits : Admits (after weights votes) vote
    · exact ih.admits valid small admits
    · rw [addVote_rejects admits]
      exact ih.rejects valid admits

/-- The verdict is that of all votes for the height together. -/
theorem isFinal_after_iff (small : 3 * totalWeight weights < 2 ^ 256) (votes : List CommitVote)
    (height : U64) : (after weights votes).isFinal height ↔
      2 * totalWeight weights < 3 * tally weights votes height := by
  have valid := after_valid small votes
  have tracks := after_tracks small votes
  have counted : (((after weights votes).votesAt height).map (·.validator)).toFinset ⊆
      voters weights votes height := by
    intro a member
    obtain ⟨v, there, rfl⟩ := List.mem_map.mp (List.mem_toFinset.mp member)
    exact tracks.counted height v there
  have less : weight weights ((after weights votes).votesAt height) ≤ tally weights votes height := by
    rw [weight_eq_sum (valid.distinct height)]
    exact Finset.sum_le_sum_of_subset counted
  rw [isFinal_iff valid]
  refine ⟨fun enough => by omega, fun enough => ?_⟩
  by_contra short
  have unsettled : height ∉ (after weights votes).finalized := fun settled =>
    short ((valid.final height).mp settled)
  have all : voters weights votes height ⊆
      (((after weights votes).votesAt height).map (·.validator)).toFinset := by
    intro a member
    obtain ⟨v, there, rfl⟩ := tracks.complete height unsettled a member
    exact List.mem_toFinset.mpr (List.mem_map.mpr ⟨v, there, rfl⟩)
  have same : weight weights ((after weights votes).votesAt height) = tally weights votes height := by
    rw [weight_eq_sum (valid.distinct height), tally, counted.antisymm all]
  omega

theorem tally_le_append (weights : HashMap Address U256) (votes more : List CommitVote) (height : U64) :
    tally weights votes height ≤ tally weights (votes ++ more) height := by
  rw [tally, tally, voters_append]
  exact Finset.sum_le_sum_of_subset Finset.subset_union_left

theorem tally_le_total (weights : HashMap Address U256) (votes : List CommitVote) (height : U64) :
    tally weights votes height ≤ totalWeight weights := by
  have keys : weights.keys.Nodup := weights.nodupKeys
  rw [tally, totalWeight, ← List.sum_toFinset _ keys]
  apply Finset.sum_le_sum_of_subset
  intro a member
  exact List.mem_toFinset.mpr (AList.mem_keys.mp (mem_voters.mp member).1)

/-- The threshold is exact: a height is final if and only if the active validators that voted for it
hold more than two thirds. The verdict depends on nothing but who they are, is never taken back, and
nothing becomes final without stake. -/
theorem threshold_exact (small : 3 * totalWeight weights < 2 ^ 256) :
    (∀ votes height, (after weights votes).isFinal height ↔
      3 * tally weights votes height > 2 * totalWeight weights) ∧
    (∀ votes other height,
      (∀ a ∈ weights, (∃ v ∈ votes, v.height = height ∧ v.validator = a) ↔
        ∃ v ∈ other, v.height = height ∧ v.validator = a) →
      (after weights votes).isFinal height = (after weights other).isFinal height) ∧
    (∀ votes more height, (after weights votes).isFinal height →
      (after weights (votes ++ more)).isFinal height) ∧
    (totalWeight weights = 0 → ∀ votes height, ¬(after weights votes).isFinal height) := by
  refine ⟨fun votes height => isFinal_after_iff small votes height, fun votes other height same => ?_,
    fun votes more height final => ?_, fun none votes height final => ?_⟩
  · have voters_eq : voters weights votes height = voters weights other height := by
      ext a
      rw [mem_voters, mem_voters]
      exact and_congr_right (same a)
    rw [Bool.eq_iff_iff, isFinal_after_iff small, isFinal_after_iff small, tally, tally, voters_eq]
  · rw [isFinal_after_iff small] at final ⊢
    have grows := tally_le_append weights votes more height
    omega
  · rw [isFinal_after_iff small] at final
    have bound := tally_le_total weights votes height
    omega

/-- With three equal weights a second vote of a validator does not help, and all three do. -/
theorem threeValidators_threshold :
    3 * totalWeight threeValidators < 2 ^ 256 ∧
      ¬(after threeValidators [voteOf 1 7, voteOf 2 7, voteOf 1 8]).isFinal 1 ∧
      (after threeValidators [voteOf 3 9, voteOf 1 7, voteOf 1 8, voteOf 2 7]).isFinal 1 := by
  have small : 3 * totalWeight threeValidators < 2 ^ 256 := by decide
  obtain ⟨exact_, -⟩ := threshold_exact small
  refine ⟨small, ?_, ?_⟩
  · rw [exact_]
    decide
  · rw [exact_]
    decide

end

end Mononium.CommitTracker
