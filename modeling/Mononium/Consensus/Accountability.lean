import Mononium.Consensus.Finality
import Mononium.Lib.Quorum

/-! The trackers of several nodes. Each hears its own selection of the votes that are cast, in its own
order, so a height can be final at one node and open at another. What two of them hold final still
rests on common votes, and a conflict between them on validators that have voted twice. -/
namespace Mononium.CommitTracker

open Rust Scale Quorum

/-- More than two thirds of the stake voted for this block. -/
def BackedBy (weights : HashMap Address U256) (t : CommitTracker) (height : U64) (blockHash : Digest) :
    Prop :=
  2 * totalWeight weights < 3 * weight weights (votesFor (t.votesAt height) blockHash)

def validators (votes : List CommitVote) : Finset Address := (votes.map (·.validator)).toFinset

section

variable {weights : HashMap Address U256} {votes first second : List CommitVote} {height : U64}
  {x y : Digest} {a : Address}

theorem mem_validators : a ∈ validators votes ↔ ∃ v ∈ votes, v.validator = a := by
  rw [validators, List.mem_toFinset, List.mem_map]

theorem totalWeight_eq_sum (weights : HashMap Address U256) :
    totalWeight weights = ∑ a ∈ weights.keys.toFinset, weightOf weights a := by
  have keys : weights.keys.Nodup := weights.nodupKeys
  rw [totalWeight, List.sum_toFinset _ keys]

/-- Accepted votes of distinct active validators are a quorum if they hold more than two thirds. -/
theorem holds_of_weight (distinct : (votes.map (·.validator)).Nodup)
    (active : ∀ v ∈ votes, v.validator ∈ weights)
    (enough : 2 * totalWeight weights < 3 * weight weights votes) :
    Holds (weightOf weights) weights.keys.toFinset (validators votes) := by
  refine ⟨fun a member => ?_, ?_⟩
  · obtain ⟨v, here, rfl⟩ := mem_validators.mp member
    exact List.mem_toFinset.mpr (AList.mem_keys.mp (active v here))
  · rw [← totalWeight_eq_sum, validators, ← weight_eq_sum distinct]
    exact enough

theorem holds_of_isFinal (small : 3 * totalWeight weights < 2 ^ 256)
    (final : (after weights votes).isFinal height) :
    Holds (weightOf weights) weights.keys.toFinset
      (validators ((after weights votes).votesAt height)) := by
  have valid := after_valid small votes
  exact holds_of_weight (valid.distinct height) (valid.voters height) ((isFinal_iff valid height).mp final)

theorem holds_of_backedBy (small : 3 * totalWeight weights < 2 ^ 256)
    (backed : BackedBy weights (after weights votes) height x) :
    Holds (weightOf weights) weights.keys.toFinset
      (validators (votesFor ((after weights votes).votesAt height) x)) := by
  have valid := after_valid small votes
  refine holds_of_weight ?_ (fun v member => valid.voters height v (List.mem_of_mem_filter member)) backed
  exact (valid.distinct height).sublist (List.filter_sublist.map _)

/-- What is recorded was heard. -/
theorem mem_votesAt (small : 3 * totalWeight weights < 2 ^ 256) {v : CommitVote}
    (recorded : v ∈ (after weights votes).votesAt height) : v ∈ votes ∧ v.height = height := by
  induction votes using List.reverseRecOn with
  | nil => simp [after, new, votesAt] at recorded
  | append_singleton votes vote ih =>
    rw [after_append] at recorded
    have before (old : v ∈ (after weights votes).votesAt height) : v ∈ votes ++ [vote] ∧ v.height = height :=
      ⟨List.mem_append_left _ (ih old).1, (ih old).2⟩
    by_cases admits : Admits (after weights votes) vote
    · rw [(addVote_spec (after_valid small votes) small admits).2] at recorded
      split at recorded
      next here =>
        subst here
        rcases List.mem_append.mp recorded with old | new
        · exact before old
        · rw [List.mem_singleton.mp new]
          exact ⟨List.mem_append_right _ List.mem_cons_self, rfl⟩
      next => exact before recorded
    · rw [addVote_rejects admits] at recorded
      exact before recorded

/-- A vote for the block by the validator. -/
def Votes (votes : List CommitVote) (height : U64) (a : Address) (blockHash : Digest) : Prop :=
  ∃ v ∈ votes, v.height = height ∧ v.validator = a ∧ v.blockHash = blockHash

theorem votes_of_supporter (small : 3 * totalWeight weights < 2 ^ 256)
    (supporter : a ∈ validators (votesFor ((after weights votes).votesAt height) x)) :
    Votes votes height a x := by
  obtain ⟨v, here, rfl⟩ := mem_validators.mp supporter
  obtain ⟨recorded, same⟩ := List.mem_filter.mp here
  obtain ⟨heard, own⟩ := mem_votesAt small recorded
  exact ⟨v, heard, own, rfl, of_decide_eq_true same⟩

/-- Two blocks with enough votes, at whichever nodes, share voters with more than a third of the
stake. -/
theorem conflict_weight (small : 3 * totalWeight weights < 2 ^ 256)
    (left : BackedBy weights (after weights first) height x)
    (right : BackedBy weights (after weights second) height y) :
    ∃ double : Finset Address, totalWeight weights < 3 * ∑ a ∈ double, weightOf weights a ∧
      ∀ a ∈ double, Votes first height a x ∧ Votes second height a y := by
  have heavy := inter_weight (holds_of_backedBy small left) (holds_of_backedBy small right)
  rw [← totalWeight_eq_sum] at heavy
  refine ⟨_, heavy, fun a member => ?_⟩
  obtain ⟨one, two⟩ := Finset.mem_inter.mp member
  exact ⟨votes_of_supporter small one, votes_of_supporter small two⟩

variable {ι : Type} {heard : ι → List CommitVote} {faulty : Finset Address}

/-- Whatever the nodes of a network hear of the votes, in whatever order: as long as no more than a
third of the stake is with validators that vote for several blocks at a height, two nodes that hold a
height final have both recorded the vote of one honest validator for one block, and no two nodes have
enough votes for two different blocks. -/
theorem network_accountable (small : 3 * totalWeight weights < 2 ^ 256)
    (light : 3 * ∑ a ∈ faulty, weightOf weights a ≤ totalWeight weights)
    (once : ∀ i j height a x y, a ∉ faulty → Votes (heard i) height a x → Votes (heard j) height a y →
      x = y) (i j : ι) (height : U64) :
    ((after weights (heard i)).isFinal height → (after weights (heard j)).isFinal height →
      ∃ a ∉ faulty, ∃ x, (∃ v ∈ (after weights (heard i)).votesAt height, v.validator = a ∧ v.blockHash = x) ∧
        ∃ v ∈ (after weights (heard j)).votesAt height, v.validator = a ∧ v.blockHash = x) ∧
    ∀ x y, BackedBy weights (after weights (heard i)) height x →
      BackedBy weights (after weights (heard j)) height y → x = y := by
  rw [totalWeight_eq_sum] at light
  refine ⟨fun left right => ?_, fun x y left right => ?_⟩
  · obtain ⟨a, one, two, honest⟩ :=
      exists_common (holds_of_isFinal small left) (holds_of_isFinal small right) light
    obtain ⟨v, inFirst, rfl⟩ := mem_validators.mp one
    obtain ⟨w, inSecond, same⟩ := mem_validators.mp two
    obtain ⟨heardFirst, ownFirst⟩ := mem_votesAt small inFirst
    obtain ⟨heardSecond, ownSecond⟩ := mem_votesAt small inSecond
    have block := once i j height v.validator v.blockHash w.blockHash honest ⟨v, heardFirst, ownFirst, rfl, rfl⟩
      ⟨w, heardSecond, ownSecond, same, rfl⟩
    exact ⟨v.validator, honest, v.blockHash, ⟨v, inFirst, rfl, rfl⟩, w, inSecond, same, block.symm⟩
  · obtain ⟨double, heavy, twice⟩ := conflict_weight small left right
    rw [totalWeight_eq_sum] at heavy
    obtain ⟨a, member, honest⟩ := exists_not_faulty heavy light
    obtain ⟨one, two⟩ := twice a member
    exact once i j height a x y honest one two

end

/-- One of three validators votes for one block at one node and for another at the other. -/
def splitVotes (node : Bool) : List CommitVote :=
  if node then [voteOf 1 7, voteOf 2 7, voteOf 3 7] else [voteOf 3 9, voteOf 2 7, voteOf 2 7, voteOf 1 7]

theorem splitVotes_accountable :
    (after threeValidators (splitVotes true)).isFinal 1 ∧
    (after threeValidators (splitVotes false)).isFinal 1 ∧
    ∃ a ∉ ({repeated 3} : Finset Address), ∃ x,
      (∃ v ∈ (after threeValidators (splitVotes true)).votesAt 1, v.validator = a ∧ v.blockHash = x) ∧
      ∃ v ∈ (after threeValidators (splitVotes false)).votesAt 1, v.validator = a ∧ v.blockHash = x := by
  have one : (after threeValidators (splitVotes true)).isFinal 1 := by decide
  have two : (after threeValidators (splitVotes false)).isFinal 1 := by decide
  have honest (node : Bool) (height : U64) (a : Address) (x : Digest) (other : a ∉ ({repeated 3} : Finset Address))
      (voted : Votes (splitVotes node) height a x) : x = FixedBytes.replicate 32 7 := by
    obtain ⟨v, member, -, rfl, rfl⟩ := voted
    have all : ∀ v ∈ splitVotes node, v.validator ∈ ({repeated 3} : Finset Address) ∨
        v.blockHash = FixedBytes.replicate 32 7 := by
      cases node <;> decide
    exact (all v member).resolve_left other
  refine ⟨one, two, ?_⟩
  have once (i j : Bool) (height : U64) (a : Address) (x y : Digest) (other : a ∉ ({repeated 3} : Finset Address))
      (first : Votes (splitVotes i) height a x) (second : Votes (splitVotes j) height a y) : x = y := by
    rw [honest i height a x other first, honest j height a y other second]
  exact (network_accountable (by decide) (by decide) once true false 1).1 one two

end Mononium.CommitTracker
