import Mononium.Core.Agreement

/-! Neighbouring transactions of a block that touch different addresses can be swapped.
Each does the same writes before and after the other, and the writes go to different
keys. -/
namespace Mononium

open Rust Scale

namespace StateMachine

structure Progress.Twin (p q : Progress) : Prop where
  machine : StateMachine.Twin p.machine q.machine
  blockFees : p.blockFees = q.blockFees
  txCount : p.txCount = q.txCount
  failedCount : p.failedCount = q.failedCount

section

variable [Blake3] {s t : StateMachine} {p q : Progress} {chainId : U64}

namespace Twin

theorem alikeOn (twin : Twin s t) (keys : List Bytes) : AlikeOn keys s t :=
  fun key _ => twin.leaves (blake3 key)

theorem getAccount (twin : Twin s t) (a : Address) : s.getAccount a = t.getAccount a :=
  (twin.alikeOn [accountKey a]).getAccount (by simp)

theorem getValidator (twin : Twin s t) (a : Address) : s.getValidator a = t.getValidator a :=
  (twin.alikeOn [validatorKey a]).getValidator (by simp)

theorem applyTx (twin : Progress.Twin p q) (tx : Transaction) :
    Related Progress.Twin (applyTx chainId p tx) (applyTx chainId q tx) := by
  rw [applyTx_eq, applyTx_eq]
  apply Related.bind ((twin.machine.alikeOn tx.keys).settle chainId)
  rintro ⟨x, tally⟩ ⟨y, _⟩ ⟨⟨ws, -, rfl, rfl⟩, rfl⟩
  unfold Progress.record
  rw [twin.blockFees, twin.txCount, twin.failedCount]
  apply Related.bind_same
  intro blockFees
  apply Related.ite
  · apply Related.bind_same
    intro txCount
    exact .pure ⟨twin.machine.writes ws, rfl, rfl, rfl⟩
  · apply Related.bind_same
    intro failedCount
    exact .pure ⟨twin.machine.writes ws, rfl, rfl, rfl⟩

theorem applyTxs (twin : Progress.Twin p q) (txs : List Transaction) :
    Related Progress.Twin (applyTxs chainId p txs) (applyTxs chainId q txs) :=
  Related.foldlM (fun tx _ _ _ related => applyTx related tx) twin

theorem creditBalance (twin : Twin s t) (a : Address) (amount : U256) :
    Related Twin (s.creditBalance a amount) (t.creditBalance a amount) := by
  unfold StateMachine.creditBalance
  rw [twin.getAccount]
  apply Related.bind_same
  intro found
  exact .pure (twin.writes [.account a _])

theorem distributeFees (twin : Twin s t) (fees : U128) :
    Related Twin (s.distributeFees fees) (t.distributeFees fees) := by
  have pairs : s.stakePairs = t.stakePairs := by
    simp only [stakePairs, twin.activeSet, twin.getValidator]
  unfold StateMachine.distributeFees
  rw [pairs, twin.activeSet]
  apply Related.ite (.pure twin)
  apply Related.ite (.pure twin)
  apply Related.bind (R := fun (x y : StateMachine × U256) => Twin x.1 y.1 ∧ x.2 = y.2)
  · refine Related.foldlM (fun pair _ x y same => ?_) ⟨twin, rfl⟩
    obtain ⟨left, paid⟩ := x
    obtain ⟨right, _⟩ := y
    obtain ⟨same, rfl⟩ := same
    unfold creditShare
    apply Related.bind_same
    intro product
    apply Related.bind_same
    intro share
    apply Related.ite (.pure ⟨same, rfl⟩)
    apply Related.bind (same.creditBalance pair.2 share)
    intro x y credited
    exact .pure ⟨credited, rfl⟩
  · rintro ⟨left, paid⟩ ⟨right, _⟩ ⟨same, rfl⟩
    apply Related.ite
    · cases (t.stakePairs.insertionSort remainderOrder).head? with
      | none => exact .pure same
      | some pair =>
        apply Related.bind_same
        intro remainder
        exact same.creditBalance pair.2 remainder
    · exact .pure same

theorem stateRoot {x y : StateMachine} {root other : Digest} (twin : Twin s t)
    (first : s.stateRoot = .ok (root, x)) (second : t.stateRoot = .ok (other, y)) :
    root = other ∧ SameRoot x y := by
  cases cached : s.state.cachedRoot with
  | some kept =>
    have same : t.state.cachedRoot = some kept := twin.cachedRoot ▸ cached
    have read {u : StateMachine} (cached : u.state.cachedRoot = some kept) :
        u.stateRoot = .ok (kept, u) := by
      simp [StateMachine.stateRoot, SparseMerkleTree.root, SparseMerkleTree.rootIn, cached]
    cases first.symm.trans (read cached)
    cases second.symm.trans (read same)
    exact ⟨rfl, _, _, _, read cached, read same⟩
  | none =>
    have read {u v : StateMachine} {found : Digest} (cached : u.state.cachedRoot = none)
        (h : u.stateRoot = .ok (found, v)) :
        found = SparseMerkleTree.referenceRoot u.state.leaves ∧ ∃ w, v.stateRoot = .ok (found, w) := by
      have valid : u.state.CacheValid := fun root present => by simp [cached] at present
      obtain ⟨after, rooted, leaves, still⟩ := SparseMerkleTree.root_eq valid
      obtain ⟨later, again, -, -⟩ := SparseMerkleTree.root_eq still
      rw [StateMachine.stateRoot, rooted] at h
      cases h
      refine ⟨rfl, { u with state := later }, ?_⟩
      rw [StateMachine.stateRoot]
      dsimp only
      rw [again, leaves]
      rfl
    obtain ⟨here, u, rooted⟩ := read cached first
    obtain ⟨there, v, rootedToo⟩ := read (twin.cachedRoot ▸ cached) second
    have same : root = other := by
      rw [here, there]
      exact SparseMerkleTree.referenceRoot_congr twin.leaves
    exact ⟨same, root, u, v, rooted, same ▸ rootedToo⟩

end Twin

/-- BLAKE3 keeps the footprints of two transactions apart. -/
theorem footprints_apart {first second : Transaction}
    (apart : KeysApart (first.touched ++ second.touched).toFinset)
    (disjoint : ∀ a ∈ first.touched, a ∉ second.touched) :
    ∀ key ∈ first.keys, ∀ other ∈ second.keys, blake3 key ≠ blake3 other := by
  intro key here other there collision
  obtain ⟨a, ha, shapeA⟩ := Transaction.keys_touched here
  obtain ⟨b, hb, shapeB⟩ := Transaction.keys_touched there
  have same := apart ⟨a, by simp [ha], shapeA⟩ ⟨b, by simp [hb], shapeB⟩ collision
  subst same
  have one : a = b := by
    rcases shapeA with rfl | rfl <;> rcases shapeB with shape | shape
    · exact accountKey_injective shape
    · exact absurd shape (accountKey_ne_validatorKey a b)
    · exact absurd shape.symm (accountKey_ne_validatorKey b a)
    · exact validatorKey_injective shape
  exact disjoint a ha (one ▸ hb)

/-- A round, with what it adds to the tallies. -/
theorem applyTx_settle {tx : Transaction} (h : applyTx chainId p tx = .ok q) :
    ∃ tally, p.machine.settle chainId tx = .ok (q.machine, tally) ∧
      q.blockFees.toNat = p.blockFees.toNat + tally.fees.toNat ∧
      q.txCount.toNat = p.txCount.toNat + tally.executed.toNat ∧
      q.failedCount.toNat = p.failedCount.toNat + (!tally.executed).toNat := by
  rw [applyTx_eq] at h
  obtain ⟨⟨m, tally⟩, settled, h⟩ := bind_eq_ok.mp h
  obtain ⟨same, counts⟩ := Progress.record_eq_ok h
  exact ⟨tally, same ▸ settled, counts⟩

theorem AlikeOn.settle_eq {tx : Transaction} {x y : StateMachine} {tally other : Tally}
    (alike : AlikeOn tx.keys s t) (first : s.settle chainId tx = .ok (x, tally))
    (second : t.settle chainId tx = .ok (y, other)) :
    SameWrites tx.keys s t x y ∧ tally = other :=
  (alike.settle chainId).values first second

theorem settle_alikeOn {tx : Transaction} {tally : Tally} {keys : List Bytes}
    (apart : ∀ key ∈ keys, ∀ own ∈ tx.keys, blake3 key ≠ blake3 own)
    (h : s.settle chainId tx = .ok (t, tally)) : AlikeOn keys s t := by
  have reflexive : AlikeOn tx.keys s s := fun _ _ => rfl
  obtain ⟨⟨ws, inside, rfl, -⟩, -⟩ := reflexive.settle_eq h h
  intro key member
  exact (lookup_writes_of_ne fun w here => apart key member w.key (inside w here)).symm

/-- Two rounds with footprints apart lead to the same progress in either order. -/
theorem applyTx_swap {first second : Transaction} {firstThen secondThen both other : Progress}
    (apart : ∀ key ∈ first.keys, ∀ other ∈ second.keys, blake3 key ≠ blake3 other)
    (one : applyTx chainId p first = .ok firstThen)
    (two : applyTx chainId firstThen second = .ok both)
    (uno : applyTx chainId p second = .ok secondThen)
    (due : applyTx chainId secondThen first = .ok other) : Progress.Twin both other := by
  obtain ⟨tally, began, fees, count, failed⟩ := applyTx_settle one
  obtain ⟨later, followed, feesBoth, countBoth, failedBoth⟩ := applyTx_settle two
  obtain ⟨early, begun, feesSecond, countSecond, failedSecond⟩ := applyTx_settle uno
  obtain ⟨last, ended, feesOther, countOther, failedOther⟩ := applyTx_settle due
  -- Each round finds at its own keys what it finds without the other.
  have atFirst : AlikeOn first.keys p.machine secondThen.machine := settle_alikeOn apart begun
  have atSecond : AlikeOn second.keys p.machine firstThen.machine :=
    settle_alikeOn (fun key here own there => (apart own there key here).symm) began
  obtain ⟨⟨ws, inside, wrote, rewrote⟩, rfl⟩ := atFirst.settle_eq began ended
  obtain ⟨⟨vs, within, written, rewritten⟩, rfl⟩ := atSecond.settle_eq begun followed
  refine ⟨?_, ?_, ?_, ?_⟩
  · rw [rewritten, rewrote, wrote, written]
    exact Twin.swap p.machine fun w member v there =>
      apart w.key (inside w member) v.key (within v there)
  · exact BitVec.eq_of_toNat_eq (by omega)
  · exact BitVec.eq_of_toNat_eq (by omega)
  · exact BitVec.eq_of_toNat_eq (by omega)

theorem applyTxs_swap {first second : Transaction} {before after : List Transaction}
    (apart : ∀ key ∈ first.keys, ∀ other ∈ second.keys, blake3 key ≠ blake3 other)
    {both other : Progress}
    (one : applyTxs chainId p (before ++ first :: second :: after) = .ok both)
    (two : applyTxs chainId p (before ++ second :: first :: after) = .ok other) :
    Progress.Twin both other := by
  rw [applyTxs, List.foldlM_append] at one two
  obtain ⟨reached, led, one⟩ := bind_eq_ok.mp one
  obtain ⟨_, same, two⟩ := bind_eq_ok.mp two
  cases led.symm.trans same
  rw [List.foldlM_cons] at one two
  obtain ⟨firstThen, stepped, one⟩ := bind_eq_ok.mp one
  obtain ⟨secondThen, stepped', two⟩ := bind_eq_ok.mp two
  rw [List.foldlM_cons] at one two
  obtain ⟨joint, followed, one⟩ := bind_eq_ok.mp one
  obtain ⟨joint', followed', two⟩ := bind_eq_ok.mp two
  have twin := applyTx_swap apart stepped followed stepped' followed'
  exact (Twin.applyTxs twin after).values one two

/-- Neighbouring transactions that touch different addresses can be swapped: the block
leads to the same receipt, with the state root in it, and to the same contents. -/
theorem applyBlock_swap {u v : StateMachine} {header : BlockHeader} {first second : Transaction}
    (before after : List Transaction) {receipt other : BlockReceipt}
    (apart : KeysApart (first.touched ++ second.touched).toFinset)
    (disjoint : ∀ a ∈ first.touched, a ∉ second.touched)
    (one : s.applyBlock ⟨header, ⟨before ++ first :: second :: after⟩⟩ = .ok (receipt, u))
    (two : s.applyBlock ⟨header, ⟨before ++ second :: first :: after⟩⟩ = .ok (other, v)) :
    receipt = other ∧ SameRoot u v ∧ SameContents u v ∧
      ∀ a, u.account a = v.account a ∧ u.getValidator a = v.getValidator a := by
  obtain ⟨p, looped, one⟩ := bind_eq_ok.mp one
  obtain ⟨q, looped', two⟩ := bind_eq_ok.mp two
  obtain ⟨middle, distributed, one⟩ := bind_eq_ok.mp one
  obtain ⟨middle', distributed', two⟩ := bind_eq_ok.mp two
  obtain ⟨⟨root, x⟩, rooted, one⟩ := bind_eq_ok.mp one
  obtain ⟨⟨root', y⟩, rooted', two⟩ := bind_eq_ok.mp two
  cases one
  cases two
  have loops := applyTxs_swap (footprints_apart apart disjoint) looped looped'
  have paid := loops.machine.distributeFees p.blockFees
  rw [loops.blockFees] at distributed
  rw [loops.blockFees] at paid
  have twin := paid.values distributed distributed'
  obtain ⟨rfl, roots⟩ := twin.stateRoot rooted rooted'
  have left := SameContents.stateRoot rooted
  have right := SameContents.stateRoot rooted'
  have contents : SameContents u v :=
    ⟨fun key => (left.leaves key).symm.trans ((twin.leaves key).trans (right.leaves key)),
      left.validators.symm.trans (twin.validators.trans right.validators),
      left.activeSet.symm.trans (twin.activeSet.trans right.activeSet)⟩
  refine ⟨?_, roots, contents, fun a => ⟨?_, ?_⟩⟩
  · rw [loops.blockFees, loops.txCount, loops.failedCount]
  · exact Alike.account contents.leaves a
  · exact Alike.getValidator contents.leaves a

end

section Sample

attribute [local instance] prefixBlake3

/-- Bob founds his validator before Alice founds hers. -/
def swappedBlock : Block := testBlock foundingBlock.body.transactions.reverse

theorem founding_swap :
    ∃ receipt u v, (new founders).applyBlock foundingBlock = .ok (receipt, u) ∧
      (new founders).applyBlock swappedBlock = .ok (receipt, v) ∧ SameContents u v := by
  have apart : KeysApart {alice, bob} := by decide
  have genesis : ∀ p ∈ founders, p.1 ∈ ({alice, bob} : Finset Address) := by decide
  have sound := (new_sound apart genesis).1
  have returns (block : Block) (within : ∀ tx ∈ block.body.transactions, tx.Within {alice, bob})
      (looped : Returns (applyTxs block.header.chainId ⟨new founders, 0, 0, 0⟩
        block.body.transactions)) : Returns ((new founders).applyBlock block) :=
    applyBlock_returns_idle sound within rfl (looped.eq_ok ⟨new [], 0, 0, 0⟩)
  obtain ⟨⟨receipt, u⟩, one⟩ := returns foundingBlock (by decide) (by decide)
  obtain ⟨⟨other, v⟩, two⟩ := returns swappedBlock (by decide) (by decide)
  obtain ⟨rfl, -, same, -⟩ := applyBlock_swap [] [] (by decide) (by decide) one two
  exact ⟨receipt, u, v, one, two, same⟩

end Sample

end StateMachine

end Mononium
