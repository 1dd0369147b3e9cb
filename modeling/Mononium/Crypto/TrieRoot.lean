import Mononium.Crypto.Trie
import Mathlib.Data.Nat.Bitwise

/-! The computed root is the root of the full tree of 256 levels, so it depends on
the leaves only through lookup. Equal roots mean equal leaves unless BLAKE3 collides
on the byte strings that the two trees hash. -/
namespace Mononium

open Rust Scale

namespace SparseMerkleTree

def keyAt (p : Nat) : Digest := ⟨(leBytes 32 p).reverse, by simp⟩

theorem beValue_lt (key : Digest) : beValue key.bytes < 2 ^ 256 := by
  have bound := leValue_lt key.bytes.reverse
  rwa [List.length_reverse, key.length, show (256 : Nat) ^ 32 = 2 ^ 256 by norm_num] at bound

@[simp] theorem position_toNat (key : Digest) : (position key).toNat = beValue key.bytes := by
  rw [position, BitVec.toNat_ofNat, Nat.mod_eq_of_lt (beValue_lt key)]

theorem position_injective : Function.Injective position := by
  intro a b same
  have values := congrArg BitVec.toNat same
  rw [position_toNat, position_toNat] at values
  exact FixedBytes.ext (beValue_injective (a.length.trans b.length.symm) values)

theorem position_keyAt (p : Nat) (bound : p < 2 ^ 256) : (position (keyAt p)).toNat = p := by
  rw [position_toNat, beValue, keyAt, List.reverse_reverse]
  exact leValue_leBytes 32 p (by norm_num; omega)

def digestAt (nodes : HashMap U256 Digest) (p : Nat) : Option Digest :=
  if p < 2 ^ 256 then nodes.lookup (BitVec.ofNat 256 p) else none

theorem digestAt_toNat (nodes : HashMap U256 Digest) (pos : U256) :
    digestAt nodes pos.toNat = nodes.lookup pos := by
  rw [digestAt, if_pos pos.isLt, BitVec.ofNat_toNat, BitVec.setWidth_eq]

theorem sibling_toNat (pos : U256) :
    (pos ^^^ 1).toNat = if pos.toNat % 2 = 0 then pos.toNat + 1 else pos.toNat - 1 := by
  have bound := pos.isLt
  rw [BitVec.toNat_xor, show (1 : U256).toNat = 1 from rfl]
  split
  next even => exact Nat.xor_one_of_even (Nat.even_iff.mpr even)
  next odd => exact Nat.xor_one_of_odd (Nat.odd_iff.mpr (by omega))

theorem parentPos_toNat (pos : U256) : (parentPos pos).toNat = pos.toNat / 2 := by
  rw [parentPos, BitVec.toNat_ushiftRight, Nat.shiftRight_eq_div_pow, Nat.pow_one]

theorem lookup_of_mem {nodes : HashMap U256 Digest} {e : (_ : U256) × Digest}
    (member : e ∈ nodes.entries) : nodes.lookup e.1 = some e.2 :=
  Option.mem_def.mp (AList.mem_lookup_iff.mpr member)

variable [Blake3]

def leafHash (leaves : HashMap Digest Bytes) (p : Nat) : Digest :=
  if p < 2 ^ 256 then ((leaves.lookup (keyAt p)).map blake3).getD emptyHash else emptyHash

/-- The root of the full tree, by recursion over its 256 levels. -/
def referenceRoot (leaves : HashMap Digest Bytes) : Digest :=
  SparseMerkle.subtree combine (leafHash leaves) depth 0

variable (order : Iteration)

theorem lookup_leafNodes (leaves : HashMap Digest Bytes) (key : Digest) :
    (leafNodesFrom (order.leaves leaves)).lookup (position key) = (leaves.lookup key).map blake3 := by
  have listed (e : (_ : Digest) × Bytes) : e ∈ order.leaves leaves ↔ e ∈ leaves.entries :=
    (order.leaves_perm leaves).mem_iff
  cases found : (leafNodesFrom (order.leaves leaves)).lookup (position key) with
  | none =>
    have absent := (HashMap.lookup_insertAll_eq_none.mp found).2
    cases value : leaves.lookup key with
    | none => rfl
    | some value =>
      have member := AList.mem_lookup_iff.mp (Option.mem_def.mpr value)
      exact absurd rfl (absent _ (List.mem_map.mpr ⟨_, (listed _).mpr member, rfl⟩))
  | some digest =>
    rcases HashMap.lookup_insertAll_eq_some found with inserted | impossible
    · obtain ⟨⟨other, value⟩, member, same⟩ := List.mem_map.mp inserted
      simp only [Prod.mk.injEq] at same
      obtain ⟨samePosition, rfl⟩ := same
      cases position_injective samePosition
      rw [Option.mem_def.mp (AList.mem_lookup_iff.mpr ((listed _).mp member)), Option.map_some]
    · simp at impossible

theorem level_zero (leaves : HashMap Digest Bytes) :
    SparseMerkle.Level combine emptyHash (leafHash leaves) 0 (digestAt (nodesIn order leaves 0)) := by
  intro p
  simp only [digestAt, nodesIn, SparseMerkle.subtree, leafHash, SparseMerkle.defaultRoot]
  split
  next bound =>
    have pos : BitVec.ofNat 256 p = position (keyAt p) := by
      apply BitVec.eq_of_toNat_eq
      rw [position_keyAt p bound, BitVec.toNat_ofNat, Nat.mod_eq_of_lt bound]
    rw [pos, lookup_leafNodes]
  next => rfl

theorem parent_eq (default : Digest) (nodes : HashMap U256 Digest) (pos : U256) (hash : Digest)
    (found : nodes.lookup pos = some hash) :
    parent default nodes pos hash =
      combine ((digestAt nodes (2 * (pos.toNat / 2))).getD default)
        ((digestAt nodes (2 * (pos.toNat / 2) + 1)).getD default) := by
  have here := digestAt_toNat nodes pos
  have there := digestAt_toNat nodes (pos ^^^ 1)
  have sibling := sibling_toNat pos
  rw [found] at here
  unfold parent
  by_cases even : pos.toNat % 2 = 0
  · have low : 2 * (pos.toNat / 2) = pos.toNat := by omega
    rw [if_pos even] at sibling
    have order : pos < pos ^^^ 1 := by rw [BitVec.lt_def]; omega
    rw [sibling] at there
    simp only [order, ↓reduceIte, low, here, there, Option.getD_some]
  · have high : 2 * (pos.toNat / 2) + 1 = pos.toNat := by omega
    rw [if_neg even] at sibling
    have order : ¬pos < pos ^^^ 1 := by rw [BitVec.lt_def]; omega
    have low : 2 * (pos.toNat / 2) = (pos ^^^ 1).toNat := by omega
    rw [high, low, here, there]
    simp only [order, ↓reduceIte, Option.getD_some]

section Parents

variable {default : Digest} {nodes : HashMap U256 Digest} {entries : List ((_ : U256) × Digest)}
  {pos : U256} {digest : Digest}

theorem lookup_parents_eq_some (listed : entries.Perm nodes.entries)
    (found : (parentsFrom default nodes entries).lookup pos = some digest) :
    ∃ child hash, nodes.lookup child = some hash ∧ parentPos child = pos ∧
      parent default nodes child hash = digest := by
  rcases HashMap.lookup_insertAll_eq_some found with inserted | impossible
  · obtain ⟨⟨child, hash⟩, member, same⟩ := List.mem_map.mp inserted
    simp only [Prod.mk.injEq] at same
    exact ⟨child, hash, lookup_of_mem (listed.mem_iff.mp member), same.1, same.2⟩
  · simp at impossible

theorem lookup_parents_eq_none (listed : entries.Perm nodes.entries) :
    (parentsFrom default nodes entries).lookup pos = none ↔
      ∀ child, parentPos child = pos → nodes.lookup child = none := by
  simp only [parentsFrom, HashMap.lookup_insertAll_eq_none, AList.lookup_empty, true_and, List.mem_map]
  constructor
  · intro absent child same
    by_contra present
    obtain ⟨hash, found⟩ := Option.ne_none_iff_exists'.mp present
    have member := AList.mem_lookup_iff.mp (Option.mem_def.mpr found)
    exact absent _ ⟨⟨child, hash⟩, listed.mem_iff.mpr member, rfl⟩ same
  · rintro absent _ ⟨e, member, rfl⟩ same
    have found := lookup_of_mem (listed.mem_iff.mp member)
    rw [absent e.1 same] at found
    cases found

end Parents

theorem level_succ {leaf : Nat → Digest} {d : Nat} {nodes : HashMap U256 Digest}
    {entries : List ((_ : U256) × Digest)} (listed : entries.Perm nodes.entries)
    (level : SparseMerkle.Level combine emptyHash leaf d (digestAt nodes)) :
    SparseMerkle.Level combine emptyHash leaf (d + 1)
      (digestAt (parentsFrom (defaults d) nodes entries)) := by
  apply level.up
  · intro p absent
    -- A child position is below `2 ^ 256` only if its parent is.
    have below (child : Nat) (half : child / 2 = p) : digestAt nodes child = none := by
      unfold digestAt at absent ⊢
      split
      next bound =>
        rw [if_pos (by omega)] at absent
        apply (lookup_parents_eq_none listed).mp absent
        apply BitVec.eq_of_toNat_eq
        rw [parentPos_toNat, BitVec.toNat_ofNat, BitVec.toNat_ofNat, Nat.mod_eq_of_lt bound,
          Nat.mod_eq_of_lt (by omega), half]
      next => rfl
    exact ⟨below (2 * p) (by omega), below (2 * p + 1) (by omega)⟩
  · intro p digest present
    unfold digestAt at present
    split at present
    next bound =>
      obtain ⟨child, hash, found, same, rfl⟩ := lookup_parents_eq_some listed present
      have half := congrArg BitVec.toNat same
      rw [parentPos_toNat, BitVec.toNat_ofNat, Nat.mod_eq_of_lt bound] at half
      rw [parent_eq _ _ _ _ found, half]
      rfl
    next => cases present

theorem level_nodesIn (leaves : HashMap Digest Bytes) (d : Nat) :
    SparseMerkle.Level combine emptyHash (leafHash leaves) d (digestAt (nodesIn order leaves d)) := by
  induction d with
  | zero => exact level_zero order leaves
  | succ d ih => exact level_succ (order.nodes_perm d _) ih

theorem nodesIn_bound (leaves : HashMap Digest Bytes) (d : Nat) {pos : U256} {digest : Digest}
    (found : (nodesIn order leaves d).lookup pos = some digest) : pos.toNat < 2 ^ (256 - d) := by
  induction d generalizing pos digest with
  | zero => exact pos.isLt
  | succ d ih =>
    obtain ⟨child, hash, below, rfl, _⟩ := lookup_parents_eq_some (order.nodes_perm d _) found
    have bound := ih below
    rw [parentPos_toNat]
    by_cases inside : d < 256
    · rw [show 256 - d = 256 - (d + 1) + 1 by omega, Nat.pow_succ] at bound
      omega
    · rw [show 256 - d = 0 by omega] at bound
      rw [show 256 - (d + 1) = 0 by omega]
      omega

theorem nodesIn_nonempty (leaves : HashMap Digest Bytes) (nonempty : leaves.entries ≠ []) (d : Nat) :
    ∃ pos digest, (nodesIn order leaves d).lookup pos = some digest := by
  induction d with
  | zero =>
    obtain ⟨⟨key, value⟩, member⟩ := List.exists_mem_of_ne_nil _ nonempty
    refine ⟨position key, blake3 value, ?_⟩
    rw [nodesIn, lookup_leafNodes, Option.mem_def.mp (AList.mem_lookup_iff.mpr member), Option.map_some]
  | succ d ih =>
    obtain ⟨child, hash, found⟩ := ih
    by_contra vanished
    have absent : (nodesIn order leaves (d + 1)).lookup (parentPos child) = none :=
      Option.eq_none_iff_forall_ne_some.mpr fun digest h => vanished ⟨_, digest, h⟩
    rw [(lookup_parents_eq_none (order.nodes_perm d _)).mp absent child rfl] at found
    cases found

theorem nodesIn_depth_position (leaves : HashMap Digest Bytes) {pos : U256} {digest : Digest}
    (found : (nodesIn order leaves depth).lookup pos = some digest) : pos = 0#256 := by
  have bound := nodesIn_bound order leaves depth found
  rw [show 256 - depth = 0 from rfl, Nat.pow_zero, Nat.lt_one_iff] at bound
  exact BitVec.eq_of_toNat_eq (by simpa using bound)

/-- The level loop ends with exactly one node: distinct keys that are all zero
leave room for a single entry. -/
theorem nodesIn_depth_single (leaves : HashMap Digest Bytes) (nonempty : leaves.entries ≠ []) :
    ∃ digest, (nodesIn order leaves depth).entries = [⟨0#256, digest⟩] := by
  obtain ⟨pos, digest, found⟩ := nodesIn_nonempty order leaves nonempty depth
  obtain rfl := nodesIn_depth_position order leaves found
  have member := AList.mem_lookup_iff.mp (Option.mem_def.mpr found)
  have nodup := (nodesIn order leaves depth).nodupKeys
  refine ⟨digest, ?_⟩
  cases list : (nodesIn order leaves depth).entries with
  | nil => simp [list] at member
  | cons first rest =>
    have here : first.1 = 0#256 :=
      nodesIn_depth_position order leaves (lookup_of_mem (by simp [list]))
    cases rest with
    | nil => simpa [list, eq_comm] using member
    | cons second rest =>
      have there : second.1 = 0#256 :=
        nodesIn_depth_position order leaves (lookup_of_mem (by simp [list]))
      rw [list, List.nodupKeys_cons] at nodup
      exact absurd (by simp [List.keys, here, there]) nodup.1

theorem computeRootIn_eq (leaves : HashMap Digest Bytes) (nonempty : leaves.entries ≠ []) :
    computeRootIn order leaves = .ok (referenceRoot leaves) := by
  obtain ⟨digest, single⟩ := nodesIn_depth_single order leaves nonempty
  have found : (nodesIn order leaves depth).lookup 0#256 = some digest :=
    Option.mem_def.mp (AList.mem_lookup_iff.mpr (by simp [single]))
  have root := level_nodesIn order leaves depth 0
  rw [digestAt, if_pos (Nat.two_pow_pos 256), found, Option.getD_some] at root
  unfold computeRootIn referenceRoot
  rw [← root, single]

theorem leafHash_beValue (leaves : HashMap Digest Bytes) (key : Digest) :
    leafHash leaves (beValue key.bytes) = ((leaves.lookup key).map blake3).getD emptyHash := by
  have bound := beValue_lt key
  have here : keyAt (beValue key.bytes) = key := by
    apply position_injective
    apply BitVec.eq_of_toNat_eq
    rw [position_keyAt _ bound, position_toNat]
  rw [leafHash, if_pos bound]
  exact congrArg (fun key => ((leaves.lookup key).map blake3).getD emptyHash) here

theorem referenceRoot_congr {a b : HashMap Digest Bytes} (same : ∀ key, a.lookup key = b.lookup key) :
    referenceRoot a = referenceRoot b := by
  have leaf : leafHash a = leafHash b := by
    funext p
    simp only [leafHash, same]
  rw [referenceRoot, referenceRoot, leaf]

theorem referenceRoot_of_empty {leaves : HashMap Digest Bytes} (empty : leaves.entries = []) :
    referenceRoot leaves = defaults depth := by
  have absent (key : Digest) : leaves.lookup key = none := by
    rw [AList.lookup_eq_none, AList.mem_keys, AList.keys, empty]
    simp [List.keys]
  apply SparseMerkle.subtree_of_empty
  intro q _
  simp [leafHash, absent]

/-- A cached root is the root of the current leaves. -/
def CacheValid (t : SparseMerkleTree) : Prop :=
  ∀ root, t.cachedRoot = some root → root = referenceRoot t.leaves

theorem insert_cacheValid (t : SparseMerkleTree) (key value : Bytes) :
    CacheValid (t.insert key value) := by
  intro root cached
  cases cached

/-- `root` never panics; in whatever order it iterates, it returns the reference root and
changes only the cache. -/
theorem rootIn_eq {t : SparseMerkleTree} (valid : CacheValid t) :
    ∃ after, t.rootIn order = .ok (referenceRoot t.leaves, after) ∧ after.leaves = t.leaves ∧
      CacheValid after := by
  unfold rootIn
  cases cached : t.cachedRoot with
  | some root => exact ⟨t, by rw [← valid root cached], rfl, valid⟩
  | none =>
    by_cases empty : t.leaves.entries = []
    · exact ⟨t, by simp [empty, referenceRoot_of_empty empty], rfl, valid⟩
    · refine ⟨{ t with cachedRoot := some (referenceRoot t.leaves) }, ?_, rfl, ?_⟩
      · simp [empty, computeRootIn_eq order t.leaves empty, pure, Except.pure]
      · intro root same
        exact (Option.some.inj same).symm

theorem root_eq {t : SparseMerkleTree} (valid : CacheValid t) :
    ∃ after, t.root = .ok (referenceRoot t.leaves, after) ∧ after.leaves = t.leaves ∧
      CacheValid after :=
  rootIn_eq .plain valid

def values (leaves : HashMap Digest Bytes) : Set Bytes := {value | ∃ key, leaves.lookup key = some value}

/-- The byte strings hashed while computing the root: the values, and the two
child hashes of every inner node of the full tree. -/
def hashed (leaves : HashMap Digest Bytes) : Set Bytes :=
  values leaves ∪ Set.image (fun x : Digest × Digest => x.1.bytes ++ x.2.bytes)
    (SparseMerkle.pairs combine (leafHash leaves) depth 0)

/-- BLAKE3 is collision-free on what two trees hash, and no value hashes to the
empty leaf. -/
structure CollisionFree (a b : HashMap Digest Bytes) : Prop where
  injective : Set.InjOn blake3 (hashed a ∪ hashed b)
  occupied : ∀ value ∈ values a ∪ values b, blake3 value ≠ emptyHash

theorem combine_injOn {a b : HashMap Digest Bytes} (free : CollisionFree a b) :
    Set.InjOn (fun x : Digest × Digest => combine x.1 x.2)
      (SparseMerkle.pairs combine (leafHash a) depth 0 ∪
        SparseMerkle.pairs combine (leafHash b) depth 0) := by
  have inputs {x : Digest × Digest} (member : x ∈ SparseMerkle.pairs combine (leafHash a) depth 0 ∪
      SparseMerkle.pairs combine (leafHash b) depth 0) : x.1.bytes ++ x.2.bytes ∈ hashed a ∪ hashed b := by
    rcases member with h | h
    · exact .inl (.inr ⟨x, h, rfl⟩)
    · exact .inr (.inr ⟨x, h, rfl⟩)
  intro x hx y hy same
  have bytes := free.injective (inputs hx) (inputs hy) same
  have split := List.append_inj bytes (x.1.length.trans y.1.length.symm)
  exact Prod.ext (FixedBytes.ext split.1) (FixedBytes.ext split.2)

/-- Equal roots bind the leaves. -/
theorem lookup_eq_of_referenceRoot_eq {a b : HashMap Digest Bytes} (free : CollisionFree a b)
    (same : referenceRoot a = referenceRoot b) (key : Digest) : a.lookup key = b.lookup key := by
  have leaf := SparseMerkle.leaf_eq_of_subtree_eq combine depth 0 (combine_injOn free) same
    (beValue key.bytes) (Nat.div_eq_of_lt (beValue_lt key))
  rw [leafHash_beValue, leafHash_beValue] at leaf
  cases ha : a.lookup key with
  | none =>
    cases hb : b.lookup key with
    | none => rfl
    | some value =>
      rw [ha, hb] at leaf
      exact absurd leaf.symm (free.occupied value (.inr ⟨key, hb⟩))
  | some value =>
    cases hb : b.lookup key with
    | none =>
      rw [ha, hb] at leaf
      exact absurd leaf (free.occupied value (.inl ⟨key, ha⟩))
    | some other =>
      rw [ha, hb] at leaf
      exact congrArg some (free.injective (.inl (.inl ⟨key, ha⟩)) (.inr (.inl ⟨key, hb⟩)) leaf)

end SparseMerkleTree

end Mononium
