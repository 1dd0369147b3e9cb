import Mononium.Crypto.TrieRoot

/-! The tree over whole sequences of calls. Its contents are a map from key hashes to the
value inserted last; every answer is told from them alone. Two trees with one root have
the same contents, or the first difference on the way up shows a collision. -/
namespace Mononium

open Rust Scale

namespace SparseMerkleTree

inductive Call where
  | insert (key value : Bytes)
  | get (key : Bytes)
  | root (order : Iteration)

inductive Answer where
  | done
  | value (found : Option Bytes)
  | root (digest : Digest)

section

variable [Blake3]

def call (t : SparseMerkleTree) : Call → Exec (Answer × SparseMerkleTree)
  | .insert key value => .ok (.done, t.insert key value)
  | .get key => .ok (.value (t.get key), t)
  | .root order => do
    let (root, t) ← t.rootIn order
    return (.root root, t)

def calls (t : SparseMerkleTree) : List Call → Exec (List Answer × SparseMerkleTree)
  | [] => .ok ([], t)
  | first :: rest => do
    let (answer, t) ← t.call first
    let (answers, t) ← t.calls rest
    return (answer :: answers, t)

/-- The value that was inserted last under each key hash. -/
abbrev Contents := Digest → Option Bytes

def fullRoot (contents : Contents) : Digest :=
  SparseMerkle.subtree combine (fun p =>
    if p < 2 ^ 256 then ((contents (keyAt p)).map blake3).getD emptyHash else emptyHash) depth 0

/-- What the calls are to answer. -/
def expected (contents : Contents) : List Call → List Answer
  | [] => []
  | .insert key value :: rest =>
    .done :: expected (Function.update contents (blake3 key) (some value)) rest
  | .get key :: rest => .value (contents (blake3 key)) :: expected contents rest
  | .root _ :: rest => .root (fullRoot contents) :: expected contents rest

/-- The tree holds these contents, and what it has cached is their root. -/
structure Represents (t : SparseMerkleTree) (contents : Contents) : Prop where
  lookup : ∀ digest, t.leaves.lookup digest = contents digest
  cache : CacheValid t

theorem represents_new : Represents new fun _ => none :=
  ⟨fun _ => rfl, fun _ cached => by cases cached⟩

section Refinement

variable {t : SparseMerkleTree} {contents : Contents}

theorem Represents.referenceRoot (represents : Represents t contents) :
    referenceRoot t.leaves = fullRoot contents := by
  have same : (fun digest => t.leaves.lookup digest) = contents := funext represents.lookup
  rw [← same]
  rfl

theorem Represents.insert (represents : Represents t contents) (key value : Bytes) :
    Represents (t.insert key value) (Function.update contents (blake3 key) (some value)) := by
  refine ⟨fun digest => ?_, insert_cacheValid t key value⟩
  rw [SparseMerkleTree.insert, HashMap.lookup_insert_if, represents.lookup, Function.update_apply]

/-- Any sequence of calls returns, with the answers that the contents give. -/
theorem Represents.calls (represents : Represents t contents) (sequence : List Call) :
    ∃ after now, t.calls sequence = .ok (expected contents sequence, after) ∧
      Represents after now := by
  induction sequence generalizing t contents with
  | nil => exact ⟨t, contents, rfl, represents⟩
  | cons first rest ih =>
    cases first with
    | insert key value =>
      obtain ⟨after, now, ran, holds⟩ := ih (represents.insert key value)
      refine ⟨after, now, ?_, holds⟩
      rw [SparseMerkleTree.calls, call, ok_bind]
      dsimp only
      rw [ran]
      rfl
    | get key =>
      obtain ⟨after, now, ran, holds⟩ := ih represents
      refine ⟨after, now, ?_, holds⟩
      rw [SparseMerkleTree.calls, call, ok_bind, SparseMerkleTree.get, represents.lookup]
      dsimp only
      rw [ran]
      rfl
    | root order =>
      obtain ⟨cached, root, leaves, valid⟩ := rootIn_eq order represents.cache
      have same : Represents cached contents := ⟨fun digest => by rw [leaves, represents.lookup], valid⟩
      obtain ⟨after, now, ran, holds⟩ := ih same
      refine ⟨after, now, ?_, holds⟩
      rw [SparseMerkleTree.calls, call, root, ok_bind, represents.referenceRoot]
      change (do
        let (answers, t) ← cached.calls rest
        return (Answer.root (fullRoot contents) :: answers, t)) = _
      rw [ran]
      rfl

end Refinement

/-- Whatever is inserted, read and computed, in whatever order the maps are iterated,
every root is that of the full tree, every read gives the last value, and the level loop
ends with one node. -/
theorem calls_refine (sequence : List Call) :
    ∃ t, new.calls sequence = .ok (expected (fun _ => none) sequence, t) ∧
      ∀ order, t.leaves.entries ≠ [] →
        ∃ digest, (nodesIn order t.leaves depth).entries = [⟨0#256, digest⟩] := by
  obtain ⟨t, _, ran, -⟩ := represents_new.calls sequence
  exact ⟨t, ran, fun order => nodesIn_depth_single order t.leaves⟩

section Binding

def hashAt (leaves : HashMap Digest Bytes) (d p : Nat) : Digest :=
  (digestAt (nodesIn .plain leaves d) p).getD (defaults d)

def childrenOf (leaves : HashMap Digest Bytes) (d p : Nat) : Bytes :=
  (hashAt leaves d (2 * p)).bytes ++ (hashAt leaves d (2 * p + 1)).bytes

/-- Two byte strings with one hash, or a value with the hash of an empty leaf. -/
inductive Clash where
  | collision (x y : Bytes)
  | emptyLeaf (value : Bytes)

def Clash.Genuine : Clash → Prop
  | .collision x y => x ≠ y ∧ blake3 x = blake3 y
  | .emptyLeaf value => blake3 value = emptyHash

/-- The last depth on the way up from a leaf at which two trees still differ. -/
def splitDepth (a b : HashMap Digest Bytes) (q : Nat) : Option Nat :=
  (List.range depth).find? fun d =>
    hashAt a d (q / 2 ^ d) ≠ hashAt b d (q / 2 ^ d) ∧
      hashAt a (d + 1) (q / 2 ^ (d + 1)) = hashAt b (d + 1) (q / 2 ^ (d + 1))

def innerClash (a b : HashMap Digest Bytes) (q : Nat) : Option Clash :=
  (splitDepth a b q).map fun d =>
    .collision (childrenOf a d (q / 2 ^ (d + 1))) (childrenOf b d (q / 2 ^ (d + 1)))

/-- Look for a clash on the way up from the leaf of a key: in the leaf itself, then in
the nodes above it. -/
def clash (a b : HashMap Digest Bytes) (key : Digest) : Option Clash :=
  match a.lookup key, b.lookup key with
  | some x, some y =>
    if blake3 x = blake3 y then some (.collision x y) else innerClash a b (beValue key.bytes)
  | some x, none | none, some x =>
    if blake3 x = emptyHash then some (.emptyLeaf x) else innerClash a b (beValue key.bytes)
  | none, none => none

variable {a b : HashMap Digest Bytes}

theorem hashAt_eq (leaves : HashMap Digest Bytes) (d p : Nat) :
    hashAt leaves d p = SparseMerkle.subtree combine (leafHash leaves) d p :=
  level_nodesIn .plain leaves d p

theorem hashAt_succ (leaves : HashMap Digest Bytes) (d p : Nat) :
    hashAt leaves (d + 1) p = blake3 (childrenOf leaves d p) := by
  rw [hashAt_eq, SparseMerkle.subtree, childrenOf, hashAt_eq, hashAt_eq]
  rfl

theorem innerClash_genuine {q : Nat} (bound : q < 2 ^ 256) (differ : leafHash a q ≠ leafHash b q)
    (same : referenceRoot a = referenceRoot b) :
    ∃ c, innerClash a b q = some c ∧ c.Genuine := by
  have top : q / 2 ^ depth = 0 := Nat.div_eq_of_lt bound
  obtain ⟨d, inside, split⟩ := SparseMerkle.exists_split combine differ
    (show SparseMerkle.subtree combine (leafHash a) depth (q / 2 ^ depth) =
      SparseMerkle.subtree combine (leafHash b) depth (q / 2 ^ depth) by rw [top]; exact same)
  simp only [← hashAt_eq] at split
  obtain ⟨level, found⟩ : ∃ level, splitDepth a b q = some level := by
    apply Option.isSome_iff_exists.mp
    rw [splitDepth, List.find?_isSome]
    exact ⟨d, List.mem_range.mpr inside, decide_eq_true split⟩
  have satisfied := List.find?_some found
  simp only [decide_eq_true_eq] at satisfied
  obtain ⟨below, above⟩ := satisfied
  refine ⟨.collision (childrenOf a level (q / 2 ^ (level + 1)))
    (childrenOf b level (q / 2 ^ (level + 1))), by rw [innerClash, found]; rfl, ?_, ?_⟩
  · intro equal
    rw [hashAt_eq, hashAt_eq] at below
    apply SparseMerkle.children_ne_of_split combine below
    simp only [← hashAt_eq]
    obtain ⟨left, right⟩ := List.append_inj equal (by rw [FixedBytes.length, FixedBytes.length])
    exact Prod.ext (FixedBytes.ext left) (FixedBytes.ext right)
  · rw [← hashAt_succ, ← hashAt_succ]
    exact above

/-- A leaf in which two trees with one root differ leads to a genuine clash. -/
theorem clash_genuine (same : referenceRoot a = referenceRoot b) {key : Digest}
    (differ : a.lookup key ≠ b.lookup key) : ∃ c, clash a b key = some c ∧ c.Genuine := by
  have inner := fun differ => innerClash_genuine (beValue_lt key) differ same
  rw [leafHash_beValue, leafHash_beValue] at inner
  cases left : a.lookup key with
  | none =>
    cases right : b.lookup key with
    | none => exact absurd (left.trans right.symm) differ
    | some y =>
      rw [left, right] at inner
      by_cases zero : blake3 y = emptyHash
      · exact ⟨.emptyLeaf y, by simp [clash, left, right, zero], zero⟩
      · simpa [clash, left, right, zero] using inner fun equal => zero equal.symm
  | some x =>
    cases right : b.lookup key with
    | none =>
      rw [left, right] at inner
      by_cases zero : blake3 x = emptyHash
      · exact ⟨.emptyLeaf x, by simp [clash, left, right, zero], zero⟩
      · simpa [clash, left, right, zero] using inner fun equal => zero equal
    | some y =>
      rw [left, right] at inner
      by_cases equal : blake3 x = blake3 y
      · refine ⟨.collision x y, by simp [clash, left, right, equal], ?_, equal⟩
        rintro rfl
        exact differ (left.trans right.symm)
      · simpa [clash, left, right, equal] using inner equal

end Binding

/-- Two trees, each the result of any calls, that return one root hold the same leaves,
or `clash` exhibits two byte strings with one hash or a value with the empty hash. -/
theorem root_binds {first second : List Call} {answers others : List Answer} {order other : Iteration}
    {a b after later : SparseMerkleTree} {root : Digest}
    (builtA : new.calls first = .ok (answers, a)) (builtB : new.calls second = .ok (others, b))
    (rootA : a.rootIn order = .ok (root, after)) (rootB : b.rootIn other = .ok (root, later)) :
    (∀ key, a.leaves.lookup key = b.leaves.lookup key) ∨
      ∃ key c, clash a.leaves b.leaves key = some c ∧ c.Genuine := by
  have reference {sequence : List Call} {given : List Answer} {t u : SparseMerkleTree}
      {order : Iteration} (built : new.calls sequence = .ok (given, t))
      (read : t.rootIn order = .ok (root, u)) : referenceRoot t.leaves = root := by
    obtain ⟨_, _, ran, holds⟩ := represents_new.calls sequence
    cases ran.symm.trans built
    obtain ⟨_, result, -⟩ := rootIn_eq order holds.cache
    rw [result] at read
    cases read
    rfl
  by_cases equal : ∀ key, a.leaves.lookup key = b.leaves.lookup key
  · exact .inl equal
  · obtain ⟨key, differ⟩ := not_forall.mp equal
    obtain ⟨c, found, genuine⟩ :=
      clash_genuine ((reference builtA rootA).trans (reference builtB rootB).symm) differ
    exact .inr ⟨key, c, found, genuine⟩

end

section Sample

attribute [local instance] prefixBlake3

theorem swapped_binds : ∃ a b answers others root after later,
    new.calls [.insert [1] [10], .insert [2] [20]] = .ok (answers, a) ∧
    new.calls [.insert [2] [20], .insert [1] [10]] = .ok (others, b) ∧
    a.rootIn .plain = .ok (root, after) ∧ b.rootIn .plain = .ok (root, later) ∧
    ((∀ key, a.leaves.lookup key = b.leaves.lookup key) ∨
      ∃ key c, clash a.leaves b.leaves key = some c ∧ c.Genuine) := by
  obtain ⟨_, _, ranA, holdsA⟩ := represents_new.calls [.insert [1] [10], .insert [2] [20]]
  obtain ⟨_, _, ranB, holdsB⟩ := represents_new.calls [.insert [2] [20], .insert [1] [10]]
  have builtA : new.calls [.insert [1] [10], .insert [2] [20]] =
      .ok ([.done, .done], (new.insert [1] [10]).insert [2] [20]) := rfl
  have builtB : new.calls [.insert [2] [20], .insert [1] [10]] =
      .ok ([.done, .done], (new.insert [2] [20]).insert [1] [10]) := rfl
  cases ranA.symm.trans builtA
  cases ranB.symm.trans builtB
  obtain ⟨after, rootA, -⟩ := rootIn_eq .plain holdsA.cache
  obtain ⟨later, rootB, -⟩ := rootIn_eq .plain holdsB.cache
  have apart : blake3 [1] ≠ blake3 [2] := by decide
  have same : referenceRoot ((new.insert [1] [10]).insert [2] [20]).leaves =
      referenceRoot ((new.insert [2] [20]).insert [1] [10]).leaves := by
    apply referenceRoot_congr
    intro key
    simp only [insert, HashMap.lookup_insert_if]
    by_cases first : key = blake3 [1]
    · simp [first, apart]
    · simp [first]
  rw [← same] at rootB
  exact ⟨_, _, _, _, _, after, later, builtA, builtB, rootA, rootB,
    root_binds builtA builtB rootA rootB⟩

end Sample

end SparseMerkleTree

end Mononium
