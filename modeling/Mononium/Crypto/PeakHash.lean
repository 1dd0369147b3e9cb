import Mononium.Crypto.TrieRoot

/-! A stand-in for BLAKE3 under which trees of one or two leaves have computable roots
and no collisions, so that results about collision-free hashing can be instantiated.
A node is one more than the larger of its children; leaves are far apart. -/
namespace Mononium

open Rust Scale

def digestValue (digest : Digest) : Nat := leValue digest.bytes

theorem digestValue_injective : Function.Injective digestValue := by
  intro a b same
  apply FixedBytes.ext
  rw [← leBytes_leValue a.bytes, ← leBytes_leValue b.bytes, a.length, b.length]
  exact congrArg (leBytes 32) same

namespace SparseMerkleTree

section

variable [Blake3] {a b : HashMap Digest Bytes} {value : Digest → Nat} {bound : Nat}
  {trees : Set (Nat → Digest)}

theorem leaf_of_mem_values {v : Bytes} (member : v ∈ values a) : ∃ p, blake3 v = leafHash a p := by
  obtain ⟨key, found⟩ := member
  refine ⟨beValue key.bytes, ?_⟩
  rw [leafHash_beValue, found]
  rfl

theorem hashed_cases (member : leafHash a ∈ trees) {x : Bytes} (here : x ∈ hashed a) :
    (x ∈ values a ∧ ∃ f ∈ trees, ∃ p, blake3 x = f p) ∨
    ∃ f ∈ trees, ∃ d q, d < depth ∧
      x = (SparseMerkle.subtree combine f d (2 * q)).bytes ++
        (SparseMerkle.subtree combine f d (2 * q + 1)).bytes := by
  rcases here with value | ⟨pair, combined, rfl⟩
  · obtain ⟨p, same⟩ := leaf_of_mem_values value
    exact .inl ⟨value, _, member, p, same⟩
  · obtain ⟨d, q, bound, rfl⟩ := SparseMerkle.exists_of_mem_pairs combine combined
    exact .inr ⟨_, member, d, q, bound, rfl⟩

theorem collisionFree_of_peaked (climbing : SparseMerkle.Climbing combine value bound)
    (peaked : SparseMerkle.Peaked emptyHash value bound depth trees)
    (memberA : leafHash a ∈ trees) (memberB : leafHash b ∈ trees)
    (injective : Set.InjOn blake3 (values a ∪ values b))
    (occupied : ∀ v ∈ values a ∪ values b, blake3 v ≠ emptyHash) : CollisionFree a b := by
  refine ⟨?_, occupied⟩
  have kinds {x : Bytes} (here : x ∈ hashed a ∪ hashed b) :
      (x ∈ values a ∪ values b ∧ ∃ f ∈ trees, ∃ p, blake3 x = f p) ∨
      ∃ f ∈ trees, ∃ d q, d < depth ∧
        x = (SparseMerkle.subtree combine f d (2 * q)).bytes ++
          (SparseMerkle.subtree combine f d (2 * q + 1)).bytes := by
    rcases here with here | here
    · exact (hashed_cases memberA here).imp_left fun ⟨h, rest⟩ => ⟨.inl h, rest⟩
    · exact (hashed_cases memberB here).imp_left fun ⟨h, rest⟩ => ⟨.inr h, rest⟩
  intro x hx y hy same
  rcases kinds hx with ⟨leafX, f, hf, p, atX⟩ | ⟨f, hf, d, q, hd, rfl⟩
  · rcases kinds hy with ⟨leafY, -⟩ | ⟨g, hg, e, r, he, rfl⟩
    · exact injective leafX leafY same
    · rw [atX] at same
      exact absurd (congrArg value same) (peaked.leaf_ne_node climbing hf hg he)
  · rcases kinds hy with ⟨leafY, g, hg, p, atY⟩ | ⟨g, hg, e, r, he, rfl⟩
    · rw [atY] at same
      exact absurd (congrArg value same.symm) (peaked.leaf_ne_node climbing hg hf hd)
    · have children := peaked.children_eq climbing hf hg hd he (congrArg value same)
      simp only [Prod.mk.injEq] at children
      rw [children.1, children.2]

end

end SparseMerkleTree

/-- Values of 41 bytes, the accounts without code, stand above all others. -/
def leafPeak (value : Bytes) : Nat :=
  if value.length = 41 then
    512 * (2 ^ 144 + leValue (value.take 16) + 2 ^ 128 * leValue ((value.drop 32).take 2))
  else 512

/-- Children have 64 bytes together and tree keys 33. -/
def peakHash (input : Bytes) : Digest :=
  if input.length = 64 then
    ⟨leBytes 32 (max (leValue (input.take 32)) (leValue (input.drop 32)) + 1), by simp⟩
  else if input.length = 33 then ⟨(input ++ List.replicate 32 0).take 32, padded_length input⟩
  else ⟨leBytes 32 (leafPeak input), by simp⟩

abbrev peakBlake3 : Blake3 := ⟨peakHash⟩

theorem leafPeak_bound (value : Bytes) : leafPeak value < 2 ^ 160 := by
  have balance := leValue_lt (value.take 16)
  have nonce := leValue_lt ((value.drop 32).take 2)
  have first := Nat.pow_le_pow_right (show 0 < 256 by omega) (List.length_take_le 16 value)
  have second := Nat.pow_le_pow_right (show 0 < 256 by omega) (List.length_take_le 2 (value.drop 32))
  unfold leafPeak
  split <;> omega

theorem leafPeak_dvd (value : Bytes) : 512 ∣ leafPeak value := by
  unfold leafPeak
  split
  next => exact Nat.dvd_mul_right _ _
  next => exact Nat.dvd_refl _

theorem digestValue_leBytes {x : Nat} (bound : x < 2 ^ 256) :
    digestValue ⟨leBytes 32 x, leBytes_length 32 x⟩ = x :=
  leValue_leBytes 32 x (by norm_num; omega)

def IsLeaf (value : Bytes) : Prop := value.length ≠ 64 ∧ value.length ≠ 33

theorem peakHash_leaf {value : Bytes} (leaf : IsLeaf value) :
    digestValue (peakHash value) = leafPeak value := by
  rw [peakHash, if_neg leaf.1, if_neg leaf.2]
  have := leafPeak_bound value
  exact digestValue_leBytes (by omega)

theorem peakHash_children (x y : Digest) : peakHash (x.bytes ++ y.bytes) =
    ⟨leBytes 32 (max (digestValue x) (digestValue y) + 1), by simp⟩ := by
  have both : (x.bytes ++ y.bytes).length = 64 := by rw [List.length_append, x.length, y.length]
  simp only [peakHash, if_pos both, List.take_left' x.length, List.drop_left' x.length, digestValue]

section

attribute [local instance] peakBlake3

theorem peak_climbing : SparseMerkle.Climbing combine digestValue (2 ^ 256 - 1) where
  injective := digestValue_injective
  node x y hx hy := by
    have small : max (digestValue x) (digestValue y) + 1 < 2 ^ 256 := by omega
    rw [show combine x y = peakHash (x.bytes ++ y.bytes) from rfl, peakHash_children,
      digestValue_leBytes small]

namespace SparseMerkleTree

/-- One leaf of 41 bytes at `own`, and at most one other, at `other`. -/
structure Holds (leaves : HashMap Digest Bytes) (own other : Digest) (value : Bytes)
    (background : Option Bytes) : Prop where
  lookup : ∀ key, leaves.lookup key =
    if key = own then some value else if key = other then background else none
  length : value.length = 41

variable {a b : HashMap Digest Bytes} {own other : Digest} {first second : Bytes}
  {background : Option Bytes}

theorem Holds.leafHash_eq (holds : Holds a own other first background) :
    leafHash a = SparseMerkle.summit emptyHash (beValue own.bytes) (beValue other.bytes)
      ((background.map blake3).getD emptyHash) (blake3 first) := by
  funext p
  by_cases inside : p < 2 ^ 256
  · have here (key : Digest) : keyAt p = key ↔ p = beValue key.bytes := by
      have value := position_keyAt p inside
      rw [position_toNat] at value
      constructor
      · rintro rfl
        exact value.symm
      · intro same
        apply FixedBytes.ext
        exact beValue_injective ((keyAt p).length.trans key.length.symm) (value.trans same)
    rw [leafHash, if_pos inside, holds.lookup, SparseMerkle.summit]
    simp only [here]
    split
    next => rfl
    next =>
      split
      next => rfl
      next => rfl
  · have outside (key : Digest) : p ≠ beValue key.bytes := by
      have := beValue_lt key
      omega
    rw [leafHash, if_neg inside, SparseMerkle.summit, if_neg (outside own), if_neg (outside other)]

theorem Holds.value_cases (holds : Holds a own other first background) {v : Bytes}
    (member : v ∈ values a) : v = first ∨ background = some v := by
  obtain ⟨key, found⟩ := member
  rw [holds.lookup] at found
  split at found
  next => exact .inl (Option.some.inj found).symm
  next =>
    split at found
    next => exact .inr found
    next => cases found

theorem account_value {v : Bytes} (length : v.length = 41) : digestValue (blake3 v) = leafPeak v :=
  peakHash_leaf (by unfold IsLeaf; omega)

theorem account_high {v : Bytes} (length : v.length = 41) : 2 ^ 152 < digestValue (blake3 v) := by
  rw [account_value length, leafPeak, if_pos length]
  omega

theorem emptyHash_value : digestValue emptyHash = 0 := by decide

def Low (background : Option Bytes) : Prop := ∀ v, background = some v → IsLeaf v ∧ v.length ≠ 41

theorem Low.value (leaf : Low background) {v : Bytes} (here : background = some v) :
    digestValue (blake3 v) = 512 := by
  obtain ⟨plain, short⟩ := leaf v here
  rw [show blake3 v = peakHash v from rfl, peakHash_leaf plain, leafPeak, if_neg short]

theorem Low.bottom (leaf : Low background) :
    digestValue ((background.map blake3).getD emptyHash) = 0 ∨
      digestValue ((background.map blake3).getD emptyHash) = 512 := by
  cases here : background with
  | none => exact .inl emptyHash_value
  | some v => exact .inr (leaf.value here)

theorem Low.peaked (leaf : Low background) (own other : Digest) (lengthFirst : first.length = 41)
    (lengthSecond : second.length = 41) :
    SparseMerkle.Peaked emptyHash digestValue (2 ^ 256 - 1) depth
      {f | ∃ h ∈ ({blake3 first, blake3 second} : Set Digest), f = SparseMerkle.summit emptyHash
        (beValue own.bytes) (beValue other.bytes) ((background.map blake3).getD emptyHash) h} := by
  apply SparseMerkle.peaked_of_summit peak_climbing emptyHash_value (show depth < 512 by decide)
  · rintro h (rfl | rfl | rfl)
    · rcases leaf.bottom with none | some
      · exact none ▸ Nat.dvd_zero _
      · exact some ▸ Nat.dvd_refl _
    · exact account_value lengthFirst ▸ leafPeak_dvd first
    · exact account_value lengthSecond ▸ leafPeak_dvd second
  · have between {v : Bytes} (length : v.length = 41) :
        digestValue ((background.map blake3).getD emptyHash) < digestValue (blake3 v) ∧
          digestValue (blake3 v) + depth < 2 ^ 256 - 1 := by
      have above := account_high length
      have below := leafPeak_bound v
      have bottom := leaf.bottom
      rw [← account_value length] at below
      rw [show depth = 256 from rfl]
      omega
    rintro h (rfl | rfl)
    · exact between lengthFirst
    · exact between lengthSecond

/-- What two such trees hold: their account leaves and what they share. -/
theorem Holds.kinds (one : Holds a own other first background)
    (two : Holds b own other second background) {v : Bytes} (member : v ∈ values a ∪ values b) :
    (v.length = 41 ∧ (v = first ∨ v = second)) ∨ background = some v := by
  rcases member with member | member
  · rcases one.value_cases member with rfl | back
    · exact .inl ⟨one.length, .inl rfl⟩
    · exact .inr back
  · rcases two.value_cases member with rfl | back
    · exact .inl ⟨two.length, .inr rfl⟩
    · exact .inr back

/-- Trees that differ in the account leaf alone do not collide. -/
theorem Holds.collisionFree (one : Holds a own other first background)
    (two : Holds b own other second background)
    (leaf : ∀ v, background = some v → IsLeaf v ∧ v.length ≠ 41)
    (faithful : leafPeak first = leafPeak second → first = second) : CollisionFree a b := by
  have low : Low background := leaf
  apply collisionFree_of_peaked peak_climbing (low.peaked own other one.length two.length)
  · exact ⟨_, .inl rfl, one.leafHash_eq⟩
  · exact ⟨_, .inr rfl, two.leafHash_eq⟩
  · intro v hv w hw same
    have equal := congrArg digestValue same
    rcases one.kinds two hv with ⟨lengthV, isV⟩ | backV
    · rcases one.kinds two hw with ⟨lengthW, isW⟩ | backW
      · rw [account_value lengthV, account_value lengthW] at equal
        rcases isV with rfl | rfl <;> rcases isW with rfl | rfl
        · rfl
        · exact faithful equal
        · exact (faithful equal.symm).symm
        · rfl
      · have above := account_high lengthV
        rw [equal, low.value backW] at above
        omega
    · rcases one.kinds two hw with ⟨lengthW, -⟩ | backW
      · have above := account_high lengthW
        rw [← equal, low.value backV] at above
        omega
      · exact Option.some.inj (backV.symm.trans backW)
  · intro v member none
    have value := congrArg digestValue none
    rw [emptyHash_value] at value
    rcases one.kinds two member with ⟨length, -⟩ | back
    · have above := account_high length
      omega
    · rw [low.value back] at value
      omega

end SparseMerkleTree

end

end Mononium
