import Mononium.Network.Messages

/-! What the batch hash commits to. The hasher gets the anchor and the encoded blocks back to
back, without their lengths. -/
namespace Mononium

open Rust Scale

theorem block_encode_ne_nil (block : Block) : Codec.block.encode block ≠ [] := by
  intro empty
  have header : Codec.blockHeader.encode block.header = [] := (List.append_eq_nil_iff.mp empty).1
  have height : leBytes 8 block.header.height.toNat = [] := (List.append_eq_nil_iff.mp header).1
  exact absurd (congrArg List.length height) (by simp)

def batchInput (genesisHash : Digest) (blocks : List Block) : Bytes :=
  genesisHash.bytes ++ blocks.flatMap Codec.block.encode

/-- The anchor has 32 bytes, and every block ends where its encoding does. -/
theorem batchInput_injective {g₁ g₂ : Digest} {bs₁ bs₂ : List Block}
    (fits₁ : ∀ b ∈ bs₁, Codec.block.fits b = true) (fits₂ : ∀ b ∈ bs₂, Codec.block.fits b = true)
    (same : batchInput g₁ bs₁ = batchInput g₂ bs₂) : g₁ = g₂ ∧ bs₁ = bs₂ := by
  obtain ⟨anchors, blocks⟩ := List.append_inj same (g₁.length.trans g₂.length.symm)
  exact ⟨FixedBytes.ext anchors,
    Codec.block.flatMap_encode_injective block_encode_ne_nil fits₁ fits₂ blocks⟩

section

variable [Blake3]

/-- Two inputs that differ have one hash. -/
def Collide (x y : Bytes) : Prop := x ≠ y ∧ blake3 x = blake3 y

theorem computeBatchHash_eq_ok {g h : Digest} {bs : List Block} (some : bs ≠ []) :
    computeBatchHash g bs = .ok h ↔
      (∀ b ∈ bs, Codec.block.fits b = true) ∧ h = blake3 (batchInput g bs) := by
  constructor
  · intro computed
    rw [computeBatchHash, if_neg some] at computed
    obtain ⟨encoded, written, hashed⟩ := bind_eq_ok.mp computed
    obtain ⟨fits, rfl⟩ := Codec.mapM_write_eq_ok written
    cases pure_eq_ok.mp hashed
    exact ⟨fits, by rw [batchInput, List.flatMap_def]⟩
  · rintro ⟨fits, rfl⟩
    exact computeBatchHash_eq g some fits

/-- Equal hashes of two batches mean equal anchors and equal blocks, or the two inputs collide.
The hash of a batch is the anchor, as that of no blocks is, only if BLAKE3 maps an input that
starts with the anchor to it. -/
theorem batch_hash_binds :
    (∀ g₁ g₂ bs₁ bs₂ h, bs₁ ≠ [] → bs₂ ≠ [] → computeBatchHash g₁ bs₁ = .ok h →
      computeBatchHash g₂ bs₂ = .ok h →
        g₁ = g₂ ∧ bs₁ = bs₂ ∨ Collide (batchInput g₁ bs₁) (batchInput g₂ bs₂)) ∧
    ∀ g bs h, bs ≠ [] → computeBatchHash g bs = .ok h → computeBatchHash g [] = .ok h →
      blake3 (batchInput g bs) = g := by
  constructor
  · intro g₁ g₂ bs₁ bs₂ h some₁ some₂ first second
    obtain ⟨fits₁, left⟩ := (computeBatchHash_eq_ok some₁).mp first
    obtain ⟨fits₂, right⟩ := (computeBatchHash_eq_ok some₂).mp second
    by_cases same : batchInput g₁ bs₁ = batchInput g₂ bs₂
    · exact .inl (batchInput_injective fits₁ fits₂ same)
    · exact .inr ⟨same, left.symm.trans right⟩
  · intro g bs h some batch none
    have anchor : computeBatchHash g [] = .ok g := rfl
    cases anchor.symm.trans none
    exact ((computeBatchHash_eq_ok some).mp batch).2.symm

end

section Sample

attribute [local instance] prefixBlake3

/-- A hash that keeps the first 32 bytes only sees the anchor. -/
theorem anchor_collides :
    Collide (batchInput (FixedBytes.replicate 32 7) [testBlock []])
      (batchInput (FixedBytes.replicate 32 7) [testBlock [], testBlock []]) ∧
    blake3 (batchInput (FixedBytes.replicate 32 7) [testBlock []]) = FixedBytes.replicate 32 7 := by
  obtain ⟨binds, distinguishes⟩ := batch_hash_binds
  have one : computeBatchHash (FixedBytes.replicate 32 7) [testBlock []] =
      .ok (FixedBytes.replicate 32 7) := by decide
  have two : computeBatchHash (FixedBytes.replicate 32 7) [testBlock [], testBlock []] =
      .ok (FixedBytes.replicate 32 7) := by decide
  constructor
  · exact (binds _ _ _ _ _ (by simp) (by simp) one two).resolve_left fun both => by simp at both
  · exact distinguishes _ _ _ (by simp) one rfl

end Sample

end Mononium
