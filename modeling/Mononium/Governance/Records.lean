import Mononium.Core.Frame
import Mononium.Governance.Engine

/-! The records of the governance namespace. Their keys are texts without length fields; that no
two records share one rests on the labels, none of which is a prefix of another, and on the
fixed number of digits of an id or an address. -/
namespace Mononium

open Rust Scale

inductive GovKey where
  | proposal (proposalId : Digest)
  | vote (proposalId : Digest) (voter : Address)
  | param (param : GovernanceParam)
  | globalCount
  | proposerCount (proposer : Address)
  deriving DecidableEq

namespace GovKey

def subKey : GovKey → Bytes
  | proposal proposalId => propKey proposalId
  | vote proposalId voter => voteKey proposalId voter
  | param p => paramKey p
  | globalCount => govActiveCount
  | proposerCount proposer => proposerCountKey proposer

def label : GovKey → String
  | proposal _ => "prop_"
  | vote _ _ => "vote_"
  | param _ => "gov_param_"
  | globalCount => "gov_active_count"
  | proposerCount _ => "gov_proposer_count_"

def rest : GovKey → Bytes
  | proposal proposalId => utf8 (hexEncode proposalId.bytes)
  | vote proposalId voter =>
    utf8 (hexEncode proposalId.bytes) ++ (utf8 "_" ++ utf8 (hexEncode voter.asBytes))
  | param p => utf8 p.debugName
  | globalCount => []
  | proposerCount proposer => utf8 (hexEncode proposer.asBytes)

theorem subKey_eq (k : GovKey) : k.subKey = utf8 k.label ++ k.rest := by
  cases k with
  | vote proposalId voter => simp [subKey, voteKey, label, rest]
  | globalCount => simp [subKey, govActiveCount, label, rest]
  | _ => rfl

/-- No label is a prefix of another. -/
theorem label_eq_of_begins (k m : GovKey) (begins : utf8 k.label <+: utf8 m.label) :
    k.label = m.label := by
  revert begins
  cases k <;> cases m <;> dsimp only [label] <;> decide

theorem debugName_injective : ∀ p q : GovernanceParam, utf8 p.debugName = utf8 q.debugName → p = q := by
  intro p q
  cases p <;> cases q <;> decide

theorem label_of_subKey {k m : GovKey} (same : k.subKey = m.subKey) : k.label = m.label := by
  rw [subKey_eq, subKey_eq] at same
  have left : utf8 k.label <+: utf8 m.label ++ m.rest := ⟨k.rest, same⟩
  rcases List.prefix_or_prefix_of_prefix left (List.prefix_append _ m.rest) with begins | begins
  · exact label_eq_of_begins k m begins
  · exact (label_eq_of_begins m k begins).symm

/-- All key constructors are injective and no two of them meet. -/
theorem subKey_injective : Function.Injective subKey := by
  intro k m same
  have labels := label_of_subKey same
  have rests : k.rest = m.rest := by
    rw [subKey_eq, subKey_eq, labels] at same
    exact List.append_cancel_left same
  cases k with
  | proposal p =>
    cases m with
    | proposal q => rw [FixedBytes.ext (utf8_hexEncode_injective rests)]
    | _ => exact absurd labels (by dsimp only [label]; decide)
  | vote p v =>
    cases m with
    | vote q w =>
      obtain ⟨ids, tail⟩ := hexEncode_append_inj (by rw [p.length, q.length]) rests
      have voters := utf8_hexEncode_injective (List.append_cancel_left tail)
      rw [FixedBytes.ext ids, Address.asBytes_injective voters]
    | _ => exact absurd labels (by dsimp only [label]; decide)
  | param p =>
    cases m with
    | param q => rw [debugName_injective p q rests]
    | _ => exact absurd labels (by dsimp only [label]; decide)
  | globalCount =>
    cases m with
    | globalCount => rfl
    | _ => exact absurd labels (by dsimp only [label]; decide)
  | proposerCount a =>
    cases m with
    | proposerCount b => rw [Address.asBytes_injective (utf8_hexEncode_injective rests)]
    | _ => exact absurd labels (by dsimp only [label]; decide)

def Within (I : Finset Digest) (A : Finset Address) : GovKey → Prop
  | proposal proposalId => proposalId ∈ I
  | vote proposalId voter => proposalId ∈ I ∧ voter ∈ A
  | proposerCount proposer => proposer ∈ A
  | param _ | globalCount => True

end GovKey

theorem mem_all (p : GovernanceParam) : p ∈ Codec.GovernanceParam.all := by
  cases p <;> decide

def recordKeys (I : Finset Digest) (A : Finset Address) : Finset GovKey :=
  I.image .proposal ∪ (I ×ˢ A).image (fun pair => .vote pair.1 pair.2) ∪
    Codec.GovernanceParam.all.toFinset.image .param ∪ {.globalCount} ∪ A.image .proposerCount

theorem mem_recordKeys {I : Finset Digest} {A : Finset Address} {k : GovKey} :
    k ∈ recordKeys I A ↔ k.Within I A := by
  cases k with
  | param p => simp [recordKeys, GovKey.Within, mem_all p]
  | _ => simp [recordKeys, GovKey.Within]

theorem mem_storeKeys_record {I : Finset Digest} {A : Finset Address} {k : GovKey}
    (within : k.Within I A) :
    governanceKey k.subKey ∈ storeKeys A ((recordKeys I A).image GovKey.subKey) :=
  mem_storeKeys_governance (Finset.mem_image_of_mem _ (mem_recordKeys.mpr within))

/-- BLAKE3 does not collide on the accounts and entries of `A` and the records about `I`
and `A`. -/
def RecordsApart [Blake3] (I : Finset Digest) (A : Finset Address) : Prop :=
  StoreApart A ((recordKeys I A).image GovKey.subKey)

instance [Blake3] (I : Finset Digest) (A : Finset Address) : Decidable (RecordsApart I A) :=
  inferInstanceAs (Decidable (StoreApart _ _))

def newest (writes : List (GovKey × Bytes)) (k : GovKey) (before : Option Bytes) : Option Bytes :=
  writes.foldl (fun found write => if write.1 = k then some write.2 else found) before

section Newest

variable {writes more : List (GovKey × Bytes)} {k : GovKey} {before : Option Bytes} {value : Bytes}

@[simp] theorem newest_nil : newest [] k before = before := rfl

@[simp] theorem newest_cons {write : GovKey × Bytes} : newest (write :: writes) k before =
    newest writes k (if write.1 = k then some write.2 else before) := rfl

@[simp] theorem newest_append :
    newest (writes ++ more) k before = newest more k (newest writes k before) := by
  simp [newest]

theorem newest_of_forall_ne (other : ∀ write ∈ writes, write.1 ≠ k) : newest writes k before = before := by
  induction writes with
  | nil => rfl
  | cons write writes ih =>
    rw [newest_cons, if_neg (other write List.mem_cons_self)]
    exact ih fun write member => other write (List.mem_cons_of_mem _ member)

theorem newest_eq_some (found : newest writes k before = some value) :
    (k, value) ∈ writes ∨ before = some value := by
  induction writes generalizing before with
  | nil => exact .inr found
  | cons write writes ih =>
    rw [newest_cons] at found
    rcases ih found with later | first
    · exact .inl (List.mem_cons_of_mem _ later)
    · split at first
      next same =>
        cases first
        exact .inl (same ▸ List.mem_cons_self)
      next => exact .inr first

end Newest

namespace StateMachine

section

variable [Blake3] {I : Finset Digest} {A : Finset Address} {s : StateMachine} {k other : GovKey}
  {value : Bytes} {writes : List (GovKey × Bytes)}

def record (s : StateMachine) (k : GovKey) : Option Bytes := s.governanceGet k.subKey

def writeRecords (s : StateMachine) (writes : List (GovKey × Bytes)) : StateMachine :=
  writes.foldl (fun s write => s.governanceInsert write.1.subKey write.2) s

@[simp] theorem writeRecords_nil : s.writeRecords [] = s := rfl

@[simp] theorem writeRecords_cons {write : GovKey × Bytes} : s.writeRecords (write :: writes) =
    (s.governanceInsert write.1.subKey write.2).writeRecords writes := rfl

theorem record_governanceInsert (apart : RecordsApart I A) (hk : k.Within I A)
    (ho : other.Within I A) : (s.governanceInsert k.subKey value).record other =
      if k = other then some value else s.record other := by
  split
  next same =>
    subst same
    simp [record, governanceGet, governanceInsert, SparseMerkleTree.get, SparseMerkleTree.insert]
  next different =>
    apply get_insert_of_ne apart s value (mem_storeKeys_record hk) (mem_storeKeys_record ho)
    intro same
    exact different (GovKey.subKey_injective (governanceKey_injective same)).symm

theorem governanceInsert_framed {payers : Set Address} (apart : RecordsApart I A)
    (hk : k.Within I A) :
    Framed A ((recordKeys I A).image GovKey.subKey) {governanceKey k.subKey} payers s
      (s.governanceInsert k.subKey value) where
  kept _ here different :=
    get_insert_of_ne apart s value (mem_storeKeys_record hk) here different
  balance a ha _ := (balance_congr (get_insert_of_ne apart s value (mem_storeKeys_record hk)
    (mem_storeKeys_account ha) (accountKey_ne_governanceKey a k.subKey))).ge
  activeSet := rfl

theorem record_writeRecords (apart : RecordsApart I A) (inside : ∀ write ∈ writes, write.1.Within I A)
    (hk : k.Within I A) : (s.writeRecords writes).record k = newest writes k (s.record k) := by
  induction writes generalizing s with
  | nil => rfl
  | cons write writes ih =>
    rw [writeRecords_cons, newest_cons, ih fun write member => inside write (List.mem_cons_of_mem _ member),
      record_governanceInsert apart (inside write List.mem_cons_self) hk]

def writtenKeys (writes : List (GovKey × Bytes)) : Set Bytes :=
  {key | ∃ write ∈ writes, key = governanceKey write.1.subKey}

theorem writeRecords_framed (apart : RecordsApart I A) (inside : ∀ write ∈ writes, write.1.Within I A) :
    Framed A ((recordKeys I A).image GovKey.subKey) (writtenKeys writes) ∅ s (s.writeRecords writes) := by
  induction writes generalizing s with
  | nil => exact .refl s
  | cons write writes ih =>
    have first : Framed A ((recordKeys I A).image GovKey.subKey) {governanceKey write.1.subKey} ∅ s
        (s.governanceInsert write.1.subKey write.2) :=
      governanceInsert_framed apart (inside write List.mem_cons_self)
    rw [writeRecords_cons]
    refine (first.mono ?_ (Set.Subset.refl _)).trans ((ih ?_).mono ?_ (Set.Subset.refl _))
    · rintro _ rfl
      exact ⟨write, List.mem_cons_self, rfl⟩
    · exact fun write member => inside write (List.mem_cons_of_mem _ member)
    · rintro _ ⟨later, member, rfl⟩
      exact ⟨later, List.mem_cons_of_mem _ member, rfl⟩

end

end StateMachine

end Mononium
