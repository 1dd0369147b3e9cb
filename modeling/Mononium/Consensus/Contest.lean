import Mononium.Consensus.Repetition
import Mononium.Core.Optimality

/-! Elections of more than one validator. Whether a boundary can seat a validator next to a given one
depends on the registry alone, and the boundary itself does not change it. -/
namespace Mononium

open Rust Scale

/-- Of the first places, of which there are at least two, one goes to somebody else. -/
theorem take_shared_iff {α : Type} {v : α} {l : List α} {places : Nat} (nodup : l.Nodup)
    (several : 2 ≤ places) : (l.take places ≠ [] ∧ l.take places ≠ [v]) ↔ ∃ w ∈ l, w ≠ v := by
  obtain ⟨more, rfl⟩ : ∃ more, places = more + 2 := ⟨places - 2, by omega⟩
  match l with
  | [] => simp
  | [a] => simp
  | a :: b :: rest =>
    have different : a ≠ b := fun same => (List.nodup_cons.mp nodup).1 (same ▸ List.mem_cons_self)
    constructor
    · rintro -
      by_cases first : a = v
      · exact ⟨b, by simp, fun same => different (first.trans same.symm)⟩
      · exact ⟨a, by simp, first⟩
    · rintro -
      simp

theorem isEraBoundary_iff {height : U64} :
    isEraBoundary height = true ↔ 0 < height.toNat ∧ height.toNat % 720 = 0 := by
  have none : (0 : U64).toNat = 0 := rfl
  have length : eraLength.toNat = 720 := rfl
  rw [isEraBoundary, decide_eq_true_iff, BitVec.lt_def, ← BitVec.toNat_inj, BitVec.toNat_umod, none, length]

theorem eraAtHeight_ne_zero {height : U64} (boundary : isEraBoundary height = true) :
    eraAtHeight height ≠ 0 := by
  obtain ⟨above, multiple⟩ := isEraBoundary_iff.mp boundary
  have length : eraLength.toNat = 720 := rfl
  intro first
  rw [eraAtHeight, ← BitVec.toNat_inj, BitVec.toNat_udiv, length] at first
  have none : (0 : U64).toNat = 0 := rfl
  omega

namespace ValidatorEntry

theorem thawedIn_stake (e : ValidatorEntry) (era : U64) : (e.thawedIn era).stake = e.stake := by
  unfold thawedIn
  split
  next =>
    split
    next => rfl
    next => rfl
  next => rfl

/-- The boundary of the era finds the entry neither frozen nor withdrawing, and with enough stake. -/
def Electable (e : ValidatorEntry) (era : U64) : Prop :=
  (e.thawedIn era).status.isFrozenOrUnstaking = false ∧ minStake ≤ e.stake

theorem Electable.thawed {e : ValidatorEntry} {era : U64} (electable : e.Electable era) :
    (e.thawedIn era).Electable era := by
  refine ⟨?_, ?_⟩
  · rw [thawedIn_idem]
    exact electable.1
  · rw [thawedIn_stake]
    exact electable.2

theorem Electable.activated {e : ValidatorEntry} {era : U64} (electable : e.Electable era) :
    (StateMachine.activated (e.thawedIn era)).Electable era := by
  have active : (StateMachine.activated (e.thawedIn era)).status = .active :=
    activated_status electable.1
  refine ⟨?_, ?_⟩
  · rw [thawedIn_of_not_frozen era (by rw [active]; rfl), active]
    rfl
  · rw [StateMachine.activated_stake, thawedIn_stake]
    exact electable.2

end ValidatorEntry

namespace StateMachine

section

variable [Blake3] {A : Finset Address} {s : StateMachine} {listing : List Address} {max : Nat} {era : U64}
  {v : Address}

/-- Another validator than `v` that the boundary of the era can elect. -/
def Contested (s : StateMachine) (v : Address) (era : U64) : Prop :=
  ∃ w ≠ v, w ∈ s.validators ∧ ∃ e, s.getValidator w = some e ∧ e.Electable era

/-- The candidates in the order of the election that a boundary holds. -/
def slate (s : StateMachine) (listing : List Address) (era : U64) : List Address :=
  ((s.thawAll listing era).1.ranking listing era).map (·.address)

theorem processBoundary_elected (s : StateMachine) (listing : List Address) (max : Nat) (era : U64) :
    (s.processBoundary listing max era).1 = (s.slate listing era).take max := by
  rw [slate, ← List.map_take]
  change ((s.thawAll listing era).1.elected listing max era).map (·.address) = _
  rw [elected_eq]
  rfl

theorem slate_perm (sound : Sound A s) (within : ∀ a ∈ listing, a ∈ A) (later : era ≠ 0) :
    (s.slate listing era).Perm (listing.filter (s.thawAll listing era).1.electable) := by
  rw [← contenders_addresses later (thawAll_adjusted listing era sound within).sound within]
  exact (ranking_perm _ _ _).map _

theorem slate_nodup (sound : Sound A s) (lists : Lists listing s) (later : era ≠ 0) :
    (s.slate listing era).Nodup :=
  (slate_perm sound (lists.within sound) later).nodup_iff.mpr (lists.nodup.filter _)

theorem mem_slate (sound : Sound A s) (lists : Lists listing s) (later : era ≠ 0) {w : Address} :
    w ∈ s.slate listing era ↔
      w ∈ s.validators ∧ ∃ e, s.getValidator w = some e ∧ e.Electable era := by
  have within := lists.within sound
  rw [(slate_perm sound within later).mem_iff, List.mem_filter, lists.mem]
  refine and_congr_right fun member => ?_
  have listed := (lists.mem w).mpr member
  have entry := thawAll_getValidator listing era sound within (within w listed)
  rw [if_pos listed] at entry
  cases found : s.getValidator w with
  | none => simp [electable, entry, found]
  | some e =>
    rw [found, Option.map_some] at entry
    rw [electable_iff entry, ValidatorEntry.thawedIn_stake]
    simp [ValidatorEntry.Electable]

/-- The boundary elects somebody besides `v` exactly if there is somebody. -/
theorem processBoundary_shared_iff (sound : Sound A s) (lists : Lists listing s) (later : era ≠ 0)
    (several : 2 ≤ max) : ((s.processBoundary listing max era).1 ≠ [] ∧
      (s.processBoundary listing max era).1 ≠ [v]) ↔ s.Contested v era := by
  rw [processBoundary_elected, take_shared_iff (slate_nodup sound lists later) several]
  constructor
  · rintro ⟨w, listed, other⟩
    obtain ⟨member, known⟩ := (mem_slate sound lists later).mp listed
    exact ⟨w, other, member, known⟩
  · rintro ⟨w, other, member, known⟩
    exact ⟨w, (mem_slate sound lists later).mpr ⟨member, known⟩, other⟩

theorem Contested.processBoundary (contested : s.Contested v era) (sound : Sound A s)
    (lists : Lists listing s) (max : Nat) : (s.processBoundary listing max era).2.Contested v era := by
  obtain ⟨w, other, member, e, found, electable⟩ := contested
  have within := lists.within sound
  have listed := (lists.mem w).mpr member
  have inside := within w listed
  have entry := @processBoundary_getValidator _ A s listing max era w sound within inside
  rw [thawAll_getValidator listing era sound within inside, if_pos listed, found] at entry
  obtain ⟨after, now, still⟩ : ∃ after,
      (s.processBoundary listing max era).2.getValidator w = some after ∧ after.Electable era := by
    rw [entry]
    split
    next => exact ⟨_, rfl, electable.activated⟩
    next => exact ⟨_, rfl, electable.thawed⟩
  refine ⟨w, other, ?_, after, now, still⟩
  rw [(processBoundary_adjusted sound within).1.index, now]
  exact ⟨inside, rfl⟩

end

end StateMachine

end Mononium
