import Mathlib.Data.List.Induction
import Mononium.Lib.HashMap

/-! The last write. Where a later pair has the same key, an earlier one leaves no trace in a map, not
even in the order of its entries. Where values come in order of rank, the last that there is has the
greatest rank. -/
namespace Rust

namespace HashMap

variable {K V : Type} [DecidableEq K] {map other : HashMap K V} {key : K} {value : V}
  {pairs later : List (K × V)}

theorem insert_congr (same : map.erase key = other.erase key) :
    map.insert key value = other.insert key value := by
  apply AList.ext
  have entries := congrArg AList.entries same
  simp only [AList.entries_insert]
  exact congrArg (List.cons _) entries

theorem erase_insert_of_ne {k : K} (different : key ≠ k) :
    (map.insert k value).erase key = (map.erase key).insert k value := by
  apply AList.ext
  simp only [AList.entries_insert]
  change List.kerase key (_ :: List.kerase k map.entries) =
    _ :: List.kerase k (List.kerase key map.entries)
  rw [List.kerase_cons_ne different, List.kerase_comm]

theorem erase_insert : (map.insert key value).erase key = map.erase key := by
  apply AList.ext
  change List.kerase key (AList.insert key value map).entries = List.kerase key map.entries
  rw [AList.entries_insert]
  exact List.kerase_cons_eq (β := fun _ : K => V) (s := ⟨key, value⟩) rfl

/-- Maps that differ at a key only are the same once it is inserted. -/
theorem insertAll_congr (same : map.erase key = other.erase key)
    (covered : ∃ pair ∈ pairs, pair.1 = key) : insertAll map pairs = insertAll other pairs := by
  induction pairs generalizing map other with
  | nil => simp at covered
  | cons pair pairs ih =>
    rw [insertAll_cons, insertAll_cons]
    by_cases here : pair.1 = key
    · rw [← here] at same
      rw [insert_congr same]
    · obtain ⟨found, member, own⟩ := covered
      rcases List.mem_cons.mp member with rfl | member
      · exact absurd own here
      · apply ih _ ⟨found, member, own⟩
        rw [erase_insert_of_ne (Ne.symm here), erase_insert_of_ne (Ne.symm here), same]

/-- Pairs whose keys are all written again leave no trace. -/
theorem insertAll_of_covered (covered : ∀ pair ∈ pairs, ∃ again ∈ later, again.1 = pair.1) :
    insertAll map (pairs ++ later) = insertAll map later := by
  induction pairs generalizing map with
  | nil => rfl
  | cons pair pairs ih =>
    rw [List.forall_mem_cons] at covered
    rw [List.cons_append, insertAll_cons, ih covered.2]
    exact insertAll_congr erase_insert covered.1

end HashMap

section Ranked

variable {α β : Type} {f : α → Option β} {rank : α → Nat} {l : List α} {before : Option β}

/-- The last value of a list in order of rank is that of the greatest rank. -/
theorem foldl_or_cases (sorted : l.Pairwise fun a b => rank a ≤ rank b) :
    (∃ x ∈ l, ∃ value, f x = some value ∧ (∀ y ∈ l, (f y).isSome → rank y ≤ rank x) ∧
      l.foldl (fun found y => (f y).or found) before = some value) ∨
    (∀ x ∈ l, f x = none) ∧ l.foldl (fun found y => (f y).or found) before = before := by
  induction l using List.reverseRecOn with
  | nil => exact .inr ⟨by simp, rfl⟩
  | append_singleton l x ih =>
    rw [List.pairwise_append] at sorted
    obtain ⟨front, -, below⟩ := sorted
    rw [List.foldl_append, List.foldl_cons, List.foldl_nil]
    cases last : f x with
    | some value =>
      refine .inl ⟨x, by simp, value, last, fun y member _ => ?_, by simp⟩
      rcases List.mem_append.mp member with earlier | same
      · exact below y earlier x (by simp)
      · rw [List.mem_singleton.mp same]
    | none =>
      rcases ih front with ⟨y, member, value, own, greatest, folded⟩ | ⟨nothing, folded⟩
      · refine .inl ⟨y, by simp [member], value, own, fun z listed present => ?_, by simp [folded]⟩
        rcases List.mem_append.mp listed with earlier | same
        · exact greatest z earlier present
        · rw [List.mem_singleton.mp same, last] at present
          cases present
      · refine .inr ⟨fun y member => ?_, by simp [folded]⟩
        rcases List.mem_append.mp member with earlier | same
        · exact nothing y earlier
        · rw [List.mem_singleton.mp same, last]

theorem foldl_or_none (f : α → Option β) (l : List α) (before : Option β) :
    l.foldl (fun found x => (f x).or found) before =
      (l.foldl (fun found x => (f x).or found) none).or before := by
  induction l generalizing before with
  | nil => rfl
  | cons x l ih =>
    rw [List.foldl_cons, List.foldl_cons, ih, ih ((f x).or none), Option.or_assoc, Option.or_none]

end Ranked

end Rust
