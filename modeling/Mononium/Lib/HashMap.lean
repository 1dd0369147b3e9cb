import Mathlib.Algebra.Ring.Nat
import Mathlib.Data.List.AList
import Mathlib.Data.List.Sort

/-! A hash map is a list of entries with distinct keys, in iteration order. Lookup
is what two maps with different iteration orders can agree on. -/
namespace Rust

abbrev HashMap (K V : Type) := AList (fun _ : K => V)

namespace HashMap

section Values

variable {K V : Type}

def retain (map : HashMap K V) (keep : V → Bool) : HashMap K V :=
  ⟨map.entries.filter fun e => keep e.2, map.nodupKeys.sublist List.filter_sublist⟩

def mapValues (map : HashMap K V) (f : V → V) : HashMap K V :=
  ⟨map.entries.map fun e => ⟨e.1, f e.2⟩, map.nodupKeys.map₂ fun _ => f⟩

def total (map : HashMap K V) (f : V → Nat) : Nat := (map.entries.map fun e => f e.2).sum

theorem total_add (map : HashMap K V) (f g : V → Nat) :
    total map (fun value => f value + g value) = total map f + total map g := by
  simp only [total]
  induction map.entries with
  | nil => rfl
  | cons e entries ih =>
    simp only [List.map_cons, List.sum_cons, ih]
    omega

theorem total_mapValues (map : HashMap K V) (f : V → V) (g : V → Nat) :
    total (mapValues map f) g = total map fun value => g (f value) := by
  simp [total, mapValues, Function.comp_def]

/-- Values that do not count can go. -/
theorem total_retain {map : HashMap K V} {keep : V → Bool} {f : V → Nat}
    (zero : ∀ value, keep value = false → f value = 0) : total (retain map keep) f = total map f := by
  simp only [total, retain]
  induction map.entries with
  | nil => rfl
  | cons e entries ih =>
    cases kept : keep e.2 with
    | true => simpa [kept] using ih
    | false => simpa [kept, zero e.2 kept] using ih

end Values

variable {K V : Type} [DecidableEq K]

/-- Insert pairs from left to right; a later pair replaces an earlier one. -/
def insertAll (map : HashMap K V) (pairs : List (K × V)) : HashMap K V :=
  pairs.foldl (fun map pair => map.insert pair.1 pair.2) map

@[simp] theorem insertAll_nil (map : HashMap K V) : insertAll map [] = map := rfl

@[simp] theorem insertAll_cons (map : HashMap K V) (pair : K × V) (pairs : List (K × V)) :
    insertAll map (pair :: pairs) = insertAll (map.insert pair.1 pair.2) pairs := rfl

theorem lookup_insert_if (map : HashMap K V) (key other : K) (value : V) :
    (map.insert key value).lookup other = if other = key then some value else map.lookup other := by
  by_cases same : other = key
  · subst same; simp
  · rw [if_neg same, AList.lookup_insert_ne same]

theorem lookup_insertAll_eq_none {map : HashMap K V} {pairs : List (K × V)} {key : K} :
    (insertAll map pairs).lookup key = none ↔
      map.lookup key = none ∧ ∀ pair ∈ pairs, pair.1 ≠ key := by
  induction pairs generalizing map with
  | nil => simp
  | cons pair pairs ih =>
    rw [insertAll_cons, ih, lookup_insert_if]
    by_cases same : key = pair.1
    · simp [same]
    · simp [same, Ne.symm same]

/-- What is found is old, or was inserted. -/
theorem lookup_insertAll_eq_some {map : HashMap K V} {pairs : List (K × V)} {key : K} {value : V}
    (found : (insertAll map pairs).lookup key = some value) :
    (key, value) ∈ pairs ∨ map.lookup key = some value := by
  induction pairs generalizing map with
  | nil => exact .inr found
  | cons pair pairs ih =>
    rcases ih found with later | before
    · exact .inl (List.mem_cons_of_mem _ later)
    · rw [lookup_insert_if] at before
      split at before
      next same =>
        cases before
        exact .inl (by simp [same])
      next => exact .inr before

theorem lookup_mapValues (map : HashMap K V) (f : V → V) (key : K) :
    (mapValues map f).lookup key = (map.lookup key).map f :=
  List.dlookup_map₂ (l := map.entries) (f := fun _ => f) key

theorem mem_entries_iff {map : HashMap K V} {key : K} {value : V} :
    ⟨key, value⟩ ∈ map.entries ↔ map.lookup key = some value := AList.mem_lookup_iff.symm

theorem mem_entries_insert {map : HashMap K V} {key : K} {value : V} {e : (_ : K) × V}
    (member : e ∈ (map.insert key value).entries) : e = ⟨key, value⟩ ∨ e ∈ map.entries := by
  rw [AList.entries_insert] at member
  rcases List.mem_cons.mp member with here | before
  · exact .inl here
  · exact .inr ((List.kerase_sublist _ _).mem before)

theorem mem_entries_erase {map : HashMap K V} {key : K} {e : (_ : K) × V}
    (member : e ∈ (map.erase key).entries) : e ∈ map.entries :=
  (List.kerase_sublist _ _).mem member

/-- Nothing else shares the key of an entry. -/
theorem perm_cons_erase {map : HashMap K V} {key : K} {value : V}
    (found : map.lookup key = some value) :
    map.entries.Perm (⟨key, value⟩ :: (map.erase key).entries) := by
  have present : key ∈ map := AList.lookup_isSome.mp (by rw [found]; rfl)
  obtain ⟨other, before, after, _, split, erased⟩ := List.exists_of_kerase present
  have same : other = value := by
    have here : ⟨key, other⟩ ∈ map.entries := by simp [split]
    rw [mem_entries_iff, found] at here
    exact (Option.some.inj here).symm
  have rest : (map.erase key).entries = before ++ after := erased
  rw [split, rest, same]
  exact List.perm_middle

theorem total_erase (map : HashMap K V) (f : V → Nat) (key : K) :
    total (map.erase key) f + ((map.lookup key).map f).getD 0 = total map f := by
  cases found : map.lookup key with
  | none =>
    have absent : (map.erase key).entries = map.entries :=
      List.kerase_of_notMem_keys (AList.lookup_eq_none.mp found)
    rw [total, absent]
    rfl
  | some value =>
    have sum := ((perm_cons_erase found).map fun e => f e.2).sum_nat
    simp only [List.map_cons, List.sum_cons] at sum
    simp only [total, sum, Option.map_some, Option.getD_some]
    omega

theorem total_insert (map : HashMap K V) (f : V → Nat) (key : K) (value : V) :
    total (map.insert key value) f + ((map.lookup key).map f).getD 0 = total map f + f value := by
  have erased := total_erase map f key
  have inserted : total (map.insert key value) f = f value + total (map.erase key) f := by
    rw [total, AList.entries_insert, List.map_cons, List.sum_cons]
    rfl
  omega

theorem flatMap_filter_eq {map : HashMap K V} {β : Type} {listing : List ((_ : K) × V)}
    (perm : listing.Perm map.entries) (g : V → List β) (key : K) (p : β → Bool)
    (keyed : ∀ e ∈ map.entries, ∀ b ∈ g e.2, p b = decide (e.1 = key)) :
    (listing.flatMap fun e => g e.2).filter p = ((map.lookup key).map g).getD [] := by
  have nodup : listing.NodupKeys := (List.perm_nodupKeys perm).mpr map.nodupKeys
  have elsewhere (part : List ((_ : K) × V)) (inside : ∀ e ∈ part, e ∈ map.entries)
      (other : ∀ e ∈ part, e.1 ≠ key) : (part.flatMap fun e => g e.2).filter p = [] := by
    rw [List.filter_eq_nil_iff]
    intro b member
    obtain ⟨e, there, here⟩ := List.mem_flatMap.mp member
    rw [keyed e (inside e there) b here]
    simpa using other e there
  cases found : map.lookup key with
  | none =>
    refine elsewhere _ (fun e => perm.mem_iff.mp) fun e member same => ?_
    have here : ⟨e.1, e.2⟩ ∈ map.entries := perm.mem_iff.mp member
    rw [mem_entries_iff, same, found] at here
    cases here
  | some value =>
    have here : ⟨key, value⟩ ∈ listing := perm.mem_iff.mpr (mem_entries_iff.mpr found)
    obtain ⟨before, after, rfl⟩ := List.append_of_mem here
    have apart := List.nodupKeys_iff_pairwise.mp nodup
    rw [List.pairwise_append, List.pairwise_cons] at apart
    obtain ⟨_, ⟨later, _⟩, earlier⟩ := apart
    rw [List.flatMap_append, List.flatMap_cons, List.filter_append, List.filter_append,
      elsewhere before (fun e member => perm.mem_iff.mp (List.mem_append_left _ member))
        fun e member => earlier e member _ List.mem_cons_self,
      elsewhere after
        (fun e member => perm.mem_iff.mp (List.mem_append_right _ (List.mem_cons_of_mem _ member)))
        fun e member => (later e member).symm]
    rw [List.nil_append, List.append_nil, List.filter_eq_self.mpr]
    · rfl
    · intro b member
      rw [keyed _ (mem_entries_iff.mpr found) b member]
      simp

end HashMap

/-- A map that is iterated in the order of its keys. -/
abbrev BTreeMap (K V : Type) := AList (fun _ : K => V)

def BTreeMap.values {K V : Type} [LE K] [DecidableLE K] (map : BTreeMap K V) : List V :=
  (map.entries.insertionSort fun p q => p.1 ≤ q.1).map Sigma.snd

end Rust
