import Mathlib.Data.List.Induction
import Mathlib.Data.List.Perm.Basic

/-! A list of digests folded into one by hashing pairwise from the left. Neither the length of the
list nor the place of a pair in it is hashed, so two chains are told apart from their ends: there
both hash a pair, or one of them is down to its first digest, which is not the hash of a pair. -/
namespace HashChain

variable {Input Digest : Type} (hash : Input → Digest) (join : Digest → Digest → Input)

def chain (first : Digest) (rest : List Digest) : Digest :=
  rest.foldl (fun root digest => hash (join root digest)) first

def links (first : Digest) : List Digest → List Input
  | [] => []
  | digest :: rest => join first digest :: links (hash (join first digest)) rest

/-- No two of the inputs share a digest. -/
def Apart (inputs : List Input) : Prop := ∀ x ∈ inputs, ∀ y ∈ inputs, hash x = hash y → x = y

variable {hash join} {first : Digest} {rest : List Digest}

theorem chain_append (digest : Digest) :
    chain hash join first (rest ++ [digest]) = hash (join (chain hash join first rest) digest) := by
  simp [chain]

theorem links_append (digest : Digest) :
    links hash join first (rest ++ [digest]) =
      links hash join first rest ++ [join (chain hash join first rest) digest] := by
  induction rest generalizing first with
  | nil => rfl
  | cons next rest ih => simp [links, chain, ih]

theorem chain_injective {inputs : List Input} {a b : Input} {left right : List Digest}
    (apart : Apart hash inputs) (joins : ∀ x y x' y', join x y = join x' y' → x = x' ∧ y = y')
    (leafA : ∀ x y, join x y ≠ a) (leafB : ∀ x y, join x y ≠ b) (hashedA : a ∈ inputs)
    (hashedB : b ∈ inputs) (linksA : ∀ i ∈ links hash join (hash a) left, i ∈ inputs)
    (linksB : ∀ i ∈ links hash join (hash b) right, i ∈ inputs)
    (same : chain hash join (hash a) left = chain hash join (hash b) right) :
    a = b ∧ left = right := by
  induction left using List.reverseRecOn generalizing right with
  | nil =>
    rcases List.eq_nil_or_concat' right with rfl | ⟨before, last, rfl⟩
    · exact ⟨apart a hashedA b hashedB same, rfl⟩
    · rw [links_append] at linksB
      rw [chain_append] at same
      have pair := linksB _ (List.mem_append_right _ (List.mem_singleton_self _))
      exact absurd (apart a hashedA _ pair same).symm (leafA _ _)
  | append_singleton left digest ih =>
    rw [links_append] at linksA
    rw [chain_append] at same
    have pairA := linksA _ (List.mem_append_right _ (List.mem_singleton_self _))
    rcases List.eq_nil_or_concat' right with rfl | ⟨before, last, rfl⟩
    · exact absurd (apart _ pairA b hashedB same) (leafB _ _)
    · rw [links_append] at linksB
      rw [chain_append] at same
      have pairB := linksB _ (List.mem_append_right _ (List.mem_singleton_self _))
      obtain ⟨roots, rfl⟩ := joins _ _ _ _ (apart _ pairA _ pairB same)
      obtain ⟨leaves, rfl⟩ := ih (fun i member => linksA i (List.mem_append_left _ member))
        (fun i member => linksB i (List.mem_append_left _ member)) roots
      exact ⟨leaves, rfl⟩

/-- Lists whose images are permutations of each other are so themselves where the map is injective. -/
theorem perm_of_map_perm {α β : Type} [DecidableEq β] {f : α → β} {xs ys : List α}
    (inj : ∀ x ∈ xs ++ ys, ∀ y ∈ xs ++ ys, f x = f y → x = y)
    (perm : (xs.map f).Perm (ys.map f)) : xs.Perm ys := by
  have found : ∀ x ∈ xs ++ ys, (xs ++ ys).find? (fun y => f y = f x) = some x := by
    intro x member
    cases search : (xs ++ ys).find? (fun y => f y = f x) with
    | none =>
      have none := List.find?_eq_none.mp search x member
      simp at none
    | some y =>
      have same : f y = f x := by simpa using List.find?_some search
      rw [inj y (List.mem_of_find?_eq_some search) x member same]
  have back (zs : List α) (inside : ∀ z ∈ zs, z ∈ xs ++ ys) :
      (zs.map f).filterMap (fun d => (xs ++ ys).find? fun y => f y = d) = zs := by
    induction zs with
    | nil => rfl
    | cons z zs ih =>
      obtain ⟨here, later⟩ := List.forall_mem_cons.mp inside
      rw [List.map_cons, List.filterMap_cons, found z here, ih later]
  have images := perm.filterMap fun d => (xs ++ ys).find? fun y => f y = d
  rwa [back xs fun x => List.mem_append_left ys, back ys fun y => List.mem_append_right xs] at images

end HashChain
