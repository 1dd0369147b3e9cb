import Mathlib.Data.Set.Function
import Mathlib.Data.Nat.Basic
import Mathlib.Tactic.Ring

/-! The full binary tree behind a sparse Merkle tree, over any digest type and any
way of combining two digests. Position `p` at depth `d` covers the leaves `q` with
`q / 2 ^ d = p`. Nothing is assumed of the combining function until two trees are
compared, and then only on the pairs those trees combine. -/
namespace SparseMerkle

variable {D : Type} (node : D → D → D) (empty : D)

def defaultRoot : Nat → D
  | 0 => empty
  | d + 1 => node (defaultRoot d) (defaultRoot d)

def subtree (leaf : Nat → D) : Nat → Nat → D
  | 0, p => leaf p
  | d + 1, p => node (subtree leaf d (2 * p)) (subtree leaf d (2 * p + 1))

/-- The pairs combined while computing a subtree. -/
def pairs (leaf : Nat → D) : Nat → Nat → Set (D × D)
  | 0, _ => ∅
  | d + 1, p => insert (subtree node leaf d (2 * p), subtree node leaf d (2 * p + 1))
      (pairs leaf d (2 * p) ∪ pairs leaf d (2 * p + 1))

theorem covered_succ (d p q : Nat) :
    q / 2 ^ (d + 1) = p ↔ q / 2 ^ d = 2 * p ∨ q / 2 ^ d = 2 * p + 1 := by
  rw [Nat.pow_succ, ← Nat.div_div_eq_div_mul]
  omega

theorem subtree_congr {leaf other : Nat → D} (d p : Nat)
    (same : ∀ q, q / 2 ^ d = p → leaf q = other q) :
    subtree node leaf d p = subtree node other d p := by
  induction d generalizing p with
  | zero => exact same p (by simp)
  | succ d ih =>
    simp only [subtree]
    rw [ih (2 * p) (fun q h => same q ((covered_succ d p q).mpr (.inl h))),
      ih (2 * p + 1) (fun q h => same q ((covered_succ d p q).mpr (.inr h)))]

theorem subtree_of_empty {leaf : Nat → D} (d p : Nat)
    (none : ∀ q, q / 2 ^ d = p → leaf q = empty) :
    subtree node leaf d p = defaultRoot node empty d := by
  induction d generalizing p with
  | zero => exact none p (by simp)
  | succ d ih =>
    simp only [subtree, defaultRoot]
    rw [ih (2 * p) (fun q h => none q ((covered_succ d p q).mpr (.inl h))),
      ih (2 * p + 1) (fun q h => none q ((covered_succ d p q).mpr (.inr h)))]

/-- `nodes` holds the digests of depth `d`; what it leaves out is a default root. -/
def Level (leaf : Nat → D) (d : Nat) (nodes : Nat → Option D) : Prop :=
  ∀ p, (nodes p).getD (defaultRoot node empty d) = subtree node leaf d p

/-- One level of the walk to the root: a parent is present when a child is. -/
theorem Level.up {leaf : Nat → D} {d : Nat} {nodes parents : Nat → Option D}
    (level : Level node empty leaf d nodes)
    (absent : ∀ p, parents p = none → nodes (2 * p) = none ∧ nodes (2 * p + 1) = none)
    (present : ∀ p digest, parents p = some digest →
      digest = node ((nodes (2 * p)).getD (defaultRoot node empty d))
        ((nodes (2 * p + 1)).getD (defaultRoot node empty d))) :
    Level node empty leaf (d + 1) parents := by
  intro p
  rw [subtree, ← level (2 * p), ← level (2 * p + 1)]
  cases h : parents p with
  | none =>
    obtain ⟨left, right⟩ := absent p h
    simp [left, right, defaultRoot]
  | some digest => exact present p digest h

/-- Two trees with equal roots have equal leaves when combining is injective on
the pairs they combine. -/
theorem leaf_eq_of_subtree_eq {leaf other : Nat → D} (d p : Nat)
    (injective : Set.InjOn (fun x : D × D => node x.1 x.2)
      (pairs node leaf d p ∪ pairs node other d p))
    (same : subtree node leaf d p = subtree node other d p) :
    ∀ q, q / 2 ^ d = p → leaf q = other q := by
  induction d generalizing p with
  | zero =>
    intro q h
    simp only [Nat.pow_zero, Nat.div_one] at h
    subst h
    exact same
  | succ d ih =>
    have children := injective (.inl (Set.mem_insert _ _)) (.inr (Set.mem_insert _ _)) same
    simp only [Prod.mk.injEq] at children
    have below (child : Nat) (member : child = 2 * p ∨ child = 2 * p + 1) :
        pairs node leaf d child ∪ pairs node other d child ⊆
          pairs node leaf (d + 1) p ∪ pairs node other (d + 1) p := by
      rintro x (h | h)
      · exact .inl (.inr (by rcases member with rfl | rfl; exacts [.inl h, .inr h]))
      · exact .inr (.inr (by rcases member with rfl | rfl; exacts [.inl h, .inr h]))
    intro q h
    rcases (covered_succ d p q).mp h with h | h
    · exact ih (2 * p) (injective.mono (below _ (.inl rfl))) children.1 q h
    · exact ih (2 * p + 1) (injective.mono (below _ (.inr rfl))) children.2 q h

/-- On the way up from a leaf in which two trees differ to a depth at which they agree,
there is a last pair of children in which they differ. -/
theorem exists_split {leaf other : Nat → D} {depth q : Nat} (differ : leaf q ≠ other q)
    (same : subtree node leaf depth (q / 2 ^ depth) = subtree node other depth (q / 2 ^ depth)) :
    ∃ d < depth, subtree node leaf d (q / 2 ^ d) ≠ subtree node other d (q / 2 ^ d) ∧
      subtree node leaf (d + 1) (q / 2 ^ (d + 1)) = subtree node other (d + 1) (q / 2 ^ (d + 1)) := by
  induction depth with
  | zero =>
    rw [Nat.pow_zero, Nat.div_one] at same
    exact absurd same differ
  | succ d ih =>
    by_cases below : subtree node leaf d (q / 2 ^ d) = subtree node other d (q / 2 ^ d)
    · obtain ⟨level, bound, split⟩ := ih below
      exact ⟨level, by omega, split⟩
    · exact ⟨d, Nat.lt_succ_self d, below, same⟩

theorem children_ne_of_split {leaf other : Nat → D} {d q : Nat}
    (differ : subtree node leaf d (q / 2 ^ d) ≠ subtree node other d (q / 2 ^ d)) :
    (subtree node leaf d (2 * (q / 2 ^ (d + 1))), subtree node leaf d (2 * (q / 2 ^ (d + 1)) + 1)) ≠
      (subtree node other d (2 * (q / 2 ^ (d + 1))),
        subtree node other d (2 * (q / 2 ^ (d + 1)) + 1)) := by
  intro same
  obtain ⟨left, right⟩ := Prod.mk.inj same
  rcases (covered_succ d (q / 2 ^ (d + 1)) q).mp rfl with here | here
  · exact differ (here ▸ left)
  · exact differ (here ▸ right)

theorem exists_of_mem_pairs {leaf : Nat → D} {depth p : Nat} {x : D × D}
    (member : x ∈ pairs node leaf depth p) :
    ∃ d q, d < depth ∧ x = (subtree node leaf d (2 * q), subtree node leaf d (2 * q + 1)) := by
  induction depth generalizing p with
  | zero => exact member.elim
  | succ d ih =>
    rcases member with rfl | below | below
    · exact ⟨d, p, Nat.lt_succ_self d, rfl⟩
    · obtain ⟨level, q, bound, same⟩ := ih below
      exact ⟨level, q, by omega, same⟩
    · obtain ⟨level, q, bound, same⟩ := ih below
      exact ⟨level, q, by omega, same⟩

def peak (leaf : Nat → Nat) : Nat → Nat → Nat
  | 0, p => leaf p
  | d + 1, p => max (peak leaf d (2 * p)) (peak leaf d (2 * p + 1))

theorem le_peak (leaf : Nat → Nat) {d p q : Nat} (below : q / 2 ^ d = p) : leaf q ≤ peak leaf d p := by
  induction d generalizing p with
  | zero =>
    rw [Nat.pow_zero, Nat.div_one] at below
    rw [peak, below]
  | succ d ih =>
    rw [peak]
    rcases (covered_succ d p q).mp below with left | right
    · exact le_max_of_le_left (ih left)
    · exact le_max_of_le_right (ih right)

theorem peak_attained (leaf : Nat → Nat) (d p : Nat) : ∃ q, q / 2 ^ d = p ∧ leaf q = peak leaf d p := by
  induction d generalizing p with
  | zero => exact ⟨p, by simp, rfl⟩
  | succ d ih =>
    rw [peak]
    rcases le_total (peak leaf d (2 * p)) (peak leaf d (2 * p + 1)) with order | order
    · obtain ⟨q, below, same⟩ := ih (2 * p + 1)
      exact ⟨q, (covered_succ d p q).mpr (.inr below), by rw [max_eq_right order, same]⟩
    · obtain ⟨q, below, same⟩ := ih (2 * p)
      exact ⟨q, (covered_succ d p q).mpr (.inl below), by rw [max_eq_left order, same]⟩

/-- Digests are numbers and a node is one more than the larger of its children. -/
structure Climbing (value : D → Nat) (bound : Nat) : Prop where
  injective : Function.Injective value
  node : ∀ x y, value x < bound → value y < bound → value (node x y) = max (value x) (value y) + 1

/-- Trees on which climbing does not collide: leaves lie further apart than the tree is
high, a digest marks one position, and two trees that share a leaf share every lower one. -/
structure Peaked (value : D → Nat) (bound depth : Nat) (trees : Set (Nat → D)) : Prop where
  bounded : ∀ f ∈ trees, ∀ q, value (f q) + depth < bound
  spaced : ∀ f ∈ trees, ∀ g ∈ trees, ∀ q r, value (f q) < value (g r) → value (f q) + depth < value (g r)
  located : ∀ f ∈ trees, ∀ g ∈ trees, ∀ q r, f q = g r → f q ≠ empty → q = r
  shared : ∀ f ∈ trees, ∀ g ∈ trees, ∀ q, f q = g q → f q ≠ empty →
    ∀ r, value (f r) ≤ value (f q) → value (g r) ≤ value (f q) → f r = g r
  lowest : ∀ f ∈ trees, ∀ q, f q ≠ empty → value empty < value (f q)

section Climbing

variable {node empty} {value : D → Nat} {bound depth : Nat} {trees : Set (Nat → D)}

theorem Climbing.value_subtree (climbing : Climbing node value bound) {leaf : Nat → D}
    (small : ∀ q, value (leaf q) + depth < bound) {d : Nat} (inside : d ≤ depth) (p : Nat) :
    value (subtree node leaf d p) = peak (fun q => value (leaf q)) d p + d := by
  induction d generalizing p with
  | zero => rfl
  | succ d ih =>
    have below (child : Nat) : value (subtree node leaf d child) < bound := by
      obtain ⟨q, -, same⟩ := peak_attained (fun q => value (leaf q)) d child
      have := small q
      rw [ih (by omega) child, ← same]
      omega
    rw [subtree, climbing.node _ _ (below _) (below _), ih (by omega), ih (by omega), peak]
    omega

theorem Peaked.children_eq (peaked : Peaked empty value bound depth trees)
    (climbing : Climbing node value bound) {f g : Nat → D} (hf : f ∈ trees) (hg : g ∈ trees)
    {d e p q : Nat} (hd : d < depth) (he : e < depth)
    (same : value (subtree node f (d + 1) p) = value (subtree node g (e + 1) q)) :
    (subtree node f d (2 * p), subtree node f d (2 * p + 1)) =
      (subtree node g e (2 * q), subtree node g e (2 * q + 1)) := by
  rw [climbing.value_subtree (peaked.bounded f hf) hd,
    climbing.value_subtree (peaked.bounded g hg) he] at same
  obtain ⟨a, belowA, topA⟩ := peak_attained (fun q => value (f q)) (d + 1) p
  obtain ⟨b, belowB, topB⟩ := peak_attained (fun q => value (g q)) (e + 1) q
  rw [← topA, ← topB] at same
  have level : d = e := by
    rcases Nat.lt_trichotomy (value (f a)) (value (g b)) with less | equal | greater
    · have := peaked.spaced f hf g hg a b less
      omega
    · omega
    · have := peaked.spaced g hg f hf b a greater
      omega
  subst level
  have equal : f a = g b := climbing.injective (by omega)
  -- Without a leaf below, both children are default roots; with one, the leaf fixes the node.
  by_cases none : f a = empty
  · have default {h : Nat → D} (hh : h ∈ trees) {c r : Nat} (low : h c = empty)
        (top : value (h c) = peak (fun q => value (h q)) (d + 1) r) (child : Nat)
        (isChild : child = 2 * r ∨ child = 2 * r + 1) :
        subtree node h d child = defaultRoot node empty d := by
      apply subtree_of_empty
      intro leaf below
      by_contra occupied
      have above := peaked.lowest h hh leaf occupied
      have capped := le_peak (fun q => value (h q)) ((covered_succ d r leaf).mpr
        (by rw [below]; exact isChild))
      rw [← top, low] at capped
      omega
    rw [default hf none topA _ (.inl rfl), default hf none topA _ (.inr rfl),
      default hg (equal ▸ none) topB _ (.inl rfl), default hg (equal ▸ none) topB _ (.inr rfl)]
  · obtain rfl := peaked.located f hf g hg a b equal none
    rw [belowA] at belowB
    subst belowB
    have agree (leaf : Nat) (below : leaf / 2 ^ (d + 1) = p) : f leaf = g leaf := by
      apply peaked.shared f hf g hg a equal none
      · have := le_peak (fun q => value (f q)) below
        rwa [← topA] at this
      · have := le_peak (fun q => value (g q)) below
        rwa [← topB, ← equal] at this
    rw [subtree_congr node d (2 * p) fun leaf below => agree leaf ((covered_succ d p leaf).mpr (.inl below)),
      subtree_congr node d (2 * p + 1) fun leaf below => agree leaf ((covered_succ d p leaf).mpr (.inr below))]

theorem Peaked.leaf_ne_node (peaked : Peaked empty value bound depth trees)
    (climbing : Climbing node value bound) {f g : Nat → D} (hf : f ∈ trees) (hg : g ∈ trees)
    {d p q : Nat} (hd : d < depth) : value (f p) ≠ value (subtree node g (d + 1) q) := by
  rw [climbing.value_subtree (peaked.bounded g hg) hd]
  obtain ⟨b, -, top⟩ := peak_attained (fun q => value (g q)) (d + 1) q
  rw [← top]
  rcases Nat.lt_trichotomy (value (f p)) (value (g b)) with less | equal | greater
  · omega
  · omega
  · have := peaked.spaced g hg f hf b p greater
    omega

def summit (empty : D) (o r : Nat) (low high : D) (p : Nat) : D :=
  if p = o then high else if p = r then low else empty

theorem summit_cases (empty : D) (o r : Nat) (low high : D) (p : Nat) :
    (p = o ∧ summit empty o r low high p = high) ∨
    (p ≠ o ∧ p = r ∧ summit empty o r low high p = low) ∨
    (p ≠ o ∧ p ≠ r ∧ summit empty o r low high p = empty) := by
  unfold summit
  by_cases first : p = o
  · simp [first]
  · by_cases second : p = r
    · exact .inr (.inl ⟨first, second, by rw [if_neg first, if_pos second]⟩)
    · simp [first, second]

/-- Trees that share the lower leaf and may differ in the higher one. -/
theorem peaked_of_summit {o r step : Nat} {low : D} {high : Set D} (climbing : Climbing node value bound)
    (zero : value empty = 0) (tall : depth < step)
    (lattice : ∀ h ∈ insert low high, step ∣ value h)
    (top : ∀ h ∈ high, value low < value h ∧ value h + depth < bound) :
    Peaked empty value bound depth {f | ∃ h ∈ high, f = summit empty o r low h} := by
  have positive {h : D} (member : h ∈ high) : h ≠ empty := by
    rintro rfl
    have := (top h member).1
    omega
  have lower {h : D} (member : h ∈ high) : h ≠ low := by
    rintro rfl
    exact absurd (top h member).1 (Nat.lt_irrefl _)
  have multiple {h : D} (member : h ∈ high) (q : Nat) : step ∣ value (summit empty o r low h q) := by
    rcases summit_cases empty o r low h q with ⟨-, same⟩ | ⟨-, -, same⟩ | ⟨-, -, same⟩
    · rw [same]
      exact lattice h (.inr member)
    · rw [same]
      exact lattice low (.inl rfl)
    · rw [same, zero]
      exact Nat.dvd_zero _
  constructor
  case bounded =>
    rintro _ ⟨h, member, rfl⟩ q
    have := top h member
    rcases summit_cases empty o r low h q with ⟨-, same⟩ | ⟨-, -, same⟩ | ⟨-, -, same⟩ <;>
      rw [same] <;> omega
  case spaced =>
    rintro _ ⟨h, hh, rfl⟩ _ ⟨k, hk, rfl⟩ q s less
    obtain ⟨m, first⟩ := multiple hh q
    obtain ⟨n, second⟩ := multiple hk s
    rw [first, second] at less ⊢
    have order : m + 1 ≤ n := Nat.lt_of_mul_lt_mul_left less
    have := Nat.mul_le_mul_left step order
    rw [Nat.mul_succ] at this
    omega
  case located =>
    rintro _ ⟨h, hh, rfl⟩ _ ⟨k, hk, rfl⟩ q s same occupied
    rcases summit_cases empty o r low h q with ⟨rfl, first⟩ | ⟨-, rfl, first⟩ | ⟨-, -, first⟩
    · rcases summit_cases empty q r low k s with ⟨rfl, -⟩ | ⟨-, -, second⟩ | ⟨-, -, second⟩
      · rfl
      · exact absurd (first.symm.trans (same.trans second)) (lower hh)
      · exact absurd (same.trans second) occupied
    · rcases summit_cases empty o q low k s with ⟨-, second⟩ | ⟨-, rfl, -⟩ | ⟨-, -, second⟩
      · exact absurd (second.symm.trans (same.symm.trans first)) (lower hk)
      · rfl
      · exact absurd (same.trans second) occupied
    · exact absurd first occupied
  case shared =>
    rintro _ ⟨h, hh, rfl⟩ _ ⟨k, hk, rfl⟩ q same occupied s lowF lowG
    rcases summit_cases empty o r low h q with ⟨rfl, first⟩ | ⟨other, rfl, first⟩ | ⟨-, -, first⟩
    · have : h = k := by simpa [summit] using same
      rw [this]
    · have away : s ≠ o := by
        rintro rfl
        rw [first] at lowF
        have := (top h hh).1
        have here : summit empty s q low h s = h := by simp [summit]
        rw [here] at lowF
        omega
      simp [summit, away]
    · exact absurd first occupied
  case lowest =>
    rintro f _ q occupied
    rw [zero]
    refine Nat.pos_of_ne_zero fun nothing => occupied (climbing.injective ?_)
    rw [nothing, zero]

end Climbing

end SparseMerkle
