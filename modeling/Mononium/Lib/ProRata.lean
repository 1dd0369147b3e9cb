import Mathlib.Algebra.BigOperators.Group.Finset.Piecewise
import Mathlib.Algebra.Order.BigOperators.Group.List
import Mathlib.Algebra.Ring.Nat

/-! Division of a total in proportion to weights, rounded down, with what rounding
leaves over going to the first claim. The divisor is a parameter, since a program
may compute it with less precision than the sum of the weights. -/
namespace ProRata

variable {K : Type}

def amount (grants : List (K × Nat)) : Nat := (grants.map Prod.snd).sum

@[simp] theorem amount_nil : amount ([] : List (K × Nat)) = 0 := rfl

@[simp] theorem amount_cons (g : K × Nat) (grants : List (K × Nat)) :
    amount (g :: grants) = g.2 + amount grants := by simp [amount]

@[simp] theorem amount_append (first second : List (K × Nat)) :
    amount (first ++ second) = amount first + amount second := by simp [amount]

def shares (total weight : Nat) (claims : List (K × Nat)) : List (K × Nat) :=
  claims.map fun c => (c.1, total * c.2 / weight)

def payouts (total weight : Nat) (claims : List (K × Nat)) : List (K × Nat) :=
  shares total weight claims ++
    (claims.head?.map fun c => (c.1, total - amount (shares total weight claims))).toList

theorem amount_shares_mul_le (total weight : Nat) (claims : List (K × Nat)) :
    amount (shares total weight claims) * weight ≤ total * amount claims := by
  induction claims with
  | nil => simp [shares]
  | cons c claims ih =>
    have head := Nat.div_mul_le_self (total * c.2) weight
    simp only [shares, List.map_cons, amount_cons, Nat.add_mul, Nat.mul_add] at ih ⊢
    omega

/-- Rounding down never hands out more than there is. -/
theorem amount_shares_le {total weight : Nat} {claims : List (K × Nat)}
    (exact_ : amount claims = weight) : amount (shares total weight claims) ≤ total := by
  have bound := amount_shares_mul_le total weight claims
  rw [exact_] at bound
  by_cases positive : 0 < weight
  · exact Nat.le_of_mul_le_mul_right bound positive
  · have zero : weight = 0 := by omega
    have none : amount (shares total weight claims) = 0 := by
      clear bound exact_ positive
      induction claims with
      | nil => rfl
      | cons c claims ih => simpa [shares, zero] using ih
    omega

theorem amount_payouts {total weight : Nat} {claims : List (K × Nat)} (nonempty : claims ≠ []) :
    amount (payouts total weight claims) = max total (amount (shares total weight claims)) := by
  cases claims with
  | nil => contradiction
  | cons c claims =>
    simp only [payouts, amount_append, List.head?_cons, Option.map_some, Option.toList_some,
      amount_cons, amount_nil]
    omega

theorem amount_payouts_of_exact {total weight : Nat} {claims : List (K × Nat)}
    (nonempty : claims ≠ []) (exact_ : amount claims = weight) :
    amount (payouts total weight claims) = total := by
  rw [amount_payouts nonempty, Nat.max_eq_left (amount_shares_le exact_)]

theorem payouts_owner {total weight : Nat} {claims : List (K × Nat)} {g : K × Nat}
    (member : g ∈ payouts total weight claims) : ∃ c ∈ claims, c.1 = g.1 := by
  rcases List.mem_append.mp member with share | rest
  · obtain ⟨c, there, rfl⟩ := List.mem_map.mp share
    exact ⟨c, there, rfl⟩
  · cases claims with
    | nil => simp at rest
    | cons c claims =>
      simp only [List.head?_cons, Option.map_some, Option.toList_some, List.mem_singleton] at rest
      exact ⟨c, by simp, by rw [rest]⟩

section Received

variable [DecidableEq K]

def received (grants : List (K × Nat)) (k : K) : Nat :=
  amount (grants.filter fun g => g.1 = k)

@[simp] theorem received_nil (k : K) : received [] k = 0 := rfl

@[simp] theorem received_cons (g : K × Nat) (grants : List (K × Nat)) (k : K) :
    received (g :: grants) k = (if g.1 = k then g.2 else 0) + received grants k := by
  unfold received
  by_cases mine : g.1 = k <;> simp [mine]

@[simp] theorem received_append (first second : List (K × Nat)) (k : K) :
    received (first ++ second) k = received first k + received second k := by
  simp [received]

theorem sum_received {A : Finset K} {grants : List (K × Nat)} (within : ∀ g ∈ grants, g.1 ∈ A) :
    ∑ k ∈ A, received grants k = amount grants := by
  induction grants with
  | nil => simp
  | cons g grants ih =>
    have rest := ih fun g h => within g (List.mem_cons_of_mem _ h)
    simp only [received_cons, amount_cons, Finset.sum_add_distrib, rest, Finset.sum_ite_eq,
      within g List.mem_cons_self, if_true]

theorem received_eq_zero {grants : List (K × Nat)} {k : K} (none : ∀ g ∈ grants, g.1 = k → g.2 = 0) :
    received grants k = 0 := by
  induction grants with
  | nil => rfl
  | cons g grants ih =>
    rw [received_cons, ih fun g h => none g (List.mem_cons_of_mem _ h)]
    split
    next mine => rw [none g List.mem_cons_self mine]
    next => rfl

theorem received_payouts_zero (weight : Nat) (claims : List (K × Nat)) (k : K) :
    received (payouts 0 weight claims) k = 0 := by
  apply received_eq_zero
  intro g member _
  rcases List.mem_append.mp member with share | rest
  · obtain ⟨c, _, rfl⟩ := List.mem_map.mp share
    simp
  · cases claims with
    | nil => simp at rest
    | cons c claims => simp_all

/-- Who claims nothing and is not first in line receives nothing. -/
theorem received_payouts_of_zero {total weight : Nat} {claims : List (K × Nat)} {k : K}
    (none : ∀ c ∈ claims, c.1 = k → c.2 = 0) (first : ∀ c ∈ claims.head?, c.1 ≠ k) :
    received (payouts total weight claims) k = 0 := by
  apply received_eq_zero
  intro g member mine
  rcases List.mem_append.mp member with share | rest
  · obtain ⟨c, here, rfl⟩ := List.mem_map.mp share
    simp [none c here mine]
  · obtain ⟨c, here, rfl⟩ := Option.map_eq_some_iff.mp (Option.mem_toList.mp rest)
    exact absurd mine (first c here)

theorem received_perm {first second : List (K × Nat)} (perm : first.Perm second) (k : K) :
    received first k = received second k :=
  ((perm.filter _).map _).sum_nat

end Received

end ProRata
