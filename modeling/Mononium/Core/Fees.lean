import Mononium.Core.Ledger
import Mononium.Lib.ProRata

/-! Fee distribution pays out a proportional division. The list of payouts is read
off the active set and the stakes; the loop credits each of them, saturating, and
never creates an account for a payout of zero. -/
namespace Mononium

open Rust Scale

/-- An account after saturating credits that sum to `amount`. -/
def Account.credit (x : Account) (amount : Nat) : Account :=
  { x with balance := BitVec.ofNat 256 (min (x.balance.toNat + amount) (2 ^ 256 - 1)) }

theorem Account.credit_balance (x : Account) (amount : Nat) :
    (x.credit amount).balance.toNat = min (x.balance.toNat + amount) (2 ^ 256 - 1) := by
  rw [credit, BitVec.toNat_ofNat, Nat.mod_eq_of_lt (by omega)]

theorem Account.credit_eq_iff (x : Account) (first second : Nat) :
    x.credit first = x.credit second ↔
      min (x.balance.toNat + first) (2 ^ 256 - 1) = min (x.balance.toNat + second) (2 ^ 256 - 1) := by
  constructor
  · intro same
    rw [← Account.credit_balance, ← Account.credit_balance, same]
  · intro same
    rw [Account.credit, Account.credit, same]

theorem Account.credit_zero (x : Account) : x.credit 0 = x := by
  have bound := x.balance.isLt
  rw [Account.credit, Nat.add_zero, Nat.min_eq_left (by omega), BitVec.ofNat_toNat,
    BitVec.setWidth_eq]

/-- An account that may be missing is determined alike: a share of zero creates none. -/
theorem Account.credited_eq_iff (x : Option Account) (first second : Nat) :
    ((if first = 0 then x else some ((x.getD (Account.new 0)).credit first)) =
      if second = 0 then x else some ((x.getD (Account.new 0)).credit second)) ↔
    min ((x.getD (Account.new 0)).balance.toNat + first) (2 ^ 256 - 1) =
      min ((x.getD (Account.new 0)).balance.toNat + second) (2 ^ 256 - 1) := by
  rw [← Account.credit_eq_iff]
  cases x with
  | some x =>
    have known (amount : Nat) : (if amount = 0 then some x else some (x.credit amount)) =
        some (x.credit amount) := by
      split
      next zero => rw [zero, Account.credit_zero]
      next => rfl
    rw [Option.getD_some, known, known, Option.some.injEq]
  | none =>
    have positive {amount : Nat} (nonzero : amount ≠ 0) :
        (Account.new 0).credit amount ≠ (Account.new 0).credit 0 := by
      rw [ne_eq, Account.credit_eq_iff, show (Account.new 0).balance.toNat = 0 from rfl]
      omega
    rw [Option.getD_none]
    by_cases h1 : first = 0
    · by_cases h2 : second = 0
      · simp [h1, h2]
      · simpa [h1, h2] using (positive h2).symm
    · by_cases h2 : second = 0
      · simpa [h1, h2] using positive h1
      · simp [h1, h2]

theorem Account.credit_credit (x : Account) (first second : Nat) :
    (x.credit first).credit second = x.credit (first + second) := by
  have sum : min (min (x.balance.toNat + first) (2 ^ 256 - 1) + second) (2 ^ 256 - 1) =
      min (x.balance.toNat + (first + second)) (2 ^ 256 - 1) := by omega
  conv_lhs => rw [credit, credit_balance, sum]
  rfl

theorem Account.credit_eq_saturatingAdd (x : Account) (amount : U256) :
    { x with balance := saturatingAdd x.balance amount } = x.credit amount.toNat := by
  have same : saturatingAdd x.balance amount = (x.credit amount.toNat).balance := by
    apply BitVec.eq_of_toNat_eq
    rw [saturatingAdd_toNat, credit_balance]
  rw [same]
  rfl

theorem fees_widened (fees : U128) : (fees.setWidth 256 : U256).toNat = fees.toNat := by
  rw [BitVec.toNat_setWidth, Nat.mod_eq_of_lt (by omega)]

namespace StateMachine

def totalStake (pairs : List (U256 × Address)) : U256 :=
  pairs.foldl (fun sum p => saturatingAdd sum p.1) 0

theorem totalStake_toNat (pairs : List (U256 × Address)) :
    (totalStake pairs).toNat = min (pairs.map fun p => p.1.toNat).sum (2 ^ 256 - 1) := by
  rw [totalStake, foldl_saturatingAdd_toNat, show (0 : U256).toNat = 0 from rfl, Nat.zero_add]

variable [Blake3]

/-- The claims on the fees, in the order of the remainder rule. -/
def claims (s : StateMachine) : List (Address × Nat) :=
  (s.stakePairs.insertionSort remainderOrder).map fun p => (p.2, p.1.toNat)

/-- What the distribution of `fees` pays, and to whom. -/
def payouts (s : StateMachine) (fees : U128) : List (Address × Nat) :=
  if totalStake s.stakePairs = 0 then []
  else ProRata.payouts fees.toNat (totalStake s.stakePairs).toNat s.claims

def feeShare (s : StateMachine) (fees : U128) (a : Address) : Nat :=
  ProRata.received (s.payouts fees) a

/-- Accounts gain `grants`, nothing else changes. -/
structure Credited (A : Finset Address) (s t : StateMachine) (grants : Address → Nat) : Prop where
  sound : Sound A t
  account : ∀ a ∈ A, t.account a =
    if grants a = 0 then s.account a
    else some (((s.account a).getD (Account.new 0)).credit (grants a))
  entry : ∀ a ∈ A, t.getValidator a = s.getValidator a
  index : t.validators = s.validators
  active : t.activeSet = s.activeSet

namespace Credited

variable {A : Finset Address} {s t u : StateMachine} {first second grants : Address → Nat}

theorem refl (sound : Sound A s) : Credited A s s fun _ => 0 :=
  ⟨sound, fun _ _ => by simp, fun _ _ => rfl, rfl, rfl⟩

theorem trans (one : Credited A s t first) (two : Credited A t u second) :
    Credited A s u fun a => first a + second a where
  sound := two.sound
  account := by
    intro a ha
    rw [two.account a ha, one.account a ha]
    by_cases h1 : first a = 0
    · simp [h1]
    · by_cases h2 : second a = 0
      · simp [h1, h2]
      · simp [h1, h2, Account.credit_credit]
  entry a ha := (two.entry a ha).trans (one.entry a ha)
  index := two.index.trans one.index
  active := two.active.trans one.active

theorem balance (credited : Credited A s t grants) {a : Address} (ha : a ∈ A) :
    t.balance a = min (s.balance a + grants a) (2 ^ 256 - 1) := by
  have bound := ((s.account a).getD (Account.new 0)).balance.isLt
  rw [StateMachine.balance, StateMachine.balance, credited.account a ha]
  by_cases none : grants a = 0
  · rw [if_pos none, none]
    omega
  · rw [if_neg none, Option.getD_some, Account.credit_balance]

theorem stake (credited : Credited A s t grants) {a : Address} (ha : a ∈ A) :
    t.stake a = s.stake a := by
  rw [StateMachine.stake, StateMachine.stake, credited.entry a ha]

theorem total_le (credited : Credited A s t grants) :
    t.total A ≤ s.total A + ∑ a ∈ A, grants a := by
  rw [StateMachine.total, StateMachine.total, ← Finset.sum_add_distrib]
  apply Finset.sum_le_sum
  intro a ha
  rw [credited.balance ha, credited.stake ha]
  omega

/-- Credits that fit lose nothing. -/
theorem total_eq (credited : Credited A s t grants)
    (fits : s.total A + ∑ a ∈ A, grants a < 2 ^ 256) :
    t.total A = s.total A + ∑ a ∈ A, grants a := by
  rw [StateMachine.total, StateMachine.total, ← Finset.sum_add_distrib] at *
  apply Finset.sum_congr rfl
  intro a ha
  have here := Finset.single_le_sum (f := fun a => s.balance a + s.stake a + grants a)
    (fun _ _ => Nat.zero_le _) ha
  rw [credited.balance ha, credited.stake ha]
  omega

end Credited

def creditTo (s : StateMachine) (a : Address) (amount : Nat) : StateMachine :=
  s.setAccount a (((s.account a).getD (Account.new 0)).credit amount)

theorem creditBalance_eq {A : Finset Address} {s : StateMachine} {a : Address}
    (sound : Sound A s) (ha : a ∈ A) (amount : U256) :
    s.creditBalance a amount = .ok (s.creditTo a amount.toNat) := by
  rw [creditBalance, sound.getAccount ha, ok_bind, creditTo, ← Account.credit_eq_saturatingAdd]
  rfl

theorem getValidator_creditTo {A : Finset Address} {s : StateMachine} {a b : Address}
    (apart : KeysApart A) (ha : a ∈ A) (hb : b ∈ A) (amount : Nat) :
    (s.creditTo a amount).getValidator b = s.getValidator b :=
  getValidator_setAccount apart ha hb _

theorem credited_creditTo {A : Finset Address} {s : StateMachine} {a : Address} {amount : Nat}
    (sound : Sound A s) (ha : a ∈ A) (positive : amount ≠ 0) :
    Credited A s (s.creditTo a amount) fun b => if a = b then amount else 0 where
  sound := sound.setAccount ha _
  account := by
    intro b hb
    rw [creditTo, account_setAccount sound.apart ha hb]
    by_cases same : b = a
    · subst same; simp [positive]
    · simp [same, Ne.symm same]
  entry b hb := getValidator_setAccount sound.apart ha hb _
  index := rfl
  active := rfl

theorem creditShare_cases {A : Finset Address} {s t : StateMachine} {total weight sum after : U256}
    {pair : U256 × Address} (sound : Sound A s) (member : pair.2 ∈ A)
    (h : creditShare total weight (s, sum) pair = .ok (t, after)) :
    Credited A s t
        (ProRata.received [(pair.2, total.toNat * pair.1.toNat / weight.toNat)]) ∧
      after.toNat = min (sum.toNat + total.toNat * pair.1.toNat / weight.toNat) (2 ^ 256 - 1) := by
  obtain ⟨product, multiplied, h⟩ := bind_eq_ok.mp h
  obtain ⟨share, divided, h⟩ := bind_eq_ok.mp h
  have value : share.toNat = total.toNat * pair.1.toNat / weight.toNat := by
    rw [(div_eq_ok.mp divided).2, mul_eq_ok.mp multiplied]
  rw [← value]
  have small := sum.isLt
  split at h
  next zero =>
    cases h
    rw [zero]
    refine ⟨?_, by simp; omega⟩
    convert Credited.refl sound using 2
    simp
  next nonzero =>
    rw [creditBalance_eq sound member, ok_bind] at h
    cases h
    have positive : share.toNat ≠ 0 := fun none => nonzero (BitVec.eq_of_toNat_eq (by simpa using none))
    refine ⟨?_, saturatingAdd_toNat _ _⟩
    convert credited_creditTo sound member positive using 2
    simp

theorem creditShares_spec {A : Finset Address} {total weight : U256}
    {pairs : List (U256 × Address)} {s t : StateMachine} {sum after : U256} (sound : Sound A s)
    (within : ∀ p ∈ pairs, p.2 ∈ A)
    (h : pairs.foldlM (creditShare total weight) (s, sum) = .ok (t, after)) :
    Credited A s t (ProRata.received (ProRata.shares total.toNat weight.toNat
        (pairs.map fun p => (p.2, p.1.toNat)))) ∧
      after.toNat = min (sum.toNat + ProRata.amount (ProRata.shares total.toNat weight.toNat
        (pairs.map fun p => (p.2, p.1.toNat)))) (2 ^ 256 - 1) := by
  induction pairs generalizing s sum with
  | nil =>
    have small := sum.isLt
    cases h
    refine ⟨?_, by simp [ProRata.shares]; omega⟩
    exact Credited.refl sound
  | cons pair pairs ih =>
    rw [List.foldlM_cons] at h
    obtain ⟨⟨middle, reached⟩, head, rest⟩ := bind_eq_ok.mp h
    have one := creditShare_cases sound (within pair List.mem_cons_self) head
    have more := ih one.1.sound (fun p hp => within p (List.mem_cons_of_mem _ hp)) rest
    constructor
    · convert one.1.trans more.1 using 2
      simp [ProRata.shares]
    · rw [more.2, one.2]
      simp only [ProRata.shares, List.map_cons, ProRata.amount_cons]
      omega

theorem stakePairs_member {s : StateMachine} {p : U256 × Address} (member : p ∈ s.stakePairs) :
    p.2 ∈ s.activeSet ∧ ∃ e, s.getValidator p.2 = some e ∧ e.stake = p.1 := by
  obtain ⟨a, here, found⟩ := List.mem_filterMap.mp member
  obtain ⟨e, entry, rfl⟩ := Option.map_eq_some_iff.mp found
  exact ⟨here, e, entry, rfl⟩

theorem sorted_within {A : Finset Address} {s : StateMachine} (sound : Sound A s) :
    ∀ p ∈ s.stakePairs.insertionSort remainderOrder, p.2 ∈ A := by
  intro p member
  rw [List.mem_insertionSort] at member
  exact sound.active _ (stakePairs_member member).1

theorem payouts_within {A : Finset Address} {s : StateMachine} (sound : Sound A s) (fees : U128) :
    ∀ g ∈ s.payouts fees, g.1 ∈ A := by
  intro g member
  unfold payouts at member
  split at member
  next => simp at member
  next =>
    obtain ⟨c, there, same⟩ := ProRata.payouts_owner member
    obtain ⟨p, pair, rfl⟩ := List.mem_map.mp there
    exact same ▸ sorted_within sound p pair

theorem sum_feeShare {A : Finset Address} {s : StateMachine} (sound : Sound A s) (fees : U128) :
    ∑ a ∈ A, s.feeShare fees a = ProRata.amount (s.payouts fees) :=
  ProRata.sum_received (payouts_within sound fees)

theorem feeShare_eq_zero {s : StateMachine} {fees : U128}
    (idle : fees = 0 ∨ s.activeSet = [] ∨ totalStake s.stakePairs = 0) (a : Address) :
    s.feeShare fees a = 0 := by
  unfold feeShare payouts
  split
  next => rfl
  next positive =>
    rcases idle with rfl | empty | zero
    · exact ProRata.received_payouts_zero _ _ _
    · exact absurd (by simp [stakePairs, empty, totalStake]) positive
    · exact absurd zero positive

theorem feeShare_of_inactive {s : StateMachine} {a : Address} (absent : a ∉ s.activeSet) (fees : U128) :
    s.feeShare fees a = 0 := by
  apply ProRata.received_eq_zero
  intro g member mine
  unfold payouts at member
  split at member
  next => cases member
  next =>
    obtain ⟨c, here, same⟩ := ProRata.payouts_owner member
    obtain ⟨p, pair, rfl⟩ := List.mem_map.mp here
    rw [List.mem_insertionSort] at pair
    exact absurd ((same.trans mine) ▸ (stakePairs_member pair).1) absent

instance : Std.Total remainderOrder where
  total p q := by
    unfold remainderOrder
    bv_omega

instance : IsTrans (U256 × Address) remainderOrder where
  trans p q r first second := by
    unfold remainderOrder at *
    bv_omega

/-- Who has no stake gets no share: the remainder goes to the highest stake. -/
theorem feeShare_of_unstaked {s : StateMachine} {a : Address} (none : s.stake a = 0) (fees : U128) :
    s.feeShare fees a = 0 := by
  unfold feeShare payouts
  split
  next => rfl
  next positive =>
    have unstaked : ∀ p ∈ s.stakePairs, p.2 = a → p.1.toNat = 0 := by
      intro p member same
      obtain ⟨-, e, found, stake⟩ := stakePairs_member member
      simpa [StateMachine.stake, ← same, found, stake] using none
    apply ProRata.received_payouts_of_zero
    · intro c member mine
      obtain ⟨p, here, rfl⟩ := List.mem_map.mp member
      exact unstaked p ((List.mem_insertionSort _).mp here) mine
    · intro c head mine
      rw [claims, List.head?_map] at head
      obtain ⟨p, first, rfl⟩ := Option.map_eq_some_iff.mp head
      have here := unstaked p ((List.mem_insertionSort _).mp (List.mem_of_head? first)) mine
      -- The pairs are sorted, so nobody has stake if the first has none.
      have sorted := List.pairwise_insertionSort remainderOrder s.stakePairs
      rw [List.eq_cons_of_mem_head? first] at sorted
      have all : ∀ q ∈ s.stakePairs, q.1.toNat = 0 := by
        intro q member
        have member := (List.mem_insertionSort remainderOrder).mpr member
        rw [List.eq_cons_of_mem_head? first] at member
        rcases List.mem_cons.mp member with rfl | later
        · exact here
        · have order := List.rel_of_pairwise_cons sorted later
          unfold remainderOrder at order
          bv_omega
      have none : (s.stakePairs.map fun p => p.1.toNat).sum = 0 := by
        apply List.sum_eq_zero
        intro stake member
        obtain ⟨q, there, rfl⟩ := List.mem_map.mp member
        exact all q there
      apply positive
      apply BitVec.eq_of_toNat_eq
      rw [totalStake_toNat, none]
      rfl

/-- The distribution credits exactly the fee shares. -/
theorem distributeFees_spec {A : Finset Address} {s t : StateMachine} {fees : U128}
    (sound : Sound A s) (h : s.distributeFees fees = .ok t) : Credited A s t (s.feeShare fees) := by
  have idle (why : fees = 0 ∨ s.activeSet = [] ∨ totalStake s.stakePairs = 0) :
      Credited A s s (s.feeShare fees) := by
    convert Credited.refl sound using 2
    exact feeShare_eq_zero why _
  unfold distributeFees at h
  split at h
  next none =>
    cases h
    exact idle (by tauto)
  next some_ =>
    dsimp only at h
    split at h
    next zero =>
      cases h
      exact idle (.inr (.inr zero))
    next positive =>
      change ¬totalStake s.stakePairs = 0 at positive
      obtain ⟨⟨middle, distributed⟩, shared, h⟩ := bind_eq_ok.mp h
      dsimp only at h
      have within := sorted_within sound
      obtain ⟨credited, sum⟩ := creditShares_spec sound within shared
      have widened := fees_widened fees
      have small := fees.isLt
      rw [widened] at credited sum
      have parts : s.feeShare fees = fun a => ProRata.received (ProRata.shares fees.toNat
          (totalStake s.stakePairs).toNat s.claims) a +
          ProRata.received (s.claims.head?.map fun c => (c.1, fees.toNat - ProRata.amount
            (ProRata.shares fees.toNat (totalStake s.stakePairs).toNat s.claims))).toList a := by
        funext a
        rw [feeShare, payouts, if_neg positive, ProRata.payouts, ProRata.received_append]
      rw [parts]
      change Credited A s middle (ProRata.received (ProRata.shares fees.toNat
        (totalStake s.stakePairs).toNat s.claims)) at credited
      change distributed.toNat = min ((0 : U256).toNat + ProRata.amount (ProRata.shares fees.toNat
        (totalStake s.stakePairs).toNat s.claims)) _ at sum
      rw [show (0 : U256).toNat = 0 from rfl, Nat.zero_add] at sum
      apply credited.trans
      have head : s.claims.head? =
          (s.stakePairs.insertionSort remainderOrder).head?.map fun p => (p.2, p.1.toNat) := by
        rw [claims, List.head?_map]
      rw [head]
      split at h
      next short =>
        rw [BitVec.lt_def, widened] at short
        split at h
        next stake a first =>
          obtain ⟨remainder, left, h⟩ := bind_eq_ok.mp h
          have rest := sub_eq_ok.mp left
          rw [widened] at rest
          have member : a ∈ A := within (stake, a) (List.mem_of_head? first)
          rw [creditBalance_eq credited.sound member] at h
          cases h
          rw [first, show fees.toNat - _ = remainder.toNat by omega]
          convert credited_creditTo credited.sound member (show remainder.toNat ≠ 0 by omega) using 2
          simp
        next none =>
          cases h
          rw [none]
          exact Credited.refl credited.sound
      next full =>
        cases h
        rw [BitVec.lt_def, widened] at full
        rw [show fees.toNat - _ = 0 by omega]
        convert Credited.refl credited.sound using 2
        cases (s.stakePairs.insertionSort remainderOrder).head? <;> simp

theorem sum_stakePairs (s : StateMachine) :
    (s.stakePairs.map fun p => p.1.toNat).sum = (s.activeSet.map s.stake).sum := by
  unfold stakePairs
  induction s.activeSet with
  | nil => rfl
  | cons a rest ih =>
    cases found : s.getValidator a with
    | none => simpa [found, stake] using ih
    | some e => simpa [found, stake] using ih

theorem amount_claims (s : StateMachine) :
    ProRata.amount s.claims = (s.activeSet.map s.stake).sum := by
  rw [← sum_stakePairs, ProRata.amount, claims, List.map_map]
  exact ((List.perm_insertionSort remainderOrder s.stakePairs).map _).sum_eq

def Unstaked (s : StateMachine) : Prop := ∀ a ∈ s.activeSet, s.stake a = 0

instance (s : StateMachine) : Decidable s.Unstaked := inferInstanceAs (Decidable (∀ _ ∈ _, _))

theorem totalStake_eq_zero {s : StateMachine} : totalStake s.stakePairs = 0 ↔ s.Unstaked := by
  rw [← BitVec.toNat_inj, totalStake_toNat, sum_stakePairs, show (0 : U256).toNat = 0 from rfl,
    Nat.min_eq_zero_iff]
  simp [Unstaked, List.sum_eq_zero_iff]

theorem sum_active_le {A : Finset Address} {s : StateMachine} (sound : Sound A s)
    (nodup : s.activeSet.Nodup) : (s.activeSet.map s.stake).sum ≤ s.total A := by
  rw [← List.sum_toFinset _ nodup]
  calc ∑ a ∈ s.activeSet.toFinset, s.stake a
      ≤ ∑ a ∈ A, s.stake a :=
        Finset.sum_le_sum_of_subset fun a h => sound.active a (List.mem_toFinset.mp h)
    _ ≤ s.total A := Finset.sum_le_sum fun _ _ => Nat.le_add_left _ _

/-- With distinct members and stakes that fit a word, exactly the fees are paid. -/
theorem amount_payouts {A : Finset Address} {s : StateMachine} (sound : Sound A s)
    (nodup : s.activeSet.Nodup) (fits : s.total A < 2 ^ 256) (fees : U128) :
    ProRata.amount (s.payouts fees) = if s.Unstaked then 0 else fees.toNat := by
  have bound := sum_active_le sound nodup
  unfold payouts
  simp only [totalStake_eq_zero]
  split
  next => rfl
  next staked =>
    apply ProRata.amount_payouts_of_exact
    · intro none
      apply staked
      have zero := amount_claims s
      rw [none, ProRata.amount_nil, eq_comm, List.sum_eq_zero_iff] at zero
      intro a member
      exact zero _ (List.mem_map_of_mem member)
    · rw [totalStake_toNat, sum_stakePairs, amount_claims]
      omega

theorem creditShare_returns {A : Finset Address} {s : StateMachine} {total weight sum : U256}
    {pair : U256 × Address} (sound : Sound A s) (member : pair.2 ∈ A) (positive : weight ≠ 0) :
    Returns (creditShare total weight (s, sum) pair) ↔ total.toNat * pair.1.toNat < 2 ^ 256 := by
  have nonzero : weight.toNat ≠ 0 := fun none => positive (BitVec.eq_of_toNat_eq (by simpa using none))
  rw [creditShare, returns_bind, ← mul_returns]
  constructor
  · rintro ⟨product, multiplied, _⟩
    exact ⟨product, multiplied⟩
  · rintro ⟨product, multiplied⟩
    refine ⟨product, multiplied, ?_⟩
    rw [div, if_neg nonzero, ok_bind]
    split
    · exact returns_pure _
    · rw [creditBalance_eq sound member, ok_bind]
      exact returns_pure _

theorem creditShares_returns {A : Finset Address} {total weight : U256}
    {pairs : List (U256 × Address)} {s : StateMachine} {sum : U256} (sound : Sound A s)
    (within : ∀ p ∈ pairs, p.2 ∈ A) (positive : weight ≠ 0) :
    Returns (pairs.foldlM (creditShare total weight) (s, sum)) ↔
      ∀ p ∈ pairs, total.toNat * p.1.toNat < 2 ^ 256 := by
  induction pairs generalizing s sum with
  | nil => simp
  | cons pair pairs ih =>
    have member := within pair List.mem_cons_self
    have first : Returns (creditShare total weight (s, sum) pair) ↔ _ :=
      creditShare_returns sound member positive
    have rest {t : StateMachine} {after : U256}
        (head : creditShare total weight (s, sum) pair = .ok (t, after)) :
        Returns (pairs.foldlM (creditShare total weight) (t, after)) ↔ _ :=
      ih (creditShare_cases sound member head).1.sound
        fun p hp => within p (List.mem_cons_of_mem _ hp)
    rw [List.foldlM_cons, returns_bind, List.forall_mem_cons, ← first]
    constructor
    · rintro ⟨⟨t, after⟩, head, returned⟩
      exact ⟨⟨_, head⟩, (rest head).mp returned⟩
    · rintro ⟨⟨⟨t, after⟩, head⟩, fits⟩
      exact ⟨_, head, (rest head).mpr fits⟩

theorem forall_stakePairs {s : StateMachine} {P : Nat → Prop} (zero : P 0) :
    (∀ p ∈ s.stakePairs, P p.1.toNat) ↔ ∀ a ∈ s.activeSet, P (s.stake a) := by
  constructor
  · intro all a member
    cases found : s.getValidator a with
    | none => simpa [stake, found] using zero
    | some e =>
      have pair : (e.stake, a) ∈ s.stakePairs := List.mem_filterMap.mpr ⟨a, member, by simp [found]⟩
      simpa [stake, found] using all _ pair
  · intro all p member
    obtain ⟨here, e, found, same⟩ := stakePairs_member member
    simpa [stake, found, same] using all _ here

/-- The distribution panics exactly when a product of fees and stake overflows. -/
theorem distributeFees_returns {A : Finset Address} {s : StateMachine} {fees : U128}
    (sound : Sound A s) :
    Returns (s.distributeFees fees) ↔ ∀ a ∈ s.activeSet, fees.toNat * s.stake a < 2 ^ 256 := by
  rw [← forall_stakePairs (P := fun stake => fees.toNat * stake < 2 ^ 256) (by simp)]
  unfold distributeFees
  split
  next idle =>
    refine iff_of_true (returns_pure _) fun p member => ?_
    rcases idle with rfl | empty
    · simp
    · simp [stakePairs, empty] at member
  next =>
    dsimp only
    split
    next zero =>
      refine iff_of_true (returns_pure _) fun p member => ?_
      have none := congrArg BitVec.toNat zero
      change (totalStake s.stakePairs).toNat = 0 at none
      rw [totalStake_toNat, Nat.min_eq_zero_iff, List.sum_eq_zero_iff] at none
      have stake : p.1.toNat = 0 :=
        (none.resolve_right (by norm_num)) _ (List.mem_map_of_mem member)
      simp [stake]
    next positive =>
      have within := sorted_within sound
      have widened := fees_widened fees
      have products : Returns (List.foldlM (creditShare (fees.setWidth 256) _) (s, 0) _) ↔ _ :=
        creditShares_returns sound within positive
      simp only [widened, List.mem_insertionSort] at products
      rw [← products, returns_bind]
      constructor
      · rintro ⟨credited, looped, _⟩
        exact ⟨credited, looped⟩
      · rintro ⟨⟨middle, distributed⟩, looped⟩
        refine ⟨_, looped, ?_⟩
        have credited := (creditShares_spec sound within looped).1
        dsimp only
        split
        next short =>
          rw [BitVec.lt_def] at short
          split
          next stake a first =>
            have member : a ∈ A := within (stake, a) (List.mem_of_head? first)
            obtain ⟨remainder, left⟩ := sub_returns.mpr (Nat.le_of_lt short)
            rw [left, ok_bind, creditBalance_eq credited.sound member]
            exact returns_ok _
          next => exact returns_pure _
        next => exact returns_pure _

end StateMachine

end Mononium
