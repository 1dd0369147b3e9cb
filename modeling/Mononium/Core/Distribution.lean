import Mononium.Core.Runs
import Mononium.Lib.Relational

/-! The rule of the fee distribution: everyone in the active set gets its share by stake, rounded
down, and the highest stake gets what rounding leaves over. The order in which the members are
listed does not matter. -/
namespace Mononium

open Rust Scale

namespace StateMachine

section

variable [Blake3]

def activeStake (s : StateMachine) : Nat := (s.activeSet.map s.stake).sum

/-- The share of a stake in the fees, rounded down. -/
def fairShare (s : StateMachine) (fees : U128) (a : Address) : Nat :=
  fees.toNat * s.stake a / s.activeStake

def remainder (s : StateMachine) (fees : U128) : Nat :=
  fees.toNat - (s.activeSet.map (s.fairShare fees)).sum

/-- The member with the highest stake, and with the lowest address of those. -/
def First (s : StateMachine) (a : Address) : Prop :=
  a ∈ s.activeSet ∧ ∀ b ∈ s.activeSet, s.stake b < s.stake a ∨
    s.stake b = s.stake a ∧ beValue a.asBytes ≤ beValue b.asBytes

instance (s : StateMachine) (a : Address) : Decidable (s.First a) :=
  inferInstanceAs (Decidable (_ ∧ ∀ _ ∈ _, _ ∨ _ ∧ _))

/-- What a member is credited. -/
def grant (s : StateMachine) (fees : U128) (a : Address) : Nat :=
  s.fairShare fees a + if s.First a then s.remainder fees else 0

section Rule

variable {s : StateMachine} {fees : U128} {a b : Address}

theorem First.unique (first : s.First a) (second : s.First b) : a = b := by
  apply Address.asBytes_injective
  apply beValue_injective
  · simp
  · rcases first.2 b second.1 with less | ⟨same, below⟩
    · rcases second.2 a first.1 with more | ⟨same, -⟩ <;> omega
    · rcases second.2 a first.1 with more | ⟨-, above⟩ <;> omega

theorem stakePairs_mem {e : ValidatorEntry} (member : a ∈ s.activeSet)
    (found : s.getValidator a = some e) : (e.stake, a) ∈ s.stakePairs :=
  List.mem_filterMap.mpr ⟨a, member, by simp [found]⟩

theorem head_claims (staked : ∃ a ∈ s.activeSet, 0 < s.stake a) :
    ∃ top, s.First top ∧ s.claims.head? = some (top, s.stake top) := by
  obtain ⟨a, member, positive⟩ := staked
  have entry {b : Address} (some_ : 0 < s.stake b) : ∃ e, s.getValidator b = some e := by
    cases found : s.getValidator b with
    | none => simp [stake, found] at some_
    | some e => exact ⟨e, rfl⟩
  obtain ⟨e, found⟩ := entry positive
  have sorted := List.pairwise_insertionSort remainderOrder s.stakePairs
  have inside {p : U256 × Address} : p ∈ s.stakePairs.insertionSort remainderOrder ↔ p ∈ s.stakePairs :=
    List.mem_insertionSort _
  cases list : s.stakePairs.insertionSort remainderOrder with
  | nil => simpa [list] using inside.mpr (stakePairs_mem member found)
  | cons p rest =>
    rw [list] at sorted
    have least : ∀ q ∈ s.stakePairs, remainderOrder p q := by
      intro q there
      have listed := inside.mpr there
      rw [list] at listed
      rcases List.mem_cons.mp listed with rfl | later
      · exact .inr ⟨rfl, le_rfl⟩
      · exact List.rel_of_pairwise_cons sorted later
    obtain ⟨active, x, here, same⟩ := stakePairs_member (inside.mp (by rw [list]; simp : p ∈ _))
    have value : s.stake p.2 = p.1.toNat := by simp [stake, here, same]
    refine ⟨p.2, ⟨active, fun b other => ?_⟩, ?_⟩
    · rcases Nat.eq_zero_or_pos (s.stake b) with none | some_
      · -- Somebody has stake, so the first has.
        have top := least _ (stakePairs_mem member found)
        have here : s.stake a = e.stake.toNat := by simp [stake, found]
        unfold remainderOrder at top
        left
        rw [none, value]
        bv_omega
      · obtain ⟨x, there⟩ := entry some_
        have order := least _ (stakePairs_mem other there)
        have mine : s.stake b = x.stake.toNat := by simp [stake, there]
        unfold remainderOrder at order
        rw [value, mine]
        rcases order with less | ⟨equal, below⟩
        · exact .inl (BitVec.lt_def.mp less)
        · exact .inr ⟨congrArg BitVec.toNat equal.symm, below⟩
    · rw [claims, list, value]
      rfl

theorem received_claims (total weight : Nat) (nodup : s.activeSet.Nodup) (member : a ∈ s.activeSet) :
    ProRata.received (ProRata.shares total weight s.claims) a = total * s.stake a / weight := by
  have listed (l : List Address) (nodup : l.Nodup) :
      ProRata.received (ProRata.shares total weight
        ((l.filterMap fun b => (s.getValidator b).map fun v => (v.stake, b)).map
          fun p => (p.2, p.1.toNat))) a = if a ∈ l then total * s.stake a / weight else 0 := by
    induction l with
    | nil => rfl
    | cons b l ih =>
      obtain ⟨fresh, rest⟩ := List.nodup_cons.mp nodup
      have tail := ih rest
      by_cases same : b = a
      · subst same
        rw [if_neg fresh] at tail
        cases found : s.getValidator b <;> simpa [found, stake, ProRata.shares] using tail
      · have apart : a ≠ b := Ne.symm same
        cases found : s.getValidator b <;> simpa [found, apart, same, ProRata.shares] using tail
  have perm := ((List.perm_insertionSort remainderOrder s.stakePairs).map
    fun p => (p.2, p.1.toNat)).map fun c => (c.1, total * c.2 / weight)
  rw [claims, ProRata.shares, ProRata.received_perm perm]
  exact (listed s.activeSet nodup).trans (if_pos member)

theorem amount_shares_claims (total weight : Nat) :
    ProRata.amount (ProRata.shares total weight s.claims) =
      (s.activeSet.map fun a => total * s.stake a / weight).sum := by
  have listed (l : List Address) : ((l.filterMap fun b => (s.getValidator b).map fun v => (v.stake, b)).map
      fun p => total * p.1.toNat / weight).sum = (l.map fun a => total * s.stake a / weight).sum := by
    induction l with
    | nil => rfl
    | cons b l ih => cases found : s.getValidator b <;> simpa [found, stake] using ih
  rw [← listed, ProRata.amount, ProRata.shares, claims, List.map_map, List.map_map]
  exact ((List.perm_insertionSort remainderOrder s.stakePairs).map _).sum_nat

/-- What the loop and the remainder give a member together. -/
theorem feeShare_eq_grant (nodup : s.activeSet.Nodup) (staked : ∃ a ∈ s.activeSet, 0 < s.stake a)
    (small : s.activeStake < 2 ^ 256) (member : a ∈ s.activeSet) : s.feeShare fees a = s.grant fees a := by
  have total : (totalStake s.stakePairs).toNat = s.activeStake := by
    rw [totalStake_toNat, sum_stakePairs]
    exact Nat.min_eq_left (by rw [activeStake] at small; omega)
  have positive : totalStake s.stakePairs ≠ 0 := by
    rw [ne_eq, totalStake_eq_zero]
    obtain ⟨b, there, some_⟩ := staked
    exact fun none => by
      rw [none b there] at some_
      exact absurd some_ (Nat.lt_irrefl 0)
  obtain ⟨top, first, head⟩ := head_claims staked
  rw [feeShare, payouts, if_neg positive, ProRata.payouts, ProRata.received_append,
    received_claims _ _ nodup member, head, amount_shares_claims, total, grant]
  congr 1
  by_cases here : top = a
  · subst here
    simp only [first, remainder, if_true, Option.map_some, Option.toList_some, ProRata.received_cons,
      ProRata.received_nil, Nat.add_zero]
    rfl
  · have other : ¬s.First a := fun second => here (first.unique second)
    simp [here, other]

theorem sum_grant (nodup : s.activeSet.Nodup) (staked : ∃ a ∈ s.activeSet, 0 < s.stake a) :
    (s.activeSet.map (s.grant fees)).sum = fees.toNat := by
  obtain ⟨top, first, -⟩ := head_claims staked
  have shares : (s.activeSet.map (s.fairShare fees)).sum ≤ fees.toNat := by
    have bound : ProRata.amount (ProRata.shares fees.toNat s.activeStake s.claims) ≤ fees.toNat :=
      ProRata.amount_shares_le (amount_claims s)
    rwa [amount_shares_claims] at bound
  have rest : (s.activeSet.map fun a => if s.First a then s.remainder fees else 0).sum =
      s.remainder fees := by
    have only (b : Address) : s.First b ↔ b = top := ⟨fun second => second.unique first, fun same => same ▸ first⟩
    simp only [only]
    rw [← List.sum_toFinset _ nodup, Finset.sum_ite_eq' _ _ _, if_pos (List.mem_toFinset.mpr first.1)]
  have parts : (s.activeSet.map (s.grant fees)).sum = (s.activeSet.map (s.fairShare fees)).sum +
      (s.activeSet.map fun a => if s.First a then s.remainder fees else 0).sum :=
    List.sum_map_add
  rw [parts, rest, remainder]
  omega

end Rule

section Order

/-- The machines differ in the listing of the active set only. -/
def Relisted (other : List Address) (s t : StateMachine) : Prop := t = s.setActiveSet other

theorem creditBalance_relisted (other : List Address) (s : StateMachine) (a : Address) (amount : U256) :
    Related (Relisted other) (s.creditBalance a amount) ((s.setActiveSet other).creditBalance a amount) := by
  refine Related.bind_same fun found => ?_
  exact .pure rfl

theorem creditShare_relisted {other : List Address} {total weight sum : U256} {s t : StateMachine}
    (relisted : Relisted other s t) (pair : U256 × Address) :
    Related (fun p q => Relisted other p.1 q.1 ∧ p.2 = q.2) (creditShare total weight (s, sum) pair)
      (creditShare total weight (t, sum) pair) := by
  subst relisted
  refine Related.bind_same fun product => Related.bind_same fun share => ?_
  refine .ite (.pure ⟨rfl, rfl⟩) (.bind (creditBalance_relisted other s pair.2 share) ?_)
  rintro u v rfl
  exact .pure ⟨rfl, rfl⟩

/-- The distribution sorts, so the order of the members is lost. -/
theorem distributeFees_relisted {s : StateMachine} {other : List Address} (nodup : s.activeSet.Nodup)
    (perm : other.Perm s.activeSet) (fees : U128) :
    Related (Relisted other) (s.distributeFees fees) ((s.setActiveSet other).distributeFees fees) := by
  have pairs : (s.setActiveSet other).stakePairs.Perm s.stakePairs := perm.filterMap _
  have sums : totalStake (s.setActiveSet other).stakePairs = totalStake s.stakePairs := by
    apply BitVec.eq_of_toNat_eq
    rw [totalStake_toNat, totalStake_toNat, (pairs.map _).sum_nat]
  have distinct : (s.stakePairs.map Prod.snd).Nodup := by
    have listed : (s.stakePairs.map Prod.snd).Sublist s.activeSet := by
      unfold stakePairs
      induction s.activeSet with
      | nil => exact .slnil
      | cons a l ih => cases found : s.getValidator a <;> simp [found, ih]
    exact nodup.sublist listed
  have sorted : (s.setActiveSet other).stakePairs.insertionSort remainderOrder =
      s.stakePairs.insertionSort remainderOrder := by
    have both := ((List.perm_insertionSort remainderOrder _).trans pairs).trans
      (List.perm_insertionSort remainderOrder s.stakePairs).symm
    refine both.eq_of_pairwise (fun p q hp hq one two => ?_) (List.pairwise_insertionSort _ _)
      (List.pairwise_insertionSort _ _)
    have member {r : U256 × Address} (listed : r ∈ s.stakePairs.insertionSort remainderOrder) :
        r ∈ s.stakePairs := (List.mem_insertionSort _).mp listed
    have same : p.2 = q.2 := by
      apply Address.asBytes_injective
      apply beValue_injective (by simp)
      unfold remainderOrder at one two
      bv_omega
    exact List.inj_on_of_nodup_map distinct (member (both.mem_iff.mp hp)) (member hq) same
  have empty : (s.setActiveSet other).activeSet = [] ↔ s.activeSet = [] := by
    rw [← List.perm_nil, ← List.perm_nil]
    exact perm.congr_left []
  unfold totalStake at sums
  unfold distributeFees
  simp only [empty, sums, sorted]
  refine .ite (.pure rfl) (.ite (.pure rfl) ?_)
  refine .bind (R := fun p q => Relisted other p.1 q.1 ∧ p.2 = q.2) ?_ ?_
  · refine .foldlM (fun pair _ p q related => ?_) ⟨rfl, rfl⟩
    obtain ⟨t, sum⟩ := p
    obtain ⟨u, _⟩ := q
    obtain ⟨relisted, rfl⟩ := related
    exact creditShare_relisted relisted pair
  · rintro ⟨t, sum⟩ ⟨u, _⟩ ⟨rfl, rfl⟩
    refine .ite ?_ (.pure rfl)
    split
    next => exact .bind_same fun left => creditBalance_relisted other t _ left
    next => exact .pure rfl

end Order

/-- The fees are paid out exactly, by stake and with the remainder to the highest stake, and the order
in which the members are listed makes no difference. -/
theorem distributeFees_fair {A : Finset Address} {s : StateMachine} {fees : U128} (sound : Sound A s)
    (nodup : s.activeSet.Nodup) (staked : ∃ a ∈ s.activeSet, 0 < s.stake a)
    (small : s.activeStake < 2 ^ 256) (fits : ∀ a ∈ s.activeSet, fees.toNat * s.stake a < 2 ^ 256)
    (room : ∀ a ∈ s.activeSet, s.balance a + s.grant fees a < 2 ^ 256) :
    ∃ t top, s.distributeFees fees = .ok t ∧ s.First top ∧
      (∀ a ∈ s.activeSet, t.balance a = s.balance a + fees.toNat * s.stake a / s.activeStake +
        if a = top then s.remainder fees else 0) ∧
      (s.activeSet.map t.balance).sum = (s.activeSet.map s.balance).sum + fees.toNat ∧
      (∀ a ∈ A, a ∉ s.activeSet → t.account a = s.account a) ∧
      (∀ a ∈ A, t.getValidator a = s.getValidator a) ∧
      ∀ other, other.Perm s.activeSet →
        (s.setActiveSet other).distributeFees fees = .ok (t.setActiveSet other) := by
  obtain ⟨t, paid⟩ := (distributeFees_returns sound).mpr fits
  have credited := distributeFees_spec sound paid
  obtain ⟨top, first, -⟩ := head_claims staked
  have balance (a) (member : a ∈ s.activeSet) : t.balance a = s.balance a + s.grant fees a := by
    have left := room a member
    rw [credited.balance (sound.active a member), feeShare_eq_grant nodup staked small member]
    omega
  refine ⟨t, top, paid, first, fun a member => ?_, ?_, fun a ha absent => ?_, credited.entry, ?_⟩
  · have only : s.First a ↔ a = top := ⟨fun second => second.unique first, fun same => same ▸ first⟩
    rw [balance a member, grant, fairShare, Nat.add_assoc]
    simp only [only]
  · rw [List.map_congr_left balance, List.sum_map_add, sum_grant nodup staked]
  · rw [credited.account a ha, if_pos (feeShare_of_inactive absent fees)]
  · intro other perm
    rcases (distributeFees_relisted nodup perm fees).outcomes with ⟨u, v, one, two, related⟩ |
      ⟨reason, panicked, -⟩
    · cases paid.symm.trans one
      rw [two, related]
    · cases paid.symm.trans panicked

end

section Sample

attribute [local instance] prefixBlake3

set_option maxRecDepth 8192

def feeMachine : StateMachine :=
  valueD (run (new founders) [.block foundingBlock, .setActiveSet [bob, alice]]) (new [])

theorem feeMachine_computed :
    Returns (run (new founders) [.block foundingBlock, .setActiveSet [bob, alice]]) ∧
    feeMachine.activeSet = [bob, alice] ∧ feeMachine.stake alice = 2 * 10 ^ 32 ∧
    feeMachine.stake bob = 10 ^ 32 ∧
    ∀ a ∈ feeMachine.activeSet, feeMachine.balance a + feeMachine.grant 100 a < 2 ^ 256 := by
  decide

/-- Of 100 a third goes to Bob and the rest to Alice, who gets the one that rounding leaves. -/
theorem feeMachine_fair :
    ∃ t top, feeMachine.distributeFees 100 = .ok t ∧ feeMachine.First top ∧
      t.balance bob = feeMachine.balance bob + 33 ∧
      ∀ other, other.Perm feeMachine.activeSet →
        (feeMachine.setActiveSet other).distributeFees 100 = .ok (t.setActiveSet other) := by
  obtain ⟨returns, active, aliceStake, bobStake, room⟩ := feeMachine_computed
  have reachable : Reachable {alice, bob} founders feeMachine :=
    ⟨by decide, by decide, _, by decide, returns.eq_ok (new [])⟩
  have total : feeMachine.activeStake = 3 * 10 ^ 32 := by
    simp [activeStake, active, aliceStake, bobStake]
  obtain ⟨t, top, paid, first, shares, -, -, -, order⟩ :=
    @distributeFees_fair _ _ _ 100 reachable.sound (by rw [active]; decide) ⟨alice, by simp [active], by simp [aliceStake]⟩
    (by rw [total]; decide) (by simp [active, aliceStake, bobStake]) room
  have last : bob ≠ top := by
    rintro rfl
    have above := first.2 alice (by simp [active])
    rw [aliceStake, bobStake] at above
    omega
  refine ⟨t, top, paid, first, ?_, order⟩
  rw [shares bob (by simp [active]), bobStake, total, if_neg last, Nat.add_zero]
  rfl

end Sample

end StateMachine

end Mononium
