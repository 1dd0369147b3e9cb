import Mononium.Mempool.Contents
import Mononium.Lib.StableSort

/-! What a selection takes: the first of all transactions in the order of their priority. The cap
of the selection loop never bites, because an insertion observes it already. -/
namespace Mononium

open Rust StableSort

section Priority

variable {a b : PoolTx}

theorem cmpPriority_isLE : (cmpPriority a b).isLE = true ↔ b.fee.toNat < a.fee.toNat ∨
    a.fee.toNat = b.fee.toNat ∧ (a.receivedAt < b.receivedAt ∨
      a.receivedAt = b.receivedAt ∧ a.nonce.toNat ≤ b.nonce.toNat) := by
  simp only [cmpPriority, Ordering.isLE_then_iff_or, Ordering.then_eq_lt, Ordering.then_eq_eq,
    Nat.compare_eq_lt, Nat.compare_eq_eq, Nat.isLE_compare]
  omega

theorem cmpPriority_lt : cmpPriority a b = .lt ↔ b.fee.toNat < a.fee.toNat ∨
    a.fee.toNat = b.fee.toNat ∧ (a.receivedAt < b.receivedAt ∨
      a.receivedAt = b.receivedAt ∧ a.nonce.toNat < b.nonce.toNat) := by
  simp only [cmpPriority, Ordering.then_eq_lt, Ordering.then_eq_eq, Nat.compare_eq_lt,
    Nat.compare_eq_eq]
  omega

theorem cmpPriority_eq : cmpPriority a b = .eq ↔
    a.fee.toNat = b.fee.toNat ∧ a.receivedAt = b.receivedAt ∧ a.nonce.toNat = b.nonce.toNat := by
  simp only [cmpPriority, Ordering.then_eq_eq, Nat.compare_eq_eq]
  omega

instance : Std.Total fun a b : PoolTx => (cmpPriority a b).isLE = true where
  total a b := by
    simp only [cmpPriority_isLE]
    omega

instance : IsTrans PoolTx fun a b => (cmpPriority a b).isLE = true where
  trans a b c := by
    simp only [cmpPriority_isLE]
    omega

theorem above_iff : Above (fun a b : PoolTx => (cmpPriority a b).isLE = true) a b ↔
    cmpPriority b a = .lt := by
  simp only [Above, cmpPriority_isLE, cmpPriority_lt]
  omega

theorem tied_iff : Tied (fun a b : PoolTx => (cmpPriority a b).isLE = true) a b ↔
    cmpPriority b a = .eq := by
  simp only [Tied, cmpPriority_isLE, cmpPriority_eq]
  omega

end Priority

namespace Mempool

section Listing

variable {self : Mempool} {order : SenderOrder} {d e : PoolTx} {maxCount cap : Nat}

theorem sorted_perm (self : Mempool) (order : SenderOrder) :
    (self.sorted order).Perm (self.listed order) := List.perm_insertionSort _ _

/-- The loop takes what comes first, where the cap never bites. -/
theorem take_eq {pts : List PoolTx} {taken : HashMap Address Nat} {result : List Transaction}
    (room : result.length < maxCount)
    (capped : ∀ a, (taken.lookup a).getD 0 + pts.countP (fun e => e.sender = a) ≤ cap) :
    take cap maxCount pts taken result =
      result ++ (pts.take (maxCount - result.length)).map PoolTx.tx := by
  induction pts generalizing taken result with
  | nil => simp [take]
  | cons pt pts ih =>
    have here := capped pt.sender
    rw [List.countP_cons_of_pos (by simp)] at here
    have below : ¬cap ≤ (taken.lookup pt.sender).getD 0 := by omega
    rw [take, if_neg below]
    dsimp only
    split
    next full =>
      rw [List.length_append, List.length_singleton] at full
      have last : maxCount - result.length = 1 := by omega
      simp [last]
    next more =>
      rw [List.length_append, List.length_singleton] at more
      have next : maxCount - result.length = maxCount - (result.length + 1) + 1 := by omega
      rw [ih]
      · simp [next]
      · simpa using more
      · intro a
        have whole := capped a
        rw [HashMap.lookup_insert_if]
        by_cases same : a = pt.sender
        · rw [if_pos same, same, Option.getD_some]
          omega
        · rw [if_neg same]
          rw [List.countP_cons_of_neg (by simpa using Ne.symm same)] at whole
          exact whole

theorem WellFormed.removeAll_perm {chosen others : List PoolTx} (wellFormed : self.WellFormed)
    (whole : self.all.Perm (chosen ++ others)) :
    ∃ next, (chosen.map PoolTx.tx).foldlM
        (fun pool tx => Prod.snd <$> Mempool.remove pool tx.sender tx.nonce) self = .ok next ∧
      next.WellFormed ∧ next.all.Perm others := by
  induction chosen generalizing self with
  | nil => exact ⟨self, rfl, wellFormed, whole⟩
  | cons pt chosen ih =>
    have member : pt ∈ self.all := whole.mem_iff.mpr (by simp)
    obtain ⟨there, next, ran, kept, -, absent | ⟨other, sender, nonce, taken⟩⟩ :=
      wellFormed.remove pt.sender pt.nonce
    · exact absurd ⟨rfl, rfl⟩ (absent.1 pt member)
    · have listed {e : PoolTx} (inside : e ∈ self.all) : e ∈ self.listed .plain :=
        (listed_perm self .plain).mem_iff.mpr inside
      have same : other = pt :=
        wellFormed.eq_of_key (listed (taken.mem_iff.mpr List.mem_cons_self)) (listed member) sender nonce
      subst same
      obtain ⟨last, rest, well, left⟩ := ih kept (taken.symm.trans whole).cons_inv
      refine ⟨last, ?_, well, left⟩
      have removed : self.remove other.tx.sender other.tx.nonce = .ok (there, next) := ran
      rw [List.map_cons, List.foldlM_cons, removed]
      exact rest

theorem sorted_length (self : Mempool) (order : SenderOrder) : (self.sorted order).length = self.size :=
  ((sorted_perm self order).trans (listed_perm self order)).length_eq.trans (all_length self)

theorem WellFormed.sorted_nodup (wellFormed : self.WellFormed) : (self.sorted order).Nodup :=
  (sorted_perm self order).nodup_iff.mpr (wellFormed.listed_nodup order)

/-- A selection takes the first of the ranking and leaves the others. -/
theorem WellFormed.select_eq (wellFormed : self.WellFormed) (order : SenderOrder) (maxCount : Nat) :
    ∃ next, self.select order maxCount =
        .ok (((self.sorted order).take maxCount).map PoolTx.tx, next) ∧
      next.WellFormed ∧ next.all.Perm ((self.sorted order).drop maxCount) := by
  have perm := (sorted_perm self order).trans (listed_perm self order)
  have nothing (zero : maxCount = 0 ∨ self.count = 0) :
      (self.sorted order).take maxCount = [] ∧ (self.sorted order).drop maxCount = self.sorted order := by
    rcases zero with none | empty
    · simp [none]
    · have none : self.sorted order = [] := by
        apply List.eq_nil_of_length_eq_zero
        rw [sorted_length, ← wellFormed.counted, empty]
        rfl
      simp [none]
  unfold Mempool.select
  split
  next zero =>
    obtain ⟨none, all⟩ := nothing zero
    rw [none, all]
    exact ⟨self, rfl, wellFormed, perm.symm⟩
  next some =>
    have loop : take self.config.perSenderCap.toNat maxCount (self.sorted order) ∅ [] =
        ((self.sorted order).take maxCount).map PoolTx.tx := by
      refine take_eq (by simp; omega) fun a => ?_
      have count : (self.sorted order).countP (fun e => e.sender = a) = (self.ofSender a).length := by
        rw [(sorted_perm self order).countP_eq, List.countP_eq_length_filter]
        exact congrArg List.length (wellFormed.listed_filter order a)
      rw [count]
      simpa using wellFormed.ofSender_length_le a
    have parts : self.all.Perm ((self.sorted order).take maxCount ++ (self.sorted order).drop maxCount) := by
      rw [List.take_append_drop]
      exact perm.symm
    obtain ⟨next, ran, kept, left⟩ := wellFormed.removeAll_perm parts
    refine ⟨next, ?_, kept, left⟩
    dsimp only
    rw [loop, ran]
    rfl

theorem WellFormed.select_all (wellFormed : self.WellFormed) (order : SenderOrder)
    (enough : self.size ≤ maxCount) :
    ∃ next, self.select order maxCount = .ok ((self.sorted order).map PoolTx.tx, next) := by
  obtain ⟨next, ran, -⟩ := wellFormed.select_eq order maxCount
  rw [List.take_of_length_le ((sorted_length self order).trans_le enough)] at ran
  exact ⟨next, ran⟩

end Listing

/-- The best of a pool, at most so many, and what is left of it. -/
structure Selection (pool : Mempool) (maxCount : Nat) (chosen : List PoolTx) (left : Mempool) :
    Prop where
  length : chosen.length = min maxCount pool.count.toNat
  distinct : (chosen.map PoolTx.tx).Nodup
  ranked : chosen.Pairwise fun a b => (cmpPriority a b).isLE = true
  best : ∀ a ∈ chosen, ∀ b ∈ left.all, cmpPriority b a ≠ .lt
  parted : pool.all.Perm (chosen ++ left.all)
  counted : left.count.toNat = left.all.length

theorem WellFormed.selection {self : Mempool} (wellFormed : self.WellFormed) (order : SenderOrder)
    (maxCount : Nat) :
    ∃ chosen left, self.select order maxCount = .ok (chosen.map PoolTx.tx, left) ∧
      Selection self maxCount chosen left := by
  obtain ⟨left, ran, kept, others⟩ := wellFormed.select_eq order maxCount
  have perm := (sorted_perm self order).trans (listed_perm self order)
  have ranked : (self.sorted order).Pairwise fun a b => (cmpPriority a b).isLE = true :=
    List.pairwise_insertionSort _ _
  have nodup : (self.sorted order).Nodup := wellFormed.sorted_nodup
  have split := List.take_append_drop maxCount (self.sorted order)
  have across := ranked
  rw [← split, List.pairwise_append] at across
  obtain ⟨first, -, between⟩ := across
  refine ⟨_, left, ran, ?_, ?_, first, fun a here b there => ?_, ?_, ?_⟩
  · rw [List.length_take, sorted_length, wellFormed.counted]
  · refine List.Nodup.map_on (fun d hd e he same => ?_) (nodup.sublist (List.take_sublist _ _))
    have listed {c : PoolTx} (member : c ∈ (self.sorted order).take maxCount) : c ∈ self.listed order :=
      (sorted_perm self order).mem_iff.mp (List.mem_of_mem_take member)
    exact wellFormed.eq_of_key (listed hd) (listed he) (congrArg Transaction.sender same)
      (congrArg Transaction.nonce same)
  · have order := between a here b (others.mem_iff.mp there)
    rw [cmpPriority_isLE] at order
    rw [Ne, cmpPriority_lt]
    omega
  · refine perm.symm.trans ?_
    conv_lhs => rw [← split]
    exact others.symm.append_left _
  · rw [kept.counted, all_length]

/-- A selection from any pool takes the best, each once, and leaves exactly the others. -/
theorem select_best (config : MempoolConfig) (calls : List Call) :
    ∃ pool, calls.foldlM call (new config) = .ok pool ∧ ∀ order maxCount, ∃ chosen left,
      pool.select order maxCount = .ok (chosen.map PoolTx.tx, left) ∧
      Selection pool maxCount chosen left := by
  obtain ⟨pool, ran, wellFormed, -⟩ := calls_returns config calls
  exact ⟨pool, ran, wellFormed.selection⟩

end Mempool

end Mononium
