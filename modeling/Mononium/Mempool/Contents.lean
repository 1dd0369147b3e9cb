import Mononium.Mempool.Pool

/-! What a pool holds after any calls: each transaction under its sender and nonce, no sender above
the cap, and a count that is right. -/
namespace Mononium

open Rust

deriving instance DecidableEq for PoolTx

namespace Mempool

/-- The clock is monotonic, and `duration_since` does not go below zero. -/
def expired (self : Mempool) (now : Nat) (pt : PoolTx) : Bool := self.config.ttl ≤ now - pt.receivedAt

def evictExpired (self : Mempool) (now : Nat) : Exec (U64 × Mempool) := do
  let evicted := BitVec.ofNat 64 (HashMap.total self.txs fun senderTxs =>
    senderTxs.entries.countP fun f => self.expired now f.2)
  let left := HashMap.mapValues self.txs fun senderTxs =>
    HashMap.retain senderTxs fun pt => !self.expired now pt
  let txs := HashMap.retain left fun senderTxs => !senderTxs.entries.isEmpty
  let count ← sub self.count evicted
  return (evicted, { self with txs, count })

def size (self : Mempool) : Nat := HashMap.total self.txs fun senderTxs => senderTxs.entries.length

def all (self : Mempool) : List PoolTx := self.txs.entries.flatMap fun e => e.2.values

def listed (self : Mempool) (order : SenderOrder) : List PoolTx :=
  (order.entries self.txs).flatMap fun e => e.2.values

def senderTxCount (self : Mempool) (sender : Address) : Nat :=
  ((self.txs.lookup sender).map fun senderTxs => senderTxs.entries.length).getD 0

/-- An entry whose transactions stand under their sender and nonce, and are not too many. -/
structure Filed (cap : Nat) (e : (_ : Address) × BTreeMap U64 PoolTx) : Prop where
  sender : ∀ f ∈ e.2.entries, f.2.sender = e.1
  nonce : ∀ f ∈ e.2.entries, f.2.nonce = f.1
  capped : e.2.entries.length ≤ cap

structure WellFormed (pool : Mempool) : Prop where
  filed : ∀ e ∈ pool.txs.entries, Filed pool.config.perSenderCap.toNat e
  counted : pool.count.toNat = pool.size

inductive Call where
  | insert (tx : Transaction) (now : Nat)
  | remove (sender : Address) (nonce : U64)
  | select (order : SenderOrder) (maxCount : Nat)
  | evictExpired (now : Nat)

def call (self : Mempool) : Call → Exec Mempool
  | .insert tx now => Prod.snd <$> self.insert tx now
  | .remove sender nonce => Prod.snd <$> self.remove sender nonce
  | .select order maxCount => Prod.snd <$> self.select order maxCount
  | .evictExpired now => Prod.snd <$> self.evictExpired now

def Reached (config : MempoolConfig) (self : Mempool) : Prop :=
  ∃ calls : List Call, calls.foldlM call (new config) = .ok self

/-- What is promised of a pool of this configuration. -/
structure Invariant (config : MempoolConfig) (self : Mempool) : Prop where
  configured : self.config = config
  counted : self.count.toNat = self.all.length
  bounded : self.count ≤ config.maxSize
  capped : ∀ sender, self.senderTxCount sender ≤ config.perSenderCap.toNat
  filed : ∀ sender senderTxs, self.txs.lookup sender = some senderTxs → ∀ nonce pt,
    senderTxs.lookup nonce = some pt → pt.sender = sender ∧ pt.nonce = nonce
  single : self.all.Pairwise fun d e => ¬(d.sender = e.sender ∧ d.nonce = e.nonce)
  priced : ∀ pt ∈ self.all, config.minFee ≤ pt.fee

theorem mem_values {senderTxs : BTreeMap U64 PoolTx} {e : PoolTx} :
    e ∈ senderTxs.values ↔ ∃ f ∈ senderTxs.entries, f.2 = e := by
  simp [BTreeMap.values]

theorem values_perm (senderTxs : BTreeMap U64 PoolTx) :
    senderTxs.values.Perm (senderTxs.entries.map Sigma.snd) :=
  (List.perm_insertionSort _ _).map _

theorem values_insert {senderTxs : BTreeMap U64 PoolTx} {nonce : U64}
    (fresh : senderTxs.lookup nonce = none) (pt : PoolTx) :
    (BTreeMap.values (senderTxs.insert nonce pt)).Perm (pt :: senderTxs.values) := by
  have longer := AList.entries_insert_of_notMem (b := pt) (AList.lookup_eq_none.mp fresh)
  refine (values_perm _).trans ?_
  rw [longer, List.map_cons]
  exact (values_perm senderTxs).symm.cons pt

theorem values_erase {senderTxs : BTreeMap U64 PoolTx} {nonce : U64} {pt : PoolTx}
    (found : senderTxs.lookup nonce = some pt) :
    senderTxs.values.Perm (pt :: BTreeMap.values (senderTxs.erase nonce)) := by
  refine (values_perm senderTxs).trans (((HashMap.perm_cons_erase found).map Sigma.snd).trans ?_)
  exact (values_perm (senderTxs.erase nonce)).symm.cons pt

theorem values_length (senderTxs : BTreeMap U64 PoolTx) :
    senderTxs.values.length = senderTxs.entries.length := by
  simp [BTreeMap.values]

section Listing

variable {self : Mempool} {order : SenderOrder} {d e : PoolTx}

theorem listed_perm (self : Mempool) (order : SenderOrder) : (self.listed order).Perm self.all :=
  (order.perm self.txs).flatMap_right _

theorem all_length (self : Mempool) : self.all.length = self.size := by
  simp [all, size, HashMap.total, List.length_flatMap, values_length]

def ofSender (self : Mempool) (sender : Address) : List PoolTx :=
  ((self.txs.lookup sender).map BTreeMap.values).getD []

theorem WellFormed.listed_filter (wellFormed : self.WellFormed) (order : SenderOrder)
    (sender : Address) :
    ((self.listed order).filter fun e => e.sender = sender) = self.ofSender sender := by
  refine HashMap.flatMap_filter_eq (order.perm self.txs) BTreeMap.values sender _ ?_
  intro entry member e there
  obtain ⟨f, inside, rfl⟩ := mem_values.mp there
  rw [(wellFormed.filed entry member).sender f inside]

theorem WellFormed.nonces_nodup (wellFormed : self.WellFormed) (sender : Address) :
    ((self.ofSender sender).map fun e => e.nonce).Nodup := by
  unfold ofSender
  cases found : self.txs.lookup sender with
  | none => exact List.nodup_nil
  | some senderTxs =>
    have filed := wellFormed.filed _ (HashMap.mem_entries_iff.mpr found)
    have keys : (senderTxs.values.map fun e => e.nonce) =
        ((senderTxs.entries.insertionSort fun p q => p.1 ≤ q.1).map Sigma.fst) := by
      rw [BTreeMap.values, List.map_map]
      refine List.map_congr_left fun f member => ?_
      exact filed.nonce f ((List.perm_insertionSort _ _).mem_iff.mp member)
    rw [Option.map_some, Option.getD_some, keys]
    exact ((List.perm_insertionSort _ _).map _).nodup_iff.mpr senderTxs.nodupKeys

theorem WellFormed.eq_of_key (wellFormed : self.WellFormed) (hd : d ∈ self.listed order)
    (he : e ∈ self.listed order) (sender : d.sender = e.sender) (nonce : d.nonce = e.nonce) : d = e := by
  have inside {c : PoolTx} (hc : c ∈ self.listed order) (same : c.sender = e.sender) :
      c ∈ self.ofSender e.sender := by
    rw [← wellFormed.listed_filter order]
    exact List.mem_filter.mpr ⟨hc, by simpa using same⟩
  exact List.inj_on_of_nodup_map (wellFormed.nonces_nodup e.sender) (inside hd sender) (inside he rfl) nonce

theorem WellFormed.listed_nodup (wellFormed : self.WellFormed) (order : SenderOrder) :
    (self.listed order).Nodup := by
  rw [List.nodup_iff_count_le_one]
  intro e
  have single : (self.ofSender e.sender).Nodup := (wellFormed.nonces_nodup e.sender).of_map _
  rw [← wellFormed.listed_filter order] at single
  have count := List.nodup_iff_count_le_one.mp single e
  rwa [List.count_filter (by simp)] at count

theorem WellFormed.ofSender_length_le (wellFormed : self.WellFormed) (sender : Address) :
    (self.ofSender sender).length ≤ self.config.perSenderCap.toNat := by
  unfold ofSender
  cases found : self.txs.lookup sender with
  | none => exact Nat.zero_le _
  | some senderTxs =>
    rw [Option.map_some, Option.getD_some, values_length]
    exact (wellFormed.filed _ (HashMap.mem_entries_iff.mpr found)).capped

/-- The transactions of one sender, and those of all others. -/
theorem all_perm (self : Mempool) (sender : Address) :
    self.all.Perm (((self.txs.lookup sender).getD ∅).values ++
      (self.txs.erase sender).entries.flatMap fun e => e.2.values) := by
  cases found : self.txs.lookup sender with
  | none =>
    have absent : (self.txs.erase sender).entries = self.txs.entries :=
      List.kerase_of_notMem_keys (AList.lookup_eq_none.mp found)
    rw [absent]
    exact .refl _
  | some senderTxs => exact (HashMap.perm_cons_erase found).flatMap_right _

theorem all_insert (self : Mempool) (sender : Address) (senderTxs : BTreeMap U64 PoolTx) (count : U64) :
    all ⟨self.config, self.txs.insert sender senderTxs, count⟩ = senderTxs.values ++
      (self.txs.erase sender).entries.flatMap fun e => e.2.values := by
  rw [all, AList.entries_insert, List.flatMap_cons]
  rfl

theorem WellFormed.stored (wellFormed : self.WellFormed) (member : d ∈ self.all) :
    ∃ senderTxs, self.txs.lookup d.sender = some senderTxs ∧ senderTxs.lookup d.nonce = some d := by
  obtain ⟨⟨sender, senderTxs⟩, entry, inside⟩ := List.mem_flatMap.mp member
  obtain ⟨⟨nonce, pt⟩, there, rfl⟩ := mem_values.mp inside
  have filed := wellFormed.filed _ entry
  have key : pt.sender = sender := filed.sender _ there
  have number : pt.nonce = nonce := filed.nonce _ there
  refine ⟨senderTxs, ?_, ?_⟩
  · rw [key]
    exact HashMap.mem_entries_iff.mp entry
  · rw [number]
    exact HashMap.mem_entries_iff.mp there

end Listing

section Invariant

variable {self next : Mempool} {tx : Transaction} {now : Nat} {sender : Address} {nonce : U64}
  {senderTxs : BTreeMap U64 PoolTx} {cap : Nat}

theorem Filed.empty (sender : Address) : Filed cap ⟨sender, ∅⟩ :=
  ⟨fun _ member => (List.not_mem_nil member).elim, fun _ member => (List.not_mem_nil member).elim,
    Nat.zero_le _⟩

theorem Filed.insert (filed : Filed cap ⟨tx.sender, senderTxs⟩)
    (fresh : senderTxs.lookup tx.nonce = none) (room : senderTxs.entries.length < cap) :
    Filed cap ⟨tx.sender, senderTxs.insert tx.nonce ⟨tx, now⟩⟩ := by
  refine ⟨?_, ?_, ?_⟩
  · intro f member
    rcases HashMap.mem_entries_insert member with rfl | before
    · rfl
    · exact filed.sender f before
  · intro f member
    rcases HashMap.mem_entries_insert member with rfl | before
    · rfl
    · exact filed.nonce f before
  · rw [AList.entries_insert_of_notMem (AList.lookup_eq_none.mp fresh)]
    exact room

theorem Filed.sublist {kept : BTreeMap U64 PoolTx} (filed : Filed cap ⟨sender, senderTxs⟩)
    (sub : kept.entries.Sublist senderTxs.entries) : Filed cap ⟨sender, kept⟩ :=
  ⟨fun f member => filed.sender f (sub.mem member), fun f member => filed.nonce f (sub.mem member),
    sub.length_le.trans filed.capped⟩

theorem WellFormed.lookup (wellFormed : self.WellFormed) (sender : Address) :
    Filed self.config.perSenderCap.toNat ⟨sender, (self.txs.lookup sender).getD ∅⟩ := by
  cases found : self.txs.lookup sender with
  | none => exact .empty sender
  | some senderTxs => exact wellFormed.filed _ (HashMap.mem_entries_iff.mpr found)

theorem wellFormed_new (config : MempoolConfig) : (new config).WellFormed :=
  ⟨fun _ member => (List.not_mem_nil member).elim, rfl⟩

/-- The transactions of one sender, exchanged for others. -/
theorem size_insert (self : Mempool) (sender : Address) (senderTxs : BTreeMap U64 PoolTx) (count : U64) :
    size ⟨self.config, self.txs.insert sender senderTxs, count⟩ +
      ((self.txs.lookup sender).getD ∅).entries.length = self.size + senderTxs.entries.length := by
  have total := HashMap.total_insert self.txs (fun senderTxs => senderTxs.entries.length) sender senderTxs
  cases found : self.txs.lookup sender with
  | none => simpa [found, size] using total
  | some old => simpa [found, size] using total

theorem WellFormed.exchanged (wellFormed : self.WellFormed) {count : U64}
    (filed : Filed self.config.perSenderCap.toNat ⟨sender, senderTxs⟩)
    (counted : count.toNat + ((self.txs.lookup sender).getD ∅).entries.length =
      self.count.toNat + senderTxs.entries.length) :
    WellFormed ⟨self.config, self.txs.insert sender senderTxs, count⟩ := by
  refine ⟨fun e member => ?_, ?_⟩
  · rcases HashMap.mem_entries_insert member with rfl | before
    · exact filed
    · exact wellFormed.filed e before
  · have sizes := size_insert self sender senderTxs count
    have before := wellFormed.counted
    show count.toNat = _
    omega

/-- An insertion always returns. It leaves the pool alone, or only opens an entry for the sender, or
adds the transaction to that entry. -/
theorem insert_cases (self : Mempool) (tx : Transaction) (now : Nat) :
    (∃ e, self.insert tx now = .ok (.error e, self)) ∨
    (∃ e, self.insert tx now = .ok (.error e,
      { self with txs := self.txs.insert tx.sender ((self.txs.lookup tx.sender).getD ∅) })) ∨
    ∃ count, self.config.minFee ≤ tx.fee ∧ self.count < self.config.maxSize ∧
      add self.count 1 = .ok count ∧ ((self.txs.lookup tx.sender).getD ∅).lookup tx.nonce = none ∧
      ((self.txs.lookup tx.sender).getD ∅).entries.length < self.config.perSenderCap.toNat ∧
      self.insert tx now = .ok (.ok (), { self with
        txs := self.txs.insert tx.sender
          (((self.txs.lookup tx.sender).getD ∅).insert tx.nonce ⟨tx, now⟩), count }) := by
  unfold Mempool.insert
  split
  next => exact .inl ⟨_, rfl⟩
  next priced =>
    split
    next => exact .inl ⟨_, rfl⟩
    next full =>
      dsimp only
      split
      next => exact .inr (.inl ⟨_, rfl⟩)
      next fresh =>
        split
        next => exact .inr (.inl ⟨_, rfl⟩)
        next below =>
          have room := BitVec.not_le.mp full
          have bound := self.config.maxSize.isLt
          have less := BitVec.lt_def.mp room
          obtain ⟨count, added⟩ := add_returns.mpr (show self.count.toNat + (1 : U64).toNat < 2 ^ 64 by
            rw [show (1 : U64).toNat = 1 from rfl]
            omega)
          rw [added]
          exact .inr (.inr ⟨count, BitVec.not_lt.mp priced, room, rfl,
            Option.not_isSome_iff_eq_none.mp fresh, Nat.lt_of_not_le below, rfl⟩)

theorem WellFormed.insert {result : Result Unit} (wellFormed : self.WellFormed)
    (ran : self.insert tx now = .ok (result, next)) : next.WellFormed := by
  have filed := wellFormed.lookup tx.sender
  rcases self.insert_cases tx now with ⟨e, refused⟩ | ⟨e, refused⟩ |
      ⟨count, -, -, added, fresh, room, accepted⟩
  · cases refused.symm.trans ran
    exact wellFormed
  · cases refused.symm.trans ran
    exact wellFormed.exchanged filed rfl
  · cases accepted.symm.trans ran
    refine wellFormed.exchanged (filed.insert fresh room) ?_
    have longer : (((self.txs.lookup tx.sender).getD ∅).insert tx.nonce ⟨tx, now⟩).entries.length =
        ((self.txs.lookup tx.sender).getD ∅).entries.length + 1 := by
      rw [AList.entries_insert_of_notMem (AList.lookup_eq_none.mp fresh), List.length_cons]
    have counted := add_eq_ok.mp added
    rw [longer, counted]
    simp
    omega

theorem insert_returns (self : Mempool) (tx : Transaction) (now : Nat) :
    Returns (self.insert tx now) := by
  rcases self.insert_cases tx now with ⟨e, refused⟩ | ⟨e, refused⟩ | ⟨count, -, -, -, -, -, accepted⟩
  · exact ⟨_, refused⟩
  · exact ⟨_, refused⟩
  · exact ⟨_, accepted⟩

/-- What is accepted pays enough, finds room, and is all that is added. -/
theorem insert_accepted (ran : self.insert tx now = .ok (.ok (), next)) :
    self.config.minFee ≤ tx.fee ∧ self.count < self.config.maxSize ∧ next.config = self.config ∧
      next.count.toNat = self.count.toNat + 1 ∧ next.all.Perm (⟨tx, now⟩ :: self.all) := by
  rcases self.insert_cases tx now with ⟨e, refused⟩ | ⟨e, refused⟩ |
    ⟨count, priced, room, added, fresh, -, accepted⟩
  · cases refused.symm.trans ran
  · cases refused.symm.trans ran
  · cases accepted.symm.trans ran
    refine ⟨priced, room, rfl, add_eq_ok.mp added, ?_⟩
    rw [all_insert]
    exact ((values_insert fresh _).append_right _).trans ((all_perm self tx.sender).symm.cons _)

/-- What is refused changes nothing but the entry that it may open. -/
theorem insert_refused {e : LibError} (ran : self.insert tx now = .ok (.error e, next)) :
    next.config = self.config ∧ next.count = self.count ∧ next.all.Perm self.all := by
  rcases self.insert_cases tx now with ⟨e, refused⟩ | ⟨e, refused⟩ | ⟨count, -, -, -, -, -, accepted⟩
  · cases refused.symm.trans ran
    exact ⟨rfl, rfl, .refl _⟩
  · cases refused.symm.trans ran
    refine ⟨rfl, rfl, ?_⟩
    rw [all_insert]
    exact (all_perm self tx.sender).symm
  · cases accepted.symm.trans ran

theorem length_erase {f : PoolTx} (found : senderTxs.lookup nonce = some f) :
    (senderTxs.erase nonce).entries.length + 1 = senderTxs.entries.length := by
  have total := HashMap.total_erase senderTxs (fun _ => 1) nonce
  rw [found] at total
  simpa [HashMap.total] using total

/-- A removal always returns. It takes the transaction with this sender and nonce, if there is one. -/
theorem WellFormed.remove (wellFormed : self.WellFormed) (sender : Address) (nonce : U64) :
    ∃ there next, self.remove sender nonce = .ok (there, next) ∧ next.WellFormed ∧
      next.config = self.config ∧
      ((∀ pt ∈ self.all, ¬(pt.sender = sender ∧ pt.nonce = nonce)) ∧ next = self ∨
        ∃ pt, pt.sender = sender ∧ pt.nonce = nonce ∧ self.all.Perm (pt :: next.all)) := by
  have missing (absent : ∀ senderTxs, self.txs.lookup sender = some senderTxs →
      senderTxs.lookup nonce = none) : ∀ pt ∈ self.all, ¬(pt.sender = sender ∧ pt.nonce = nonce) := by
    rintro pt member ⟨rfl, rfl⟩
    obtain ⟨senderTxs, entry, found⟩ := wellFormed.stored member
    rw [absent senderTxs entry] at found
    cases found
  unfold Mempool.remove
  cases found : self.txs.lookup sender with
  | none =>
    exact ⟨false, self, rfl, wellFormed, rfl, .inl ⟨missing fun _ other => by simp [found] at other, rfl⟩⟩
  | some senderTxs =>
    dsimp only
    split
    next absent =>
      refine ⟨false, self, rfl, wellFormed, rfl, .inl ⟨missing fun other same => ?_, rfl⟩⟩
      cases found.symm.trans same
      exact Option.isNone_iff_eq_none.mp absent
    next present =>
      obtain ⟨pt, there⟩ := Option.ne_none_iff_exists'.mp (mt Option.isNone_iff_eq_none.mpr present)
      have filed : Filed self.config.perSenderCap.toNat ⟨sender, senderTxs⟩ :=
        wellFormed.filed _ (HashMap.mem_entries_iff.mpr found)
      have inside : ⟨nonce, pt⟩ ∈ senderTxs.entries := HashMap.mem_entries_iff.mpr there
      have shorter := length_erase there
      have sizes := HashMap.total_erase self.txs (fun senderTxs => senderTxs.entries.length) sender
      simp only [found, Option.map_some, Option.getD_some] at sizes
      have counted : self.count.toNat = HashMap.total self.txs _ := wellFormed.counted
      obtain ⟨count, taken⟩ := sub_returns.mpr (show (1 : U64).toNat ≤ self.count.toNat by simp; omega)
      have less := sub_eq_ok.mp taken
      rw [show (1 : U64).toNat = 1 from rfl] at less
      have whole := all_perm self sender
      rw [found, Option.getD_some] at whole
      have parts := whole.trans ((values_erase there).append_right _)
      rw [taken, ok_bind]
      refine ⟨true, _, rfl, ?_, rfl, .inr ⟨pt, filed.sender _ inside, filed.nonce _ inside, ?_⟩⟩
      · split
        next empty =>
          have none : (senderTxs.erase nonce).entries.length = 0 := by
            rw [List.isEmpty_iff.mp empty, List.length_nil]
          refine ⟨fun e member => wellFormed.filed e (HashMap.mem_entries_erase member), ?_⟩
          show count.toNat = HashMap.total (self.txs.erase sender) fun senderTxs => senderTxs.entries.length
          omega
        next =>
          refine wellFormed.exchanged (filed.sublist (List.kerase_sublist _ _)) ?_
          rw [found, Option.getD_some]
          omega
      · split
        next empty =>
          rw [BTreeMap.values, List.isEmpty_iff.mp empty] at parts
          exact parts
        next =>
          rw [all_insert]
          exact parts

structure Shrinks (pool next : Mempool) : Prop where
  configured : next.config = pool.config
  all : ∀ pt ∈ next.all, pt ∈ pool.all
  size : next.size ≤ pool.size

theorem Shrinks.refl (self : Mempool) : self.Shrinks self := ⟨rfl, fun _ => id, le_rfl⟩

theorem Shrinks.trans {last : Mempool} (first : self.Shrinks next) (second : next.Shrinks last) :
    self.Shrinks last :=
  ⟨second.configured.trans first.configured, fun pt member => first.all pt (second.all pt member),
    second.size.trans first.size⟩

theorem WellFormed.remove_shrinks (wellFormed : self.WellFormed) (sender : Address) (nonce : U64) :
    ∃ there next, self.remove sender nonce = .ok (there, next) ∧ next.WellFormed ∧ self.Shrinks next := by
  obtain ⟨there, next, ran, kept, configured, same | ⟨pt, -, -, taken⟩⟩ := wellFormed.remove sender nonce
  · obtain ⟨-, rfl⟩ := same
    exact ⟨there, next, ran, kept, .refl next⟩
  · refine ⟨there, next, ran, kept, configured, fun pt member => ?_, ?_⟩
    · exact taken.mem_iff.mpr (List.mem_cons_of_mem _ member)
    · simp [← all_length, taken.length_eq]

theorem WellFormed.removeAll (wellFormed : self.WellFormed) (txs : List Transaction) :
    ∃ next, txs.foldlM (fun pool tx => Prod.snd <$> Mempool.remove pool tx.sender tx.nonce) self =
      .ok next ∧ next.WellFormed ∧ self.Shrinks next := by
  refine foldlM_returns (P := fun next => next.WellFormed ∧ self.Shrinks next) ?_
    ⟨wellFormed, .refl self⟩ txs
  intro pool tx ⟨wellFormed, shrinks⟩
  obtain ⟨there, next, ran, kept, less⟩ := wellFormed.remove_shrinks tx.sender tx.nonce
  exact ⟨next, by rw [ran]; rfl, kept, shrinks.trans less⟩

/-- A selection takes what its loop takes and leaves the rest well formed. -/
theorem WellFormed.select (wellFormed : self.WellFormed) (order : SenderOrder) (maxCount : Nat) :
    ∃ next, next.WellFormed ∧ self.Shrinks next ∧ self.select order maxCount = .ok
      (if maxCount = 0 ∨ self.count = 0 then []
        else take self.config.perSenderCap.toNat maxCount (self.sorted order) ∅ [], next) := by
  unfold Mempool.select
  split
  next => exact ⟨self, wellFormed, .refl self, rfl⟩
  next =>
    obtain ⟨next, ran, kept, shrinks⟩ := wellFormed.removeAll
      (take self.config.perSenderCap.toNat maxCount (self.sorted order) ∅ [])
    refine ⟨next, kept, shrinks, ?_⟩
    dsimp only
    rw [ran]
    rfl

theorem WellFormed.evictExpired (wellFormed : self.WellFormed) (now : Nat) :
    ∃ evicted next, self.evictExpired now = .ok (evicted, next) ∧ next.WellFormed ∧
      self.Shrinks next := by
  have split := HashMap.total_add self.txs
    (fun senderTxs => (HashMap.retain senderTxs fun pt => !self.expired now pt).entries.length)
    fun senderTxs => senderTxs.entries.countP fun f => self.expired now f.2
  have whole : (HashMap.total self.txs fun senderTxs =>
      (HashMap.retain senderTxs fun pt => !self.expired now pt).entries.length +
        senderTxs.entries.countP fun f => self.expired now f.2) = self.size := by
    rw [size]
    congr 1
    funext senderTxs
    have parts := List.length_eq_countP_add_countP (l := senderTxs.entries) fun f => self.expired now f.2
    simp only [HashMap.retain, ← List.countP_eq_length_filter, parts, Bool.not_eq_true,
      Bool.decide_eq_false]
    omega
  rw [whole] at split
  have counted := wellFormed.counted
  have bound := self.count.isLt
  have evicted : (BitVec.ofNat 64 (HashMap.total self.txs fun senderTxs =>
      senderTxs.entries.countP fun f => self.expired now f.2)).toNat =
        HashMap.total self.txs fun senderTxs => senderTxs.entries.countP fun f => self.expired now f.2 := by
    rw [BitVec.toNat_ofNat, Nat.mod_eq_of_lt (by omega)]
  obtain ⟨count, taken⟩ := sub_returns.mpr (show (BitVec.ofNat 64 (HashMap.total self.txs fun senderTxs =>
      senderTxs.entries.countP fun f => self.expired now f.2)).toNat ≤ self.count.toNat by omega)
  have less := sub_eq_ok.mp taken
  refine ⟨_, _, by rw [Mempool.evictExpired, taken, ok_bind]; rfl, ?_⟩
  refine ⟨⟨fun e member => ?_, ?_⟩, rfl, fun pt member => ?_, ?_⟩
  · obtain ⟨kept, _⟩ := List.mem_filter.mp member
    obtain ⟨old, there, rfl⟩ := List.mem_map.mp kept
    exact (wellFormed.filed old there).sublist List.filter_sublist
  · rw [size, HashMap.total_retain (by simp), HashMap.total_mapValues]
    show count.toNat = _
    omega
  · obtain ⟨e, entry, inside⟩ := List.mem_flatMap.mp member
    obtain ⟨f, there, rfl⟩ := mem_values.mp inside
    obtain ⟨old, before, rfl⟩ := List.mem_map.mp (List.mem_filter.mp entry).1
    have stays : f ∈ old.2.entries := (List.mem_filter.mp there).1
    exact List.mem_flatMap.mpr ⟨old, before, mem_values.mpr ⟨f, stays, rfl⟩⟩
  · rw [size, HashMap.total_retain (by simp), HashMap.total_mapValues]
    omega

structure Limited (pool : Mempool) : Prop where
  bounded : pool.size ≤ pool.config.maxSize.toNat
  priced : ∀ pt ∈ pool.all, pool.config.minFee ≤ pt.fee

theorem Limited.shrinks (limited : self.Limited) (shrinks : self.Shrinks next) : next.Limited := by
  refine ⟨?_, ?_⟩
  · rw [shrinks.configured]
    exact shrinks.size.trans limited.bounded
  · rw [shrinks.configured]
    exact fun pt member => limited.priced pt (shrinks.all pt member)

theorem WellFormed.insert_limited {result : Result Unit} (wellFormed : self.WellFormed)
    (limited : self.Limited) (ran : self.insert tx now = .ok (result, next)) :
    next.Limited ∧ next.config = self.config := by
  cases result with
  | error e =>
    obtain ⟨configured, -, same⟩ := insert_refused ran
    refine ⟨limited.shrinks ⟨configured, fun pt => same.mem_iff.mp, ?_⟩, configured⟩
    rw [← all_length, ← all_length, same.length_eq]
  | ok =>
    obtain ⟨priced, room, configured, -, added⟩ := insert_accepted ran
    refine ⟨⟨?_, fun pt member => ?_⟩, configured⟩
    · have longer := added.length_eq
      have less := BitVec.lt_def.mp room
      rw [List.length_cons, all_length, all_length] at longer
      rw [configured, longer, ← wellFormed.counted]
      exact less
    · rw [configured]
      rcases List.mem_cons.mp (added.mem_iff.mp member) with rfl | before
      · exact priced
      · exact limited.priced pt before

/-- A call returns, and keeps what holds of the pool. -/
theorem WellFormed.call (wellFormed : self.WellFormed) (limited : self.Limited) (c : Call) :
    ∃ next, self.call c = .ok next ∧ next.WellFormed ∧ next.Limited ∧ next.config = self.config := by
  cases c with
  | insert tx now =>
    obtain ⟨⟨result, next⟩, ran⟩ := self.insert_returns tx now
    obtain ⟨within, configured⟩ := wellFormed.insert_limited limited ran
    exact ⟨next, by rw [Mempool.call, ran]; rfl, wellFormed.insert ran, within, configured⟩
  | remove sender nonce =>
    obtain ⟨there, next, ran, kept, less⟩ := wellFormed.remove_shrinks sender nonce
    exact ⟨next, by rw [Mempool.call, ran]; rfl, kept, limited.shrinks less, less.configured⟩
  | select order maxCount =>
    obtain ⟨next, kept, less, ran⟩ := wellFormed.select order maxCount
    exact ⟨next, by rw [Mempool.call, ran]; rfl, kept, limited.shrinks less, less.configured⟩
  | evictExpired now =>
    obtain ⟨evicted, next, ran, kept, less⟩ := wellFormed.evictExpired now
    exact ⟨next, by rw [Mempool.call, ran]; rfl, kept, limited.shrinks less, less.configured⟩

theorem calls_returns (config : MempoolConfig) (calls : List Call) :
    ∃ pool, calls.foldlM Mempool.call (new config) = .ok pool ∧ pool.WellFormed ∧ pool.Limited ∧
      pool.config = config := by
  have limited : (new config).Limited := ⟨Nat.zero_le _, fun _ member => (List.not_mem_nil member).elim⟩
  refine foldlM_returns
    (P := fun pool : Mempool => pool.WellFormed ∧ pool.Limited ∧ pool.config = config) ?_
    ⟨wellFormed_new config, limited, rfl⟩ calls
  rintro pool c ⟨wellFormed, within, rfl⟩
  exact wellFormed.call within c

theorem Reached.wellFormed {config : MempoolConfig} (reached : Reached config self) :
    self.WellFormed := by
  obtain ⟨calls, ran⟩ := reached
  obtain ⟨pool, same, wellFormed, -⟩ := calls_returns config calls
  cases same.symm.trans ran
  exact wellFormed

/-- The representation invariant holds after any calls, none of which panics, and a refused
insertion keeps the transactions and their number. -/
theorem calls_keep_invariant (config : MempoolConfig) (calls : List Call) :
    ∃ pool, calls.foldlM Mempool.call (new config) = .ok pool ∧ pool.Invariant config ∧
      ∀ tx now e next, pool.insert tx now = .ok (.error e, next) →
        next.all.Perm pool.all ∧ next.count = pool.count := by
  obtain ⟨pool, ran, wellFormed, limited, rfl⟩ := calls_returns config calls
  refine ⟨pool, ran, ⟨rfl, ?_, ?_, fun sender => ?_, ?_, ?_, limited.priced⟩, ?_⟩
  · rw [wellFormed.counted, all_length]
  · rw [BitVec.le_def, wellFormed.counted]
    exact limited.bounded
  · rw [senderTxCount]
    cases found : pool.txs.lookup sender with
    | none => exact Nat.zero_le _
    | some senderTxs => exact (wellFormed.filed _ (HashMap.mem_entries_iff.mpr found)).capped
  · intro sender senderTxs found nonce pt there
    have filed := wellFormed.filed _ (HashMap.mem_entries_iff.mpr found)
    have inside := HashMap.mem_entries_iff.mpr there
    exact ⟨filed.sender _ inside, filed.nonce _ inside⟩
  · refine (wellFormed.listed_nodup .plain).imp_of_mem ?_
    intro d e hd he apart ⟨sender, nonce⟩
    exact apart (wellFormed.eq_of_key hd he sender nonce)
  · intro tx now e next refused
    obtain ⟨-, same, kept⟩ := insert_refused refused
    exact ⟨kept, same⟩

end Invariant

end Mempool

end Mononium
