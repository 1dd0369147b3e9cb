import Mononium.Mempool.Ranking
import Mononium.Core.Transfers
import Mononium.Consensus.Commitment

/-! Selection against execution. The pool ranks by fee before it looks at nonces, and the block loop
insists on nonces in sequence, so the transfers of a block all execute exactly where the two orders
agree and nothing overflows. -/
namespace Mononium

open Rust Scale StableSort

namespace Mempool

/-- What a selection ranks before a transaction: what has priority over it, and among its equals
what the iteration comes across first. -/
def earlier (listed : List PoolTx) (e : PoolTx) : List PoolTx :=
  (listed.filter fun d => cmpPriority d e = .lt) ++
    (listed.takeWhile fun d => d ≠ e).filter fun d => cmpPriority d e = .eq

def InOrder (self : Mempool) : Prop :=
  ∀ d ∈ self.all, ∀ e ∈ self.all, d.sender = e.sender → d.nonce.toNat < e.nonce.toNat →
    cmpPriority d e = .lt

instance (self : Mempool) : Decidable self.InOrder :=
  inferInstanceAs (Decidable (∀ d ∈ self.all, ∀ e ∈ self.all, _ → _ → _))

/-- A pool of transfers to third parties, sent from accounts of the ledger that carry on from the
nonces there and that the balances cover. -/
structure Queued [Blake3] (pool : Mempool) (chainId : U64) (s : StateMachine) : Prop where
  third : ∀ e ∈ pool.all, e.tx.ToThird
  chain : ∀ e ∈ pool.all, e.tx.chainId = chainId
  known : ∀ e ∈ pool.all, s.account e.sender ≠ none
  consecutive : ∀ sender, (pool.ofSender sender).map (fun e => e.nonce.toNat) =
    List.range' (s.nonce sender) (pool.ofSender sender).length
  affordable : ∀ e ∈ pool.all, spentBy (pool.all.map PoolTx.tx) e.sender ≤ s.balance e.sender

/-- No addition or multiplication overflows when all that is listed is executed in its ranking. -/
structure Fits [Blake3] (s : StateMachine) (listed : List PoolTx) : Prop where
  next : ∀ e ∈ listed, e.nonce.toNat + 1 < 2 ^ 64
  credit : ∀ e ∈ listed, ∀ recipient amount, e.tx.body.payment = some (recipient, amount) →
    s.balance recipient + paidTo ((earlier listed e).map PoolTx.tx) recipient + amount.toNat <
      2 ^ 256 + spentBy ((earlier listed e).map PoolTx.tx) recipient
  fees : pooledFees (listed.map PoolTx.tx) < 2 ^ 128
  count : listed.length < 2 ^ 32
  shares : ∀ a ∈ s.activeSet, pooledFees (listed.map PoolTx.tx) * s.stake a < 2 ^ 256

section Ranking

variable {self : Mempool} {order : SenderOrder} {d e : PoolTx} {pre post : List PoolTx}

theorem WellFormed.before_perm (wellFormed : self.WellFormed)
    (split : self.sorted order = pre ++ e :: post) : pre.Perm (earlier (self.listed order) e) := by
  have member : e ∈ self.listed order := by
    rw [← (sorted_perm self order).mem_iff, split]
    simp
  obtain ⟨x, y, listed, fresh⟩ := List.eq_append_cons_of_mem member
  have first : ((self.listed order).takeWhile fun d => d ≠ e) = x := by
    rw [listed, List.takeWhile_append_of_pos fun d there => by
      rw [decide_eq_true_eq]
      rintro rfl
      exact fresh there]
    simp
  have perm := StableSort.before_perm (wellFormed.listed_nodup order) listed split
  rw [earlier, first]
  refine perm.trans (List.Perm.of_eq ?_)
  simp only [above_iff, tied_iff]

theorem sentBy_map (pts : List PoolTx) (a : Address) :
    sentBy (pts.map PoolTx.tx) a = pts.countP fun d => d.sender = a := by
  induction pts with
  | nil => rfl
  | cons d pts ih =>
    by_cases same : d.sender = a
    · rw [List.countP_cons_of_pos (by simpa using same), ← ih]
      simp [sentBy, ← same, PoolTx.sender, Nat.add_comm]
    · rw [List.countP_cons_of_neg (by simpa using same), ← ih]
      have other : a ≠ d.tx.sender := Ne.symm same
      simp [sentBy, other]

/-- If priority agrees with the nonces, each sender's transactions are ranked by their nonces. -/
theorem WellFormed.sorted_nonces (wellFormed : self.WellFormed) (inOrder : self.InOrder)
    (order : SenderOrder) : (self.sorted order).Pairwise fun a b =>
      a.sender = b.sender → a.nonce.toNat < b.nonce.toNat := by
  have ranked : (self.sorted order).Pairwise fun a b => (cmpPriority a b).isLE = true :=
    List.pairwise_insertionSort _ _
  have nodup : (self.sorted order).Nodup := wellFormed.sorted_nodup
  have listed {c : PoolTx} (member : c ∈ self.sorted order) : c ∈ self.listed order :=
    (sorted_perm self order).mem_iff.mp member
  have pooled {c : PoolTx} (member : c ∈ self.sorted order) : c ∈ self.all :=
    (listed_perm self order).mem_iff.mp (listed member)
  refine (ranked.and nodup).imp_of_mem ?_
  rintro a b ha hb ⟨first, apart⟩ same
  by_contra notLess
  rcases Nat.lt_or_eq_of_le (Nat.le_of_not_lt notLess) with greater | equal
  · have second := inOrder b (pooled hb) a (pooled ha) same.symm greater
    rw [cmpPriority_lt] at second
    rw [cmpPriority_isLE] at first
    omega
  · exact apart (wellFormed.eq_of_key (listed ha) (listed hb) same (BitVec.eq_of_toNat_eq equal.symm))

/-- Of a sender's transactions those with smaller nonces stand before, if priority agrees. -/
theorem WellFormed.sentBy_before (wellFormed : self.WellFormed) (inOrder : self.InOrder)
    (split : self.sorted order = pre ++ e :: post) :
    sentBy (pre.map PoolTx.tx) e.sender =
      (self.ofSender e.sender).countP fun d => d.nonce.toNat < e.nonce.toNat := by
  have ranked := wellFormed.sorted_nonces inOrder order
  rw [split, List.pairwise_append, List.pairwise_cons] at ranked
  obtain ⟨_, ⟨later, _⟩, before⟩ := ranked
  have smaller : ((self.sorted order).countP fun d => d.sender = e.sender ∧ d.nonce.toNat < e.nonce.toNat) =
      pre.countP fun d => d.sender = e.sender := by
    have none : (e :: post).countP (fun d => d.sender = e.sender ∧ d.nonce.toNat < e.nonce.toNat) = 0 := by
      rw [List.countP_eq_zero]
      intro d member
      rw [decide_eq_true_eq]
      rintro ⟨same, less⟩
      rcases List.mem_cons.mp member with rfl | after
      · omega
      · have greater := later d after same.symm
        omega
    rw [split, List.countP_append, none, Nat.add_zero]
    refine List.countP_congr fun d member => ?_
    rw [decide_eq_true_eq, decide_eq_true_eq]
    exact ⟨And.left, fun same => ⟨same, before d member e List.mem_cons_self same⟩⟩
  rw [sentBy_map, ← smaller, (sorted_perm self order).countP_eq, ← wellFormed.listed_filter order,
    List.countP_filter]
  simp [and_comm]

end Ranking

theorem forall_map_split {pts : List PoolTx} {P : List Transaction → Transaction → Prop} :
    (∀ pre tx post, pts.map PoolTx.tx = pre ++ tx :: post → P pre tx) ↔
      ∀ pre e post, pts = pre ++ e :: post → P (pre.map PoolTx.tx) e.tx := by
  constructor
  · rintro all pre e post rfl
    exact all _ _ (post.map PoolTx.tx) (by simp)
  · intro all pre tx post split
    obtain ⟨before, rest, rfl, rfl, same⟩ := List.map_eq_append_iff.mp split
    obtain ⟨e, after, rfl, rfl, rfl⟩ := List.map_eq_cons_iff.mp same
    exact all before e after rfl

theorem countP_range'_lt {start length bound : Nat} (low : start ≤ bound) (high : bound ≤ start + length) :
    (List.range' start length).countP (· < bound) = bound - start := by
  have split := List.range'_append_1 (s := start) (m := bound - start) (n := start + length - bound)
  rw [show bound - start + (start + length - bound) = length by omega,
    show start + (bound - start) = bound by omega] at split
  rw [← split, List.countP_append, List.countP_eq_length.mpr, List.countP_eq_zero.mpr, List.length_range',
    Nat.add_zero]
  · intro n member
    have inside := List.mem_range'_1.mp member
    simp
    omega
  · intro n member
    have inside := List.mem_range'_1.mp member
    simp
    omega

section Execution

open StateMachine

variable [Blake3] {A : Finset Address} {s u : StateMachine} {self : Mempool} {order : SenderOrder}
  {chainId : U64} {e : PoolTx} {pre post : List PoolTx}

/-- In agreement with priority, each nonce is the next one when its turn comes. -/
theorem Queued.nonce (queued : self.Queued chainId s) (wellFormed : self.WellFormed)
    (inOrder : self.InOrder) (split : self.sorted order = pre ++ e :: post) :
    e.nonce.toNat = s.nonce e.sender + sentBy (pre.map PoolTx.tx) e.sender := by
  have consecutive := queued.consecutive e.sender
  have member : e ∈ self.ofSender e.sender := by
    rw [← wellFormed.listed_filter order, List.mem_filter, ← (sorted_perm self order).mem_iff, split]
    simp
  have inside : e.nonce.toNat ∈ List.range' (s.nonce e.sender) (self.ofSender e.sender).length := by
    rw [← consecutive]
    exact List.mem_map.mpr ⟨e, member, rfl⟩
  obtain ⟨low, high⟩ := List.mem_range'_1.mp inside
  have smaller : ((self.ofSender e.sender).countP fun d => d.nonce.toNat < e.nonce.toNat) =
      ((self.ofSender e.sender).map fun d => d.nonce.toNat).countP (· < e.nonce.toNat) := by
    rw [List.countP_map]
    rfl
  rw [wellFormed.sentBy_before inOrder split, smaller, consecutive, countP_range'_lt low high.le]
  omega

/-- If each nonce is the next one when its turn comes, priority agrees with the nonces. -/
theorem inOrder_of_nonces (nonces : ∀ pre e post, self.sorted order = pre ++ e :: post →
      e.nonce.toNat = s.nonce e.sender + sentBy (pre.map PoolTx.tx) e.sender) :
    self.InOrder := by
  intro d hd e he same less
  have ranked : (self.sorted order).Pairwise fun a b => (cmpPriority a b).isLE = true :=
    List.pairwise_insertionSort _ _
  have perm := (sorted_perm self order).trans (listed_perm self order)
  by_contra late
  have before : (cmpPriority e d).isLE = true ∧ ¬(cmpPriority d e).isLE = true := by
    rw [cmpPriority_lt] at late
    rw [cmpPriority_isLE, cmpPriority_isLE]
    omega
  obtain ⟨x, y, split⟩ := List.append_of_mem (perm.mem_iff.mpr he)
  have there := perm.mem_iff.mpr hd
  rw [split] at ranked there
  rw [List.pairwise_append] at ranked
  have first := nonces x e y split
  -- The smaller nonce stands behind the larger one, where it is not the next.
  rcases List.mem_append.mp there with inX | inY
  · exact before.2 (ranked.2.2 d inX e List.mem_cons_self)
  · rcases List.mem_cons.mp inY with rfl | after
    · omega
    · obtain ⟨z, w, rfl⟩ := List.append_of_mem after
      have second := nonces (x ++ e :: z) d w (by rw [split]; simp)
      rw [List.map_append, sentBy_append, same] at second
      omega

/-- All are ready in the ranking exactly if priority agrees with the nonces and nothing overflows. -/
theorem Queued.ready_iff (queued : self.Queued chainId s) (wellFormed : self.WellFormed) :
    ((∀ pre e post, self.sorted order = pre ++ e :: post → Ready s (pre.map PoolTx.tx) e.tx) ∧
      ∀ a ∈ s.activeSet, pooledFees ((self.sorted order).map PoolTx.tx) * s.stake a < 2 ^ 256) ↔
    self.InOrder ∧ Fits s (self.listed order) := by
  have perm := sorted_perm self order
  have fees : pooledFees ((self.sorted order).map PoolTx.tx) = _ := pooledFees_perm (perm.map _)
  have credits {pre post : List PoolTx} {e : PoolTx} (split : self.sorted order = pre ++ e :: post)
      (a : Address) : paidTo (pre.map PoolTx.tx) a =
          paidTo ((earlier (self.listed order) e).map PoolTx.tx) a ∧
        spentBy (pre.map PoolTx.tx) a =
          spentBy ((earlier (self.listed order) e).map PoolTx.tx) a := by
    have before := (wellFormed.before_perm split).map PoolTx.tx
    exact ⟨paidTo_perm before a, spentBy_perm before a⟩
  constructor
  · rintro ⟨ready, shares⟩
    have placed {e : PoolTx} (member : e ∈ self.listed order) :=
      List.append_of_mem (perm.mem_iff.mpr member)
    refine ⟨inOrder_of_nonces fun pre e post split => (ready pre e post split).nonce, ?_⟩
    refine ⟨?_, ?_, ?_, ?_, fun a active => fees ▸ shares a active⟩
    · intro e member
      obtain ⟨pre, post, split⟩ := placed member
      exact (ready pre e post split).next
    · intro e member recipient amount body
      obtain ⟨pre, post, split⟩ := placed member
      rw [← (credits split recipient).1, ← (credits split recipient).2]
      exact (ready pre e post split).credit recipient amount body
    · rw [← fees]
      rcases List.eq_nil_or_concat' (self.sorted order) with none | ⟨pre, e, split⟩
      · rw [none]
        decide
      · have last := (ready pre e [] split).fees
        rwa [split, List.map_append, List.map_singleton, pooledFees_concat]
    · rw [← perm.length_eq]
      rcases List.eq_nil_or_concat' (self.sorted order) with none | ⟨pre, e, split⟩
      · rw [none]
        decide
      · have last := (ready pre e [] split).count
        rw [split]
        simpa using last
  · rintro ⟨inOrder, fits⟩
    refine ⟨fun pre e post split => ?_, fun a active => fees ▸ fits.shares a active⟩
    have member : e ∈ self.listed order := by
      rw [← perm.mem_iff, split]
      simp
    have whole : (self.sorted order).map PoolTx.tx = pre.map PoolTx.tx ++ e.tx :: post.map PoolTx.tx := by
      rw [split]
      simp
    refine ⟨queued.nonce wellFormed inOrder split, fits.next e member, ?_, ?_, ?_⟩
    · intro recipient amount body
      rw [(credits split recipient).1, (credits split recipient).2]
      exact fits.credit e member recipient amount body
    · have bound := fits.fees
      rw [← fees, whole, pooledFees_append, pooledFees_cons] at bound
      omega
    · have bound := fits.count
      rw [← perm.length_eq, split, List.length_append, List.length_cons] at bound
      rw [List.length_map]
      omega

section Block

variable {config : MempoolConfig} {accounts : List (Address × Account)} {maxCount : Nat}
  {txs : List Transaction} {rest : Mempool} {parent block : Block} {proposer : Address}
  {timestamp : U64} {signature : Falcon512Signature}

/-- A block of everything in the pool executes it all exactly if each transfer is ready when its
turn in the ranking comes, and the products of the distribution do not overflow. -/
theorem Queued.executes_iff (queued : self.Queued parent.header.chainId s)
    (wellFormed : self.WellFormed) (reachable : Reachable A accounts s)
    (within : ∀ e ∈ self.all, e.tx.Within A) (enough : self.size ≤ maxCount)
    (selected : self.select order maxCount = .ok (txs, rest))
    (built : buildBlock s txs parent proposer timestamp signature = .ok (block, u)) :
    (∃ receipt t, u.applyBlock block = .ok (receipt, t) ∧ receipt.failedCount = 0) ↔
      (∀ pre e post, self.sorted order = pre ++ e :: post → Ready s (pre.map PoolTx.tx) e.tx) ∧
      ∀ a ∈ s.activeSet, pooledFees ((self.sorted order).map PoolTx.tx) * s.stake a < 2 ^ 256 := by
  obtain ⟨next, ran⟩ := wellFormed.select_all order enough
  cases selected.symm.trans ran
  obtain ⟨-, chain, body, alike, soundU, same⟩ := buildBlock_spec reachable.sound built
  have perm := (sorted_perm self order).trans (listed_perm self order)
  have nonce (a : Address) : u.nonce a = s.nonce a := by
    rw [StateMachine.nonce, alike.account]
    rfl
  have balance (a : Address) : u.balance a = s.balance a := by
    rw [StateMachine.balance, alike.account]
    rfl
  have pooled {P : Transaction → Prop} (all : ∀ e ∈ self.all, P e.tx) :
      ∀ tx ∈ block.body.transactions, P tx := by
    intro tx member
    rw [body] at member
    obtain ⟨e, there, rfl⟩ := List.mem_map.mp member
    exact all e (perm.mem_iff.mp there)
  have affordable : ∀ tx ∈ block.body.transactions,
      spentBy block.body.transactions tx.sender ≤ u.balance tx.sender := by
    refine pooled fun e there => ?_
    rw [balance, body, spentBy_perm (perm.map _)]
    exact queued.affordable e there
  rw [applyBlock_transfers_iff soundU (pooled within) (pooled queued.third)
    (pooled fun e there => (queued.chain e there).trans chain.symm)
    (pooled fun e there => (alike.account _).symm ▸ queued.known e there) affordable,
    body, same.active, forall_map_split]
  refine and_congr ?_ ?_
  · refine forall₄_congr fun pre e post _ => ?_
    exact ⟨fun ready => ready.congr (fun a => (nonce a).symm) fun a => (balance a).symm,
      fun ready => ready.congr nonce balance⟩
  · refine forall₂_congr fun a _ => ?_
    rw [alike.stake]

/-- A block of everything in the pool executes it all exactly if priority agrees with the nonces and
nothing overflows. -/
theorem select_executes_iff (reached : Reached config self) (reachable : Reachable A accounts s)
    (within : ∀ e ∈ self.all, e.tx.Within A) (queued : self.Queued parent.header.chainId s)
    (enough : self.size ≤ maxCount) (selected : self.select order maxCount = .ok (txs, rest))
    (built : buildBlock s txs parent proposer timestamp signature = .ok (block, u)) :
    (∃ receipt t, u.applyBlock block = .ok (receipt, t) ∧ receipt.failedCount = 0) ↔
      self.InOrder ∧ Fits s (self.listed order) := by
  have wellFormed := reached.wellFormed
  rw [queued.executes_iff wellFormed reachable within enough selected built,
    queued.ready_iff wellFormed]

end Block

end Execution

section Sample

open StateMachine

attribute [local instance] prefixBlake3

set_option maxRecDepth 8192

def pairTx (nonce : U64) (fee : U256) : Transaction := { transferTx alice bob 10 nonce with fee }

def pairConfig : MempoolConfig := ⟨10, 600, 1, 50⟩

def pairPool (first second : U256) : Mempool :=
  valueD ([Call.insert (pairTx 0 first) 1, .insert (pairTx 1 second) 2].foldlM call (new pairConfig))
    (new pairConfig)

def pairMachine : StateMachine := .new [(alice, Account.new 1000)]

theorem pairMachine_reachable :
    Reachable {alice, bob} [(alice, Account.new 1000)] pairMachine :=
  new_reachable (by decide) (by decide)

theorem pair_built (txs : List Transaction) : Returns
    (buildBlock pairMachine txs (testBlock []) alice 1700000001 dummySig) := by
  obtain ⟨after, root, _⟩ := pairMachine_reachable.sound.stateRoot
  have height : add (testBlock []).header.height 1 = .ok 2 := by decide
  rw [buildBlock, height, ok_bind, root, ok_bind]
  exact returns_pure _

theorem pair_queued {first second : U256} (wellFormed : (pairPool first second).WellFormed)
    (all : (pairPool first second).all = [⟨pairTx 0 first, 1⟩, ⟨pairTx 1 second, 2⟩])
    (affordable : first.toNat + second.toNat + 20 ≤ 1000) :
    (pairPool first second).Queued (testBlock []).header.chainId pairMachine := by
  have of_pair {P : PoolTx → Prop} (zero : P ⟨pairTx 0 first, 1⟩) (one : P ⟨pairTx 1 second, 2⟩) :
      ∀ e ∈ (pairPool first second).all, P e := by
    rw [all]
    simpa using ⟨zero, one⟩
  have nonce : pairMachine.nonce alice = 0 := by decide
  have balance : pairMachine.balance alice = 1000 := by decide
  have third : bob ≠ alice := by decide
  have known : pairMachine.account alice ≠ none := by decide
  refine ⟨of_pair ⟨bob, 10, rfl, third⟩ ⟨bob, 10, rfl, third⟩, of_pair rfl rfl, of_pair known known,
    fun sender => ?_, ?_⟩
  · rw [← wellFormed.listed_filter .plain, show (pairPool first second).listed .plain = _ from all]
    by_cases same : sender = alice
    · subst same
      rw [nonce]
      rfl
    · have other : alice ≠ sender := Ne.symm same
      simp [PoolTx.sender, pairTx, transferTx, other]
  · have spent : spentBy ([⟨pairTx 0 first, 1⟩, ⟨pairTx 1 second, 2⟩].map PoolTx.tx) alice =
        first.toNat + second.toNat + 20 := by
      simp [spentBy, pairTx, transferTx, Transaction.debit, TxBody.price]
      omega
    rw [← all] at spent
    refine of_pair ?_ ?_
    · exact (spent.trans_le affordable).trans_eq balance.symm
    · exact (spent.trans_le affordable).trans_eq balance.symm

theorem equalFees_execute : ∃ block u receipt t,
    buildBlock pairMachine [pairTx 0 1, pairTx 1 1] (testBlock []) alice 1700000001 dummySig =
      .ok (block, u) ∧
    u.applyBlock block = .ok (receipt, t) ∧ receipt.failedCount = 0 := by
  obtain ⟨⟨block, u⟩, built⟩ := pair_built [pairTx 0 1, pairTx 1 1]
  have reached : Reached pairConfig (pairPool 1 1) := ⟨_, Returns.eq_ok (by decide) _⟩
  have all : (pairPool 1 1).all = [⟨pairTx 0 1, 1⟩, ⟨pairTx 1 1, 2⟩] := rfl
  have selected : (pairPool 1 1).select .plain 500 = .ok ([pairTx 0 1, pairTx 1 1], new pairConfig) := rfl
  have fits : Fits pairMachine ((pairPool 1 1).listed .plain) := by
    refine ⟨by decide, ?_, by decide, by decide, fun _ active => by cases active⟩
    intro e member recipient amount body
    change e ∈ [⟨pairTx 0 1, 1⟩, ⟨pairTx 1 1, 2⟩] at member
    rcases List.mem_pair.mp member with rfl | rfl
    · cases body
      decide
    · cases body
      decide
  obtain ⟨receipt, t, applied, clean⟩ := (select_executes_iff reached pairMachine_reachable (by decide)
    (pair_queued reached.wellFormed all (by decide)) (by decide) selected built).mpr ⟨by decide, fits⟩
  exact ⟨block, u, receipt, t, built, applied, clean⟩

/-- The higher fee of the second transfer puts it before the first. -/
theorem risingFees_not_execute :
    Reached pairConfig (pairPool 1 2) ∧ Reachable {alice, bob} [(alice, Account.new 1000)] pairMachine ∧
    (∀ e ∈ (pairPool 1 2).all, e.tx.Within {alice, bob}) ∧
    (pairPool 1 2).Queued (testBlock []).header.chainId pairMachine ∧ (pairPool 1 2).size ≤ 500 ∧
    ∃ txs rest block u, (pairPool 1 2).select .plain 500 = .ok (txs, rest) ∧
      buildBlock pairMachine txs (testBlock []) alice 1700000001 dummySig = .ok (block, u) ∧
      ¬∃ receipt t, u.applyBlock block = .ok (receipt, t) ∧ receipt.failedCount = 0 := by
  have reached : Reached pairConfig (pairPool 1 2) := ⟨_, Returns.eq_ok (by decide) _⟩
  have all : (pairPool 1 2).all = [⟨pairTx 0 1, 1⟩, ⟨pairTx 1 2, 2⟩] := rfl
  have selected : (pairPool 1 2).select .plain 500 = .ok ([pairTx 1 2, pairTx 0 1], new pairConfig) := rfl
  obtain ⟨⟨block, u⟩, built⟩ := pair_built [pairTx 1 2, pairTx 0 1]
  have queued := pair_queued reached.wellFormed all (by decide)
  have within : ∀ e ∈ (pairPool 1 2).all, e.tx.Within {alice, bob} := by decide
  refine ⟨reached, pairMachine_reachable, within, queued, by decide, _, _, block, u, selected, built,
    fun executes => ?_⟩
  have ready := ((queued.executes_iff reached.wellFormed pairMachine_reachable within (by decide)
    selected built).mp executes).1 [] ⟨pairTx 1 2, 2⟩ [⟨pairTx 0 1, 1⟩] rfl
  exact absurd ready.nonce (by decide)

end Sample

end Mempool

end Mononium
