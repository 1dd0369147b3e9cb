import Mononium.Core.Runs
import Mononium.Core.Footprint
import Mononium.Crypto.PeakHash

/-! Two machines with one state root. The leaves are then the same and the block loop
runs alike on both, but the distribution of fees also reads the active set, which the
root does not cover. -/
namespace Mononium

open Rust Scale

namespace StateMachine

/-- The trees hold the same leaves. -/
def Alike (s t : StateMachine) : Prop :=
  ∀ digest, s.state.leaves.lookup digest = t.state.leaves.lookup digest

structure Executed.Alike (x y : Executed) : Prop where
  machine : StateMachine.Alike x.machine y.machine
  sender : x.sender = y.sender
  result : x.result = y.result

structure Progress.Alike (p q : Progress) : Prop where
  machine : StateMachine.Alike p.machine q.machine
  blockFees : p.blockFees = q.blockFees
  txCount : p.txCount = q.txCount
  failedCount : p.failedCount = q.failedCount

namespace Alike

variable {s t : StateMachine}

variable [Blake3]

theorem get (alike : Alike s t) (key : Bytes) : s.state.get key = t.state.get key := alike _

theorem getAccount (alike : Alike s t) (a : Address) : s.getAccount a = t.getAccount a := by
  rw [StateMachine.getAccount, StateMachine.getAccount, alike.get]

theorem getValidator (alike : Alike s t) (a : Address) : s.getValidator a = t.getValidator a := by
  rw [StateMachine.getValidator, StateMachine.getValidator, alike.get]

theorem writes (alike : Alike s t) (ws : List Write) : Alike (s.writes ws) (t.writes ws) :=
  fun digest => lookup_writes_congr (alike digest) ws

theorem setAccount (alike : Alike s t) (a : Address) (x : Account) :
    Alike (s.setAccount a x) (t.setAccount a x) :=
  alike.writes [.account a x]

/-- The handlers do the same writes to both. -/
theorem execute (alike : Alike s t) (sender : Account) (tx : Transaction) :
    Related Executed.Alike (s.execute sender tx) (t.execute sender tx) := by
  have agree : AlikeOn tx.keys s t := fun key _ => alike.get key
  apply (agree.execute sender).mono
  rintro ⟨x, left, result⟩ ⟨y, _, _⟩ ⟨⟨ws, -, rfl, rfl⟩, rfl, rfl⟩
  exact ⟨alike.writes ws, rfl, rfl⟩

end Alike

section Loop

variable [Blake3]

theorem applyTx_related (chainId : U64) {p q : Progress} (alike : Progress.Alike p q)
    (tx : Transaction) : Related Progress.Alike (applyTx chainId p tx) (applyTx chainId q tx) := by
  have ⟨machine, fees, count, failed⟩ := alike
  have skipped : Related Progress.Alike
      (add p.failedCount 1 >>= fun failedCount => pure { p with failedCount })
      (add q.failedCount 1 >>= fun failedCount => pure { q with failedCount }) := by
    rw [failed]
    apply Related.bind_same
    intro failedCount
    exact .pure ⟨machine, fees, count, rfl⟩
  unfold applyTx
  apply Related.ite skipped
  rw [machine.getAccount]
  apply Related.bind_same
  intro found
  cases found with
  | none => exact skipped
  | some sender =>
    apply Related.bind (machine.execute sender tx)
    rintro ⟨after, left, result⟩ ⟨other, _, _⟩ ⟨same, rfl, rfl⟩
    rw [fees, count, failed]
    cases result with
    | ok _ =>
      apply Related.bind_same
      intro blockFees
      apply Related.bind_same
      intro txCount
      exact .pure ⟨same.setAccount _ _, rfl, rfl, rfl⟩
    | error _ =>
      apply Related.ite
      · apply Related.bind_same
        intro balance
        apply Related.bind_same
        intro blockFees
        apply Related.bind_same
        intro failedCount
        exact .pure ⟨same.setAccount _ _, rfl, rfl, rfl⟩
      · apply Related.bind_same
        intro failedCount
        exact .pure ⟨same, rfl, rfl, rfl⟩

/-- The loop reads nothing but the leaves. -/
theorem applyTxs_related (chainId : U64) {s t : StateMachine} (alike : Alike s t)
    (txs : List Transaction) :
    Related Progress.Alike (applyTxs chainId ⟨s, 0, 0, 0⟩ txs) (applyTxs chainId ⟨t, 0, 0, 0⟩ txs) :=
  Related.foldlM (fun tx _ _ _ related => applyTx_related chainId related tx)
    ⟨alike, rfl, rfl, rfl⟩

end Loop

section Distribution

variable [Blake3] {A : Finset Address} {s t : StateMachine}

theorem Alike.account (alike : Alike s t) (a : Address) : s.account a = t.account a := by
  rw [StateMachine.account, StateMachine.account, alike.get]

theorem Alike.stake (alike : Alike s t) (a : Address) : s.stake a = t.stake a := by
  rw [StateMachine.stake, StateMachine.stake, alike.getValidator]

/-- The shares come from the active set and the entries. -/
theorem Alike.feeShare (alike : Alike s t) {set : List Address} (active : s.activeSet = set)
    (fees : U128) : s.feeShare fees = (t.setActiveSet set).feeShare fees := by
  have pairs : s.stakePairs = (t.setActiveSet set).stakePairs := by
    simp only [stakePairs, active, alike.getValidator]
    rfl
  funext a
  simp only [StateMachine.feeShare, payouts, claims, pairs]

/-- No product of the fees and a stake overflows. -/
def Payable (s : StateMachine) (activeSet : List Address) (fees : U128) : Prop :=
  ∀ a ∈ activeSet, fees.toNat * s.stake a < 2 ^ 256

instance (s : StateMachine) (activeSet : List Address) (fees : U128) :
    Decidable (s.Payable activeSet fees) := inferInstanceAs (Decidable (∀ _ ∈ _, _))

/-- The two active sets leave every account with the same balance once `fees` are
distributed, or both distributions overflow. -/
structure AllotAlike (A : Finset Address) (s : StateMachine) (first second : List Address)
    (fees : U128) : Prop where
  payable : Payable s first fees ↔ Payable s second fees
  balance : Payable s first fees → ∀ a ∈ A,
    min (s.balance a + (s.setActiveSet first).feeShare fees a) (2 ^ 256 - 1) =
      min (s.balance a + (s.setActiveSet second).feeShare fees a) (2 ^ 256 - 1)

/-- Both machines report this root. -/
def SameRoot (s t : StateMachine) : Prop :=
  ∃ root s' t', s.stateRoot = .ok (root, s') ∧ t.stateRoot = .ok (root, t')

theorem sameRoot_iff (hs : Sound A s) (ht : Sound A t) : SameRoot s t ↔
    SparseMerkleTree.referenceRoot s.state.leaves = SparseMerkleTree.referenceRoot t.state.leaves := by
  obtain ⟨s', rootS, _⟩ := hs.stateRoot
  obtain ⟨t', rootT, _⟩ := ht.stateRoot
  simp only [SameRoot, rootS, rootT, Except.ok.injEq, Prod.mk.injEq]
  constructor
  · rintro ⟨root, _, _, ⟨rfl, _⟩, same, _⟩
    exact same.symm
  · intro same
    exact ⟨_, s', t', ⟨rfl, rfl⟩, same.symm, rfl⟩

/-- Applying the block gives equal receipts and equal roots, or panics on both. -/
structure Agrees (s t : StateMachine) (block : Block) : Prop where
  returns : Returns (s.applyBlock block) ↔ Returns (t.applyBlock block)
  results : ∀ receipt other u v, s.applyBlock block = .ok (receipt, u) →
    t.applyBlock block = .ok (other, v) → receipt = other ∧ SameRoot u v

/-- Machines that hold one ledger and credit different shares agree on the root exactly
when every account ends with the same balance. -/
theorem Credited.root_eq_iff {u v : StateMachine} {first second : Address → Nat}
    (alike : Alike s t) (one : Credited A s u first) (two : Credited A t v second)
    (free : SparseMerkleTree.CollisionFree u.state.leaves v.state.leaves) :
    SparseMerkleTree.referenceRoot u.state.leaves = SparseMerkleTree.referenceRoot v.state.leaves ↔
      ∀ a ∈ A, min (s.balance a + first a) (2 ^ 256 - 1) =
        min (s.balance a + second a) (2 ^ 256 - 1) := by
  have ledger : SameLedger A u v ↔ ∀ a ∈ A, min (s.balance a + first a) (2 ^ 256 - 1) =
      min (s.balance a + second a) (2 ^ 256 - 1) := by
    have account (a : Address) (ha : a ∈ A) : u.account a = v.account a ↔
        min (s.balance a + first a) (2 ^ 256 - 1) = min (s.balance a + second a) (2 ^ 256 - 1) := by
      rw [one.account a ha, two.account a ha, ← alike.account, Account.credited_eq_iff]
      rfl
    constructor
    · intro same a ha
      exact (account a ha).mp (same.account a ha)
    · intro same
      refine ⟨fun a ha => (account a ha).mpr (same a ha), fun a ha => ?_⟩
      rw [one.entry a ha, two.entry a ha, alike.getValidator]
  rw [← ledger]
  constructor
  · intro root
    exact sameLedger_of_lookup_eq (SparseMerkleTree.lookup_eq_of_referenceRoot_eq free root)
  · intro same
    exact SparseMerkleTree.referenceRoot_congr (same.lookup_eq one.sound two.sound)

theorem Alike.allotAlike (alike : Alike s t) {first second : List Address} {fees : U128}
    (allot : AllotAlike A s first second fees) : AllotAlike A t first second fees := by
  have payable (set : List Address) : Payable t set fees ↔ Payable s set fees := by
    simp only [Payable, alike.stake]
  have share (set : List Address) : (s.setActiveSet set).feeShare fees =
      (t.setActiveSet set).feeShare fees :=
    Alike.feeShare (s := s.setActiveSet set) alike rfl fees
  refine ⟨by rw [payable, payable]; exact allot.payable, fun paid a ha => ?_⟩
  have same := allot.balance ((payable first).mp paid) a ha
  rw [share, share] at same
  have balance : s.balance a = t.balance a := by
    rw [StateMachine.balance, StateMachine.balance, alike.account]
  rwa [balance] at same

theorem applyBlock_returns_of_loop {block : Block} {p : Progress} (sound : Sound A s)
    (within : ∀ tx ∈ block.body.transactions, tx.Within A)
    (looped : applyTxs block.header.chainId ⟨s, 0, 0, 0⟩ block.body.transactions = .ok p) :
    Returns (s.applyBlock block) ↔ Payable p.machine s.activeSet p.blockFees := by
  rw [applyBlock_returns sound within]
  constructor
  · rintro ⟨q, same, payable⟩
    cases looped.symm.trans same
    exact payable
  · intro payable
    exact ⟨p, looped, payable⟩

/-- Once the loops are through, only the active sets can make a difference. -/
theorem agrees_iff_of_loops {block : Block} {p q : Progress} (soundS : Sound A s) (soundT : Sound A t)
    (within : ∀ tx ∈ block.body.transactions, tx.Within A)
    (loopS : applyTxs block.header.chainId ⟨s, 0, 0, 0⟩ block.body.transactions = .ok p)
    (loopT : applyTxs block.header.chainId ⟨t, 0, 0, 0⟩ block.body.transactions = .ok q)
    (alike : Progress.Alike p q)
    (free : ∀ receipt other u v, s.applyBlock block = .ok (receipt, u) →
      t.applyBlock block = .ok (other, v) →
      SparseMerkleTree.CollisionFree u.state.leaves v.state.leaves) :
    Agrees s t block ↔ AllotAlike A p.machine s.activeSet t.activeSet p.blockFees := by
  have payableS := applyBlock_returns_of_loop soundS within loopS
  have payableT : Returns (t.applyBlock block) ↔ Payable p.machine t.activeSet p.blockFees := by
    simpa [Payable, alike.blockFees, alike.machine.stake] using
      applyBlock_returns_of_loop soundT within loopT
  have results {receipt other : BlockReceipt} {u v : StateMachine}
      (appliedS : s.applyBlock block = .ok (receipt, u))
      (appliedT : t.applyBlock block = .ok (other, v)) :
      (receipt = other ∧ SameRoot u v) ↔ ∀ a ∈ A,
        min (p.machine.balance a + (p.machine.setActiveSet s.activeSet).feeShare p.blockFees a)
            (2 ^ 256 - 1) =
          min (p.machine.balance a + (p.machine.setActiveSet t.activeSet).feeShare p.blockFees a)
            (2 ^ 256 - 1) := by
    obtain ⟨p', sameP, -, activeP, creditedS, rfl⟩ := applyBlock_spec soundS within appliedS
    obtain ⟨q', sameQ, -, activeQ, creditedT, rfl⟩ := applyBlock_spec soundT within appliedT
    cases loopS.symm.trans sameP
    cases loopT.symm.trans sameQ
    have shareS : p.machine.feeShare p.blockFees =
        (p.machine.setActiveSet s.activeSet).feeShare p.blockFees :=
      Alike.feeShare (fun _ => rfl) activeP _
    have shareT : q.machine.feeShare q.blockFees =
        (p.machine.setActiveSet t.activeSet).feeShare p.blockFees := by
      rw [alike.blockFees]
      exact Alike.feeShare (fun digest => (alike.machine digest).symm) activeQ _
    have roots := Credited.root_eq_iff alike.machine creditedS creditedT
      (free _ _ u v appliedS appliedT)
    rw [shareS, shareT] at roots
    rw [sameRoot_iff creditedS.sound creditedT.sound, ← roots, alike.blockFees, alike.txCount,
      alike.failedCount]
    simp
  constructor
  · intro agrees
    refine ⟨by rw [← payableS, ← payableT]; exact agrees.returns, fun payable => ?_⟩
    obtain ⟨⟨receipt, u⟩, appliedS⟩ := payableS.mpr payable
    obtain ⟨⟨other, v⟩, appliedT⟩ := agrees.returns.mp ⟨_, appliedS⟩
    exact (results appliedS appliedT).mp (agrees.results _ _ _ _ appliedS appliedT)
  · intro allot
    refine ⟨by rw [payableS, payableT]; exact allot.payable, ?_⟩
    intro receipt other u v appliedS appliedT
    exact (results appliedS appliedT).mpr (allot.balance (payableS.mp ⟨_, appliedS⟩))

/-- Two machines with one root agree on a block exactly when their active sets allot its
fees alike in the state the loop leaves. -/
theorem applyBlock_agrees_iff {accounts others : List (Address × Account)} {block : Block}
    (first : Reachable A accounts s) (second : Reachable A others t)
    (within : ∀ tx ∈ block.body.transactions, tx.Within A) (root : SameRoot s t)
    (free : SparseMerkleTree.CollisionFree s.state.leaves t.state.leaves)
    (freeAfter : ∀ receipt other u v, s.applyBlock block = .ok (receipt, u) →
      t.applyBlock block = .ok (other, v) →
      SparseMerkleTree.CollisionFree u.state.leaves v.state.leaves) :
    Agrees s t block ↔
      ∀ p, applyTxs block.header.chainId ⟨s, 0, 0, 0⟩ block.body.transactions = .ok p →
        AllotAlike A p.machine s.activeSet t.activeSet p.blockFees := by
  have alike : Alike s t := SparseMerkleTree.lookup_eq_of_referenceRoot_eq free
    ((sameRoot_iff first.sound second.sound).mp root)
  rcases (applyTxs_related block.header.chainId alike block.body.transactions).outcomes with
    ⟨p, q, loopS, loopT, values⟩ | ⟨reason, loopS, loopT⟩
  · rw [agrees_iff_of_loops first.sound second.sound within loopS loopT values freeAfter, loopS]
    simp
  · have stopS : ¬Returns (s.applyBlock block) := by
      rw [applyBlock_returns first.sound within, loopS]
      simp
    have stopT : ¬Returns (t.applyBlock block) := by
      rw [applyBlock_returns second.sound within, loopT]
      simp
    rw [loopS]
    refine iff_of_true ⟨iff_of_false stopS stopT, ?_⟩ fun p impossible => by cases impossible
    intro receipt other u v appliedS
    exact absurd ⟨_, appliedS⟩ stopS

end Distribution

section Sample

attribute [local instance] peakBlake3

set_option maxRecDepth 8192

variable {s t : StateMachine} {a : Address} {x y : Account}

theorem Sound.holds (sound : Sound {a} s) (known : s.account a = some x) (plain : x.codeHash = none) :
    SparseMerkleTree.Holds s.state.leaves (blake3 (accountKey a)) (blake3 (validatorKey a))
      (Codec.account.encode x) ((s.getValidator a).map Codec.validatorEntry.encode) where
  lookup key := by
    have member : a ∈ ({a} : Finset Address) := Finset.mem_singleton_self a
    by_cases own : key = blake3 (accountKey a)
    · rw [if_pos own, own]
      exact (sound.get_accountKey member).trans (by rw [known]; rfl)
    · by_cases other : key = blake3 (validatorKey a)
      · rw [if_neg own, if_pos other, other]
        exact sound.get_validatorKey member
      · rw [if_neg own, if_neg other]
        by_contra present
        obtain ⟨raw, ⟨b, hb, rfl | rfl⟩, rfl⟩ := sound.leaves key present
        · exact own (by rw [Finset.mem_singleton.mp hb])
        · exact other (by rw [Finset.mem_singleton.mp hb])
  length := account_encode_length plain

theorem collisionFree_of_single (hs : Sound {a} s) (ht : Sound {a} t) (knownS : s.account a = some x)
    (knownT : t.account a = some y) (plainS : x.codeHash = none) (plainT : y.codeHash = none)
    (entry : s.getValidator a = t.getValidator a)
    (faithful : leafPeak (Codec.account.encode x) = leafPeak (Codec.account.encode y) →
      Codec.account.encode x = Codec.account.encode y) :
    SparseMerkleTree.CollisionFree s.state.leaves t.state.leaves := by
  apply (hs.holds knownS plainS).collisionFree (entry ▸ ht.holds knownT plainT) _ faithful
  intro v found
  obtain ⟨e, -, rfl⟩ := Option.map_eq_some_iff.mp found
  have long := validatorEntry_encode_length e
  exact ⟨⟨by omega, by omega⟩, by omega⟩

def solo : List (Address × Account) := [(alice, Account.new (10 ^ 33))]

def soloBlock : Block := testBlock [⟨0, 0, alice, 100, .registerAndStake alice (2 * 10 ^ 32), dummySig⟩]

def soloLoop : Progress :=
  valueD (applyTxs 0 ⟨new solo, 0, 0, 0⟩ soloBlock.body.transactions) ⟨new [], 0, 0, 0⟩

theorem solo_reachable (activeSet : List Address) (within : ∀ a ∈ activeSet, a = alice) :
    ∃ s, Reachable {alice} solo s ∧ Alike s soloLoop.machine ∧ s.activeSet = activeSet := by
  have apart : KeysApart {alice} := by decide
  have genesis : ∀ p ∈ solo, p.1 ∈ ({alice} : Finset Address) := by decide
  have closed : ∀ tx ∈ soloBlock.body.transactions, tx.Within {alice} := by decide
  have sound := (new_sound apart genesis).1
  have looped : Returns (applyTxs 0 ⟨new solo, 0, 0, 0⟩ soloBlock.body.transactions) := by
    decide
  have reached := looped.eq_ok ⟨new [], 0, 0, 0⟩
  obtain ⟨⟨receipt, s⟩, applied⟩ : Returns ((new solo).applyBlock soloBlock) :=
    applyBlock_returns_idle sound closed rfl reached
  obtain ⟨p, same, soundP, active, credited, -⟩ := applyBlock_spec sound closed applied
  cases reached.symm.trans same
  have start : Reachable {alice} solo (new solo) := new_reachable apart genesis
  have first : Reachable {alice} solo s :=
    start.step (show Op.Within {alice} (.block soloBlock) from closed) (by rw [step, applied]; rfl)
  have ledger : SameLedger {alice} s soloLoop.machine := by
    have none (a : Address) : soloLoop.machine.feeShare soloLoop.blockFees a = 0 :=
      feeShare_eq_zero (.inr (.inl active)) a
    refine ⟨fun a ha => ?_, credited.entry⟩
    exact (credited.account a ha).trans (if_pos (none a))
  have members : Op.Within {alice} (.setActiveSet activeSet) := by
    intro a member
    exact Finset.mem_singleton.mpr (within a member)
  exact ⟨s.setActiveSet activeSet, first.step members rfl,
    ledger.lookup_eq credited.sound soundP, rfl⟩

def voteBlock : Block := testBlock [⟨0, 1, alice, 100, .vote (FixedBytes.replicate 32 0) true, dummySig⟩]

def voteLoop : Progress :=
  valueD (applyTxs 0 ⟨soloLoop.machine, 0, 0, 0⟩ voteBlock.body.transactions) ⟨new [], 0, 0, 0⟩

/-- Alice's account after the vote if the fees go to this active set. -/
def voted (activeSet : List Address) : Account :=
  ((voteLoop.machine.account alice).getD (Account.new 0)).credit
    ((voteLoop.machine.setActiveSet activeSet).feeShare voteLoop.blockFees alice)

theorem voteBlock_within : ∀ tx ∈ voteBlock.body.transactions, tx.Within {alice} := by decide

theorem vote_loop (alike : Alike s soloLoop.machine) :
    ∃ p, applyTxs 0 ⟨s, 0, 0, 0⟩ voteBlock.body.transactions = .ok p ∧ Progress.Alike p voteLoop := by
  have returns : Returns (applyTxs 0 ⟨soloLoop.machine, 0, 0, 0⟩ voteBlock.body.transactions) := by
    decide
  have looped := returns.eq_ok ⟨new [], 0, 0, 0⟩
  rcases (applyTxs_related 0 alike voteBlock.body.transactions).outcomes with
    ⟨p, q, first, second, values⟩ | ⟨reason, -, panicked⟩
  · cases second.symm.trans looped
    exact ⟨p, first, values⟩
  · cases panicked.symm.trans looped

theorem vote_account {receipt : BlockReceipt} (reachable : Reachable {alice} solo s)
    (alike : Alike s soloLoop.machine) (applied : s.applyBlock voteBlock = .ok (receipt, t)) :
    Sound {alice} t ∧ t.account alice = some (voted s.activeSet) ∧
      t.getValidator alice = voteLoop.machine.getValidator alice := by
  obtain ⟨q, looped, values⟩ := vote_loop alike
  obtain ⟨p, same, -, active, credited, -⟩ := applyBlock_spec reachable.sound voteBlock_within applied
  cases looped.symm.trans same
  have member : alice ∈ ({alice} : Finset Address) := Finset.mem_singleton_self alice
  have share := values.machine.feeShare active q.blockFees
  have known : voteLoop.machine.account alice ≠ none := by decide
  refine ⟨credited.sound, ?_, ?_⟩
  · obtain ⟨x, found⟩ := Option.ne_none_iff_exists'.mp known
    rw [credited.account alice member, values.machine.account, share, values.blockFees, voted, found]
    split
    next none => rw [none, Option.getD_some, Account.credit_zero]
    next => rfl
  · rw [credited.entry alice member, values.machine.getValidator]

theorem solo_pair (first second : List Address) (inFirst : ∀ a ∈ first, a = alice)
    (inSecond : ∀ a ∈ second, a = alice)
    (faithful : leafPeak (Codec.account.encode (voted first)) =
      leafPeak (Codec.account.encode (voted second)) →
      Codec.account.encode (voted first) = Codec.account.encode (voted second)) :
    ∃ s t, (Reachable {alice} solo s ∧ s.activeSet = first ∧ Alike s soloLoop.machine) ∧
      (Reachable {alice} solo t ∧ t.activeSet = second ∧ Alike t soloLoop.machine) ∧ SameRoot s t ∧
      SparseMerkleTree.CollisionFree s.state.leaves t.state.leaves ∧
      ∀ receipt other u v, s.applyBlock voteBlock = .ok (receipt, u) →
        t.applyBlock voteBlock = .ok (other, v) →
        SparseMerkleTree.CollisionFree u.state.leaves v.state.leaves := by
  obtain ⟨s, reachS, alikeS, activeS⟩ := solo_reachable first inFirst
  obtain ⟨t, reachT, alikeT, activeT⟩ := solo_reachable second inSecond
  have alike : Alike s t := fun digest => (alikeS digest).trans (alikeT digest).symm
  have plain (set : List Address) : (voted set).codeHash = none := by
    have : ((voteLoop.machine.account alice).getD (Account.new 0)).codeHash = none := by decide
    exact this
  obtain ⟨x, known, noCode⟩ : ∃ x, soloLoop.machine.account alice = some x ∧ x.codeHash = none := by
    have found : soloLoop.machine.account alice =
        some ((soloLoop.machine.account alice).getD (Account.new 0)) := by decide
    exact ⟨_, found, by decide⟩
  refine ⟨s, t, ⟨reachS, activeS, alikeS⟩, ⟨reachT, activeT, alikeT⟩, ?_, ?_, ?_⟩
  · rw [sameRoot_iff reachS.sound reachT.sound]
    exact SparseMerkleTree.referenceRoot_congr alike
  · apply collisionFree_of_single reachS.sound reachT.sound ((alikeS.account alice).trans known)
      ((alikeT.account alice).trans known) noCode noCode (alike.getValidator alice)
    exact fun _ => rfl
  · intro receipt other u v appliedS appliedT
    obtain ⟨soundU, accountU, entryU⟩ := vote_account reachS alikeS appliedS
    obtain ⟨soundV, accountV, entryV⟩ := vote_account reachT alikeT appliedT
    apply collisionFree_of_single soundU soundV accountU accountV (plain _) (plain _)
      (entryU.trans entryV.symm)
    rw [activeS, activeT]
    exact faithful

/-- A validator listed twice receives what it receives listed once. -/
theorem listedTwice_agrees :
    ∃ s t, Reachable {alice} solo s ∧ Reachable {alice} solo t ∧ s.activeSet ≠ t.activeSet ∧
      SameRoot s t ∧ Agrees s t voteBlock := by
  obtain ⟨s, t, ⟨reachS, activeS, alikeS⟩, ⟨reachT, activeT, -⟩, root, free, freeAfter⟩ :=
    solo_pair [alice] [alice, alice] (by decide) (by decide) (by decide)
  refine ⟨s, t, reachS, reachT, by rw [activeS, activeT]; decide, root, ?_⟩
  apply (applyBlock_agrees_iff reachS reachT voteBlock_within root free freeAfter).mpr
  intro p looped
  obtain ⟨q, same, values⟩ := vote_loop alikeS
  cases looped.symm.trans same
  have allot : AllotAlike {alice} voteLoop.machine [alice] [alice, alice] voteLoop.blockFees :=
    ⟨by decide, by decide⟩
  rw [activeS, activeT, values.blockFees]
  exact Alike.allotAlike (fun digest => (values.machine digest).symm) allot

/-- Without an active set the fee is burnt, with one it goes to the validator. -/
theorem activeSet_not_agrees :
    ∃ s t, Reachable {alice} solo s ∧ Reachable {alice} solo t ∧ SameRoot s t ∧
      SparseMerkleTree.CollisionFree s.state.leaves t.state.leaves ∧
      (∀ receipt other u v, s.applyBlock voteBlock = .ok (receipt, u) →
        t.applyBlock voteBlock = .ok (other, v) →
        SparseMerkleTree.CollisionFree u.state.leaves v.state.leaves) ∧
      ¬Agrees s t voteBlock := by
  obtain ⟨s, t, ⟨reachS, activeS, alikeS⟩, ⟨reachT, activeT, alikeT⟩, root, free, freeAfter⟩ :=
    solo_pair [] [alice] (by decide) (by decide) (by decide)
  refine ⟨s, t, reachS, reachT, root, free, freeAfter, fun agrees => ?_⟩
  obtain ⟨p, loopS, valuesP⟩ := vote_loop alikeS
  obtain ⟨q, loopT, valuesQ⟩ := vote_loop alikeT
  have alike : Progress.Alike p q := ⟨fun digest => (valuesP.machine digest).trans
    (valuesQ.machine digest).symm, valuesP.blockFees.trans valuesQ.blockFees.symm,
    valuesP.txCount.trans valuesQ.txCount.symm, valuesP.failedCount.trans valuesQ.failedCount.symm⟩
  have allot := (agrees_iff_of_loops reachS.sound reachT.sound voteBlock_within loopS loopT alike
    freeAfter).mp agrees
  rw [activeS, activeT, valuesP.blockFees] at allot
  have balances := (Alike.allotAlike valuesP.machine allot).balance (by decide) alice
    (Finset.mem_singleton_self alice)
  revert balances
  decide

end Sample

end StateMachine

end Mononium
