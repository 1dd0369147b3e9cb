import Mononium.Consensus.Commitment
import Mononium.Consensus.Loop
import Mononium.Core.Election

/-! Restarting a node from its storage, from `node.rs`. The accounts table is written at
genesis and never again, so the machine that comes back is the genesis machine; and the
header that it is checked against holds the root before the last block. -/
namespace Mononium

open Rust Scale

/-- Keys that are not addresses and values that are not accounts are passed over. -/
def loadAccounts (storage : Storage) : List (Address × Account) :=
  (storage.listKeys .accounts).filterMap fun key =>
    if length : key.length = 32 then
      (storage.get .accounts key).bind fun raw =>
        (Codec.account.decode raw).map fun account => (⟨⟨key, length⟩⟩, account.1)
    else none

/-- Keys are big-endian, so the largest key is that of the highest block. -/
def loadLatestHeight (storage : Storage) : Exec U64 :=
  match (storage.listKeys .blocks).max? with
  | none => .ok 0
  | some maxKey =>
    if maxKey.length = 8 then .ok (BitVec.ofNat 64 (beValue maxKey))
    else .error (.assertion "copy_from_slice: source slice length does not match destination slice length")

section

variable [Blake3]

def loadStateFromStorage (storage : Storage) : StateMachine := StateMachine.new (loadAccounts storage)

/-- The codec's own message about a block that does not decode is left out. -/
def verifyStateConsistency (state : StateMachine) (storage : Storage) (height : U64) :
    Exec (Except String Unit × StateMachine) := do
  if height = 0 then
    return (.ok (), state)
  let some raw := storage.get .blocks (heightKey height)
    | return (.error ("block " ++ toString height.toNat ++ " not found during consistency check"), state)
  let some (block, _) := Codec.block.decode raw
    | return (.error ("failed to decode block " ++ toString height.toNat), state)
  let expectedRoot := block.header.globalStateRoot
  let (actualRoot, state) ← state.stateRoot
  if expectedRoot ≠ actualRoot then
    return (.error ("state root mismatch at height " ++ toString height.toNat ++ ": expected " ++
      hexEncode expectedRoot.bytes ++ " got " ++ hexEncode actualRoot.bytes), state)
  return (.ok (), state)

/-- Starting a node on a storage with a genesis, up to the consensus loop. -/
def startNode (localValidator : Option Address) (storage : Storage) : Exec (Except String Node) := do
  let currentHeight ← loadLatestHeight storage
  let (consistent, state) ← verifyStateConsistency (loadStateFromStorage storage) storage currentHeight
  match consistent with
  | .error e => return .error ("state root mismatch — database may be corrupted: " ++ e)
  | .ok () => return .ok ⟨⟨none, localValidator, currentHeight⟩, state, storage⟩

end

theorem Tip.loadLatestHeight {storage : Storage} {height : U64} (tip : Tip storage height) :
    loadLatestHeight storage = .ok height := by
  simp [Mononium.loadLatestHeight, tip.max_listKeys]

section

variable [Blake3] {A : Finset Address}

namespace StateMachine

variable {s t u v : StateMachine} {paid more : Address → Nat}

theorem Lessened.congr (lessened : Lessened A s t paid) (same : ∀ a ∈ A, paid a = more a) :
    Lessened A s t more where
  account a ha := by rw [← same a ha]; exact lessened.account a ha
  covered a ha := by rw [← same a ha]; exact lessened.covered a ha
  entry := lessened.entry
  index := lessened.index
  active := lessened.active

theorem Lessened.sameState (lessened : Lessened A s t fun _ => 0) : SameState A s t where
  ledger := ⟨fun a ha => by simp [lessened.account a ha], fun a ha => (lessened.entry a ha).symm⟩
  index := lessened.index.symm
  active := lessened.active.symm

theorem SameState.symm (same : SameState A s t) : SameState A t s :=
  ⟨⟨fun a ha => (same.ledger.account a ha).symm, fun a ha => (same.ledger.entry a ha).symm⟩,
    same.index.symm, same.active.symm⟩

theorem SameState.trans (first : SameState A s t) (second : SameState A t u) : SameState A s u :=
  ⟨⟨fun a ha => (first.ledger.account a ha).trans (second.ledger.account a ha),
    fun a ha => (first.ledger.entry a ha).trans (second.ledger.entry a ha)⟩,
    first.index.trans second.index, first.active.trans second.active⟩

/-- Since `s` a nonce has gone up, or nothing was executed and someone has paid for it. -/
def Drifted (A : Finset Address) (s t : StateMachine) : Prop :=
  (∃ a ∈ A, s.nonce a < t.nonce a) ∨ ∃ paid, Lessened A s t paid ∧ ∃ a ∈ A, 0 < paid a

namespace Drifted

theorem not_sameLedger (drifted : Drifted A s t) : ¬SameLedger A s t := by
  intro same
  rcases drifted with ⟨a, ha, raised⟩ | ⟨paid, lessened, a, ha, positive⟩
  · rw [nonce, nonce, same.account a ha] at raised
    exact Nat.lt_irrefl _ raised
  · have covered := lessened.covered a ha
    have left := lessened.balance ha
    have equal : s.balance a = t.balance a := by rw [balance, balance, same.account a ha]
    omega

/-- A block on a machine that has drifted leaves it drifted: what was paid is burned, and
a nonce does not come down again. -/
theorem applyBlock {block : Block} {receipt : BlockReceipt} (idle : s.activeSet = [])
    (drifted : Drifted A s t) (sound : Sound A u) (start : Lessened A t u fun _ => 0)
    (within : ∀ tx ∈ block.body.transactions, tx.Within A)
    (applied : u.applyBlock block = .ok (receipt, v)) : Drifted A s v := by
  rcases drifted with ⟨a, ha, raised⟩ | ⟨paid, lessened, a, ha, positive⟩
  · have kept := applyBlock_nonce_le sound within applied ha
    rw [start.nonce ha] at kept
    exact .inl ⟨a, ha, Nat.lt_of_lt_of_le raised kept⟩
  · have stillIdle : u.activeSet = [] := start.active.trans (lessened.active.trans idle)
    rcases applyBlock_lessened_or_raised sound start stillIdle within applied with
      ⟨_, more⟩ | ⟨_, b, hb, raised⟩
    · exact .inr ⟨_, lessened.trans more, a, ha, Nat.add_pos_left positive _⟩
    · rw [start.nonce hb, lessened.nonce hb] at raised
      exact .inl ⟨b, hb, raised⟩

theorem enterEra {engine : ConsensusEngine} {height : U64} {listing : List Address}
    (drifted : Drifted A s t) (sound : Sound A t) (lists : Lists listing t)
    (bare : s.validators = ∅) (idle : s.activeSet = []) :
    Drifted A s (enterEra engine t listing height).2 := by
  rcases drifted with ⟨a, ha, raised⟩ | ⟨paid, lessened, found⟩
  · have kept := (enterEra_accounts engine height sound (lists.within sound)).2 a ha
    refine .inl ⟨a, ha, ?_⟩
    rw [nonce, nonce, kept]
    exact raised
  · rw [enterEra_bare engine height (lists.eq_nil (lessened.index.trans bare))
      (lessened.active.trans idle)]
    exact .inr ⟨paid, lessened, found⟩

end Drifted

end StateMachine

open StateMachine

/-- Every stored transaction is refused in `genesis` at no cost. -/
def AllInert (genesis : StateMachine) (storage : Storage) : Prop :=
  ∀ height, ∀ block ∈ blockAt storage height, ∀ tx ∈ block.body.transactions,
    genesis.Inert block.header.chainId tx

theorem allInert_put {genesis : StateMachine} {storage : Storage} {height : U64} {block : Block}
    (fits : Codec.block.fits block = true) (fresh : blockAt storage height = none) :
    AllInert genesis (storage.put .blocks (heightKey height) (Codec.block.encode block)) ↔
      AllInert genesis storage ∧ ∀ tx ∈ block.body.transactions, genesis.Inert block.header.chainId tx := by
  simp only [AllInert, blockAt_put fits]
  constructor
  · intro all
    refine ⟨fun other found here => ?_, all height block (by simp)⟩
    have different : other ≠ height := by
      rintro rfl
      rw [fresh] at here
      cases here
    exact all other found (by rwa [if_neg different])
  · rintro ⟨before, last⟩ other found here
    split at here
    next =>
      cases here
      exact last
    next => exact before other found here

theorem loadStateFromStorage_congr {storage other : Storage}
    (same : storage.table .accounts = other.table .accounts) :
    loadStateFromStorage storage = loadStateFromStorage other := by
  simp only [loadStateFromStorage, loadAccounts, Storage.listKeys, Storage.get, same]

/-- A slot in which the node, its machine at `s`, built, applied and stored a block. -/
structure Extends (A : Finset Address) (s : StateMachine) (node next : Node) (block : Block) : Prop where
  later : node.engine.currentHeight < next.engine.currentHeight
  fits : Codec.block.fits block = true
  stored : next.storage =
    node.storage.put .blocks (heightKey next.engine.currentHeight) (Codec.block.encode block)
  rooted : block.header.globalStateRoot = SparseMerkleTree.referenceRoot s.state.leaves
  within : ∀ tx ∈ block.body.transactions, tx.Within A
  applied : ∃ u receipt, Sound A u ∧ Lessened A s u (fun _ => 0) ∧
    u.applyBlock block = .ok (receipt, next.state)

/-- What has become of the machine that the genesis loads. -/
inductive Fate (A : Finset Address) (genesis : StateMachine) (node : Node) : Prop
  | idle (inert : AllInert genesis node.storage) (same : Lessened A genesis node.state fun _ => 0)
    (rooted : node.engine.currentHeight ≠ 0 →
      ∀ tip ∈ blockAt node.storage node.engine.currentHeight,
        tip.header.globalStateRoot = SparseMerkleTree.referenceRoot genesis.state.leaves)
  | drifted (live : ¬AllInert genesis node.storage) (drifted : Drifted A genesis node.state)

structure Bare (A : Finset Address) (s : StateMachine) : Prop where
  sound : Sound A s
  index : s.validators = ∅
  active : s.activeSet = []

theorem Bare.entry {s : StateMachine} (bare : Bare A s) : ∀ a ∈ A, s.getValidator a = none := by
  intro a ha
  by_contra found
  have member := (bare.sound.index a).mpr ⟨ha, Option.isSome_iff_ne_none.mpr found⟩
  simp [bare.index] at member

namespace Extends

variable {s genesis : StateMachine} {node next : Node} {block : Block}

theorem fresh (extended : Extends A s node next block)
    (tip : Tip node.storage node.engine.currentHeight) :
    blockAt node.storage next.engine.currentHeight = none :=
  tip.blockAt_of_lt extended.later

theorem tip (extended : Extends A s node next block)
    (tip : Tip node.storage node.engine.currentHeight) : Tip next.storage next.engine.currentHeight := by
  rw [extended.stored]
  exact tip.put (BitVec.le_of_lt extended.later) extended.fits

theorem sound (extended : Extends A s node next block) : Sound A next.state := by
  obtain ⟨u, receipt, sound, -, applied⟩ := extended.applied
  obtain ⟨_, -, -, -, credited, -⟩ := applyBlock_spec sound extended.within applied
  exact credited.sound

theorem allInert_iff (extended : Extends A s node next block)
    (tip : Tip node.storage node.engine.currentHeight) : AllInert genesis next.storage ↔
      AllInert genesis node.storage ∧ ∀ tx ∈ block.body.transactions, genesis.Inert block.header.chainId tx := by
  rw [extended.stored]
  exact allInert_put extended.fits (extended.fresh tip)

/-- A block on an idle machine either leaves it idle or makes it drift. -/
theorem fate_of_idle (extended : Extends A s node next block)
    (tip : Tip node.storage node.engine.currentHeight) (bare : Bare A genesis) (sound : Sound A s)
    (inert : AllInert genesis node.storage) (same : Lessened A genesis s fun _ => 0) :
    Fate A genesis next := by
  obtain ⟨u, receipt, soundU, start, applied⟩ := extended.applied
  have since : Lessened A genesis u fun _ => 0 := same.trans start
  have free : (∀ tx ∈ block.body.transactions, genesis.Inert block.header.chainId tx) ↔
      AllRefused genesis block.header.chainId noToll block.body.transactions ∧ ∀ a ∈ A,
        (tollOf genesis block.header.chainId noToll block.body.transactions).paid a = 0 :=
    forall_inert_iff bare.entry extended.within fun _ _ => rfl
  rcases applyBlock_lessened_or_raised soundU since (since.active.trans bare.active) extended.within
    applied with ⟨all, lessened⟩ | ⟨notAll, a, ha, raised⟩
  · by_cases none : ∀ a ∈ A,
        (tollOf genesis block.header.chainId noToll block.body.transactions).paid a = 0
    · refine .idle ((extended.allInert_iff tip).mpr ⟨inert, free.mpr ⟨all, none⟩⟩)
        (lessened.congr none) fun _ top found => ?_
      rw [extended.stored, blockAt_put extended.fits, if_pos rfl] at found
      cases found
      rw [extended.rooted]
      exact SparseMerkleTree.referenceRoot_congr (same.sameState.ledger.lookup_eq bare.sound sound)
        |>.symm
    · refine .drifted (fun inert => none (free.mp ((extended.allInert_iff tip).mp inert).2).2) ?_
      obtain ⟨a, charged⟩ := not_forall.mp none
      obtain ⟨ha, positive⟩ := Classical.not_imp.mp charged
      exact .inr ⟨_, lessened, a, ha, Nat.pos_of_ne_zero positive⟩
  · refine .drifted (fun inert => notAll (free.mp ((extended.allInert_iff tip).mp inert).2).1) ?_
    rw [since.nonce ha] at raised
    exact .inl ⟨a, ha, raised⟩

theorem fate_of_drifted (extended : Extends A s node next block)
    (tip : Tip node.storage node.engine.currentHeight) (bare : Bare A genesis)
    (live : ¬AllInert genesis node.storage) (drifted : Drifted A genesis s) : Fate A genesis next := by
  obtain ⟨u, receipt, soundU, start, applied⟩ := extended.applied
  exact .drifted (fun inert => live ((extended.allInert_iff tip).mp inert).1)
    (drifted.applyBlock bare.active soundU start extended.within applied)

end Extends

structure Kept (A : Finset Address) (origin : Storage) (node : Node) : Prop where
  sound : Sound A node.state
  accounts : node.storage.table .accounts = origin.table .accounts
  tip : Tip node.storage node.engine.currentHeight
  fate : Fate A (loadStateFromStorage origin) node

namespace Kept

variable {origin : Storage} {node next : Node} {input : Slot}

/-- A slot waits on the machine that has entered the era, or extends the chain from it. -/
theorem slot_cases (kept : Kept A origin node) (lists : Lists input.listing node.state)
    (within : ∀ tx ∈ input.selected, tx.Within A) (ran : slot node input = .ok next) :
    ∃ height, (next.state = (enterEra node.engine node.state input.listing height).2 ∧
        next.storage = node.storage ∧ next.engine.currentHeight = node.engine.currentHeight) ∨
      ∃ block, Extends A (enterEra node.engine node.state input.listing height).2 node next block := by
  obtain ⟨height, added, waits | ⟨schedule, produced, at_⟩⟩ := Mononium.slot_cases ran
  · exact ⟨height, .inl waits⟩
  · refine ⟨height, .inr ?_⟩
    have sound := (enterEra_accounts node.engine height kept.sound (lists.within kept.sound)).1
    have succ : height.toNat = node.engine.currentHeight.toNat + 1 := add_eq_ok.mp added
    have parentHeight : saturatingSub height 1 = node.engine.currentHeight :=
      saturatingSub_of_toNat succ
    obtain ⟨parent, stored⟩ := Option.isSome_iff_exists.mp kept.tip.stored
    rw [← parentHeight] at stored
    obtain ⟨proposer, block, u, receipt, built, applied, fits, written⟩ :=
      produceBlock_spec stored produced
    obtain ⟨rooted, -, body, -, soundU, start⟩ := buildBlock_spec sound built
    refine ⟨block, ?_, fits, at_ ▸ written, rooted, body ▸ within, u, receipt, soundU, start, applied⟩
    rw [at_, BitVec.lt_def, succ]
    exact Nat.lt_succ_self _

theorem slot (kept : Kept A origin node) (bare : Bare A (loadStateFromStorage origin))
    (lists : Lists input.listing node.state) (within : ∀ tx ∈ input.selected, tx.Within A)
    (ran : slot node input = .ok next) : Kept A origin next := by
  obtain ⟨height, cases⟩ := kept.slot_cases lists within ran
  have sound := (enterEra_accounts node.engine height kept.sound (lists.within kept.sound)).1
  have unchanged (same : Lessened A (loadStateFromStorage origin) node.state fun _ => 0) :
      (enterEra node.engine node.state input.listing height).2 = node.state :=
    enterEra_bare node.engine height (lists.eq_nil (same.index.trans bare.index))
      (same.active.trans bare.active)
  rcases cases with ⟨state, storage, at_⟩ | ⟨block, extended⟩
  · refine ⟨state ▸ sound, storage ▸ kept.accounts, by rw [storage, at_]; exact kept.tip, ?_⟩
    cases kept.fate with
    | idle inert same rooted =>
      exact .idle (storage ▸ inert) (by rw [state, unchanged same]; exact same)
        (by rw [storage, at_]; exact rooted)
    | drifted live drifted =>
      exact .drifted (storage ▸ live)
        (state ▸ drifted.enterEra kept.sound lists bare.index bare.active)
  · refine ⟨extended.sound, ?_, extended.tip kept.tip, ?_⟩
    · rw [extended.stored, Storage.table_put_of_ne _ _ _ (by decide)]
      exact kept.accounts
    · cases kept.fate with
      | idle inert same rooted =>
        rw [unchanged same] at extended
        exact extended.fate_of_idle kept.tip bare kept.sound inert same
      | drifted live drifted =>
        exact extended.fate_of_drifted kept.tip bare live
          (drifted.enterEra kept.sound lists bare.index bare.active)

end Kept

/-- The nodes that slots lead to. The mempool may select any transactions. -/
inductive Runs (A : Finset Address) (start : Node) : Node → Prop
  | start : Runs A start start
  | slot {node next : Node} {input : Slot} (runs : Runs A start node)
    (lists : Lists input.listing node.state) (within : ∀ tx ∈ input.selected, tx.Within A)
    (ran : slot node input = .ok next) : Runs A start next

theorem Runs.kept {origin : Storage} {start node : Node} (runs : Runs A start node)
    (bare : Bare A (loadStateFromStorage origin)) (kept : Kept A origin start) :
    Kept A origin node := by
  induction runs with
  | start => exact kept
  | slot _ lists within ran ih => exact ih.slot bare lists within ran

theorem loadStateFromStorage_bare {storage : Storage} (apart : KeysApart A)
    (genesis : ∀ p ∈ loadAccounts storage, p.1 ∈ A) : Bare A (loadStateFromStorage storage) :=
  ⟨(new_sound apart genesis).1, rfl, rfl⟩

theorem blockAt_genesis [SerdeJson] {file : Except String String} {storage : Storage}
    (loaded : loadGenesis file Storage.empty = (.ok (), storage)) :
    ∃ chainId, ∀ height, blockAt storage height =
      if height = 0 then some (genesisBlock chainId) else none := by
  obtain ⟨chainId, blocks⟩ := loadGenesis_blocks loaded
  refine ⟨chainId, fun height => ?_⟩
  have same : blockAt storage height = blockAt (Storage.empty.put .blocks (heightKey 0)
      (Codec.block.encode (genesisBlock chainId))) height := by
    rw [blockAt, blockAt, Storage.get, Storage.get, blocks, Storage.table_put_self]
  rw [same, blockAt_put (by rfl)]
  rfl

theorem tip_genesis [SerdeJson] {file : Except String String} {storage : Storage}
    (loaded : loadGenesis file Storage.empty = (.ok (), storage)) : Tip storage 0 := by
  obtain ⟨chainId, found⟩ := blockAt_genesis loaded
  obtain ⟨_, blocks⟩ := loadGenesis_blocks loaded
  refine ⟨by simp [found], fun key member => ⟨0, BitVec.le_refl _, ?_⟩⟩
  rw [blocks, AList.mem_insert] at member
  rcases member with here | before
  · exact here
  · cases before

section Start

variable {s t : StateMachine} {storage : Storage} {height : U64} {localValidator : Option Address}
  {node : Node}

/-- The check changes at most the cached root of the machine. -/
theorem verifyStateConsistency_sameState {result : Except String Unit} (sound : Sound A s)
    (verified : verifyStateConsistency s storage height = .ok (result, t)) : SameState A t s := by
  have same : SameState A s s := ⟨⟨fun _ _ => rfl, fun _ _ => rfl⟩, rfl, rfl⟩
  obtain ⟨after, root, -, leaves, active, index⟩ := sound.stateRoot
  have read : SameState A after s :=
    ⟨sameLedger_of_lookup_eq fun digest => by rw [leaves], index, active⟩
  unfold verifyStateConsistency at verified
  split at verified
  next =>
    cases verified
    exact same
  next =>
    split at verified
    next =>
      split at verified
      next =>
        rw [root, ok_bind] at verified
        dsimp only at verified
        split at verified
        next =>
          cases verified
          exact read
        next =>
          cases verified
          exact read
      next =>
        cases verified
        exact same
    next =>
      cases verified
      exact same

/-- The check passes at height 0, and at a block whose header holds the root of the machine. -/
theorem verifyStateConsistency_passes {block : Block} (sound : Sound A s)
    (stored : blockAt storage height = some block)
    (rooted : height ≠ 0 →
      block.header.globalStateRoot = SparseMerkleTree.referenceRoot s.state.leaves) :
    ∃ t, verifyStateConsistency s storage height = .ok (.ok (), t) := by
  obtain ⟨raw, rest, found, decoded⟩ := blockAt_eq_some.mp stored
  obtain ⟨after, root, -⟩ := sound.stateRoot
  unfold verifyStateConsistency
  by_cases first : height = 0
  · exact ⟨s, by rw [if_pos first]; rfl⟩
  · refine ⟨after, ?_⟩
    rw [if_neg first, found]
    dsimp only
    rw [decoded]
    dsimp only
    rw [root, ok_bind, rooted first]
    simp

theorem startNode_eq_ok (tip : Tip storage height) :
    startNode localValidator storage = .ok (.ok node) ↔ ∃ t,
      verifyStateConsistency (loadStateFromStorage storage) storage height = .ok (.ok (), t) ∧
        node = ⟨⟨none, localValidator, height⟩, t, storage⟩ := by
  rw [startNode, tip.loadLatestHeight, ok_bind, bind_eq_ok]
  constructor
  · rintro ⟨⟨consistent, t⟩, verified, h⟩
    cases consistent with
    | error e => cases h
    | ok _ =>
      cases h
      exact ⟨t, verified, rfl⟩
  · rintro ⟨t, verified, rfl⟩
    exact ⟨_, verified, rfl⟩

theorem kept_genesis [SerdeJson] {file : Except String String}
    (loaded : loadGenesis file Storage.empty = (.ok (), storage))
    (bare : Bare A (loadStateFromStorage storage))
    (started : startNode localValidator storage = .ok (.ok node)) : Kept A storage node := by
  obtain ⟨chainId, found⟩ := blockAt_genesis loaded
  obtain ⟨t, verified, rfl⟩ := (startNode_eq_ok (tip_genesis loaded)).mp started
  cases verified
  refine ⟨bare.sound, rfl, tip_genesis loaded, .idle ?_ (.refl A _) fun later => absurd rfl later⟩
  intro height block here tx member
  rw [found] at here
  split at here
  next =>
    cases here
    cases member
  next => cases here

end Start

theorem Kept.restart_iff {origin : Storage} {node : Node} {localValidator : Option Address}
    (kept : Kept A origin node) (bare : Bare A (loadStateFromStorage origin)) :
    (∃ again, startNode localValidator node.storage = .ok (.ok again) ∧
      again.engine.currentHeight = node.engine.currentHeight ∧ SameState A again.state node.state) ↔
    AllInert (loadStateFromStorage origin) node.storage := by
  simp only [startNode_eq_ok kept.tip, loadStateFromStorage_congr kept.accounts]
  cases kept.fate with
  | idle inert same rooted =>
    refine iff_of_true ?_ inert
    obtain ⟨block, stored⟩ := Option.isSome_iff_exists.mp kept.tip.stored
    obtain ⟨t, verified⟩ := verifyStateConsistency_passes bare.sound stored
      fun later => rooted later block stored
    refine ⟨_, ⟨t, verified, rfl⟩, rfl, ?_⟩
    exact (verifyStateConsistency_sameState bare.sound verified).trans same.sameState
  | drifted live drifted =>
    -- whether or not the check passes, the machine that it returns is that of the genesis
    refine iff_of_false ?_ live
    rintro ⟨_, ⟨t, verified, rfl⟩, -, back⟩
    have loaded := verifyStateConsistency_sameState bare.sound verified
    exact drifted.not_sameLedger (loaded.symm.trans back).ledger

/-- A node that stops comes back with the ledger it had exactly when every transaction of
every block that it stored was refused, at no cost, by the machine of the genesis. -/
theorem restart_faithful_iff [SerdeJson] {file : Except String String} {storage : Storage}
    {start node : Node} {localValidator : Option Address} (apart : KeysApart A)
    (loaded : loadGenesis file Storage.empty = (.ok (), storage))
    (genesis : ∀ p ∈ loadAccounts storage, p.1 ∈ A)
    (started : startNode localValidator storage = .ok (.ok start)) (runs : Runs A start node) :
    (∃ again, startNode localValidator node.storage = .ok (.ok again) ∧
      again.engine.currentHeight = node.engine.currentHeight ∧ SameState A again.state node.state) ↔
    ∀ height, ∀ block ∈ blockAt node.storage height, ∀ tx ∈ block.body.transactions,
      (loadStateFromStorage storage).Inert block.header.chainId tx := by
  have bare := loadStateFromStorage_bare apart genesis
  exact (runs.kept bare (kept_genesis loaded bare started)).restart_iff bare

end

section Sample

open StateMachine

attribute [local instance] peakBlake3

def soloGenesis : String :=
  "\x7b\"chain_id\": 0, \"genesis_time\": \"\", \"initial_accounts\": \x7b\"0x" ++
    hexEncode alice.asBytes ++ "\": \"1000000000000000000000000000000000\"\x7d, " ++
    "\"initial_validators\": []\x7d"

abbrev soloSerdeJson : SerdeJson where
  genesisConfig json :=
    if json = soloGenesis then
      .ok ⟨0, AList.singleton ("0x" ++ hexEncode alice.asBytes) "1000000000000000000000000000000000", []⟩
    else .error "expected value at line 1 column 1"

attribute [local instance] soloSerdeJson

def soloStorage : Storage := (loadGenesis (.ok soloGenesis) Storage.empty).2

theorem solo_loaded : loadGenesis (.ok soloGenesis) Storage.empty = (.ok (), soloStorage) := by
  have result : (loadGenesis (.ok soloGenesis) Storage.empty).1 = .ok () := by decide +kernel
  rw [soloStorage, ← result]
  exact Prod.mk.eta.symm

theorem solo_loadAccounts : loadAccounts soloStorage = solo := by decide +kernel

theorem solo_blocks : blockAt soloStorage 0 = some (genesisBlock 0) := by decide +kernel

def soloNode : Node := ⟨⟨none, none, 0⟩, new solo, soloStorage⟩

theorem solo_started : startNode none soloStorage = .ok (.ok soloNode) := by
  refine (startNode_eq_ok (tip_genesis solo_loaded)).mpr ⟨new solo, ?_, rfl⟩
  rw [loadStateFromStorage, solo_loadAccounts]
  rfl

theorem solo_produced (tx : Transaction) (within : tx.Within {alice})
    (fits : Codec.blockBody.fits ⟨[tx]⟩ = true)
    (returns : Returns (applyTxs 0 ⟨new solo, 0, 0, 0⟩ [tx])) :
    ∃ block t, block.header.chainId = 0 ∧ block.body.transactions = [tx] ∧
      Codec.block.fits block = true ∧
      produceBlock soloNode.state soloNode.storage 1 (scheduleFor soloNode.engine 1)
        ⟨1700000001, [tx], []⟩ =
          .ok (t, soloNode.storage.put .blocks (heightKey 1) (Codec.block.encode block)) := by
  have parent : saturatingSub (1 : U64) 1 = 0 := by decide
  have stored : blockAt soloNode.storage (saturatingSub 1 1) = some (genesisBlock 0) := by
    rw [soloNode, parent, solo_blocks]
  obtain ⟨block, u, receipt, t, built, applied, -⟩ := solo_built tx (genesisBlock 0) (repeated 0)
    1700000001 (FixedBytes.replicate 809 0xCD) (returns_ok _) rfl within returns
  obtain ⟨-, chain, body, -⟩ := buildBlock_spec new_solo_reachable.sound built
  have written : Codec.block.fits block = true := by
    change Codec.blockBody.fits ⟨block.body.transactions⟩ = true
    rw [body]
    exact fits
  have proposer : (scheduleFor soloNode.engine 1).proposerForHeight 1 = .ok (repeated 0) := by
    decide
  refine ⟨block, t, chain, body, written, ?_⟩
  rw [produceBlock_eq stored, proposer, ok_bind, show soloNode.state = new solo from rfl]
  dsimp only
  rw [built, ok_bind]
  dsimp only
  rw [applied, ok_bind, Codec.write, if_pos written, ok_bind]
  rfl

theorem solo_slot (tx : Transaction) (within : tx.Within {alice})
    (fits : Codec.blockBody.fits ⟨[tx]⟩ = true)
    (returns : Returns (applyTxs 0 ⟨new solo, 0, 0, 0⟩ [tx])) :
    ∃ node block, Runs {alice} soloNode node ∧ node.engine.currentHeight = 1 ∧
      block.header.chainId = 0 ∧ block.body.transactions = [tx] ∧
      ∀ height, blockAt node.storage height =
        if height = 1 then some block else blockAt soloStorage height := by
  obtain ⟨block, t, chain, body, written, produced⟩ := solo_produced tx within fits returns
  have settled : enterEra soloNode.engine soloNode.state [] 1 = (soloNode.engine, soloNode.state) := by
    rw [enterEra, if_neg (by decide)]
  have ran : slot soloNode ⟨1700000001, [tx], []⟩ = .ok _ := slot_produces rfl settled rfl produced
  refine ⟨_, block, .slot .start ⟨List.nodup_nil, fun a => ?_⟩ ?_ ran, rfl, chain, body,
    fun height => ?_⟩
  · rw [show soloNode.state.validators = ∅ from rfl]
    simp
  · intro other member
    exact List.mem_singleton.mp member ▸ within
  · have same : soloNode.storage = soloStorage := by rw [soloNode]
    rw [← same]
    exact blockAt_put written height

theorem solo_bare : Bare {alice} (loadStateFromStorage soloStorage) := by
  apply loadStateFromStorage_bare
  · decide
  · rw [solo_loadAccounts]
    decide

/-- A block with a vote that is refused for free leaves nothing to lose. -/
theorem staleVote_restarts :
    ∃ node, Runs {alice} soloNode node ∧ node.engine.currentHeight = 1 ∧
    ∃ again, startNode none node.storage = .ok (.ok again) ∧
      again.engine.currentHeight = node.engine.currentHeight ∧
      SameState {alice} again.state node.state := by
  obtain ⟨node, block, runs, at_, chain, body, blocks⟩ :=
    solo_slot staleVote (by decide) (by decide) (by decide)
  refine ⟨node, runs, at_, (restart_faithful_iff (by decide) solo_loaded
    (by rw [solo_loadAccounts]; decide) solo_started runs).mpr ?_⟩
  obtain ⟨_, genesis⟩ := blockAt_genesis solo_loaded
  intro height found here tx member
  rw [blocks, genesis] at here
  split at here
  next =>
    cases here
    rw [body, List.mem_singleton] at member
    rw [chain, member, loadStateFromStorage, solo_loadAccounts]
    decide
  next =>
    split at here
    next =>
      cases here
      cases member
    next => cases here

/-- An ordinary vote is executed, and a restart after it does not bring the ledger back. -/
theorem freshVote_not_restarts :
    loadGenesis (.ok soloGenesis) Storage.empty = (.ok (), soloStorage) ∧
    startNode none soloStorage = .ok (.ok soloNode) ∧
    ∃ node, Runs {alice} soloNode node ∧ node.engine.currentHeight = 1 ∧
    ¬∃ again, startNode none node.storage = .ok (.ok again) ∧
      again.engine.currentHeight = node.engine.currentHeight ∧
      SameState {alice} again.state node.state := by
  obtain ⟨node, block, runs, at_, chain, body, blocks⟩ :=
    solo_slot freshVote (by decide) (by decide) (by decide)
  refine ⟨solo_loaded, solo_started, node, runs, at_, fun faithful => ?_⟩
  have kept := runs.kept solo_bare (kept_genesis solo_loaded solo_bare solo_started)
  have inert := (kept.restart_iff solo_bare).mp faithful 1 block (by rw [blocks, if_pos rfl]; rfl)
    freshVote (by rw [body]; exact List.mem_singleton_self _)
  rw [chain, loadStateFromStorage, solo_loadAccounts] at inert
  revert inert
  decide

end Sample

end Mononium
