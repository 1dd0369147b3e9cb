import Mononium.Mempool.Pool
import Mononium.Network.SyncProgress
import Mononium.Node.Cluster

/-! The tasks of one node: the slot loop, the catch-up loop and the handlers that submit
transactions. They share the storage and the mempool. A slot reads the parent, and later stores
its block; in between the other tasks go on. Reading and storing may fail. A panic ends the node. -/
namespace Mononium

open Rust Scale

/-- A slot of the node's own that has read the parent and not yet stored a block. The last two
fields, which the source does not keep, say how the slot began. -/
structure Production where
  height : U64
  schedule : ProposerSchedule
  parent : Block
  before : StateMachine
  listing : List Address

structure Tasks where
  engine : ConsensusEngine
  state : StateMachine
  mempool : Mempool
  storage : Storage
  production : Option Production

def nodeMempool : Mempool := .new ⟨10000, 600 * 10 ^ 9, 0, 50⟩

def Node.launch (node : Node) : Tasks := ⟨node.engine, node.state, nodeMempool, node.storage, none⟩

/-- What the tasks do without being interrupted. A `fault` is a failure of the database. -/
inductive TaskMove where
  | start (listing : List Address) (fault : Bool)
  | finish (now : U64) (order : SenderOrder) (fault : Bool)
  | store (block : Block)
  | submit (tx : Transaction) (now : Nat)

/-- How a slot ends, if it does. -/
inductive SlotEnd where
  | none | stored | unstored
  deriving DecidableEq, Repr

namespace Tasks

section

variable [Blake3]

def node (tasks : Tasks) : Node := ⟨tasks.engine, tasks.state, tasks.storage⟩

/-- The block below `height`. It may be missing or not decode. -/
def readParent (storage : Storage) (height : U64) (fault : Bool) : Option Block :=
  readBlock storage fault (saturatingSub height 1)

/-- A slot up to the parent. A slot that cannot read it is over, and counts. -/
def startSlot (tasks : Tasks) (listing : List Address) (fault : Bool) : Exec (SlotEnd × Tasks) := do
  let height ← add tasks.engine.currentHeight 1
  let (engine, state) := enterEra tasks.engine tasks.state listing height
  let schedule := scheduleFor engine height
  let engine := { engine with schedule := some schedule }
  let ours ← isOurSlot engine schedule height
  if ours then
    match readParent tasks.storage height fault with
    | some parent =>
      let production := ⟨height, schedule, parent, tasks.state, listing⟩
      return (.none, { tasks with engine, state, production := some production })
    | none =>
      return (.unstored, { tasks with engine := { engine with currentHeight := height }, state })
  else
    return (.none, { tasks with engine, state })

/-- The rest of the slot, where nothing comes in between. It counts whether or not the block was
stored. -/
def finishSlot (tasks : Tasks) (production : Production) (now : U64) (order : SenderOrder)
    (fault : Bool) : Exec (SlotEnd × Tasks) := do
  let (txs, mempool) ← tasks.mempool.select order 500
  let proposer ← production.schedule.proposerForHeight production.height
  let (block, state) ← buildBlock tasks.state txs production.parent proposer now
    (FixedBytes.replicate 809 0xCD)
  let (_, state) ← state.applyBlock block
  let encoded ← Codec.block.write block
  let engine := { tasks.engine with currentHeight := production.height }
  if fault then
    return (.unstored, ⟨engine, state, mempool, tasks.storage, none⟩)
  let storage := tasks.storage.put .blocks (heightKey production.height) encoded
  return (.stored, ⟨engine, state, mempool, storage, none⟩)

def step (tasks : Tasks) : TaskMove → Exec (SlotEnd × Tasks)
  | .start listing fault =>
    match tasks.production with
    | none => tasks.startSlot listing fault
    | some _ => return (.none, tasks)
  | .finish now order fault =>
    match tasks.production with
    | none => return (.none, tasks)
    | some production => tasks.finishSlot production now order fault
  | .store block => do
    let encoded ← Codec.block.write block
    return (.none, { tasks with
      storage := tasks.storage.put .blocks (heightKey block.header.height) encoded })
  | .submit tx now => do
    let (_, mempool) ← tasks.mempool.insert tx now
    return (.none, { tasks with mempool })

def run (tasks : Tasks) : List TaskMove → Exec Tasks
  | [] => return tasks
  | move :: rest => do
    let (_, next) ← tasks.step move
    next.run rest

section

variable {tasks next : Tasks} {listing : List Address} {now : U64} {order : SenderOrder}
  {production : Production}

theorem startSlot_reads {engine : ConsensusEngine} {state : StateMachine} {height : U64} {parent : Block}
    (added : add tasks.engine.currentHeight 1 = .ok height)
    (entered : enterEra tasks.engine tasks.state listing height = (engine, state))
    (ours : isOurSlot { engine with schedule := some (scheduleFor engine height) }
      (scheduleFor engine height) height = .ok true)
    (stored : blockAt tasks.storage (saturatingSub height 1) = some parent) :
    tasks.startSlot listing false =
      .ok (.none, ⟨{ engine with schedule := some (scheduleFor engine height) }, state, tasks.mempool,
        tasks.storage, some ⟨height, scheduleFor engine height, parent, tasks.state, listing⟩⟩) := by
  rw [startSlot, added, ok_bind]
  dsimp only
  rw [entered]
  dsimp only
  rw [ours, ok_bind, if_pos rfl, readParent, readBlock_false, stored]
  rfl

/-- A slot whose block is built and applied, whether the database then stores it or fails. -/
theorem finishSlot_eq (fault : Bool) {txs : List Transaction} {mempool : Mempool} {proposer : Address} {block : Block}
    {receipt : BlockReceipt} {u t : StateMachine}
    (selected : tasks.mempool.select order 500 = .ok (txs, mempool))
    (named : production.schedule.proposerForHeight production.height = .ok proposer)
    (built : buildBlock tasks.state txs production.parent proposer now
      (FixedBytes.replicate 809 0xCD) = .ok (block, u))
    (applied : u.applyBlock block = .ok (receipt, t)) (fits : Codec.block.fits block = true) :
    tasks.finishSlot production now order fault = .ok (if fault then .unstored else .stored,
      ⟨{ tasks.engine with currentHeight := production.height }, t, mempool,
        if fault then tasks.storage
        else tasks.storage.put .blocks (heightKey production.height) (Codec.block.encode block), none⟩) := by
  rw [finishSlot, selected, ok_bind]
  dsimp only
  rw [named, ok_bind, built, ok_bind]
  dsimp only
  rw [applied, ok_bind, Codec.write_of_fits fits]
  cases fault with
  | true => rfl
  | false => rfl

theorem step_start (idle : tasks.production = none) (fault : Bool) :
    tasks.step (.start listing fault) = tasks.startSlot listing fault := by
  rw [step, idle]

theorem step_finish (going : tasks.production = some production) (fault : Bool) :
    tasks.step (.finish now order fault) = tasks.finishSlot production now order fault := by
  rw [step, going]

theorem step_submit {tx : Transaction} {at_ : Nat} {result : Result Unit} {mempool : Mempool}
    (inserted : tasks.mempool.insert tx at_ = .ok (result, mempool)) :
    tasks.step (.submit tx at_) = .ok (.none, { tasks with mempool }) := by
  rw [step, inserted]
  rfl

/-- What a move that returns has done. -/
inductive Stepped (tasks : Tasks) : TaskMove → SlotEnd → Tasks → Prop
  | busy {listing : List Address} {fault : Bool} {production : Production}
    (going : tasks.production = some production) : Stepped tasks (.start listing fault) .none tasks
  | start {listing : List Address} {fault : Bool} {slotEnd : SlotEnd} {next : Tasks}
    (idle : tasks.production = none) (ran : tasks.startSlot listing fault = .ok (slotEnd, next)) :
    Stepped tasks (.start listing fault) slotEnd next
  | idle {now : U64} {order : SenderOrder} {fault : Bool} (idle : tasks.production = none) :
    Stepped tasks (.finish now order fault) .none tasks
  | finish {now : U64} {order : SenderOrder} {fault : Bool} {production : Production} {slotEnd : SlotEnd}
    {next : Tasks} (going : tasks.production = some production)
    (ran : tasks.finishSlot production now order fault = .ok (slotEnd, next)) :
    Stepped tasks (.finish now order fault) slotEnd next
  | store {block : Block} (fits : Codec.block.fits block = true) :
    Stepped tasks (.store block) .none { tasks with
      storage := tasks.storage.put .blocks (heightKey block.header.height) (Codec.block.encode block) }
  | submit {tx : Transaction} {now : Nat} {result : Result Unit} {mempool : Mempool}
    (inserted : tasks.mempool.insert tx now = .ok (result, mempool)) :
    Stepped tasks (.submit tx now) .none { tasks with mempool }

theorem step_cases {move : TaskMove} {slotEnd : SlotEnd} (ran : tasks.step move = .ok (slotEnd, next)) :
    tasks.Stepped move slotEnd next := by
  cases move with
  | start listing fault =>
    rw [step] at ran
    split at ran
    next idle => exact .start idle ran
    next going =>
      cases ran
      exact .busy going
  | finish now order fault =>
    rw [step] at ran
    split at ran
    next idle =>
      cases ran
      exact .idle idle
    next going => exact .finish going ran
  | store block =>
    obtain ⟨encoded, written, ran⟩ := bind_eq_ok.mp ran
    obtain ⟨fits, rfl⟩ := Codec.write_eq_ok.mp written
    cases ran
    exact .store fits
  | submit tx now =>
    obtain ⟨⟨result, mempool⟩, inserted, ran⟩ := bind_eq_ok.mp ran
    cases ran
    exact .submit inserted

/-- A slot that is not interrupted and meets no fault is a slot of the loop. -/
theorem slot_of_run (idle : tasks.production = none)
    (ran : tasks.run [.start listing false, .finish now order false] = .ok next) :
    ∃ txs, slot tasks.node ⟨now, txs, listing⟩ = .ok next.node := by
  obtain ⟨⟨_, middle⟩, first, ran⟩ := bind_eq_ok.mp ran
  obtain ⟨⟨_, last⟩, second, ran⟩ := bind_eq_ok.mp ran
  cases ran
  rw [step_start idle] at first
  obtain ⟨height, added, first⟩ := bind_eq_ok.mp first
  dsimp only at first
  obtain ⟨ours, decided, first⟩ := bind_eq_ok.mp first
  generalize entered : enterEra tasks.engine tasks.state listing height = era at first decided
  obtain ⟨engine, state⟩ := era
  cases ours with
  | false =>
    -- the slot of another proposer
    cases first
    rw [step, idle] at second
    cases second
    refine ⟨[], ?_⟩
    simp only [slot, node, added, ok_bind, entered, decided]
    rfl
  | true =>
    rw [if_pos rfl] at first
    cases stored : blockAt tasks.storage (saturatingSub height 1) with
    | none =>
      rw [readParent, readBlock_false, stored] at first
      cases first
      rw [step, idle] at second
      cases second
      exact ⟨[], slot_produces added entered decided (produceBlock_orphan stored)⟩
    | some parent =>
      rw [readParent, readBlock_false, stored] at first
      cases first
      obtain ⟨⟨txs, mempool⟩, selected, second⟩ := bind_eq_ok.mp second
      obtain ⟨proposer, named, second⟩ := bind_eq_ok.mp second
      obtain ⟨⟨block, u⟩, built, second⟩ := bind_eq_ok.mp second
      obtain ⟨⟨receipt, t⟩, applied, second⟩ := bind_eq_ok.mp second
      obtain ⟨encoded, written, second⟩ := bind_eq_ok.mp second
      cases second
      refine ⟨txs, slot_produces added entered decided ?_⟩
      dsimp only [node] at named built applied written ⊢
      rw [produceBlock_eq stored]
      dsimp only
      rw [named, ok_bind, built, ok_bind]
      dsimp only
      rw [applied, ok_bind]
      dsimp only
      rw [written]
      rfl

/-- Storing a batch is storing its blocks one after the other, up to a fault. -/
theorem run_storeBlocks {blocks : List Block} {fault : Option Nat} {after : Storage}
    {complete : Bool} (stored : storeBlocks tasks.storage blocks fault = .ok (after, complete)) :
    ∃ batch, batch <+: blocks ∧
      tasks.run (batch.map .store) = .ok { tasks with storage := after } := by
  induction blocks generalizing tasks fault with
  | nil =>
    cases stored
    exact ⟨[], List.nil_prefix, rfl⟩
  | cons block rest ih =>
    obtain ⟨encoded, written, stored⟩ := bind_eq_ok.mp stored
    split at stored
    next =>
      cases stored
      exact ⟨[], List.nil_prefix, rfl⟩
    next =>
      let first : Tasks := { tasks with
        storage := tasks.storage.put .blocks (heightKey block.header.height) encoded }
      obtain ⟨batch, start, ran⟩ : ∃ batch, batch <+: rest ∧
          first.run (batch.map .store) = .ok { first with storage := after } := ih stored
      refine ⟨block :: batch, List.cons_prefix_cons.mpr ⟨rfl, start⟩, ?_⟩
      rw [List.map_cons, run, step, written, ok_bind]
      exact ran

/-- To the other tasks a round of the catch-up loop is the blocks that it stores. -/
theorem run_round {PeerId : Type} {first : PeerId} {others : List PeerId}
    {sync after : SyncRun PeerId} {turn : Turn} (ahead : sync.cursor.gap ≠ 0)
    (shared : tasks.storage = sync.storage) (ran : sync.round first others turn = .ok after) :
    ∃ batch : List Block,
      tasks.run (batch.map .store) = .ok { tasks with storage := after.storage } := by
  rcases SyncRun.round_cases ahead ran with ⟨reason, rfl⟩ | ⟨failure, -, rfl⟩ | ⟨blocks, -, accepted⟩
  · refine ⟨[], ?_⟩
    change _ = Except.ok { tasks with storage := sync.storage }
    rw [← shared]
    rfl
  · refine ⟨[], ?_⟩
    rw [((sync.asked first others).fail_fields failure).2.1]
    change _ = Except.ok { tasks with storage := sync.storage }
    rw [← shared]
    rfl
  · unfold SyncRun.accept at accepted
    split at accepted
    next last _ =>
      obtain ⟨⟨storage, complete⟩, stored, accepted⟩ := bind_eq_ok.mp accepted
      change storeBlocks sync.storage blocks turn.fault = _ at stored
      rw [← shared] at stored
      obtain ⟨batch, -, ran⟩ := run_storeBlocks stored
      refine ⟨batch, ran.trans ?_⟩
      dsimp only at accepted
      split at accepted
      next =>
        obtain ⟨_, -, accepted⟩ := bind_eq_ok.mp accepted
        cases accepted
        rfl
      next =>
        cases accepted
        rfl
    next => cases accepted

end

end

end Tasks

end Mononium
