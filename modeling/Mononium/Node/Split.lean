import Mononium.Node.Tasks

/-! A slot with every point at which other tasks go on. It takes transactions out of the pool and
gives the lock on the pool back before it gets the one on the state. And it hands its block to the
network before it counts. -/
namespace Mononium

open Rust Scale

/-- The tasks, with what a slot has taken and not yet made a block of, and with the height of a block
that is stored and not yet published. -/
structure Split where
  tasks : Tasks
  taken : Option (List Transaction)
  publishing : Option U64

inductive SplitMove where
  | start (listing : List Address) (fault : Bool)
  | select (order : SenderOrder)
  | apply (now : U64) (fault : Bool)
  | publish
  | store (block : Block)
  | submit (tx : Transaction) (now : Nat)

def Tasks.split (tasks : Tasks) : Split := ⟨tasks, none, none⟩

namespace Split

/-- The tasks once the block is published. Whether that succeeds makes no difference. -/
def settled (split : Split) : Tasks :=
  { split.tasks with engine := { split.tasks.engine with
    currentHeight := split.publishing.getD split.tasks.engine.currentHeight } }

theorem settled_of_none {split : Split} (done : split.publishing = none) : split.settled = split.tasks := by
  rw [settled, done]
  rfl

theorem settled_height {split : Split} {height : U64} (stored : split.publishing = some height) :
    split.settled.engine.currentHeight = height := by
  rw [settled, stored]
  rfl

@[simp] theorem settled_split (tasks : Tasks) : tasks.split.settled = tasks := rfl

@[simp] theorem settled_state (split : Split) : split.settled.state = split.tasks.state := rfl

@[simp] theorem settled_mempool (split : Split) : split.settled.mempool = split.tasks.mempool := rfl

@[simp] theorem settled_storage (split : Split) : split.settled.storage = split.tasks.storage := rfl

@[simp] theorem settled_production (split : Split) :
    split.settled.production = split.tasks.production := rfl

section

variable [Blake3]

/-- A slot whose block is not stored counts at once. -/
def applySlot (split : Split) (production : Production) (txs : List Transaction) (now : U64) (fault : Bool) :
    Exec (SlotEnd × Split) := do
  let tasks := split.tasks
  let proposer ← production.schedule.proposerForHeight production.height
  let (block, state) ← buildBlock tasks.state txs production.parent proposer now
    (FixedBytes.replicate 809 0xCD)
  let (_, state) ← state.applyBlock block
  let encoded ← Codec.block.write block
  if fault then
    let engine := { tasks.engine with currentHeight := production.height }
    return (.unstored, ⟨⟨engine, state, tasks.mempool, tasks.storage, none⟩, none, none⟩)
  let storage := tasks.storage.put .blocks (heightKey production.height) encoded
  return (.stored, ⟨⟨tasks.engine, state, tasks.mempool, storage, none⟩, none, some production.height⟩)

def elsewhere (split : Split) (move : TaskMove) : Exec (SlotEnd × Split) := do
  let (slotEnd, tasks) ← split.tasks.step move
  return (slotEnd, { split with tasks })

def step (split : Split) : SplitMove → Exec (SlotEnd × Split)
  | .start listing fault =>
    match split.publishing with
    | none => split.elsewhere (.start listing fault)
    | some _ => return (.none, split)
  | .store block => split.elsewhere (.store block)
  | .submit tx now => split.elsewhere (.submit tx now)
  | .select order =>
    match split.tasks.production, split.taken with
    | some _, none => do
      let (txs, mempool) ← split.tasks.mempool.select order 500
      return (.none, { split with tasks := { split.tasks with mempool }, taken := some txs })
    | _, _ => return (.none, split)
  | .apply now fault =>
    match split.tasks.production, split.taken with
    | some production, some txs => split.applySlot production txs now fault
    | _, _ => return (.none, split)
  | .publish => return (.none, { split with tasks := split.settled, publishing := none })

def run (split : Split) : List SplitMove → Exec Split
  | [] => return split
  | move :: rest => do
    let (_, next) ← split.step move
    next.run rest

variable {split next : Split} {production : Production} {txs : List Transaction} {now : U64} {fault : Bool}
  {slotEnd : SlotEnd}

theorem elsewhere_split {tasks after : Tasks} {move : TaskMove} (stepped : tasks.step move = .ok (slotEnd, after)) :
    tasks.split.elsewhere move = .ok (slotEnd, after.split) := by
  rw [elsewhere, Tasks.split, stepped]
  rfl

theorem step_select {order : SenderOrder} {mempool : Mempool} (going : split.tasks.production = some production)
    (untaken : split.taken = none) (selected : split.tasks.mempool.select order 500 = .ok (txs, mempool)) :
    split.step (.select order) =
      .ok (.none, { split with tasks := { split.tasks with mempool }, taken := some txs }) := by
  rw [step]
  split
  next =>
    rw [selected]
    rfl
  next other => exact absurd untaken (other production going)

theorem step_apply (going : split.tasks.production = some production) (taken : split.taken = some txs) :
    split.step (.apply now fault) = split.applySlot production txs now fault := by
  rw [step, going, taken]

/-- A slot whose block is built and applied, whether the database then stores it or fails. -/
theorem applySlot_eq {proposer : Address} {block : Block} {receipt : BlockReceipt} {u t : StateMachine}
    (fault : Bool) (named : production.schedule.proposerForHeight production.height = .ok proposer)
    (built : buildBlock split.tasks.state txs production.parent proposer now
      (FixedBytes.replicate 809 0xCD) = .ok (block, u))
    (applied : u.applyBlock block = .ok (receipt, t)) (fits : Codec.block.fits block = true) :
    split.applySlot production txs now fault = .ok (if fault then
      (.unstored, ⟨⟨{ split.tasks.engine with currentHeight := production.height }, t, split.tasks.mempool,
        split.tasks.storage, none⟩, none, none⟩)
    else
      (.stored, ⟨⟨split.tasks.engine, t, split.tasks.mempool,
        split.tasks.storage.put .blocks (heightKey production.height) (Codec.block.encode block), none⟩,
        none, some production.height⟩)) := by
  rw [applySlot]
  dsimp only
  rw [named, ok_bind, built, ok_bind]
  dsimp only
  rw [applied, ok_bind, Codec.write_of_fits fits]
  cases fault with
  | true => rfl
  | false => rfl

theorem apply_cases (ran : split.applySlot production txs now fault = .ok (slotEnd, next)) :
    ∃ proposer block u receipt,
      buildBlock split.tasks.state txs production.parent proposer now (FixedBytes.replicate 809 0xCD) =
        .ok (block, u) ∧
      u.applyBlock block = .ok (receipt, next.tasks.state) ∧ Codec.block.fits block = true ∧
      next.tasks.mempool = split.tasks.mempool ∧ next.taken = none ∧ next.tasks.production = none ∧
      next.settled.engine.currentHeight = production.height ∧
      (fault = true ∧ next.publishing = none ∧ next.tasks.storage = split.tasks.storage ∨
      slotEnd = .stored ∧ next.publishing = some production.height ∧
        next.tasks.engine = split.tasks.engine ∧ next.tasks.storage =
          split.tasks.storage.put .blocks (heightKey production.height) (Codec.block.encode block)) := by
  obtain ⟨proposer, -, ran⟩ := bind_eq_ok.mp ran
  obtain ⟨⟨block, u⟩, built, ran⟩ := bind_eq_ok.mp ran
  obtain ⟨⟨receipt, t⟩, applied, ran⟩ := bind_eq_ok.mp ran
  obtain ⟨encoded, written, ran⟩ := bind_eq_ok.mp ran
  obtain ⟨fits, rfl⟩ := Codec.write_eq_ok.mp written
  refine ⟨proposer, block, u, receipt, built, ?_⟩
  cases fault with
  | true =>
    cases ran
    exact ⟨applied, fits, rfl, rfl, rfl, rfl, .inl ⟨rfl, rfl, rfl⟩⟩
  | false =>
    cases ran
    exact ⟨applied, fits, rfl, rfl, rfl, rfl, .inr ⟨rfl, rfl, rfl, rfl⟩⟩

/-- Nothing of the slot goes on but the publishing of its block. -/
theorem apply_ends (ran : split.applySlot production txs now fault = .ok (slotEnd, next)) :
    next.tasks.production = none := by
  obtain ⟨_, _, _, _, -, -, -, -, -, done, -⟩ := apply_cases ran
  exact done

end

end Split

namespace Tasks

variable [Blake3] {tasks next : Tasks} {production : Production} {now : U64} {order : SenderOrder}
  {fault : Bool} {slotEnd : SlotEnd}

/-- The end of a slot is its steps, one right after the other. -/
theorem finishSlot_eq_split (production : Production) (now : U64) (order : SenderOrder) (fault : Bool) :
    tasks.finishSlot production now order fault = (do
      let (txs, mempool) ← tasks.mempool.select order 500
      let (slotEnd, split) ← Split.applySlot ⟨{ tasks with mempool }, some txs, none⟩ production txs now fault
      return (slotEnd, split.settled)) := by
  rw [finishSlot]
  refine bind_congr fun selected => ?_
  simp only [Split.applySlot, bind_assoc]
  refine bind_congr fun proposer => bind_congr fun built => bind_congr fun applied =>
    bind_congr fun encoded => ?_
  cases fault with
  | true => rfl
  | false => rfl

theorem finish_cases (ran : tasks.finishSlot production now order fault = .ok (slotEnd, next)) :
    ∃ txs proposer block u receipt, tasks.mempool.select order 500 = .ok (txs, next.mempool) ∧
      buildBlock tasks.state txs production.parent proposer now (FixedBytes.replicate 809 0xCD) =
        .ok (block, u) ∧
      u.applyBlock block = .ok (receipt, next.state) ∧ Codec.block.fits block = true ∧
      next.engine.currentHeight = production.height ∧ next.production = none ∧
      (fault = true ∧ next.storage = tasks.storage ∨
      slotEnd = .stored ∧ next.storage =
        tasks.storage.put .blocks (heightKey production.height) (Codec.block.encode block)) := by
  rw [finishSlot_eq_split] at ran
  obtain ⟨⟨txs, mempool⟩, selected, ran⟩ := bind_eq_ok.mp ran
  obtain ⟨⟨_, split⟩, made, ran⟩ := bind_eq_ok.mp ran
  cases ran
  obtain ⟨proposer, block, u, receipt, built, applied, fits, pool, -, done, height, ended⟩ :=
    Split.apply_cases made
  refine ⟨txs, proposer, block, u, receipt, ?_⟩
  simp only [Split.settled_mempool, Split.settled_state, Split.settled_production, Split.settled_storage]
  refine ⟨pool ▸ selected, built, applied, fits, height, done, ?_⟩
  rcases ended with ⟨failed, -, kept⟩ | ⟨stored, -, -, put⟩
  · exact .inl ⟨failed, kept⟩
  · exact .inr ⟨stored, put⟩

/-- The slot is over, and its height counts. -/
theorem finish_ends (ran : tasks.finishSlot production now order fault = .ok (slotEnd, next)) :
    next.production = none ∧ next.engine.currentHeight = production.height := by
  obtain ⟨_, _, _, _, _, -, -, -, -, height, done, -⟩ := finish_cases ran
  exact ⟨done, height⟩

/-- A slot that meets no fault stores its block. -/
theorem finish_stored (ran : tasks.finishSlot production now order false = .ok (slotEnd, next)) :
    slotEnd = .stored := by
  obtain ⟨_, _, _, _, _, -, -, -, -, -, -, ⟨impossible, -⟩ | ⟨stored, -⟩⟩ := finish_cases ran
  · cases impossible
  · exact stored

end Tasks

end Mononium
