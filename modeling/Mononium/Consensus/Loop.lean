import Mononium.Consensus.Engine
import Mononium.Core.Registry
import Mononium.Storage.Genesis

/-! The slot loop of `consensus::engine`. A slot takes from outside the clock, what the
mempool selects and the order in which the validator set happens to be listed; the rest
is the engine, the state machine and the storage. -/
namespace Mononium

open Rust Scale

def eraLength : U64 := 720

def eraAtHeight (height : U64) : U64 := height / eraLength

/-- The first block of an era other than the genesis block. -/
def isEraBoundary (height : U64) : Bool := 0 < height ∧ height % eraLength = 0

structure ConsensusEngine where
  schedule : Option ProposerSchedule
  localValidator : Option Address
  currentHeight : U64

structure Slot where
  now : U64
  selected : List Transaction
  listing : List Address

structure Node where
  engine : ConsensusEngine
  state : StateMachine
  storage : Storage

section

variable [Blake3]

/-- Thaw, elect and install the new active set before the first block of an era. -/
def enterEra (engine : ConsensusEngine) (state : StateMachine) (listing : List Address) (height : U64) :
    ConsensusEngine × StateMachine :=
  if isEraBoundary height then
    let currentEra := eraAtHeight height
    let (state, _) := state.thawAll listing currentEra
    let (active, state) := state.runElection listing maxValidators currentEra
    let state := state.setActiveSet active
    if active = [] then (engine, state)
    else ({ engine with schedule := some ⟨active, currentEra, height⟩ }, state)
  else (engine, state)

/-- Without a schedule the local validator, or the zero address, proposes every block. -/
def scheduleFor (engine : ConsensusEngine) (height : U64) : ProposerSchedule :=
  match engine.schedule with
  | some schedule => schedule
  | none => ⟨[engine.localValidator.getD (repeated 0)], eraAtHeight height, height⟩

/-- In observer mode every slot is the node's own. -/
def isOurSlot (engine : ConsensusEngine) (schedule : ProposerSchedule) (height : U64) : Exec Bool :=
  match engine.localValidator with
  | none => .ok true
  | some address => schedule.isScheduledProposer address height

/-- The signature is a placeholder. Only the block is stored: neither the accounts nor
the validators that it changed. -/
def produceBlock (state : StateMachine) (storage : Storage) (height : U64)
    (schedule : ProposerSchedule) (input : Slot) : Exec (StateMachine × Storage) := do
  let parentHeight := saturatingSub height 1
  let some parentBytes := storage.get .blocks (heightKey parentHeight) | return (state, storage)
  let some (parentBlock, _) := Codec.block.decode parentBytes | return (state, storage)
  let proposer ← schedule.proposerForHeight height
  let (block, state) ← buildBlock state input.selected parentBlock proposer input.now
    (FixedBytes.replicate 809 0xCD)
  let (_, state) ← state.applyBlock block
  let encoded ← Codec.block.write block
  return (state, storage.put .blocks (heightKey height) encoded)

def slot (node : Node) (input : Slot) : Exec Node := do
  let height ← add node.engine.currentHeight 1
  let (engine, state) := enterEra node.engine node.state input.listing height
  let schedule := scheduleFor engine height
  let engine := { engine with schedule := some schedule }
  let ours ← isOurSlot engine schedule height
  if ours then
    let (state, storage) ← produceBlock state node.storage height schedule input
    return ⟨{ engine with currentHeight := height }, state, storage⟩
  else
    return ⟨engine, state, node.storage⟩

section

variable {A : Finset Address} {node next : Node} {input : Slot} {state t : StateMachine}
  {storage after : Storage} {height : U64} {schedule : ProposerSchedule} {listing : List Address}

theorem enterEra_currentHeight (engine : ConsensusEngine) (state : StateMachine)
    (listing : List Address) (height : U64) :
    (enterEra engine state listing height).1.currentHeight = engine.currentHeight := by
  unfold enterEra
  split
  next =>
    dsimp only
    split
    next => rfl
    next => rfl
  next => rfl

/-- What happens at an era boundary. A schedule is kept if nobody is elected. -/
theorem enterEra_of_boundary (engine : ConsensusEngine) (state : StateMachine) (listing : List Address)
    {height : U64} (boundary : isEraBoundary height = true) :
    enterEra engine state listing height =
      let thawed := (state.thawAll listing (eraAtHeight height)).1
      let active := (thawed.runElection listing maxValidators (eraAtHeight height)).1
      (if active = [] then engine
        else { engine with schedule := some ⟨active, eraAtHeight height, height⟩ },
        (thawed.runElection listing maxValidators (eraAtHeight height)).2.setActiveSet active) := by
  rw [enterEra, if_pos boundary]
  dsimp only
  split
  next => rfl
  next => rfl

theorem enterEra_accounts (engine : ConsensusEngine) (height : U64) (sound : state.Sound A)
    (within : ∀ a ∈ listing, a ∈ A) :
    (enterEra engine state listing height).2.Sound A ∧
      ∀ a ∈ A, (enterEra engine state listing height).2.account a = state.account a := by
  by_cases boundary : isEraBoundary height
  · have thawed := StateMachine.thawAll_adjusted listing (eraAtHeight height) sound within
    obtain ⟨adjusted, members⟩ := StateMachine.runElection_adjusted listing maxValidators
      (eraAtHeight height) thawed.sound within
    rw [enterEra_of_boundary engine state listing boundary]
    exact ⟨adjusted.sound.setActiveSet members, fun a ha => (thawed.trans adjusted).account a ha⟩
  · rw [enterEra, if_neg boundary]
    exact ⟨sound, fun _ _ => rfl⟩

/-- Without validators and without an active set nothing happens at an era boundary. -/
theorem enterEra_bare (engine : ConsensusEngine) (height : U64) (none : listing = [])
    (idle : state.activeSet = []) : (enterEra engine state listing height).2 = state := by
  by_cases boundary : isEraBoundary height
  · subst none
    have elected : state.elected [] maxValidators (eraAtHeight height) = [] := by
      simp [StateMachine.elected, StateMachine.eligible]
    have same : state.setActiveSet [] = state := by rw [← idle]; rfl
    rw [enterEra, if_pos boundary]
    simp [StateMachine.thawAll, StateMachine.runElection, elected, same]
  · rw [enterEra, if_neg boundary]

/-- With the parent in storage a block is built on it, applied and stored. -/
theorem produceBlock_eq {parent : Block}
    (stored : blockAt storage (saturatingSub height 1) = some parent) :
    produceBlock state storage height schedule input = do
      let proposer ← schedule.proposerForHeight height
      let (block, state) ← buildBlock state input.selected parent proposer input.now
        (FixedBytes.replicate 809 0xCD)
      let (_, state) ← state.applyBlock block
      let encoded ← Codec.block.write block
      return (state, storage.put .blocks (heightKey height) encoded) := by
  obtain ⟨raw, rest, found, decoded⟩ := blockAt_eq_some.mp stored
  simp only [produceBlock, found, decoded]

theorem produceBlock_orphan (missing : blockAt storage (saturatingSub height 1) = none) :
    produceBlock state storage height schedule input = .ok (state, storage) := by
  simp only [blockAt, Option.bind_eq_none_iff, Option.map_eq_none_iff] at missing
  simp only [produceBlock]
  split
  next raw found =>
    simp only [missing raw found]
    rfl
  next => rfl

theorem produceBlock_spec {parent : Block}
    (stored : blockAt storage (saturatingSub height 1) = some parent)
    (produced : produceBlock state storage height schedule input = .ok (t, after)) :
    ∃ proposer block u receipt,
      buildBlock state input.selected parent proposer input.now (FixedBytes.replicate 809 0xCD) =
        .ok (block, u) ∧
      u.applyBlock block = .ok (receipt, t) ∧ Codec.block.fits block = true ∧
      after = storage.put .blocks (heightKey height) (Codec.block.encode block) := by
  rw [produceBlock_eq stored] at produced
  obtain ⟨proposer, -, produced⟩ := bind_eq_ok.mp produced
  obtain ⟨⟨block, u⟩, built, produced⟩ := bind_eq_ok.mp produced
  obtain ⟨⟨receipt, v⟩, applied, produced⟩ := bind_eq_ok.mp produced
  obtain ⟨encoded, written, produced⟩ := bind_eq_ok.mp produced
  obtain ⟨fits, rfl⟩ := Codec.write_eq_ok.mp written
  cases produced
  exact ⟨proposer, block, u, receipt, built, applied, fits, rfl⟩

theorem slot_produces {engine : ConsensusEngine} (added : add node.engine.currentHeight 1 = .ok height)
    (entered : enterEra node.engine node.state input.listing height = (engine, state))
    (ours : isOurSlot { engine with schedule := some (scheduleFor engine height) }
      (scheduleFor engine height) height = .ok true)
    (produced : produceBlock state node.storage height (scheduleFor engine height) input =
      .ok (t, after)) :
    slot node input =
      .ok ⟨⟨some (scheduleFor engine height), engine.localValidator, height⟩, t, after⟩ := by
  rw [slot, added, ok_bind]
  dsimp only
  rw [entered]
  dsimp only
  rw [ours, ok_bind, if_pos rfl, produced]
  rfl

/-- A slot enters the era, then either produces a block or waits for one. -/
theorem slot_cases (ran : slot node input = .ok next) :
    ∃ height, add node.engine.currentHeight 1 = .ok height ∧
      ((next.state = (enterEra node.engine node.state input.listing height).2 ∧
        next.storage = node.storage ∧ next.engine.currentHeight = node.engine.currentHeight) ∨
      ∃ schedule, produceBlock (enterEra node.engine node.state input.listing height).2 node.storage
          height schedule input = .ok (next.state, next.storage) ∧
        next.engine.currentHeight = height) := by
  obtain ⟨height, added, ran⟩ := bind_eq_ok.mp ran
  refine ⟨height, added, ?_⟩
  have kept := enterEra_currentHeight node.engine node.state input.listing height
  dsimp only at ran
  obtain ⟨ours, -, ran⟩ := bind_eq_ok.mp ran
  cases ours with
  | false =>
    cases ran
    exact .inl ⟨rfl, rfl, kept⟩
  | true =>
    obtain ⟨⟨t, after⟩, produced, ran⟩ := bind_eq_ok.mp ran
    cases ran
    exact .inr ⟨_, produced, rfl⟩

end

end

end Mononium
