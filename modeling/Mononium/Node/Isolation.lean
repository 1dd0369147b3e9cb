import Mononium.Node.Custody

/-! What the ledger of a node depends on. The slot loop reads the database only for the parent of its
block, and of the parent the ledger sees the chain id. Two nodes that begin with one ledger keep one
ledger, whatever each of them has synced, whenever their slots end and whichever of their blocks the
database has lost, as long as their slots find parents of the same chains. -/
namespace Mononium

open Rust Scale

/-- The slot loop without a database. A slot that goes on is its height and its chain. -/
structure LedgerLoop where
  engine : ConsensusEngine
  state : StateMachine
  mempool : Mempool
  slot : Option (U64 × U64)

/-- What reaches the ledger. A slot begins with the chain of the parent, if there is a parent. -/
inductive LedgerMove where
  | start (listing : List Address) (chainId : Option U64)
  | finish (order : SenderOrder)
  | submit (tx : Transaction) (now : Nat)

namespace LedgerLoop

section

variable [Blake3]

def startSlot (loop : LedgerLoop) (listing : List Address) (chainId : Option U64) :
    Exec LedgerLoop := do
  let height ← add loop.engine.currentHeight 1
  let (engine, state) := enterEra loop.engine loop.state listing height
  let schedule := scheduleFor engine height
  let engine := { engine with schedule := some schedule }
  if ← isOurSlot engine schedule height then
    match chainId with
    | some chainId => return { loop with engine, state, slot := some (height, chainId) }
    | none => return { loop with engine := { engine with currentHeight := height }, state }
  else
    return { loop with engine, state }

def finishSlot (loop : LedgerLoop) (height chainId : U64) (order : SenderOrder) : Exec LedgerLoop := do
  let (txs, mempool) ← loop.mempool.select order 500
  let (_, state) ← loop.state.stateRoot
  let p ← StateMachine.applyTxs chainId ⟨state, 0, 0, 0⟩ txs
  let state ← p.machine.distributeFees p.blockFees
  let (_, state) ← state.stateRoot
  return ⟨{ loop.engine with currentHeight := height }, state, mempool, none⟩

def step (loop : LedgerLoop) : LedgerMove → Exec LedgerLoop
  | .start listing chainId => loop.startSlot listing chainId
  | .finish order =>
    match loop.slot with
    | none => return loop
    | some (height, chainId) => loop.finishSlot height chainId order
  | .submit tx now => do
    let (_, mempool) ← loop.mempool.insert tx now
    return { loop with mempool }

end

end LedgerLoop

def ServerMove.taskMove : ServerMove → Option TaskMove
  | .task move => some move
  | .submit (.rest tx) now => some (.submit tx now)
  | .submit (.rpc _) _ => none

theorem ServerMove.taskMove_eq_store {move : ServerMove} {block : Block} :
    move.taskMove = some (.store block) ↔ move = .task (.store block) := by
  cases move with
  | task move => simp [taskMove]
  | submit submission now => cases submission <;> simp [taskMove]

namespace Tasks

def ledger (tasks : Tasks) : LedgerLoop :=
  ⟨tasks.engine, tasks.state, tasks.mempool,
    tasks.production.map fun production => (production.height, production.parent.header.chainId)⟩

/-- The chain of the parent that the next slot finds. -/
def parentChain (tasks : Tasks) (fault : Bool) : Option U64 :=
  (readParent tasks.storage (tasks.engine.currentHeight + 1) fault).map (·.header.chainId)

/-- What a move lets through to the ledger: nothing that is synced, no time of a block and no failure
to store one. -/
def seen (tasks : Tasks) : TaskMove → Option LedgerMove
  | .start listing fault =>
    match tasks.production with
    | none => some (.start listing (tasks.parentChain fault))
    | some _ => none
  | .finish _ order _ => some (.finish order)
  | .store _ => none
  | .submit tx now => some (.submit tx now)

variable {tasks next : Tasks} {fault : Bool} {c : U64}

/-- All blocks of the database are of one chain, and so is the parent of a slot that goes on. -/
structure OnChain (c : U64) (tasks : Tasks) : Prop where
  stored : ∀ height block, blockAt tasks.storage height = some block → block.header.chainId = c
  parent : ∀ production, tasks.production = some production → production.parent.header.chainId = c

theorem OnChain.read {height : U64} {parent : Block} (onChain : tasks.OnChain c)
    (found : readParent tasks.storage height fault = some parent) : parent.header.chainId = c :=
  onChain.stored _ parent (readBlock_eq_some.mp found).2

theorem OnChain.seen {move : TaskMove} {listing : List Address} {chainId : Option U64} (onChain : tasks.OnChain c)
    (shown : tasks.seen move = some (.start listing chainId)) : chainId = none ∨ chainId = some c := by
  cases move with
  | start listing fault =>
    rw [Tasks.seen] at shown
    split at shown
    next =>
      cases shown
      rw [parentChain]
      cases found : readParent tasks.storage (tasks.engine.currentHeight + 1) fault with
      | none => exact .inl rfl
      | some parent => exact .inr (congrArg some (onChain.read found))
    next => cases shown
  | finish | store | submit => cases shown

theorem OnChain.put {block : Block} {height : U64} (onChain : tasks.OnChain c)
    (own : block.header.chainId = c) (fits : Codec.block.fits block = true)
    (storage : next.storage = tasks.storage.put .blocks (heightKey height) (Codec.block.encode block))
    (asked : U64) (found : Block) (stored : blockAt next.storage asked = some found) :
    found.header.chainId = c := by
  rw [storage, blockAt_put fits] at stored
  split at stored
  next =>
    cases stored
    exact own
  next => exact onChain.stored asked found stored

section

variable [Blake3] {listing : List Address} {slotEnd : SlotEnd} {production : Production} {now : U64}
  {order : SenderOrder}

theorem ledger_startSlot (idle : tasks.production = none)
    (ran : tasks.startSlot listing fault = .ok (slotEnd, next)) :
    tasks.ledger.startSlot listing (tasks.parentChain fault) = .ok next.ledger := by
  obtain ⟨height, added, ran⟩ := bind_eq_ok.mp ran
  dsimp only at ran
  obtain ⟨ours, decided, ran⟩ := bind_eq_ok.mp ran
  have above : tasks.engine.currentHeight + 1 = height := by
    have value := add_eq_ok.mp added
    bv_omega
  rw [LedgerLoop.startSlot, ledger]
  dsimp only
  rw [added, ok_bind, decided, ok_bind, parentChain, above]
  cases ours with
  | false =>
    cases ran
    rfl
  | true =>
    rw [if_pos rfl] at ran ⊢
    cases found : readParent tasks.storage height fault with
    | some parent =>
      rw [found] at ran
      cases ran
      rfl
    | none =>
      rw [found] at ran
      cases ran
      rw [idle]
      rfl

/-- Of the block that a slot builds and applies, the ledger sees the chain and the transactions. -/
theorem ledger_finishSlot (ran : tasks.finishSlot production now order fault = .ok (slotEnd, next)) :
    tasks.ledger.finishSlot production.height production.parent.header.chainId order =
      .ok next.ledger := by
  obtain ⟨⟨txs, mempool⟩, selected, ran⟩ := bind_eq_ok.mp ran
  obtain ⟨proposer, -, ran⟩ := bind_eq_ok.mp ran
  obtain ⟨⟨block, u⟩, built, ran⟩ := bind_eq_ok.mp ran
  obtain ⟨⟨receipt, t⟩, applied, ran⟩ := bind_eq_ok.mp ran
  obtain ⟨encoded, -, ran⟩ := bind_eq_ok.mp ran
  have ended : next.ledger =
      ⟨{ tasks.engine with currentHeight := production.height }, t, mempool, none⟩ := by
    cases fault with
    | true | false =>
      cases ran
      rfl
  obtain ⟨height, -, built⟩ := bind_eq_ok.mp built
  obtain ⟨⟨root, v⟩, rooted, built⟩ := bind_eq_ok.mp built
  cases built
  obtain ⟨p, looped, applied⟩ := bind_eq_ok.mp applied
  obtain ⟨machine, distributed, applied⟩ := bind_eq_ok.mp applied
  obtain ⟨⟨root, w⟩, last, applied⟩ := bind_eq_ok.mp applied
  cases applied
  rw [ended, LedgerLoop.finishSlot, ledger]
  dsimp only at looped ⊢
  rw [selected, ok_bind]
  dsimp only
  rw [rooted, ok_bind]
  dsimp only
  rw [looped, ok_bind, distributed, ok_bind, last]
  rfl

/-- A move of the tasks is to their ledger what the ledger sees of it. -/
theorem step_ledger {move : TaskMove} (stepped : tasks.step move = .ok (slotEnd, next)) :
    (tasks.seen move).toList.foldlM LedgerLoop.step tasks.ledger = .ok next.ledger := by
  have single (seen : LedgerMove) (stepped : tasks.ledger.step seen = .ok next.ledger) :
      [seen].foldlM LedgerLoop.step tasks.ledger = .ok next.ledger := by
    rw [List.foldlM_cons, stepped]
    rfl
  cases step_cases stepped with
  | busy going =>
    rw [seen, going]
    rfl
  | start idle ran =>
    rw [seen, idle]
    exact single _ (ledger_startSlot idle ran)
  | idle idle =>
    refine single _ ?_
    rw [LedgerLoop.step, ledger, idle]
    rfl
  | finish going ran =>
    refine single _ ?_
    have finished := ledger_finishSlot ran
    rw [LedgerLoop.step]
    rw [ledger, going] at finished ⊢
    exact finished
  | store => rfl
  | submit inserted =>
    refine single _ ?_
    rw [LedgerLoop.step, ledger]
    dsimp only
    rw [inserted]
    rfl

theorem OnChain.finishSlot (onChain : tasks.OnChain c) (going : tasks.production = some production)
    (ran : tasks.finishSlot production now order fault = .ok (slotEnd, next)) : next.OnChain c := by
  obtain ⟨txs, proposer, block, u, receipt, -, built, -, fits, -, done, ended⟩ := finish_cases ran
  have own : block.header.chainId = c := by
    obtain ⟨height, -, built⟩ := bind_eq_ok.mp built
    obtain ⟨⟨root, v⟩, -, built⟩ := bind_eq_ok.mp built
    cases built
    exact onChain.parent production going
  refine ⟨?_, fun other still => ?_⟩
  · rcases ended with ⟨-, storage⟩ | ⟨-, storage⟩
    · rw [storage]
      exact onChain.stored
    · exact onChain.put own fits storage
  · cases done.symm.trans still

theorem OnChain.step {move : TaskMove} (onChain : tasks.OnChain c)
    (own : ∀ block, move = .store block → block.header.chainId = c)
    (stepped : tasks.step move = .ok (slotEnd, next)) : next.OnChain c := by
  cases step_cases stepped with
  | busy | idle => exact onChain
  | start idle ran =>
    obtain ⟨height, engine, -, -, ⟨-, rfl⟩ | ⟨-, ⟨schedule, parent, read, -, rfl⟩ | ⟨-, -, rfl⟩⟩⟩ :=
      start_cases ran
    · exact ⟨onChain.stored, onChain.parent⟩
    · refine ⟨onChain.stored, fun production going => ?_⟩
      cases going
      exact onChain.read read
    · exact ⟨onChain.stored, onChain.parent⟩
  | finish going ran => exact onChain.finishSlot going ran
  | store fits => exact ⟨onChain.put (own _ rfl) fits rfl, onChain.parent⟩
  | submit => exact ⟨onChain.stored, onChain.parent⟩

end

end Tasks

namespace Servers

section

variable [Blake3] {self next : Servers}

/-- What the ledger sees of a move. It sees nothing of the RPC server. -/
def seen (self : Servers) (move : ServerMove) : Option LedgerMove := move.taskMove.bind self.tasks.seen

/-- A move of a node with its servers is a move of the tasks, or leaves them alone. -/
theorem act_cases {move : ServerMove} (ran : self.act move = .ok next) :
    (∃ task slotEnd, move.taskMove = some task ∧ self.tasks.step task = .ok (slotEnd, next.tasks)) ∨
      move.taskMove = none ∧ next.tasks = self.tasks := by
  cases move with
  | task move =>
    obtain ⟨⟨slotEnd, tasks⟩, stepped, ran⟩ := bind_eq_ok.mp ran
    cases ran
    exact .inl ⟨move, slotEnd, rfl, stepped⟩
  | submit submission now =>
    obtain ⟨⟨reply, servers⟩, submitted, ran⟩ := bind_eq_ok.mp ran
    cases ran
    cases submission with
    | rest tx =>
      obtain ⟨⟨answer, after⟩, handled, submitted⟩ := bind_eq_ok.mp submitted
      cases submitted
      exact .inl ⟨_, _, rfl, (txSubmitHandler_step handled).1⟩
    | rpc hexTx => exact .inr ⟨rfl, tasks_of_rpc submitted⟩

theorem act_ledger {move : ServerMove} (ran : self.act move = .ok next) :
    (self.seen move).toList.foldlM LedgerLoop.step self.tasks.ledger = .ok next.tasks.ledger := by
  rcases act_cases ran with ⟨task, slotEnd, own, stepped⟩ | ⟨other, same⟩
  · rw [seen, own]
    exact Tasks.step_ledger stepped
  · rw [seen, other, same]
    rfl

/-- A run of a node is to its ledger what the ledger sees of it. -/
theorem actAll_ledger {moves : List ServerMove} (ran : self.actAll moves = .ok next) :
    (emissions act seen self moves).foldlM LedgerLoop.step self.tasks.ledger = .ok next.tasks.ledger :=
  foldlM_refines seen LedgerLoop.step (·.tasks.ledger) (fun _ _ _ _ stepped => act_ledger stepped) ran

theorem actAll_onChain {c : U64} {moves : List ServerMove} (onChain : self.tasks.OnChain c)
    (own : ∀ block, .task (.store block) ∈ moves → block.header.chainId = c)
    (ran : self.actAll moves = .ok next) {listing : List Address} {chainId : Option U64}
    (shown : .start listing chainId ∈ emissions act seen self moves) : chainId = none ∨ chainId = some c := by
  have both := foldlM_logs seen (fun s log => s.tasks.OnChain c ∧
      ∀ listing chainId, .start listing chainId ∈ log → chainId = none ∨ chainId = some c)
    (fun s log move member t before stepped => ?_) ⟨onChain, by simp⟩ ran
  · exact both.2 listing chainId shown
  · obtain ⟨onChain, shown⟩ := before
    rcases act_cases stepped with ⟨task, slotEnd, taken, stepped⟩ | ⟨other, same⟩
    · refine ⟨onChain.step (fun block stores => own block ?_) stepped, fun listing chainId visible => ?_⟩
      · rw [stores] at taken
        rwa [ServerMove.taskMove_eq_store.mp taken] at member
      · rw [seen, taken] at visible
        rcases List.mem_append.mp visible with earlier | here
        · exact shown listing chainId earlier
        · exact onChain.seen (Option.mem_toList.mp here)
    · rw [seen, other, same]
      exact ⟨onChain, by simpa using shown⟩

/-- Two nodes that start with the same ledger have the same ledger, the same pool and the same slot at
the end of any two runs of which their ledgers see the same; and of a database of one chain, into which
only blocks of this chain are synced, the ledger sees whether a slot finds its parent. -/
theorem ledger_isolated {node other : Node} {moves moves' : List ServerMove} {next' : Servers}
    (engine : node.engine = other.engine) (state : node.state = other.state)
    (ran : node.launch.serve.actAll moves = .ok next)
    (ran' : other.launch.serve.actAll moves' = .ok next')
    (same : emissions act seen node.launch.serve moves = emissions act seen other.launch.serve moves') :
    next.tasks.ledger = next'.tasks.ledger ∧
    ∀ c, (∀ height block, blockAt node.storage height = some block → block.header.chainId = c) →
      (∀ block, .task (.store block) ∈ moves → block.header.chainId = c) →
      ∀ listing chainId, .start listing chainId ∈ emissions act seen node.launch.serve moves →
        chainId = none ∨ chainId = some c := by
  constructor
  · have first := actAll_ledger ran
    have second := actAll_ledger ran'
    have start : node.launch.serve.tasks.ledger = other.launch.serve.tasks.ledger := by
      simp [Tasks.serve, Node.launch, Tasks.ledger, engine, state]
    rw [same, start] at first
    exact Except.ok.inj (first.symm.trans second)
  · intro c stored own listing chainId shown
    have onChain : node.launch.OnChain c := ⟨stored, fun _ going => by cases going⟩
    exact actAll_onChain onChain own ran shown

end

section Sample

open StateMachine

attribute [local instance] peakBlake3 soloSerdeJson

def lateMoves : List ServerMove :=
  [.submit (.rest freshVote) 1, .task (.start [] false), .task (.finish 1700000009 .plain true),
    .task (.store Tasks.syncedBlock)]

theorem vote_seen {now : U64} {fault : Bool} {started next : Servers} {rest : List ServerMove}
    (submitted : soloNode.launch.serve.act (.submit (.rest freshVote) 1) = .ok votedServers)
    (first : votedServers.act (.task (.start [] false)) = .ok started)
    (last : started.act (.task (.finish now .plain fault)) = .ok next) :
    emissions act seen soloNode.launch.serve (.submit (.rest freshVote) 1 :: .task (.start [] false) ::
      .task (.finish now .plain fault) :: rest) =
    [.submit freshVote 1, .start [] (votedServers.tasks.parentChain false), .finish .plain] ++
      emissions act seen next rest := by
  rw [emissions_cons submitted, emissions_cons first, emissions_cons last]
  rfl

theorem lateMoves_isolated : ∃ next next', soloNode.launch.serve.actAll voteMoves = .ok next ∧
    soloNode.launch.serve.actAll lateMoves = .ok next' ∧ next.tasks.ledger = next'.tasks.ledger := by
  obtain ⟨submitted, started, next, first, last⟩ := vote_acts 1700000001 false
  obtain ⟨-, started', late, first', last'⟩ := vote_acts 1700000009 true
  have ran : soloNode.launch.serve.actAll voteMoves = .ok next := by
    rw [actAll, voteMoves, List.foldlM_cons, submitted, ok_bind, List.foldlM_cons, first, ok_bind,
      List.foldlM_cons, last]
    rfl
  let storage := late.tasks.storage.put .blocks (heightKey Tasks.syncedBlock.header.height)
    (Codec.block.encode Tasks.syncedBlock)
  let tasks : Tasks := { late.tasks with storage }
  have stored : late.tasks.step (.store Tasks.syncedBlock) = .ok (.none, tasks) := by
    rw [Tasks.step, Codec.write_of_fits Tasks.synced_fits]
    rfl
  have synced : late.act (.task (.store Tasks.syncedBlock)) = .ok ⟨tasks, late.rpcMempool⟩ :=
    act_task late.rpcMempool stored
  have ran' : soloNode.launch.serve.actAll lateMoves = .ok ⟨tasks, late.rpcMempool⟩ := by
    rw [actAll, lateMoves, List.foldlM_cons, submitted, ok_bind, List.foldlM_cons, first', ok_bind,
      List.foldlM_cons, last', ok_bind, List.foldlM_cons, synced]
    rfl
  have same : emissions act seen soloNode.launch.serve voteMoves =
      emissions act seen soloNode.launch.serve lateMoves := by
    rw [voteMoves, lateMoves, vote_seen submitted first last, vote_seen submitted first' last',
      emissions_cons synced]
    rfl
  exact ⟨_, _, ran, ran', (ledger_isolated rfl rfl ran ran' same).1⟩

end Sample

end Servers

end Mononium
