import Mononium.Network.SyncProtocol

/-! The catch-up loop of `network::sync`. What comes back for a request is an input of the
loop, so peers may answer anything; what the loop asks for and how each batch ends is
kept in a log. The cursor file is read before the loop and otherwise only written. -/
namespace Mononium

open Rust Scale

structure SyncCursor where
  lastVerifiedHeight : U64
  lastVerifiedHash : Digest
  targetHeight : U64
  deriving DecidableEq, Repr

namespace SyncCursor

def new (genesisHash : Digest) : SyncCursor := ⟨0, genesisHash, 0⟩

def advance (self : SyncCursor) (toHeight : U64) (toHash : Digest) : Exec SyncCursor :=
  if self.lastVerifiedHeight < toHeight then
    .ok { self with lastVerifiedHeight := toHeight, lastVerifiedHash := toHash }
  else
    .error (.assertion ("advance requires height > current (" ++ toString toHeight.toNat ++ " ≤ " ++
      toString self.lastVerifiedHeight.toNat ++ ")"))

def setTarget (self : SyncCursor) (height : U64) : SyncCursor := { self with targetHeight := height }

def gap (self : SyncCursor) : U64 := saturatingSub self.targetHeight self.lastVerifiedHeight

def needsCheckpoint (self : SyncCursor) (eraLength : U64) : Exec Bool := do
  let twoEras ← mul 2 eraLength
  return twoEras ≤ self.gap

end SyncCursor

/-- `closed` is the end of the event channel, `unsent` that of the command channel. -/
inductive Answer where
  | unsent (reason : String)
  | closed
  | timeout
  | response (response : SyncResponse)

/-- An answer, and the block of it that the database fails to store, if any. -/
structure Turn where
  answer : Answer
  fault : Option Nat

inductive Failure where
  | noResponse | timeout | wrongType | emptyBatch | batchHash | parentHash
  deriving DecidableEq, Repr

/-- The error that the branch returns at the limit. Two branches do not look at it. -/
def Failure.limit : Failure → Option String
  | .noResponse => some "sync: too many consecutive failures"
  | .timeout => some "sync: too many consecutive timeouts"
  | .emptyBatch => some "sync: peer returned empty batches"
  | .batchHash => some "sync: batch hash mismatch"
  | .wrongType | .parentHash => none

def maxConsecutiveFailures : Nat := 10

inductive SyncEvent (PeerId : Type) where
  | sent (peer : PeerId) (request : SyncRequest)
  | failed (failure : Failure)
  | stored
  deriving DecidableEq, Repr

structure SyncRun (PeerId : Type) where
  cursor : SyncCursor
  storage : Storage
  consecutiveFailures : Nat
  peerIndex : Nat
  log : List (SyncEvent PeerId)
  ending : Option (Except String Unit)

/-- Blocks are stored one by one, so those before a fault stay stored. -/
def storeBlocks (storage : Storage) : List Block → Option Nat → Exec (Storage × Bool)
  | [], _ => return (storage, true)
  | block :: rest, fault => do
    let encoded ← Codec.block.write block
    if fault = some 0 then
      return (storage, false)
    storeBlocks (storage.put .blocks (heightKey block.header.height) encoded) rest
      (fault.map (· - 1))

theorem storeBlocks_all {blocks : List Block}
    (fits : ∀ block ∈ blocks, Codec.block.fits block = true) (storage : Storage) :
    ∃ after, storeBlocks storage blocks none = .ok (after, true) := by
  induction blocks generalizing storage with
  | nil => exact ⟨storage, rfl⟩
  | cons block rest ih =>
    rw [storeBlocks, Codec.write_of_fits (fits block List.mem_cons_self), ok_bind]
    exact ih (fun other member => fits other (List.mem_cons_of_mem _ member)) _

def tipRequest : SyncRequest := .blockSync ⟨1, 1, .forward, none⟩

def batchSize : U16 := BitVec.ofNat 16 (min 100 maxSyncBlocks.toNat)

def batchRequest (cursor : SyncCursor) : Exec SyncRequest := do
  let start ← add cursor.lastVerifiedHeight 1
  return .blockSync ⟨start, batchSize, .forward, some cursor.lastVerifiedHash⟩

theorem SyncCursor.lt_target {cursor : SyncCursor} (ahead : cursor.gap ≠ 0) :
    cursor.lastVerifiedHeight < cursor.targetHeight := by
  rw [BitVec.lt_def]
  by_contra reached
  have none : cursor.gap.toNat = 0 := by
    rw [SyncCursor.gap, saturatingSub_toNat]
    omega
  exact ahead (BitVec.eq_of_toNat_eq none)

theorem batchRequest_eq {cursor : SyncCursor} (ahead : cursor.gap ≠ 0) :
    batchRequest cursor = .ok (.blockSync ⟨cursor.lastVerifiedHeight + 1, batchSize, .forward,
      some cursor.lastVerifiedHash⟩) := by
  have bound := cursor.targetHeight.isLt
  have below := BitVec.lt_def.mp (SyncCursor.lt_target ahead)
  have sum : add cursor.lastVerifiedHeight 1 = .ok (cursor.lastVerifiedHeight + 1) :=
    add_eq_ok.mpr (succ_toNat (by omega))
  rw [batchRequest, sum]
  rfl

def peerAt {PeerId : Type} (first : PeerId) (others : List PeerId) (index : Nat) : PeerId :=
  (first :: others).get ⟨index % (others.length + 1), Nat.mod_lt _ (Nat.succ_pos _)⟩

namespace SyncRun

variable {PeerId : Type}

def send (run : SyncRun PeerId) (peer : PeerId) (request : SyncRequest) : SyncRun PeerId :=
  { run with peerIndex := run.peerIndex + 1, log := run.log ++ [.sent peer request] }

def stop (run : SyncRun PeerId) (message : String) : SyncRun PeerId :=
  { run with ending := some (.error message) }

def fail (run : SyncRun PeerId) (failure : Failure) : SyncRun PeerId :=
  let run := { run with
    consecutiveFailures := run.consecutiveFailures + 1, log := run.log ++ [.failed failure] }
  match failure.limit with
  | some message => if maxConsecutiveFailures ≤ run.consecutiveFailures then run.stop message else run
  | none => run

def ask (first : PeerId) (others : List PeerId) (run : SyncRun PeerId) : Exec (SyncRun PeerId) := do
  return run.send (peerAt first others run.peerIndex) (← batchRequest run.cursor)

def asked (first : PeerId) (others : List PeerId) (run : SyncRun PeerId) : SyncRun PeerId :=
  run.send (peerAt first others run.peerIndex) (.blockSync ⟨run.cursor.lastVerifiedHeight + 1,
    batchSize, .forward, some run.cursor.lastVerifiedHash⟩)

/-- While the target is ahead the next height exists. -/
theorem ask_eq (first : PeerId) (others : List PeerId) {run : SyncRun PeerId}
    (ahead : run.cursor.gap ≠ 0) : run.ask first others = .ok (run.asked first others) := by
  rw [ask, batchRequest_eq ahead]
  rfl

/-- A branch that looks at the limit ends the loop there. -/
theorem fail_stops {run : SyncRun PeerId} {failure : Failure} {message : String}
    (limited : failure.limit = some message)
    (reached : maxConsecutiveFailures ≤ run.consecutiveFailures + 1) :
    (run.fail failure).ending = some (.error message) := by
  rw [fail, limited]
  dsimp only
  rw [if_pos reached]
  rfl

/-- A failed batch changes only the count, the log and possibly the ending. -/
theorem fail_fields (run : SyncRun PeerId) (failure : Failure) :
    (run.fail failure).cursor = run.cursor ∧ (run.fail failure).storage = run.storage ∧
      (run.fail failure).consecutiveFailures = run.consecutiveFailures + 1 ∧
      (run.fail failure).log = run.log ++ [.failed failure] := by
  rw [fail]
  dsimp only
  split
  next =>
    split
    next => exact ⟨rfl, rfl, rfl, rfl⟩
    next => exact ⟨rfl, rfl, rfl, rfl⟩
  next => exact ⟨rfl, rfl, rfl, rfl⟩

end SyncRun

section

variable [Blake3] {PeerId : Type}

/-- Each block names the hash of the one before it. Heights are not looked at. -/
def continues : Digest → List Block → Bool
  | _, [] => true
  | prevHash, block :: rest =>
    block.header.parentHash = prevHash && continues (headerHash block.header) rest

def checkAnswer (cursor : SyncCursor) : Answer → Exec (Except Failure (List Block))
  | .unsent _ | .closed => return .error .noResponse
  | .timeout => return .error .timeout
  | .response (.blockByHash _) => return .error .wrongType
  | .response (.blockSync bsr) => do
    if bsr.blocks = [] then
      return .error .emptyBatch
    let localHash ← computeBatchHash cursor.lastVerifiedHash bsr.blocks
    if localHash ≠ bsr.batchHash then
      return .error .batchHash
    if continues cursor.lastVerifiedHash bsr.blocks then
      return .ok bsr.blocks
    else
      return .error .parentHash

namespace SyncRun

def accept (run : SyncRun PeerId) (blocks : List Block) (fault : Option Nat) :
    Exec (SyncRun PeerId) := do
  let some lastBlock := blocks.getLast? | .error (.expect "non-empty")
  let (storage, stored) ← storeBlocks run.storage blocks fault
  if stored then
    let cursor ← run.cursor.advance lastBlock.header.height (headerHash lastBlock.header)
    return { run with cursor, storage, consecutiveFailures := 0, log := run.log ++ [.stored] }
  else
    return { run with storage }.stop "sync: storage error"

def receive (run : SyncRun PeerId) (turn : Turn) : Exec (SyncRun PeerId) := do
  match ← checkAnswer run.cursor turn.answer with
  | .error failure => return run.fail failure
  | .ok blocks => run.accept blocks turn.fault

def round (first : PeerId) (others : List PeerId) (run : SyncRun PeerId) (turn : Turn) :
    Exec (SyncRun PeerId) := do
  let asked ← run.ask first others
  match turn.answer with
  | .unsent reason => return run.stop reason
  | _ => asked.receive turn

def loop (first : PeerId) (others : List PeerId) (run : SyncRun PeerId) :
    List Turn → Exec (SyncRun PeerId)
  | [] => if run.cursor.gap = 0 then .ok { run with ending := some (.ok ()) } else run.ask first others
  | turn :: rest =>
    if run.cursor.gap = 0 then .ok { run with ending := some (.ok ()) }
    else do
      let next ← run.round first others turn
      if next.ending.isSome then return next else next.loop first others rest

def start (first : PeerId) (cursor : SyncCursor) (storage : Storage) (target : U64) :
    SyncRun PeerId :=
  ⟨cursor.setTarget target, storage, 0, 0, [.sent first tipRequest], none⟩

end SyncRun

/-- `tip` is the answer to the first request, for which there is no time limit. -/
def runSyncLoop (peers : List PeerId) (cursor : SyncCursor) (storage : Storage) (eraLength : U64)
    (tip : Answer) (turns : List Turn) : Exec (SyncRun PeerId) :=
  let idle : SyncRun PeerId := ⟨cursor, storage, 0, 0, [], none⟩
  match peers with
  | [] => return idle.stop "sync: no connected peers"
  | first :: others =>
    let asked := { idle with log := [.sent first tipRequest] }
    match tip with
    | .unsent reason => return idle.stop reason
    | .closed => return asked.stop "sync: no tip response from peer"
    | .timeout => return asked
    | .response (.blockByHash _) => return asked.stop "sync: unexpected tip response type"
    | .response (.blockSync bsr) => do
      if bsr.highestHeight ≤ cursor.lastVerifiedHeight then
        return { asked with ending := some (.ok ()) }
      -- a large gap is only reported
      let _ ← (cursor.setTarget bsr.highestHeight).needsCheckpoint eraLength
      (SyncRun.start first cursor storage bsr.highestHeight).loop first others turns

namespace SyncRun

variable {first : PeerId} {others : List PeerId} {run next result : SyncRun PeerId} {turn : Turn}
  {turns : List Turn}

def Along (first : PeerId) (others : List PeerId) (holds : SyncRun PeerId → Turn → Prop)
    (run : SyncRun PeerId) : List Turn → Prop
  | [] => True
  | turn :: rest => run.cursor.gap ≠ 0 → holds run turn ∧ ∀ next,
      run.round first others turn = .ok next → next.ending = none → next.Along first others holds rest

theorem Along.of_forall {holds : SyncRun PeerId → Turn → Prop}
    (all : ∀ turn ∈ turns, ∀ run, holds run turn) : run.Along first others holds turns := by
  induction turns generalizing run with
  | nil => trivial
  | cons turn rest ih =>
    intro ahead
    refine ⟨all turn List.mem_cons_self run, fun next _ _ => ?_⟩
    exact ih fun other member => all other (List.mem_cons_of_mem _ member)

/-- A round ends without a request, with a failed batch or with an accepted one. -/
theorem round_cases (ahead : run.cursor.gap ≠ 0) (ran : run.round first others turn = .ok next) :
    (∃ reason, next = run.stop reason) ∨
    (∃ failure, checkAnswer run.cursor turn.answer = .ok (.error failure) ∧
      next = (run.asked first others).fail failure) ∨
    ∃ blocks, checkAnswer run.cursor turn.answer = .ok (.ok blocks) ∧
      (run.asked first others).accept blocks turn.fault = .ok next := by
  rw [round, ask_eq first others ahead, ok_bind] at ran
  split at ran
  next reason _ =>
    cases ran
    exact .inl ⟨reason, rfl⟩
  next =>
    obtain ⟨checked, found, ran⟩ := bind_eq_ok.mp ran
    cases checked with
    | error failure =>
      cases ran
      exact .inr (.inl ⟨failure, found, rfl⟩)
    | ok blocks => exact .inr (.inr ⟨blocks, found, ran⟩)

theorem accept_stored {blocks : List Block} {fault : Option Nat} {last : Block} {storage : Storage}
    (found : blocks.getLast? = some last)
    (stored : storeBlocks run.storage blocks fault = .ok (storage, true))
    (above : run.cursor.lastVerifiedHeight < last.header.height) :
    run.accept blocks fault = .ok { run with
      cursor := ⟨last.header.height, headerHash last.header, run.cursor.targetHeight⟩
      storage, consecutiveFailures := 0, log := run.log ++ [.stored] } := by
  rw [accept, found]
  dsimp only
  rw [stored, ok_bind]
  dsimp only
  rw [if_pos rfl, SyncCursor.advance, if_pos above, ok_bind]
  rfl

/-- An accepted batch advances the cursor unless the database fails. -/
theorem accept_cases {blocks : List Block} {fault : Option Nat}
    (ran : run.accept blocks fault = .ok next) :
    ∃ lastBlock storage stored, blocks.getLast? = some lastBlock ∧
      storeBlocks run.storage blocks fault = .ok (storage, stored) ∧
      ((stored = true ∧ ∃ cursor,
        run.cursor.advance lastBlock.header.height (headerHash lastBlock.header) = .ok cursor ∧
        next = { run with cursor, storage, consecutiveFailures := 0, log := run.log ++ [.stored] }) ∨
      stored = false ∧ next = { run with storage }.stop "sync: storage error") := by
  rw [accept] at ran
  split at ran
  next lastBlock last =>
    obtain ⟨⟨storage, stored⟩, written, ran⟩ := bind_eq_ok.mp ran
    refine ⟨lastBlock, storage, stored, last, written, ?_⟩
    cases stored with
    | true =>
      obtain ⟨cursor, advanced, ran⟩ := bind_eq_ok.mp ran
      cases ran
      exact .inl ⟨rfl, cursor, advanced, rfl⟩
    | false =>
      cases ran
      exact .inr ⟨rfl, rfl⟩
  next => cases ran

/-- What every round and every request keep holds of the run that comes back. -/
theorem loop_invariant {holds : SyncRun PeerId → Turn → Prop} {P : SyncRun PeerId → Prop}
    (rounds : ∀ run turn next, P run → run.ending = none → run.cursor.gap ≠ 0 → holds run turn →
      run.round first others turn = .ok next → P next)
    (asks : ∀ run, P run → run.ending = none → run.cursor.gap ≠ 0 → P (run.asked first others))
    (ends : ∀ run, P run → run.ending = none → P { run with ending := some (.ok ()) })
    (begins : P run) (going : run.ending = none) (along : run.Along first others holds turns)
    (ran : run.loop first others turns = .ok result) : P result := by
  induction turns generalizing run with
  | nil =>
    rw [loop] at ran
    split at ran
    next =>
      cases ran
      exact ends run begins going
    next ahead =>
      rw [ask_eq first others ahead] at ran
      cases ran
      exact asks run begins going ahead
  | cons turn rest ih =>
    rw [loop] at ran
    split at ran
    next =>
      cases ran
      exact ends run begins going
    next ahead =>
      obtain ⟨here, later⟩ := along ahead
      obtain ⟨next, first, ran⟩ := bind_eq_ok.mp ran
      have kept := rounds run turn next begins going ahead here first
      split at ran
      next =>
        cases ran
        exact kept
      next goes =>
        have goes : next.ending = none := by simpa using goes
        exact ih kept goes (later next first goes) ran

/-- The same with a result: if every round returns, so does the loop. -/
theorem loop_returns {holds : SyncRun PeerId → Turn → Prop} {P : SyncRun PeerId → Prop}
    (rounds : ∀ run turn, P run → run.cursor.gap ≠ 0 → holds run turn →
      ∃ next, run.round first others turn = .ok next ∧ P next)
    (asks : ∀ run, P run → P (run.asked first others))
    (ends : ∀ run, P run → P { run with ending := some (.ok ()) })
    (begins : P run) (along : run.Along first others holds turns) :
    ∃ result, run.loop first others turns = .ok result ∧ P result := by
  induction turns generalizing run with
  | nil =>
    rw [loop]
    split
    next => exact ⟨_, rfl, ends run begins⟩
    next ahead => exact ⟨_, ask_eq first others ahead, asks run begins⟩
  | cons turn rest ih =>
    rw [loop]
    split
    next => exact ⟨_, rfl, ends run begins⟩
    next ahead =>
      obtain ⟨here, later⟩ := along ahead
      obtain ⟨next, stepped, kept⟩ := rounds run turn begins ahead here
      rw [stepped, ok_bind]
      split
      next => exact ⟨next, rfl, kept⟩
      next goes =>
        have goes : next.ending = none := by simpa using goes
        exact ih kept (later next stepped goes)

end SyncRun

def SyncAlong (holds : SyncRun PeerId → Turn → Prop) (peers : List PeerId) (cursor : SyncCursor)
    (storage : Storage) (tip : Answer) (turns : List Turn) : Prop :=
  match peers, tip with
  | first :: others, .response (.blockSync bsr) =>
    (SyncRun.start first cursor storage bsr.highestHeight).Along first others holds turns
  | _, _ => True

theorem SyncAlong.of_forall {holds : SyncRun PeerId → Turn → Prop} {peers : List PeerId}
    {cursor : SyncCursor} {storage : Storage} {tip : Answer} {turns : List Turn}
    (all : ∀ turn ∈ turns, ∀ run, holds run turn) : SyncAlong holds peers cursor storage tip turns := by
  unfold SyncAlong
  split
  next => exact SyncRun.Along.of_forall all
  next => trivial

/-- Before the tip is known nothing changes and nothing but the tip is asked for. -/
theorem runSyncLoop_cases {peers : List PeerId} {cursor : SyncCursor} {storage : Storage}
    {eraLength : U64} {tip : Answer} {turns : List Turn} {run : SyncRun PeerId}
    (ran : runSyncLoop peers cursor storage eraLength tip turns = .ok run) :
    (run.cursor = cursor ∧ run.storage = storage ∧ run.consecutiveFailures = 0 ∧
      (run.log = [] ∨ ∃ peer, run.log = [.sent peer tipRequest])) ∨
    ∃ first others bsr, peers = first :: others ∧ tip = .response (.blockSync bsr) ∧
      (SyncRun.start first cursor storage bsr.highestHeight).loop first others turns = .ok run := by
  have quiet : ∀ first, run.log = [SyncEvent.sent first tipRequest] →
      run.log = [] ∨ ∃ peer, run.log = [SyncEvent.sent peer tipRequest] :=
    fun first log => .inr ⟨first, log⟩
  rw [runSyncLoop.eq_def] at ran
  cases peers with
  | nil =>
    cases ran
    exact .inl ⟨rfl, rfl, rfl, .inl rfl⟩
  | cons first others =>
    cases tip with
    | unsent reason =>
      cases ran
      exact .inl ⟨rfl, rfl, rfl, .inl rfl⟩
    | closed =>
      cases ran
      exact .inl ⟨rfl, rfl, rfl, quiet first rfl⟩
    | timeout =>
      cases ran
      exact .inl ⟨rfl, rfl, rfl, quiet first rfl⟩
    | response response =>
      cases response with
      | blockByHash _ =>
        cases ran
        exact .inl ⟨rfl, rfl, rfl, quiet first rfl⟩
      | blockSync bsr =>
        dsimp only at ran
        split at ran
        next =>
          cases ran
          exact .inl ⟨rfl, rfl, rfl, quiet first rfl⟩
        next =>
          obtain ⟨_, -, ran⟩ := bind_eq_ok.mp ran
          exact .inr ⟨first, others, bsr, rfl, rfl, ran⟩

end

end Mononium
