import Mononium.Network.SyncSafety

/-! The catch-up loop over restarts. The loop starts from a file with its cursor, and writes the file
after each batch. A session can end anywhere: without an answer between two batches, with a fault of the
database in the middle of one, and before the cursor of a stored batch is in the file. -/
namespace Mononium

open Rust Scale

inductive CursorFile where
  | missing
  | garbled
  | cursor (cursor : SyncCursor)

/-- A save that fails leaves the file as it was, or torn. -/
inductive SaveEnd where
  | saved | refused | torn
  deriving DecidableEq, Repr

namespace SyncCursor

def save (self : SyncCursor) (file : CursorFile) : SaveEnd → CursorFile
  | .saved => .cursor self
  | .refused => file
  | .torn => .garbled

/-- Without a cursor in the file everything is replayed. -/
def load (file : CursorFile) (genesisHash : Digest) : SyncCursor :=
  match file with
  | .cursor cursor => cursor
  | .missing | .garbled => .new genesisHash

end SyncCursor

/-- One call of the loop: the answers it gets, and how each save ends that it would make. -/
structure Session (PeerId : Type) where
  peers : List PeerId
  tip : Answer
  turns : List (Turn × SaveEnd)

def Session.answers {PeerId : Type} (self : Session PeerId) : List Turn := self.turns.map Prod.fst

def Session.saves {PeerId : Type} (self : Session PeerId) : List SaveEnd := self.turns.map Prod.snd

structure SyncDisk where
  storage : Storage
  file : CursorFile

section

variable [Blake3] {PeerId : Type}

/-- The file after the loop. A batch has been stored, and its cursor is saved, where the cursor moves. -/
def SyncRun.filed (first : PeerId) (others : List PeerId) (run : SyncRun PeerId) (file : CursorFile) :
    List (Turn × SaveEnd) → CursorFile
  | [] => file
  | (turn, save) :: rest =>
    if run.cursor.gap = 0 then file
    else
      match run.round first others turn with
      | .error _ => file
      | .ok next =>
        let file := if next.cursor = run.cursor then file else next.cursor.save file save
        if next.ending.isSome then file else next.filed first others file rest

/-- Nothing is saved before the tip is known, nor at the tip. -/
def Session.filed (self : Session PeerId) (cursor : SyncCursor) (disk : SyncDisk) : CursorFile :=
  match self.peers, self.tip with
  | first :: others, .response (.blockSync bsr) =>
    if bsr.highestHeight ≤ cursor.lastVerifiedHeight then disk.file
    else (SyncRun.start first cursor disk.storage bsr.highestHeight).filed first others disk.file self.turns
  | _, _ => disk.file

namespace SyncDisk

def resume (self : SyncDisk) (genesisHash : Digest) : SyncCursor := .load self.file genesisHash

def run (self : SyncDisk) (genesisHash : Digest) (eraLength : U64) (session : Session PeerId) :
    Exec (SyncRun PeerId) :=
  runSyncLoop session.peers (self.resume genesisHash) self.storage eraLength session.tip session.answers

def session (genesisHash : Digest) (eraLength : U64) (self : SyncDisk) (session : Session PeerId) :
    Exec SyncDisk := do
  let run ← self.run genesisHash eraLength session
  return ⟨run.storage, session.filed (self.resume genesisHash) self⟩

def Linked (genesisHash : Digest) (self : SyncDisk) : Prop :=
  Mononium.Linked genesisHash self.storage (self.resume genesisHash).lastVerifiedHeight
    (self.resume genesisHash).lastVerifiedHash

def Orderly (genesisHash : Digest) (eraLength : U64) (self : SyncDisk) : List (Session PeerId) → Prop
  | [] => True
  | session :: rest =>
    SyncAlong Mononium.Orderly session.peers (self.resume genesisHash) self.storage session.tip
      session.answers ∧
    ∀ next, self.session genesisHash eraLength session = .ok next → next.Orderly genesisHash eraLength rest

end SyncDisk

namespace SyncRun

variable {genesisHash hash : Digest} {height : U64} {first : PeerId} {others : List PeerId}
  {run next : SyncRun PeerId} {turn : Turn} {result : SaveEnd} {file : CursorFile}
  {turns : List (Turn × SaveEnd)}

/-- A round neither moves the cursor back nor touches a chain below it. -/
theorem Linked.round_keeps (linked : run.Linked genesisHash)
    (low : Mononium.Linked genesisHash run.storage height hash)
    (below : height ≤ run.cursor.lastVerifiedHeight) (ahead : run.cursor.gap ≠ 0)
    (orderly : Orderly run turn) (ran : run.round first others turn = .ok next) :
    Mononium.Linked genesisHash next.storage height hash ∧
      run.cursor.lastVerifiedHeight ≤ next.cursor.lastVerifiedHeight := by
  rcases round_cases ahead ran with ⟨reason, rfl⟩ | ⟨failure, -, rfl⟩ | ⟨blocks, checked, ran⟩
  · exact ⟨low, BitVec.le_refl _⟩
  · obtain ⟨cursor, storage, -, -⟩ := (run.asked first others).fail_fields failure
    rw [cursor, storage]
    exact ⟨low, BitVec.le_refl _⟩
  · obtain ⟨failure, refused⟩ | ⟨_, passed, -, fits, ascending, chained⟩ := orderly.check
    · cases refused.symm.trans checked
    · cases passed.symm.trans checked
      obtain ⟨last, after, stored, found, written, ends⟩ := accept_cases ran
      obtain ⟨_, _, same, kept, -⟩ :=
        Mononium.Linked.storeBlocks turn.fault low linked below fits ascending chained
      cases same.symm.trans written
      rcases ends with ⟨-, cursor, advanced, rfl⟩ | ⟨-, rfl⟩
      · refine ⟨kept, ?_⟩
        unfold SyncCursor.advance at advanced
        split at advanced
        next above =>
          cases advanced
          exact BitVec.le_of_lt above
        next => cases advanced
      · exact ⟨kept, BitVec.le_refl _⟩

/-- The storage is linked up to the cursor of the run and up to the one in the file, which is behind. -/
structure Backed (genesisHash : Digest) (run : SyncRun PeerId) (file : CursorFile) : Prop where
  linked : run.Linked genesisHash
  filed : Mononium.Linked genesisHash run.storage (SyncCursor.load file genesisHash).lastVerifiedHeight
    (SyncCursor.load file genesisHash).lastVerifiedHash
  behind : (SyncCursor.load file genesisHash).lastVerifiedHeight ≤ run.cursor.lastVerifiedHeight

theorem linked_new (genesisHash : Digest) (storage : Storage) :
    Mononium.Linked genesisHash storage 0 genesisHash := by
  refine ⟨fun k positive le => ?_, rfl⟩
  exfalso
  bv_omega

/-- However the save ends, the file is behind the storage. -/
theorem Backed.save (backed : next.Backed genesisHash file) (result : SaveEnd) :
    next.Backed genesisHash (next.cursor.save file result) := by
  cases result with
  | saved => exact ⟨backed.linked, backed.linked, BitVec.le_refl _⟩
  | refused => exact backed
  | torn => exact ⟨backed.linked, linked_new genesisHash next.storage, by change (0 : U64) ≤ _; bv_omega⟩

/-- Where the next session would go on, as far as the ends of the saves allow. -/
structure Progress (genesisHash : Digest) (from_ : U64) (saves : List SaveEnd) (run : SyncRun PeerId)
    (file : CursorFile) : Prop where
  backed : run.Backed genesisHash file
  kept : .torn ∉ saves → from_ ≤ (SyncCursor.load file genesisHash).lastVerifiedHeight
  current : (∀ save ∈ saves, save = .saved) →
    (SyncCursor.load file genesisHash).lastVerifiedHeight = run.cursor.lastVerifiedHeight ∧
    (SyncCursor.load file genesisHash).lastVerifiedHash = run.cursor.lastVerifiedHash

theorem Progress.of_same {from_ : U64} {saves : List SaveEnd}
    (progress : run.Progress genesisHash from_ saves file) (cursor : next.cursor = run.cursor)
    (storage : next.storage = run.storage) : next.Progress genesisHash from_ saves file := by
  obtain ⟨⟨linked, filed, behind⟩, kept, current⟩ := progress
  refine ⟨⟨?_, storage ▸ filed, cursor ▸ behind⟩, kept, cursor ▸ current⟩
  rw [SyncRun.Linked, cursor, storage]
  exact linked

theorem Progress.round {from_ : U64} {saves : List SaveEnd} (first : PeerId) (others : List PeerId)
    (progress : run.Progress genesisHash from_ saves file) (listed : result ∈ saves)
    (ahead : run.cursor.gap ≠ 0) (orderly : Orderly run turn) :
    ∃ next, run.round first others turn = .ok next ∧ next.Progress genesisHash from_ saves
      (if next.cursor = run.cursor then file else next.cursor.save file result) := by
  obtain ⟨linked, filed, behind⟩ := progress.backed
  obtain ⟨next, ran, chain⟩ := linked.round first others ahead orderly
  obtain ⟨under, further⟩ := linked.round_keeps filed behind ahead orderly ran
  have backed : next.Backed genesisHash file := ⟨chain, under, BitVec.le_trans behind further⟩
  refine ⟨next, ran, ?_⟩
  split
  next same =>
    refine ⟨backed, progress.kept, fun all => ?_⟩
    rw [same]
    exact progress.current all
  next =>
    refine ⟨backed.save result, fun whole => ?_, fun all => ?_⟩
    · have low := progress.kept whole
      cases result with
      | saved => exact BitVec.le_trans low backed.behind
      | refused => exact low
      | torn => exact absurd listed whole
    · rw [all result listed]
      exact ⟨rfl, rfl⟩

theorem Progress.loop {from_ : U64} {saves : List SaveEnd}
    (progress : run.Progress genesisHash from_ saves file) (listed : ∀ t ∈ turns, t.2 ∈ saves)
    (orderly : run.Along first others Orderly (turns.map Prod.fst)) :
    ∃ result, run.loop first others (turns.map Prod.fst) = .ok result ∧
      result.Progress genesisHash from_ saves (run.filed first others file turns) := by
  induction turns generalizing run file with
  | nil =>
    rw [List.map_nil, SyncRun.loop, filed]
    split
    next => exact ⟨_, rfl, progress.of_same rfl rfl⟩
    next ahead => exact ⟨_, ask_eq first others ahead, progress.of_same rfl rfl⟩
  | cons pair rest ih =>
    obtain ⟨turn, save⟩ := pair
    rw [List.map_cons, SyncRun.loop, filed]
    split
    next => exact ⟨_, rfl, progress.of_same rfl rfl⟩
    next ahead =>
      obtain ⟨here, later⟩ := orderly ahead
      obtain ⟨next, ran, after⟩ :=
        progress.round first others (listed _ List.mem_cons_self) ahead here
      rw [ran, ok_bind]
      dsimp only
      split
      next => exact ⟨next, rfl, after⟩
      next goes =>
        have goes : next.ending = none := by simpa using goes
        exact ih after (fun t member => listed t (List.mem_cons_of_mem _ member)) (later next ran goes)

end SyncRun

namespace SyncDisk

variable {genesisHash : Digest} {eraLength : U64} {disk : SyncDisk} {earlier : List (Session PeerId)}
  {call last : Session PeerId}

/-- One session. -/
theorem Linked.progress (linked : disk.Linked genesisHash) (eras : 2 * eraLength.toNat < 2 ^ 64)
    (orderly : SyncAlong Mononium.Orderly call.peers (disk.resume genesisHash) disk.storage call.tip
      call.answers) :
    ∃ run, disk.run genesisHash eraLength call = .ok run ∧
      run.Progress genesisHash (disk.resume genesisHash).lastVerifiedHeight call.saves
        (call.filed (disk.resume genesisHash) disk) := by
  have begins (run : SyncRun PeerId)
      (height : run.cursor.lastVerifiedHeight = (disk.resume genesisHash).lastVerifiedHeight)
      (hash : run.cursor.lastVerifiedHash = (disk.resume genesisHash).lastVerifiedHash)
      (storage : run.storage = disk.storage) :
      run.Progress genesisHash (disk.resume genesisHash).lastVerifiedHeight call.saves disk.file := by
    refine ⟨⟨?_, ?_, ?_⟩, fun _ => BitVec.le_refl _, fun _ => ⟨height.symm, hash.symm⟩⟩
    · rw [SyncRun.Linked, height, hash, storage]
      exact linked
    · rw [storage]
      exact linked
    · rw [height]
      exact BitVec.le_refl _
  obtain ⟨peers, tip, turns⟩ := call
  rw [SyncDisk.run, runSyncLoop.eq_def, Session.filed]
  cases peers with
  | nil => exact ⟨_, rfl, begins _ rfl rfl rfl⟩
  | cons first others =>
    cases tip with
    | unsent _ | closed | timeout => exact ⟨_, rfl, begins _ rfl rfl rfl⟩
    | response response =>
      cases response with
      | blockByHash _ => exact ⟨_, rfl, begins _ rfl rfl rfl⟩
      | blockSync bsr =>
        dsimp only
        split
        next => exact ⟨_, rfl, begins _ rfl rfl rfl⟩
        next =>
          have twice : mul 2 eraLength = .ok (2 * eraLength) := if_pos eras
          rw [SyncCursor.needsCheckpoint, twice, ok_bind]
          exact (begins (SyncRun.start first _ _ bsr.highestHeight) rfl rfl rfl).loop
            (fun t member => List.mem_map_of_mem member) orderly

end SyncDisk

end

section Sample

attribute [local instance] prefixBlake3

end Sample

end Mononium
