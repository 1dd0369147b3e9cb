import Mononium.Network.Sync

/-! What the catch-up loop keeps true of the storage. A batch is checked for its hash and
for the links between its blocks, but not for their heights: it is safe when they count up
from the height that was asked for. -/
namespace Mononium

open Rust Scale

def Ascending (height : U64) : List Block → Prop
  | [] => True
  | block :: rest => block.header.height.toNat = height.toNat + 1 ∧ Ascending block.header.height rest

theorem Ascending.last {height : U64} {blocks : List Block} (ascending : Ascending height blocks)
    {last : Block} (found : blocks.getLast? = some last) :
    last.header.height.toNat = height.toNat + blocks.length := by
  induction blocks generalizing height with
  | nil => cases found
  | cons block rest ih =>
    obtain ⟨next, later⟩ := ascending
    rw [List.getLast?_cons, Option.some.injEq] at found
    rw [List.length_cons]
    cases reached : rest.getLast? with
    | none =>
      rw [reached, Option.getD_none] at found
      rw [List.getLast?_eq_none_iff.mp reached, ← found]
      exact next
    | some final =>
      rw [reached, Option.getD_some] at found
      have further := ih later (reached.trans (congrArg some found))
      omega

theorem Ascending.lt_last {height : U64} {blocks : List Block} (ascending : Ascending height blocks)
    {last : Block} (found : blocks.getLast? = some last) : height < last.header.height := by
  have counted := ascending.last found
  have positive : 0 < blocks.length := List.length_pos_of_mem (List.mem_of_getLast? found)
  bv_omega

section

variable [Blake3] {PeerId : Type} {genesisHash hash : Digest} {storage : Storage} {height : U64}
  {block : Block} {blocks : List Block}

def hashAt (genesisHash : Digest) (storage : Storage) (height : U64) : Option Digest :=
  if height = 0 then some genesisHash
  else (blockAt storage height).map fun block => headerHash block.header

/-- Up to `height` every block is stored under its own height and names the hash of the
block below it; the topmost has the given hash. -/
structure Linked (genesisHash : Digest) (storage : Storage) (height : U64) (hash : Digest) : Prop where
  stored : ∀ k, 0 < k → k ≤ height → ∃ block, blockAt storage k = some block ∧
    block.header.height = k ∧ hashAt genesisHash storage (k - 1) = some block.header.parentHash
  top : hashAt genesisHash storage height = some hash

theorem hashAt_put (fits : Codec.block.fits block = true) {asked : U64}
    (below : asked < block.header.height) :
    hashAt genesisHash (storage.put .blocks (heightKey block.header.height)
      (Codec.block.encode block)) asked = hashAt genesisHash storage asked := by
  have different : asked ≠ block.header.height := BitVec.ne_of_lt below
  rw [hashAt, hashAt, blockAt_put fits, if_neg different]

namespace Linked

theorem put_above (linked : Linked genesisHash storage height hash)
    (fits : Codec.block.fits block = true) (above : height < block.header.height) :
    Linked genesisHash (storage.put .blocks (heightKey block.header.height)
      (Codec.block.encode block)) height hash where
  stored k positive le := by
    obtain ⟨found, here, own, parent⟩ := linked.stored k positive le
    have below : k < block.header.height := by bv_omega
    have lower : k - 1 < block.header.height := by bv_omega
    refine ⟨found, ?_, own, ?_⟩
    · rw [blockAt_put fits, if_neg (BitVec.ne_of_lt below), here]
    · rw [hashAt_put fits lower, parent]
  top := by rw [hashAt_put fits above, linked.top]

theorem extend (linked : Linked genesisHash storage height hash)
    (fits : Codec.block.fits block = true)
    (next : block.header.height.toNat = height.toNat + 1) (parent : block.header.parentHash = hash) :
    Linked genesisHash (storage.put .blocks (heightKey block.header.height)
      (Codec.block.encode block)) block.header.height (headerHash block.header) := by
  have above : height < block.header.height := by bv_omega
  have kept := linked.put_above fits above
  refine ⟨fun k positive le => ?_, ?_⟩
  · by_cases old : k ≤ height
    · exact kept.stored k positive old
    · have new : k = block.header.height := by bv_omega
      have under : block.header.height - 1 = height := by bv_omega
      subst new
      refine ⟨block, by rw [blockAt_put fits, if_pos rfl], rfl, ?_⟩
      rw [under, kept.top, parent]
  · have positive : block.header.height ≠ 0 := by
      intro zero
      rw [zero] at next
      simp at next
    rw [hashAt, if_neg positive, blockAt_put fits, if_pos rfl]
    rfl

end Linked

/-- Storing a batch that continues the chain. What was there stays linked even if the
database fails on the way. -/
theorem Linked.storeBlocks {low : U64} {lowHash : Digest} (fault : Option Nat)
    (base : Linked genesisHash storage low lowHash) (linked : Linked genesisHash storage height hash)
    (le : low ≤ height) (fits : ∀ block ∈ blocks, Codec.block.fits block = true)
    (ascending : Ascending height blocks) (chained : continues hash blocks = true) :
    ∃ after stored, Mononium.storeBlocks storage blocks fault = .ok (after, stored) ∧
      Linked genesisHash after low lowHash ∧
      (stored = true → Linked genesisHash after
        ((blocks.getLast?.map fun block => block.header.height).getD height)
        ((blocks.getLast?.map fun block => headerHash block.header).getD hash)) := by
  induction blocks generalizing storage height hash fault with
  | nil => exact ⟨storage, true, rfl, base, fun _ => linked⟩
  | cons block rest ih =>
    obtain ⟨next, later⟩ := ascending
    rw [continues, Bool.and_eq_true, decide_eq_true_eq] at chained
    have here := fits block List.mem_cons_self
    rw [Mononium.storeBlocks, Codec.write_of_fits here, ok_bind]
    by_cases failed : fault = some 0
    · rw [if_pos failed]
      exact ⟨storage, false, rfl, base, fun impossible => by cases impossible⟩
    · rw [if_neg failed]
      obtain ⟨after, stored, ran, kept, top⟩ := ih (fault.map (· - 1))
        (base.put_above here (by bv_omega)) (linked.extend here next chained.1) (by bv_omega)
        (fun other member => fits other (List.mem_cons_of_mem _ member)) later chained.2
      refine ⟨after, stored, ran, kept, fun complete => ?_⟩
      have lasts : (block :: rest).getLast? = some (rest.getLast?.getD block) := List.getLast?_cons
      rw [lasts]
      cases reached : rest.getLast? with
      | none => simpa [reached] using top complete
      | some final => simpa [reached] using top complete

/-- The answer can be encoded again, and if it passes the checks its heights count up from
the one that was asked for. -/
def Orderly (run : SyncRun PeerId) (turn : Turn) : Prop :=
  ∀ bsr, turn.answer = .response (.blockSync bsr) →
    (∀ block ∈ bsr.blocks, block.Encodable) ∧
    (computeBatchHash run.cursor.lastVerifiedHash bsr.blocks = .ok bsr.batchHash →
      continues run.cursor.lastVerifiedHash bsr.blocks = true →
      Ascending run.cursor.lastVerifiedHeight bsr.blocks)

/-- What the checks on an orderly answer give. -/
theorem Orderly.check {run : SyncRun PeerId} {turn : Turn} (orderly : Orderly run turn) :
    (∃ failure, checkAnswer run.cursor turn.answer = .ok (.error failure)) ∨
    ∃ blocks, checkAnswer run.cursor turn.answer = .ok (.ok blocks) ∧ blocks ≠ [] ∧
      (∀ block ∈ blocks, Codec.block.fits block = true) ∧
      Ascending run.cursor.lastVerifiedHeight blocks ∧
      continues run.cursor.lastVerifiedHash blocks = true := by
  cases found : turn.answer with
  | unsent reason => exact .inl ⟨.noResponse, rfl⟩
  | closed => exact .inl ⟨.noResponse, rfl⟩
  | timeout => exact .inl ⟨.timeout, rfl⟩
  | response response =>
    cases response with
    | blockByHash _ => exact .inl ⟨.wrongType, rfl⟩
    | blockSync bsr =>
      obtain ⟨encodable, ascending⟩ := orderly bsr found
      have fits : ∀ block ∈ bsr.blocks, Codec.block.fits block = true :=
        fun block member => (block_fits block).mpr (encodable block member)
      rw [checkAnswer]
      by_cases empty : bsr.blocks = []
      · rw [if_pos empty]
        exact .inl ⟨.emptyBatch, rfl⟩
      · have hashed := computeBatchHash_eq run.cursor.lastVerifiedHash empty fits
        rw [if_neg empty, hashed, ok_bind]
        by_cases same : blake3 (run.cursor.lastVerifiedHash.bytes ++
            bsr.blocks.flatMap Codec.block.encode) = bsr.batchHash
        · rw [if_neg (not_not.mpr same)]
          by_cases chained : continues run.cursor.lastVerifiedHash bsr.blocks = true
          · rw [if_pos chained]
            refine .inr ⟨bsr.blocks, rfl, empty, fits, ?_, chained⟩
            exact ascending (hashed.trans (congrArg _ same)) chained
          · rw [if_neg chained]
            exact .inl ⟨.parentHash, rfl⟩
        · rw [if_pos same]
          exact .inl ⟨.batchHash, rfl⟩

def SyncRun.Linked (genesisHash : Digest) (run : SyncRun PeerId) : Prop :=
  Mononium.Linked genesisHash run.storage run.cursor.lastVerifiedHeight run.cursor.lastVerifiedHash

theorem SyncRun.Linked.fail {run : SyncRun PeerId} (linked : run.Linked genesisHash)
    (failure : Failure) : (run.fail failure).Linked genesisHash := by
  obtain ⟨cursor, storage, -, -⟩ := run.fail_fields failure
  rw [SyncRun.Linked, cursor, storage]
  exact linked

/-- A batch that continues the chain advances the cursor along it. -/
theorem SyncRun.Linked.accept {run : SyncRun PeerId} (linked : run.Linked genesisHash)
    (some : blocks ≠ []) (fits : ∀ block ∈ blocks, Codec.block.fits block = true)
    (ascending : Ascending run.cursor.lastVerifiedHeight blocks)
    (chained : continues run.cursor.lastVerifiedHash blocks = true) (fault : Option Nat) :
    ∃ next, run.accept blocks fault = .ok next ∧ next.Linked genesisHash := by
  obtain ⟨last, found⟩ := Option.ne_none_iff_exists'.mp (List.getLast?_eq_none_iff.not.mpr some)
  obtain ⟨after, stored, written, kept, top⟩ :=
    Mononium.Linked.storeBlocks fault linked linked (BitVec.le_refl _) fits ascending chained
  cases stored with
  | false =>
    rw [SyncRun.accept, found]
    dsimp only
    rw [written, ok_bind]
    exact ⟨_, rfl, kept⟩
  | true =>
    refine ⟨_, SyncRun.accept_stored found written (ascending.lt_last found), ?_⟩
    have done := top rfl
    rw [found] at done
    exact done

/-- An orderly answer is taken without a panic and leaves the storage linked. -/
theorem SyncRun.Linked.round {run : SyncRun PeerId} {turn : Turn} (first : PeerId)
    (others : List PeerId) (linked : run.Linked genesisHash) (ahead : run.cursor.gap ≠ 0)
    (orderly : Orderly run turn) :
    ∃ next, run.round first others turn = .ok next ∧ next.Linked genesisHash := by
  have waiting : (run.asked first others).Linked genesisHash := linked
  have same : (run.asked first others).cursor = run.cursor := rfl
  rw [SyncRun.round, ask_eq first others ahead, ok_bind]
  split
  next reason _ => exact ⟨_, rfl, linked⟩
  next =>
    rw [receive, same]
    rcases orderly.check with ⟨failure, checked⟩ | ⟨blocks, checked, some, fits, ascending, chained⟩
    · rw [checked, ok_bind]
      exact ⟨_, rfl, waiting.fail failure⟩
    · rw [checked, ok_bind]
      exact waiting.accept some fits ascending chained turn.fault

/-- As long as every batch that passes the checks counts its blocks up from the height that
was asked for, the loop does not panic, and after any number of answers the storage holds
a linked chain up to the cursor. -/
theorem sync_stays_linked {peers : List PeerId} {cursor : SyncCursor} {eraLength : U64}
    {tip : Answer} {turns : List Turn}
    (linked : Linked genesisHash storage cursor.lastVerifiedHeight cursor.lastVerifiedHash)
    (eras : 2 * eraLength.toNat < 2 ^ 64)
    (orderly : SyncAlong Orderly peers cursor storage tip turns) :
    ∃ run, runSyncLoop peers cursor storage eraLength tip turns = .ok run ∧
      Linked genesisHash run.storage run.cursor.lastVerifiedHeight run.cursor.lastVerifiedHash := by
  rw [runSyncLoop.eq_def]
  cases peers with
  | nil => exact ⟨_, rfl, linked⟩
  | cons first others =>
    cases tip with
    | unsent reason => exact ⟨_, rfl, linked⟩
    | closed => exact ⟨_, rfl, linked⟩
    | timeout => exact ⟨_, rfl, linked⟩
    | response response =>
      cases response with
      | blockByHash _ => exact ⟨_, rfl, linked⟩
      | blockSync bsr =>
        dsimp only
        split
        next => exact ⟨_, rfl, linked⟩
        next =>
          have twice : mul 2 eraLength = .ok (2 * eraLength) := if_pos eras
          rw [SyncCursor.needsCheckpoint, twice, ok_bind]
          exact SyncRun.loop_returns (P := fun run => run.Linked genesisHash)
            (fun run turn kept ahead holds => kept.round first others ahead holds)
            (fun run kept => kept) (fun run kept => kept) linked orderly

end

section Sample

attribute [local instance] prefixBlake3

def zeroHash : Digest := FixedBytes.replicate 32 0

def firstBlock (height : U64) : Block :=
  ⟨{ (testBlock []).header with height, parentHash := zeroHash }, ⟨[]⟩⟩

def oneBlockAnswer (height : U64) : Answer :=
  .response (.blockSync ⟨[firstBlock height], 9, zeroHash⟩)

def oneBlockSync (height : U64) : Exec (SyncRun Nat) :=
  runSyncLoop [0] (SyncCursor.new zeroHash) Storage.empty 720 (oneBlockAnswer height)
    [⟨oneBlockAnswer height, none⟩]

theorem fresh_linked : Linked zeroHash Storage.empty 0 zeroHash := by
  refine ⟨fun k positive le => ?_, rfl⟩
  exfalso
  bv_omega

/-- A block of height 1 is stored and becomes the tip. -/
theorem firstBlock_stays_linked :
    ∃ run, oneBlockSync 1 = .ok run ∧
      Linked zeroHash run.storage run.cursor.lastVerifiedHeight run.cursor.lastVerifiedHash := by
  refine sync_stays_linked fresh_linked (by decide) fun _ => ⟨fun bsr same => ?_, fun _ _ _ => trivial⟩
  cases same
  refine ⟨fun block member => ?_, fun _ _ => ⟨rfl, trivial⟩⟩
  rw [List.mem_singleton.mp member]
  exact ⟨Nat.zero_lt_succ _, fun _ impossible => by cases impossible⟩

/-- A block that repeats the height of the genesis passes the checks and brings the node
down; one that skips to height 5 leaves the cursor above heights without a block. -/
theorem heights_unchecked :
    Linked zeroHash Storage.empty 0 zeroHash ∧
    oneBlockSync 0 = .error (.assertion "advance requires height > current (0 ≤ 0)") ∧
    ∃ run, oneBlockSync 5 = .ok run ∧
      ¬Linked zeroHash run.storage run.cursor.lastVerifiedHeight run.cursor.lastVerifiedHash := by
  obtain ⟨run, ran⟩ : Returns (oneBlockSync 5) := by decide
  have facts : (oneBlockSync 5).map (fun run =>
      (run.cursor.lastVerifiedHeight, blockAt run.storage 1)) = .ok (5, none) := by decide
  rw [ran] at facts
  have facts := Prod.mk.inj (Except.ok.inj facts)
  refine ⟨fresh_linked, ?_, run, ran, fun linked => ?_⟩
  · have panics : (oneBlockSync 0).map (fun _ => ()) =
        .error (.assertion "advance requires height > current (0 ≤ 0)") := by decide
    cases reached : oneBlockSync 0 with
    | ok run =>
      rw [reached] at panics
      cases panics
    | error reason =>
      rw [reached] at panics
      exact congrArg _ (Except.error.inj panics)
  · obtain ⟨block, found, -⟩ := linked.stored 1 (by decide) (by rw [facts.1]; decide)
    rw [facts.2] at found
    cases found

end Sample

end Mononium
