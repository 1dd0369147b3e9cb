import Mononium.Network.SyncProtocol
import Mathlib.Data.List.Range

/-! What a responder sends for a block-sync request: when a request with an anchor is answered
without the anchor, and that the two directions send one stretch of the chain alike. -/
namespace Mononium

open Rust Scale

section Collecting

variable {storage : Storage} {faults : ReadFaults} {req : BlockSyncRequest}
  {heightAt : Nat → Exec (Option U64)}

theorem blockAt_fits {height : U64} {block : Block} (found : blockAt storage height = some block) :
    Codec.block.fits block = true := by
  obtain ⟨raw, rest, -, decoded⟩ := blockAt_eq_some.mp found
  exact (Codec.block.encode_decode decoded).1

theorem collect_fits {offsets : List Nat} {blocks : List Block}
    (collected : collect storage faults heightAt offsets = .ok blocks) :
    ∀ block ∈ blocks, Codec.block.fits block = true := by
  induction offsets generalizing blocks with
  | nil =>
    cases collected
    simp
  | cons offset offsets ih =>
    rw [collect] at collected
    obtain ⟨height, -, read⟩ := bind_eq_ok.mp collected
    cases height with
    | none =>
      cases read
      simp
    | some height =>
      dsimp only at read
      cases found : readBlock storage (faults.fails offset) height with
      | none =>
        rw [found] at read
        cases read
        simp
      | some block =>
        rw [found] at read
        obtain ⟨later, rest, made⟩ := bind_eq_ok.mp read
        cases pure_eq_ok.mp made
        exact List.forall_mem_cons.mpr ⟨blockAt_fits (readBlock_eq_some.mp found).2, ih rest⟩

theorem collect_cons {offset : Nat} {height : U64} (here : heightAt offset = .ok (some height))
    (rest : List Nat) :
    collect storage faults heightAt (offset :: rest) =
      match readBlock storage (faults.fails offset) height with
      | some block => (block :: ·) <$> collect storage faults heightAt rest
      | none => .ok [] := by
  rw [collect, here, ok_bind]
  dsimp only
  cases readBlock storage (faults.fails offset) height with
  | none => rfl
  | some block => cases collect storage faults heightAt rest <;> rfl

theorem collect_end {offset : Nat} (here : heightAt offset = .ok none) (rest : List Nat) :
    collect storage faults heightAt (offset :: rest) = .ok [] := by
  rw [collect, here]
  rfl

theorem collect_append {height : Nat → U64} {offsets : List Nat}
    (each : ∀ offset ∈ offsets, heightAt offset = .ok (some (height offset)) ∧
      (blockAt storage (height offset)).isSome) (rest : List Nat) :
    collect storage .none heightAt (offsets ++ rest) =
      ((offsets.filterMap fun offset => blockAt storage (height offset)) ++ ·) <$>
        collect storage .none heightAt rest := by
  induction offsets with
  | nil => simp
  | cons offset offsets ih =>
    obtain ⟨⟨here, stored⟩, later⟩ := List.forall_mem_cons.mp each
    obtain ⟨block, found⟩ := Option.isSome_iff_exists.mp stored
    rw [List.cons_append, collect_cons here, ReadFaults.none_fails, readBlock_false, found, ih later,
      List.filterMap_cons, found]
    cases collect storage .none heightAt rest <;> rfl

theorem forwardHeight_eq {start : U64} {offset : Nat} (room : start.toNat + offset < 2 ^ 64) :
    forwardHeight start offset = .ok (some (BitVec.ofNat 64 (start.toNat + offset))) := by
  have sum : add start (BitVec.ofNat 64 offset) = .ok (BitVec.ofNat 64 (start.toNat + offset)) := by
    rw [add_eq_ok, offset_toNat room, offset_toNat (by omega)]
  rw [forwardHeight, sum]
  rfl

def upwardBlock (storage : Storage) (faults : ReadFaults) (start : U64) (offset : Nat) : Option Block :=
  readBlock storage (faults.fails offset) (BitVec.ofNat 64 (start.toNat + offset))

/-- The loop upward panics only where it passes the last height there is. -/
theorem collect_forward_returns {start : U64} {offset : Nat} (count : Nat)
    (inside : start.toNat + offset ≤ 2 ^ 64) (small : offset + count < 2 ^ 64) :
    Returns (collect storage faults (forwardHeight start) (List.range' offset count)) ↔
      start.toNat + offset + count ≤ 2 ^ 64 ∨
        ∃ k, offset ≤ k ∧ start.toNat + k < 2 ^ 64 ∧ upwardBlock storage faults start k = none := by
  induction count generalizing offset with
  | zero => exact iff_of_true (returns_ok _) (.inl inside)
  | succ count ih =>
    rw [List.range'_succ]
    by_cases room : start.toNat + offset < 2 ^ 64
    · rw [collect_cons (forwardHeight_eq room)]
      cases found : readBlock storage (faults.fails offset) (BitVec.ofNat 64 (start.toNat + offset)) with
      | none => exact iff_of_true (returns_ok _) (.inr ⟨offset, le_rfl, room, found⟩)
      | some block =>
        -- a block that is missing above is missing above the next offset
        have above (k : Nat) :
            (offset ≤ k ∧ start.toNat + k < 2 ^ 64 ∧ upwardBlock storage faults start k = none) ↔
              offset + 1 ≤ k ∧ start.toNat + k < 2 ^ 64 ∧ upwardBlock storage faults start k = none := by
          refine and_congr_left fun ⟨_, missing⟩ => ⟨fun le => ?_, fun le => by omega⟩
          rcases Nat.lt_or_eq_of_le le with less | rfl
          · exact less
          · rw [upwardBlock, found] at missing
            cases missing
        have next : start.toNat + offset + (count + 1) = start.toNat + (offset + 1) + count := by omega
        simp only [returns_map, above]
        rw [ih (by omega) (by omega), next]
    · rw [collect, forwardHeight_last (by omega) (by omega), error_bind]
      refine iff_of_false (not_returns_error _) ?_
      rintro (fits | ⟨k, above, inside, -⟩) <;> omega

/-- The blocks for a request whose anchor is not refuted. -/
def gather (req : BlockSyncRequest) (storage : Storage) (faults : ReadFaults) : Exec (List Block) :=
  let offsets := List.range (min req.maxBlocks.toNat maxSyncBlocks.toNat)
  match req.direction with
  | .forward => collect storage faults (forwardHeight req.startHeight) offsets
  | .backward => List.reverse <$> collect storage faults (backwardHeight req.startHeight) offsets

theorem gather_fits {blocks : List Block} (gathered : gather req storage faults = .ok blocks) :
    ∀ block ∈ blocks, Codec.block.fits block = true := by
  unfold gather at gathered
  dsimp only at gathered
  split at gathered
  next => exact collect_fits gathered
  next =>
    obtain ⟨descending, collected, rfl⟩ := map_eq_ok.mp gathered
    simpa using collect_fits collected

section

variable {start : U64} {maxBlocks : U16} {anchor : Option Digest}

theorem collect_backward_returns (offsets : List Nat) :
    Returns (collect storage faults (backwardHeight start) offsets) := by
  induction offsets with
  | nil => exact returns_ok _
  | cons offset offsets ih =>
    by_cases genesis : saturatingSub start (BitVec.ofNat 64 (1 + offset)) = 0
    · rw [collect_end (by rw [backwardHeight, if_pos genesis]; rfl)]
      exact returns_ok _
    · rw [collect_cons (by rw [backwardHeight, if_neg genesis]; rfl)]
      cases readBlock storage (faults.fails offset) _ with
      | none => exact returns_ok _
      | some block => simpa using ih

/-- Something is gathered downward if the block below the start is not the genesis block and can
be read. -/
theorem gather_backward_nonempty (positive : 0 < maxBlocks.toNat) (most : maxBlocks.toNat ≤ 500) :
    (∃ blocks, gather ⟨start, maxBlocks, .backward, anchor⟩ storage faults = .ok blocks ∧ blocks ≠ []) ↔
      1 < start.toNat ∧ (readBlock storage (faults.fails 0) (saturatingSub start 1)).isSome := by
  have count : min maxBlocks.toNat maxSyncBlocks.toNat = maxBlocks.toNat := Nat.min_eq_left most
  have first : backwardHeight start 0 =
      .ok (if saturatingSub start 1 = 0 then none else some (saturatingSub start 1)) := rfl
  have genesis : saturatingSub start 1 = 0 ↔ ¬1 < start.toNat := by
    rw [← BitVec.toNat_inj, saturatingSub_toNat]
    change start.toNat - 1 = 0 ↔ _
    omega
  obtain ⟨rest, more⟩ := Nat.exists_eq_succ_of_ne_zero positive.ne'
  have gathered : gather ⟨start, maxBlocks, .backward, anchor⟩ storage faults = List.reverse <$>
      collect storage faults (backwardHeight start) (0 :: List.range' 1 rest) := by
    rw [gather, count, List.range_eq_range', more, List.range'_succ]
  rw [gathered]
  by_cases bottom : saturatingSub start 1 = 0
  · rw [if_pos bottom] at first
    rw [collect_end first]
    simp [genesis.mp bottom]
  · rw [if_neg bottom] at first
    rw [collect_cons first]
    obtain ⟨blocks, collected⟩ : Returns (collect storage faults (backwardHeight start) _) :=
      collect_backward_returns (List.range' 1 rest)
    cases readBlock storage (faults.fails 0) (saturatingSub start 1) with
    | none => simp
    | some block => simp [collected, not_not.mp (genesis.not.mp bottom)]

/-- Something is gathered upward if the start can be read and the loop does not panic. -/
theorem gather_forward_nonempty (positive : 0 < maxBlocks.toNat) (most : maxBlocks.toNat ≤ 500) :
    (∃ blocks, gather ⟨start, maxBlocks, .forward, anchor⟩ storage faults = .ok blocks ∧ blocks ≠ []) ↔
      (readBlock storage (faults.fails 0) start).isSome ∧ (start.toNat + maxBlocks.toNat ≤ 2 ^ 64 ∨
        ∃ k, start.toNat + k < 2 ^ 64 ∧ upwardBlock storage faults start k = none) := by
  have bound := start.isLt
  have count : min maxBlocks.toNat maxSyncBlocks.toNat = maxBlocks.toNat := Nat.min_eq_left most
  have gathered : gather ⟨start, maxBlocks, .forward, anchor⟩ storage faults =
      collect storage faults (forwardHeight start) (List.range' 0 maxBlocks.toNat) := by
    rw [gather, count, List.range_eq_range']
  have first : forwardHeight start 0 = .ok (some start) := by
    have here : forwardHeight start 0 = .ok (some (BitVec.ofNat 64 (start.toNat + 0))) :=
      forwardHeight_eq (by omega)
    rwa [Nat.add_zero, BitVec.ofNat_toNat, BitVec.setWidth_eq] at here
  have returns : Returns (collect storage faults (forwardHeight start) (List.range' 0 maxBlocks.toNat)) ↔ _ :=
    collect_forward_returns maxBlocks.toNat (by omega) (by omega)
  simp only [Nat.add_zero, Nat.zero_le, true_and] at returns
  rw [← returns, gathered]
  obtain ⟨count, more⟩ := Nat.exists_eq_succ_of_ne_zero positive.ne'
  rw [more, List.range'_succ, collect_cons first]
  cases readBlock storage (faults.fails 0) start with
  | none => simp
  | some block => simp [Returns]

/-- The loop of an accepted request sends nothing: it cannot read the first block that it asks for,
or it passes the last height there is. -/
def Unserved (storage : Storage) (faults : ReadFaults) (start : U64) (maxBlocks : U16) :
    SyncDirection → Prop
  | .forward => readBlock storage (faults.fails 0) start = none ∨
      (2 ^ 64 < start.toNat + maxBlocks.toNat ∧
        ∀ k, start.toNat + k < 2 ^ 64 → (upwardBlock storage faults start k).isSome)
  | .backward => start.toNat ≤ 1 ∨ readBlock storage (faults.fails 0) (saturatingSub start 1) = none

theorem gather_nonempty_iff {direction : SyncDirection} (positive : 0 < maxBlocks.toNat)
    (most : maxBlocks.toNat ≤ 500) :
    (∃ blocks, gather ⟨start, maxBlocks, direction, anchor⟩ storage faults = .ok blocks ∧ blocks ≠ []) ↔
      ¬Unserved storage faults start maxBlocks direction := by
  cases direction with
  | forward =>
    rw [gather_forward_nonempty positive most, Unserved, not_or, not_and_or, not_lt,
      Option.isSome_iff_ne_none]
    simp only [not_forall, exists_prop, Option.not_isSome_iff_eq_none]
  | backward =>
    rw [gather_backward_nonempty positive most, Unserved, not_or, not_le, Option.isSome_iff_ne_none]

end

theorem backwardHeight_eq {start : U64} {offset : Nat} (inside : offset + 1 < start.toNat) :
    backwardHeight start offset = .ok (some (BitVec.ofNat 64 (start.toNat - 1 - offset))) := by
  have bound := start.isLt
  have height : saturatingSub start (BitVec.ofNat 64 (1 + offset)) =
      BitVec.ofNat 64 (start.toNat - 1 - offset) := by
    apply BitVec.eq_of_toNat_eq
    rw [saturatingSub_toNat, offset_toNat (by omega), offset_toNat (by omega)]
    omega
  have positive : BitVec.ofNat 64 (start.toNat - 1 - offset) ≠ (0 : U64) := by
    intro zero
    have none : (BitVec.ofNat 64 (start.toNat - 1 - offset)).toNat = 0 := congrArg BitVec.toNat zero
    rw [offset_toNat (by omega)] at none
    omega
  rw [backwardHeight, height, if_neg positive]
  rfl

/-- The first height that the loop downward does not serve is the genesis block's. -/
theorem backwardHeight_last {start : U64} (positive : 0 < start.toNat) :
    backwardHeight start (start.toNat - 1) = .ok none := by
  have bound := start.isLt
  have height : saturatingSub start (BitVec.ofNat 64 (1 + (start.toNat - 1))) = 0 := by
    apply BitVec.eq_of_toNat_eq
    rw [saturatingSub_toNat, offset_toNat (by omega)]
    exact Nat.sub_eq_zero_of_le (by omega)
  rw [backwardHeight, height]
  rfl

def stretch (storage : Storage) (first count : Nat) : List Block :=
  (List.range' first count).filterMap fun k => blockAt storage (BitVec.ofNat 64 k)

theorem stretch_map_some {first count : Nat}
    (stored : ∀ k, first ≤ k → k < first + count → (blockAt storage (BitVec.ofNat 64 k)).isSome) :
    (stretch storage first count).map some =
      (List.range' first count).map fun k => blockAt storage (BitVec.ofNat 64 k) := by
  induction count generalizing first with
  | zero => rfl
  | succ count ih =>
    obtain ⟨block, found⟩ := Option.isSome_iff_exists.mp (stored first le_rfl (by omega))
    have rest := @ih (first + 1) fun k low high => stored k (by omega) (by omega)
    rw [stretch] at rest ⊢
    rw [List.range'_succ, List.filterMap_cons, found, List.map_cons, List.map_cons, rest, found]

theorem gather_forward_stretch {first count : Nat} {anchor : Option Digest}
    (room : first + count ≤ 2 ^ 64) (most : count ≤ 500)
    (stored : ∀ k, first ≤ k → k < first + count → (blockAt storage (BitVec.ofNat 64 k)).isSome) :
    gather ⟨BitVec.ofNat 64 first, BitVec.ofNat 16 count, .forward, anchor⟩ storage .none =
      .ok (stretch storage first count) := by
  have limit : min (BitVec.ofNat 16 count).toNat maxSyncBlocks.toNat = count := by
    rw [BitVec.toNat_ofNat, Nat.mod_eq_of_lt (by omega)]
    exact Nat.min_eq_left most
  have each : ∀ offset ∈ List.range count,
      forwardHeight (BitVec.ofNat 64 first) offset = .ok (some (BitVec.ofNat 64 (first + offset))) ∧
        (blockAt storage (BitVec.ofNat 64 (first + offset))).isSome := by
    intro offset member
    have less := List.mem_range.mp member
    have start : (BitVec.ofNat 64 first).toNat = first := offset_toNat (by omega)
    have here : forwardHeight (BitVec.ofNat 64 first) offset = _ := forwardHeight_eq (by omega)
    rw [start] at here
    exact ⟨here, stored _ (by omega) (by omega)⟩
  have all := collect_append each []
  rw [List.append_nil] at all
  rw [gather]
  dsimp only
  rw [limit, all, stretch, List.range'_eq_map_range, List.filterMap_map]
  simp [collect]

theorem gather_backward_stretch {start : U64} {maxBlocks : U16} {anchor : Option Digest}
    (positive : 0 < start.toNat) (most : maxBlocks.toNat ≤ 500)
    (stored : ∀ k, 0 < k → k < start.toNat → (blockAt storage (BitVec.ofNat 64 k)).isSome) :
    gather ⟨start, maxBlocks, .backward, anchor⟩ storage .none =
      .ok (stretch storage (max 1 (start.toNat - maxBlocks.toNat)) (min maxBlocks.toNat (start.toNat - 1))) := by
  have limit : min maxBlocks.toNat maxSyncBlocks.toNat = maxBlocks.toNat := Nat.min_eq_left most
  obtain ⟨count, counted⟩ : ∃ count, min maxBlocks.toNat (start.toNat - 1) = count := ⟨_, rfl⟩
  have each : ∀ offset ∈ List.range count,
      backwardHeight start offset = .ok (some (BitVec.ofNat 64 (start.toNat - 1 - offset))) ∧
        (blockAt storage (BitVec.ofNat 64 (start.toNat - 1 - offset))).isSome := by
    intro offset member
    have less := List.mem_range.mp member
    exact ⟨backwardHeight_eq (by omega), stored _ (by omega) (by omega)⟩
  -- The loop ends with the request, or at the genesis block.
  have ends : collect storage .none (backwardHeight start) (List.range' count (maxBlocks.toNat - count)) = .ok [] := by
    cases more : maxBlocks.toNat - count with
    | zero => rfl
    | succ rest =>
      have last : count = start.toNat - 1 := by omega
      rw [List.range'_succ, last, collect_end (backwardHeight_last positive)]
  have split : List.range maxBlocks.toNat = List.range count ++ List.range' count (maxBlocks.toNat - count) := by
    have whole : maxBlocks.toNat = count + (maxBlocks.toNat - count) := by omega
    rw [List.range_eq_range', List.range_eq_range']
    conv_lhs => rw [whole, ← List.range'_append_1, Nat.zero_add]
  have top : max 1 (start.toNat - maxBlocks.toNat) + count = start.toNat := by omega
  have turned : List.range' (max 1 (start.toNat - maxBlocks.toNat)) count =
      ((List.range count).map (start.toNat - 1 - ·)).reverse := by
    rw [← List.reverse_reverse (List.range' _ _), List.reverse_range', top]
  rw [gather]
  dsimp only
  rw [limit, split, collect_append each, ends, counted, stretch, turned, List.filterMap_reverse,
    List.filterMap_map]
  simp

end Collecting

theorem validateSyncRequest_isOk (req : BlockSyncRequest) :
    (validateSyncRequest req).isOk = true ↔ 0 < req.maxBlocks.toNat ∧ req.maxBlocks.toNat ≤ 500 := by
  have limit : maxSyncBlocks.toNat = 500 := rfl
  have zero : req.maxBlocks = 0 ↔ req.maxBlocks.toNat = 0 := by
    rw [← BitVec.toNat_inj]
    rfl
  unfold validateSyncRequest
  split
  next bad =>
    rw [zero, BitVec.lt_def, limit] at bad
    refine iff_of_false (by simp [Except.isOk, Except.toBool]) ?_
    omega
  next good =>
    rw [zero, BitVec.lt_def, limit] at good
    refine iff_of_true rfl ?_
    omega

section

variable [Blake3]

section

variable {storage : Storage} {faults : ReadFaults} {req : BlockSyncRequest} {genesisHash : Digest}
  {highest : U64}

theorem serve_eq (valid : (validateSyncRequest req).isOk = true)
    (agrees : anchorMismatch req storage faults = false) :
    serveBlockSync req storage faults genesisHash highest = (do
      let blocks ← gather req storage faults
      let batchHash ← computeBatchHash genesisHash blocks
      return some (.blockSync ⟨blocks, highest, batchHash⟩)) := by
  rw [serveBlockSync, if_neg (by simp [valid]), if_neg (by simp [agrees]), gather]
  cases req.direction <;> rfl

/-- What is gathered is sent: the batch hash of stored blocks can always be computed. -/
theorem serve_gathered (valid : (validateSyncRequest req).isOk = true)
    (agrees : anchorMismatch req storage faults = false) {blocks : List Block}
    (gathered : gather req storage faults = .ok blocks) :
    ∃ batchHash, computeBatchHash genesisHash blocks = .ok batchHash ∧
      serveBlockSync req storage faults genesisHash highest =
        .ok (some (.blockSync ⟨blocks, highest, batchHash⟩)) := by
  obtain ⟨batchHash, hashed⟩ : ∃ batchHash, computeBatchHash genesisHash blocks = .ok batchHash := by
    by_cases empty : blocks = []
    · exact ⟨genesisHash, by rw [computeBatchHash, if_pos empty]; rfl⟩
    · exact ⟨_, computeBatchHash_eq genesisHash empty (gather_fits gathered)⟩
  refine ⟨batchHash, hashed, ?_⟩
  rw [serve_eq valid agrees, gathered, ok_bind, hashed]
  rfl

theorem serve_nonempty_iff (valid : (validateSyncRequest req).isOk = true)
    (agrees : anchorMismatch req storage faults = false) :
    (∃ response, serveBlockSync req storage faults genesisHash highest =
      .ok (some (.blockSync response)) ∧ response.blocks ≠ []) ↔
    ∃ blocks, gather req storage faults = .ok blocks ∧ blocks ≠ [] := by
  constructor
  · rintro ⟨response, served, nonempty⟩
    rw [serve_eq valid agrees] at served
    obtain ⟨blocks, gathered, rest⟩ := bind_eq_ok.mp served
    obtain ⟨batchHash, -, made⟩ := bind_eq_ok.mp rest
    cases pure_eq_ok.mp made
    exact ⟨blocks, gathered, nonempty⟩
  · rintro ⟨blocks, gathered, nonempty⟩
    obtain ⟨batchHash, -, served⟩ := serve_gathered valid agrees gathered
    exact ⟨_, served, nonempty⟩

end

/-- The anchor of a request is enforced if it can be compared with the block below the start. If
that block is missing, does not decode or cannot be read, what the loop finds is sent all the same:
the anchor is right only if it happens to be, or nothing is found. -/
theorem anchor_enforced_iff (storage : Storage) (faults : ReadFaults) (genesisHash : Digest)
    (highest start : U64) (maxBlocks : U16) (direction : SyncDirection) (anchor : Digest) :
    (∀ response, serveBlockSync ⟨start, maxBlocks, direction, some anchor⟩ storage faults genesisHash
        highest = .ok (some (.blockSync response)) → response.blocks ≠ [] →
      ∃ block, blockAt storage (saturatingSub start 1) = some block ∧
        headerHash block.header = anchor) ↔
    (maxBlocks.toNat = 0 ∨ 500 < maxBlocks.toNat) ∨
      (readBlock storage faults.anchor (saturatingSub start 1)).isSome ∨
      (∃ block, blockAt storage (saturatingSub start 1) = some block ∧
        headerHash block.header = anchor) ∨
      Unserved storage faults start maxBlocks direction := by
  have valid := validateSyncRequest_isOk ⟨start, maxBlocks, direction, some anchor⟩
  dsimp only at valid
  by_cases limits : maxBlocks.toNat = 0 ∨ 500 < maxBlocks.toNat
  · -- refused
    refine iff_of_true (fun response served => ?_) (.inl limits)
    rw [serveBlockSync, if_pos (by simpa using mt valid.mp (by omega))] at served
    cases served
  have accepted := valid.mpr (by omega)
  cases below : readBlock storage faults.anchor (saturatingSub start 1) with
  | some block =>
    refine iff_of_true (fun response served nonempty => ⟨block, (readBlock_eq_some.mp below).2, ?_⟩) (by simp)
    by_contra other
    have refuted : anchorMismatch ⟨start, maxBlocks, direction, some anchor⟩ storage faults = true := by
      rw [anchorMismatch, below]
      exact decide_eq_true other
    rw [serveBlockSync, if_neg (by simpa using accepted), if_pos refuted] at served
    cases served
    exact nonempty rfl
  | none =>
    -- nothing is compared
    have agrees : anchorMismatch ⟨start, maxBlocks, direction, some anchor⟩ storage faults = false := by
      rw [anchorMismatch, below]
    have sends := @serve_nonempty_iff _ storage faults _ genesisHash highest accepted agrees
    rw [gather_nonempty_iff (by omega) (by omega)] at sends
    have compared : ¬(none : Option Block).isSome := by simp
    rw [or_iff_right limits, or_iff_right compared]
    constructor
    · intro enforced
      by_cases unserved : Unserved storage faults start maxBlocks direction
      · exact .inr unserved
      · obtain ⟨response, served, nonempty⟩ := sends.mpr unserved
        exact .inl (enforced response served nonempty)
    · rintro (same | unserved) response served nonempty
      · exact same
      · exact absurd unserved (sends.mp ⟨response, served, nonempty⟩)

/-- The two directions send the same stretch of a chain without gaps: the blocks below the start
of the backward request, without the genesis block, the lowest first. -/
theorem sync_directions_agree (storage : Storage) (genesisHash : Digest) (highest tip start : U64)
    (maxBlocks : U16) (stored : ∀ height, (blockAt storage height).isSome ↔ height ≤ tip)
    (above : 2 ≤ start.toNat) (reached : start.toNat ≤ tip.toNat + 1)
    (positive : 1 ≤ maxBlocks.toNat) (most : maxBlocks.toNat ≤ 500) :
    let first := max 1 (start.toNat - maxBlocks.toNat)
    let count := min maxBlocks.toNat (start.toNat - 1)
    ∃ blocks batchHash, first + count = start.toNat ∧
      blocks.map some =
        (List.range' first count).map (fun k => blockAt storage (BitVec.ofNat 64 k)) ∧
      serveBlockSync ⟨start, maxBlocks, .backward, none⟩ storage .none genesisHash highest =
        .ok (some (.blockSync ⟨blocks, highest, batchHash⟩)) ∧
      serveBlockSync ⟨BitVec.ofNat 64 first, BitVec.ofNat 16 count, .forward, none⟩ storage .none
        genesisHash highest = .ok (some (.blockSync ⟨blocks, highest, batchHash⟩)) := by
  intro first count
  have bound := start.isLt
  have inside : first + count = start.toNat := by omega
  have small : (BitVec.ofNat 16 count).toNat = count := by
    rw [BitVec.toNat_ofNat, Nat.mod_eq_of_lt (by omega)]
  have held (k : Nat) (below : k < start.toNat) : (blockAt storage (BitVec.ofNat 64 k)).isSome := by
    rw [stored, BitVec.le_def, offset_toNat (by omega)]
    omega
  have backward : gather ⟨start, maxBlocks, .backward, none⟩ storage .none = .ok (stretch storage first count) :=
    gather_backward_stretch (by omega) most fun k _ => held k
  have forward : gather ⟨BitVec.ofNat 64 first, BitVec.ofNat 16 count, .forward, none⟩ storage .none =
      .ok (stretch storage first count) :=
    gather_forward_stretch (by omega) (by omega) fun k _ below => held k (by omega)
  have valid := validateSyncRequest_isOk ⟨start, maxBlocks, .backward, none⟩
  have valid' := validateSyncRequest_isOk ⟨BitVec.ofNat 64 first, BitVec.ofNat 16 count, .forward, none⟩
  rw [small] at valid'
  obtain ⟨batchHash, hashed, down⟩ := @serve_gathered _ storage .none _ genesisHash highest
    (valid.mpr ⟨positive, most⟩) rfl _ backward
  obtain ⟨again, rehashed, up⟩ := @serve_gathered _ storage .none _ genesisHash highest
    (valid'.mpr (by omega)) rfl _ forward
  cases hashed.symm.trans rehashed
  exact ⟨_, batchHash, inside, stretch_map_some fun k _ below => held k (by omega), down, up⟩

end

section Sample

attribute [local instance] prefixBlake3

def putBlock (storage : Storage) (height : U64) : Storage :=
  storage.put .blocks (heightKey height) (Codec.block.encode (testBlock []))

theorem blockAt_putBlock (storage : Storage) (height asked : U64) :
    blockAt (putBlock storage height) asked =
      if asked = height then some (testBlock []) else blockAt storage asked :=
  blockAt_put (by decide) asked

def gappedStorage : Storage := putBlock .empty 5

/-- The requester's anchor is not compared with anything, and the block is sent. -/
theorem gappedStorage_unanchored :
    blockAt gappedStorage (saturatingSub 5 1) = none ∧
    ∃ response, serveBlockSync ⟨5, 1, .forward, some (FixedBytes.replicate 32 9)⟩ gappedStorage .none
      (FixedBytes.replicate 32 0) 5 = .ok (some (.blockSync response)) ∧ response.blocks ≠ [] := by
  have missing : blockAt gappedStorage (saturatingSub 5 1) = none := by
    rw [gappedStorage, blockAt_putBlock]
    rfl
  have stored : (blockAt gappedStorage 5).isSome := by
    rw [gappedStorage, blockAt_putBlock]
    rfl
  refine ⟨missing, (serve_nonempty_iff (by decide) ?_).mpr ?_⟩
  · rw [anchorMismatch, ReadFaults.none_anchor, readBlock_false, missing]
  · exact (gather_forward_nonempty (by decide) (by decide)).mpr ⟨stored, .inl (by decide)⟩

def threeBlocks : Storage := putBlock (putBlock (putBlock .empty 0) 1) 2

theorem threeBlocks_agree :
    (∀ height, (blockAt threeBlocks height).isSome ↔ height ≤ 2) ∧ ∃ blocks batchHash,
      serveBlockSync ⟨3, 2, .backward, none⟩ threeBlocks .none (FixedBytes.replicate 32 0) 2 =
        .ok (some (.blockSync ⟨blocks, 2, batchHash⟩)) ∧
      serveBlockSync ⟨1, 2, .forward, none⟩ threeBlocks .none (FixedBytes.replicate 32 0) 2 =
        .ok (some (.blockSync ⟨blocks, 2, batchHash⟩)) := by
  have stored (height : U64) : (blockAt threeBlocks height).isSome ↔ height ≤ 2 := by
    have empty : blockAt .empty height = none := rfl
    have below : height ≤ 2 ↔ height = 2 ∨ height = 1 ∨ height = 0 := by bv_omega
    rw [threeBlocks, blockAt_putBlock, blockAt_putBlock, blockAt_putBlock, empty, below]
    grind
  obtain ⟨blocks, batchHash, -, -, down, up⟩ := sync_directions_agree threeBlocks
    (FixedBytes.replicate 32 0) 2 2 3 2 stored (by decide) (by decide) (by decide) (by decide)
  exact ⟨stored, blocks, batchHash, down, up⟩

end Sample

end Mononium
