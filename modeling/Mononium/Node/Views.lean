import Mononium.Ledger.Chain
import Mononium.Node.Queries
import Mononium.Node.Turns

/-! What the servers of a node show over a run. While the database answers, the REST server takes
nothing back that it has shown of a height, a nonce, a validator or a block that no other node sends
again. The RPC server shows the chain as it was at the start, and no account. -/
namespace Mononium

open Rust Scale StateMachine

theorem eraAtHeight_mono {height above : U64} (le : height ≤ above) : eraAtHeight height ≤ eraAtHeight above := by
  rw [BitVec.le_def] at le ⊢
  simp only [eraAtHeight, eraLength, BitVec.toNat_udiv]
  exact Nat.div_le_div_right le

/-- A block below the tip leaves the tip. -/
theorem Tip.put_below {storage : Storage} {height under : U64} {block : Block} (tip : Tip storage height)
    (le : under ≤ height) (fits : Codec.block.fits block = true) :
    Tip (storage.put .blocks (heightKey under) (Codec.block.encode block)) height := by
  refine ⟨?_, fun key member => ?_⟩
  · rw [blockAt_put fits]
    split
    next => rfl
    next => exact tip.stored
  · rw [Storage.table_put_self, AList.mem_insert] at member
    rcases member with here | before
    · exact ⟨under, le, here⟩
    · exact tip.keys key before

structure ShowsHeight (storage : Storage) (atStart shown : U64) : Prop where
  health : healthHandler storage atStart none = .ok ⟨"ok", shown⟩
  height : heightHandler storage atStart none = .ok ⟨shown⟩
  era : eraHandler storage atStart none = .ok ⟨eraAtHeight shown⟩
  latest : ∃ block, blockAt storage shown = some block ∧ blockLatestHandler storage atStart none none =
    .ok (if shown = 0 then .error ⟨404, "no blocks yet"⟩ else .ok block)

theorem loadBlockJson_of_blockAt {storage : Storage} {height : U64} {block : Block}
    (stored : blockAt storage height = some block) : loadBlockJson storage height none = .ok block := by
  obtain ⟨raw, rest, found, decoded⟩ := blockAt_eq_some.mp stored
  rw [loadBlockJson, found]
  dsimp only
  rw [decoded]

theorem Tip.showsHeight {storage : Storage} {height : U64} (tip : Tip storage height) (atStart : U64) :
    ShowsHeight storage atStart height := by
  have shown : shownHeight storage atStart none = .ok height := tip.loadLatestHeight
  obtain ⟨block, stored⟩ := Option.isSome_iff_exists.mp tip.stored
  refine ⟨?_, ?_, ?_, block, stored, ?_⟩
  · rw [healthHandler, shown]
    rfl
  · rw [heightHandler, shown]
    rfl
  · rw [eraHandler, shown]
    rfl
  · rw [blockLatestHandler, shown, ok_bind, loadBlockJson_of_blockAt stored]
    split
    next => rfl
    next => rfl

section

variable [Blake3] {A : Finset Address} {s : StateMachine} {a : Address} {text : String}

theorem nonceHandler_of_sound (sound : Sound A s) (ha : a ∈ A) (parsed : parseRawAddress text = .ok a) :
    ∃ shown : U64, nonceHandler s text = .ok (.ok ⟨shown⟩) ∧ shown.toNat = s.nonce a := by
  rw [nonceHandler, parsed]
  dsimp only
  rw [sound.getAccount ha, ok_bind]
  refine ⟨_, rfl, ?_⟩
  rw [nonce]
  cases s.account a with
  | none => rfl
  | some account => rfl

theorem validatorHandler_exists (parsed : parseRawAddress text = .ok a) :
    (∃ shown, validatorHandler s text = .ok shown ∧ shown.exists_ = true) ↔ (s.getValidator a).isSome := by
  rw [validatorHandler, parsed]
  dsimp only
  cases s.getValidator a with
  | none => simp
  | some entry => simp

/-- The walk comes to the heights up to its start only. -/
theorem walkBack_congr {storage after : Storage} {top : Nat} (low : top < 2 ^ 64)
    (same : ∀ height : U64, height.toNat ≤ top → blockAt after height = blockAt storage height)
    (hash : Bytes) : walkBack after hash top = walkBack storage hash top := by
  induction top with
  | zero => rfl
  | succ top ih =>
    have here : (BitVec.ofNat 64 (top + 1)).toNat = top + 1 := by
      rw [BitVec.toNat_ofNat, Nat.mod_eq_of_lt low]
    rw [walkBack, walkBack, same _ here.le,
      ih (Nat.lt_of_succ_lt low) fun height le => same height (Nat.le_succ_of_le le)]

theorem walkBack_le {storage : Storage} {hash : Bytes} {top : Nat} {height : U64} (low : top < 2 ^ 64)
    (found : walkBack storage hash top = some height) : height.toNat ≤ top := by
  induction top with
  | zero => cases found
  | succ top ih =>
    have here : (BitVec.ofNat 64 (top + 1)).toNat = top + 1 := by
      rw [BitVec.toNat_ofNat, Nat.mod_eq_of_lt low]
    have later (found : walkBack storage hash top = some height) : height.toNat ≤ top + 1 :=
      Nat.le_succ_of_le (ih (Nat.lt_of_succ_lt low) found)
    rw [walkBack] at found
    split at found
    next =>
      split at found
      next =>
        cases found
        exact here.le
      next => exact later found
    next => exact later found

/-- No block above the height of the server is found by a hash or as the latest one. -/
theorem blockIdToHeight_le {storage : Storage} {current height : U64} {raw : BlockId}
    (low : ∀ n, raw = .number (some n) → n ≤ current)
    (found : blockIdToHeight raw storage current = .ok height) : height ≤ current := by
  cases raw with
  | number value =>
    cases value with
    | none => cases found
    | some n =>
      cases found
      exact low height rfl
  | other => cases found
  | string text =>
    rw [blockIdToHeight] at found
    split at found
    next =>
      cases found
      exact BitVec.le_refl _
    next =>
      split at found
      next => cases found
      next =>
        split at found
        next => cases found
        next =>
          split at found
          next walked =>
            cases found
            exact walkBack_le current.isLt walked
          next => cases found

/-- A block up to the height of the server is found as before, however it is named, while these blocks
are as before. -/
theorem blockGet_congr {storage after : Storage} {current : U64} {raw : BlockId}
    (same : ∀ height ≤ current, blockAt after height = blockAt storage height)
    (low : ∀ n, raw = .number (some n) → n ≤ current) :
    blockGet raw after current = blockGet raw storage current := by
  have walked := walkBack_congr current.isLt same
  have named : blockIdToHeight raw after current = blockIdToHeight raw storage current := by
    cases raw <;> simp only [blockIdToHeight, walked]
  rw [blockGet, blockGet, named]
  cases found : blockIdToHeight raw storage current with
  | error e => rfl
  | ok height =>
    dsimp only
    rw [same height (blockIdToHeight_le low found)]

structure ShowsNobody (app : RpcApp) : Prop where
  balance : ∀ text, app.stateGetBalance text = .ok ((rpcParseAddress text).map fun _ => "0x0")
  nonce : ∀ text, app.stateGetNonce text = .ok ((rpcParseAddress text).map fun _ => 0)
  stake : ∀ text, app.validatorStake text = (rpcParseAddress text).map fun _ => "0x0"
  set : app.validatorSet = []

theorem Node.rpcApp_showsNobody (node : Node) (storage : Storage) : ShowsNobody (node.rpcApp storage) := by
  refine ⟨fun text => ?_, fun text => ?_, fun text => ?_, rfl⟩
  · rw [RpcApp.stateGetBalance]
    cases rpcParseAddress text with
    | error e => rfl
    | ok addr => rfl
  · rw [RpcApp.stateGetNonce]
    cases rpcParseAddress text with
    | error e => rfl
    | ok addr => rfl
  · rw [RpcApp.validatorStake]
    cases rpcParseAddress text with
    | error e => rfl
    | ok addr =>
      have unknown : (new []).getValidator addr = none := rfl
      dsimp only [Node.rpcApp]
      rw [unknown]
      rfl

end

namespace Tasks

section

variable [Blake3] {A : Finset Address} {start tasks next : Tasks} {listing : List Address} {fault : Bool}
  {slotEnd : SlotEnd} {production : Production} {now : U64} {order : SenderOrder} {a : Address}
  {synced : Set U64}

/-- What the moves of a node lead to that syncs only blocks of these heights. -/
inductive Leads (A : Finset Address) (synced : Set U64) (start : Tasks) : Tasks → Prop
  | refl : Leads A synced start start
  | move {tasks next : Tasks} {move : TaskMove} {slotEnd : SlotEnd} (leads : Leads A synced start tasks)
    (allowed : tasks.Allows A move) (own : ∀ block, move = .store block → block.header.height ∈ synced)
    (ran : tasks.step move = .ok (slotEnd, next)) : Leads A synced start next

theorem Reaches.leads (reaches : Reaches A start tasks) : Leads A Set.univ start tasks := by
  induction reaches with
  | refl => exact .refl
  | move _ allowed ran ih => exact .move ih allowed (fun _ _ => trivial) ran

def Going (tasks : Tasks) : Prop :=
  ∀ production, tasks.production = some production →
    production.height.toNat = tasks.engine.currentHeight.toNat + 1

/-- What a move stores: nothing, the block of a slot, or a block from elsewhere. -/
theorem step_storage {move : TaskMove} (ran : tasks.step move = .ok (slotEnd, next)) :
    next.storage = tasks.storage ∨ ∃ block height, Codec.block.fits block = true ∧
      next.storage = tasks.storage.put .blocks (heightKey height) (Codec.block.encode block) ∧
      ((∃ production, tasks.production = some production ∧ height = production.height) ∨
        move = .store block ∧ height = block.header.height) := by
  cases step_cases ran with
  | busy | idle | submit => exact .inl rfl
  | start _ ran =>
    left
    obtain ⟨_, _, -, -, ⟨-, rfl⟩ | ⟨-, ⟨_, _, -, -, rfl⟩ | ⟨-, -, rfl⟩⟩⟩ := start_cases ran
    · rfl
    · rfl
    · rfl
  | finish going ran =>
    obtain ⟨_, _, block, _, _, -, -, -, fits, -, -, ⟨-, same⟩ | ⟨-, stored⟩⟩ := finish_cases ran
    · exact .inl same
    · exact .inr ⟨block, _, fits, stored, .inl ⟨_, going, rfl⟩⟩
  | store fits => exact .inr ⟨_, _, fits, rfl, .inr ⟨rfl, rfl⟩⟩

/-- The height of the engine never goes down. -/
theorem Going.step {move : TaskMove} (going : tasks.Going) (ran : tasks.step move = .ok (slotEnd, next)) :
    next.Going ∧ tasks.engine.currentHeight ≤ next.engine.currentHeight := by
  cases step_cases ran with
  | busy | idle | store | submit => exact ⟨going, BitVec.le_refl _⟩
  | start idle ran =>
    obtain ⟨height, engine, added, kept, cases⟩ := start_cases ran
    have above := add_eq_ok.mp added
    have level : tasks.engine.currentHeight ≤ engine.currentHeight := kept ▸ BitVec.le_refl _
    rcases cases with ⟨-, rfl⟩ | ⟨-, ⟨schedule, parent, -, -, rfl⟩ | ⟨-, -, rfl⟩⟩
    · refine ⟨fun production still => ?_, level⟩
      cases idle.symm.trans still
    · refine ⟨fun production started => ?_, level⟩
      cases started
      rw [kept]
      exact above
    · refine ⟨fun production still => ?_, ?_⟩
      · cases idle.symm.trans still
      · rw [BitVec.le_def]
        exact above ▸ Nat.le_succ _
  | finish there ran =>
    obtain ⟨done, height⟩ := finish_ends ran
    refine ⟨fun other still => ?_, ?_⟩
    · cases done.symm.trans still
    · rw [BitVec.le_def, height, going _ there]
      exact Nat.le_succ _

/-- A slot that ends is a run of ledger operations, and so is one that begins. -/
theorem Tended.step_ops {move : TaskMove} (tended : tasks.Tended A) (allowed : tasks.Allows A move)
    (ran : tasks.step move = .ok (slotEnd, next)) :
    ∃ ops, (∀ op ∈ ops, op.Within A) ∧ tasks.state.run ops = .ok next.state := by
  cases step_cases ran with
  | busy | idle | store | submit => exact ⟨[], by simp, rfl⟩
  | @start listing _ _ _ _ ran =>
    obtain ⟨-, height, state⟩ := start_spec ran
    refine ⟨Round.entry ⟨height, listing, none⟩,
      Round.entry_within (Lists.within allowed tended.sound), ?_⟩
    rw [state]
    exact run_entry tasks.engine tasks.state ⟨height, listing, none⟩
  | finish going ran =>
    obtain ⟨txs, proposer, block, u, receipt, selected, built, applied, -⟩ := finish_cases ran
    obtain ⟨stepped, body⟩ := buildBlock_run built applied
    have moved := (tended.pool.select_conserves selected).2
    refine ⟨_, ?_, stepped⟩
    have within : ∀ tx ∈ txs, tx.Within A := fun tx taken =>
      tended.within tx (moved.mem_iff.mpr (List.mem_append_right _ taken))
    simpa [Op.Within, body] using within

/-- What holds of the tasks after such moves, if `above` was the highest block before them. -/
structure Since (A : Finset Address) (synced : Set U64) (height : U64) (tasks next : Tasks) : Prop where
  tended : next.Tended A
  going : next.Going
  tip : ∃ above, height ≤ above ∧ Tip next.storage above
  level : tasks.engine.currentHeight ≤ next.engine.currentHeight
  nonce : ∀ a ∈ A, tasks.state.nonce a ≤ next.state.nonce a
  validator : ∀ a ∈ A, (tasks.state.getValidator a).isSome → (next.state.getValidator a).isSome
  stored : ∀ asked ≤ tasks.engine.currentHeight, asked ∉ synced →
    next.storage.get .blocks (heightKey asked) = tasks.storage.get .blocks (heightKey asked)

variable {height : U64}

theorem Since.refl (tended : tasks.Tended A) (going : tasks.Going) (tip : Tip tasks.storage height) :
    Since A synced height tasks tasks :=
  ⟨tended, going, ⟨height, BitVec.le_refl _, tip⟩, BitVec.le_refl _, fun _ _ => Nat.le_refl _,
    fun _ _ known => known, fun _ _ _ => rfl⟩

theorem Since.step {after : Tasks} {move : TaskMove} (since : Since A synced height tasks next)
    (allowed : next.Allows A move) (own : ∀ block, move = .store block → block.header.height ∈ synced)
    (ran : next.step move = .ok (slotEnd, after)) : Since A synced height tasks after := by
  obtain ⟨tended, up, -⟩ := since.tended.step allowed ran
  obtain ⟨going, level⟩ := since.going.step ran
  obtain ⟨ops, within, ledger⟩ := since.tended.step_ops allowed ran
  refine ⟨tended, going, ?_, BitVec.le_trans since.level level,
    fun a ha => (since.nonce a ha).trans (up a ha), fun a ha known => ?_, fun asked le apart => ?_⟩
  · obtain ⟨above, le, tip⟩ := since.tip
    rcases step_storage ran with same | ⟨block, key, fits, stored, -⟩
    · exact ⟨above, le, same ▸ tip⟩
    · rw [stored]
      by_cases under : key ≤ above
      · exact ⟨above, le, tip.put_below under fits⟩
      · have beyond : above ≤ key := by bv_omega
        exact ⟨key, BitVec.le_trans le beyond, tip.put beyond fits⟩
  · refine run_entry_invariant (P := fun entry => entry.isSome) since.tended.sound within ha ?_
      (since.validator a ha known) ledger
    intro op _ x y rewrite known
    obtain ⟨e, rfl⟩ := Option.isSome_iff_exists.mp known
    obtain ⟨later, rfl, -⟩ := rewrite.sameIdentity
    rfl
  · rw [← since.stored asked le apart]
    rcases step_storage ran with same | ⟨block, key, -, stored, written⟩
    · rw [same]
    · rw [stored, Storage.get_put, if_neg]
      rintro ⟨-, same⟩
      cases heightKey_injective same
      -- a slot writes above what is settled, the others write only what is synced
      rcases written with ⟨production, there, rfl⟩ | ⟨rfl, rfl⟩
      · have next := since.going production there
        have settled := BitVec.le_def.mp (BitVec.le_trans le since.level)
        omega
      · exact apart (own block rfl)

theorem Since.of_leads (leads : Leads A synced tasks next) (tended : tasks.Tended A) (going : tasks.Going)
    (tip : Tip tasks.storage height) : Since A synced height tasks next := by
  induction leads with
  | refl => exact .refl tended going tip
  | move _ allowed own ran ih => exact ih.step allowed own ran

/-- Nothing that the REST server has shown at `tasks` is taken back at `next`. -/
structure KeepsShown (A : Finset Address) (synced : Set U64) (atStart : U64) (tasks next : Tasks) : Prop where
  height : ∃ low high, atStart ≤ low ∧ low ≤ high ∧ eraAtHeight low ≤ eraAtHeight high ∧
    ShowsHeight tasks.storage atStart low ∧ ShowsHeight next.storage atStart high
  nonce : ∀ text, ∀ a ∈ A, parseRawAddress text = .ok a → ∃ low high, low ≤ high ∧
    nonceHandler tasks.state text = .ok (.ok ⟨low⟩) ∧ nonceHandler next.state text = .ok (.ok ⟨high⟩)
  validator : ∀ text, ∀ a ∈ A, parseRawAddress text = .ok a →
    (∃ shown, validatorHandler tasks.state text = .ok shown ∧ shown.exists_ = true) →
    ∃ shown, validatorHandler next.state text = .ok shown ∧ shown.exists_ = true
  block : ∀ height ≤ tasks.engine.currentHeight, height ∉ synced →
    blockByHeightHandler height next.storage none = blockByHeightHandler height tasks.storage none
  genesis : 0 ∉ synced → genesisHandler next.storage none = genesisHandler tasks.storage none

theorem Since.keepsShown {atStart : U64} (since : Since A synced height tasks next)
    (sound : Sound A tasks.state) (tip : Tip tasks.storage height) (le : atStart ≤ height) :
    KeepsShown A synced atStart tasks next where
  height := by
    obtain ⟨above, up, top⟩ := since.tip
    exact ⟨height, above, le, up, eraAtHeight_mono up, tip.showsHeight _, top.showsHeight _⟩
  nonce text a ha parsed := by
    obtain ⟨low, before, was⟩ := nonceHandler_of_sound sound ha parsed
    obtain ⟨high, after, is⟩ := nonceHandler_of_sound since.tended.sound ha parsed
    refine ⟨low, high, ?_, before, after⟩
    rw [BitVec.le_def, was, is]
    exact since.nonce a ha
  validator text a ha parsed shown := by
    rw [validatorHandler_exists parsed] at shown ⊢
    exact since.validator a ha shown
  block asked le apart := by
    simp only [blockByHeightHandler, loadBlockJson, since.stored asked le apart]
  genesis apart := by
    have lowest : (0 : U64) ≤ tasks.engine.currentHeight := BitVec.le_def.mpr (Nat.zero_le _)
    simp only [genesisHandler, blockAt, since.stored 0 lowest apart]

/-- What the RPC server shows at `next`, which it was given at the start: nobody, a height and an era
that the REST server has left behind, and the blocks of that time. -/
structure ShowsStart (synced : Set U64) (node : Node) (tasks next : Tasks) : Prop where
  nobody : ShowsNobody (node.rpcApp next.storage)
  behind : ∃ shown, ShowsHeight next.storage node.engine.currentHeight shown ∧
    (node.rpcApp next.storage).chainGetHeight ≤ shown ∧
    (node.rpcApp next.storage).eraCurrent ≤ eraAtHeight shown
  latest : node.engine.currentHeight ∉ synced →
    (node.rpcApp next.storage).blockLatest = (node.rpcApp tasks.storage).blockLatest
  header : (∀ height ≤ node.engine.currentHeight, height ∉ synced) →
    ∀ raw, (∀ n, raw = .number (some n) → n ≤ node.engine.currentHeight) →
      (node.rpcApp next.storage).blockHeader raw = (node.rpcApp tasks.storage).blockHeader raw

/-- Whatever a node does, its REST server takes nothing back while the database answers, except that
it may show another block at a height that has been synced. The RPC server shows what it was given at
the start: nobody, and the height and the blocks of that time. -/
theorem servers_take_nothing_back {node : Node} (sound : Sound A node.state)
    (tip : Tip node.storage node.engine.currentHeight) (first : Reaches A node.launch tasks)
    (leads : Leads A synced tasks next) :
    KeepsShown A synced node.engine.currentHeight tasks next ∧ ShowsStart synced node tasks next := by
  have idle : node.launch.Going := fun _ going => by cases going
  have start : Tip node.launch.storage node.engine.currentHeight := tip
  have early := Since.of_leads first.leads (launch_tended sound) idle start
  obtain ⟨height, le, top⟩ := early.tip
  have late := Since.of_leads leads early.tended early.going top
  have stored (asked : U64) (low : asked ≤ node.engine.currentHeight) (apart : asked ∉ synced) :
      blockAt next.storage asked = blockAt tasks.storage asked := by
    rw [blockAt, blockAt, late.stored asked (BitVec.le_trans low early.level) apart]
  refine ⟨late.keepsShown early.tended.sound top le, node.rpcApp_showsNobody next.storage, ?_,
    stored _ (BitVec.le_refl _), fun apart raw low => ?_⟩
  · obtain ⟨above, up, tip⟩ := late.tip
    have beyond := BitVec.le_trans le up
    exact ⟨above, tip.showsHeight _, beyond, eraAtHeight_mono beyond⟩
  · have found := blockGet_congr (fun asked le => stored asked le (apart asked le)) low
    exact congrArg (Except.map (·.header)) found

end

section Sample

attribute [local instance] peakBlake3 soloSerdeJson

/-- A block from elsewhere. The genesis block is shown as before. -/
theorem syncedBlock_shown : ∃ next, soloNode.launch.step (.store syncedBlock) = .ok (.none, next) ∧
    KeepsShown {alice} {1} 0 soloNode.launch next ∧
    (soloNode.rpcApp next.storage).blockLatest = some (genesisBlock 0) := by
  let storage := soloNode.launch.storage.put .blocks (heightKey syncedBlock.header.height)
    (Codec.block.encode syncedBlock)
  let next : Tasks := { soloNode.launch with storage }
  have ran : soloNode.launch.step (.store syncedBlock) = .ok (.none, next) := by
    rw [Tasks.step, Codec.write_of_fits synced_fits]
    rfl
  have sound : Sound {alice} soloNode.state := new_solo_reachable.sound
  have genesis : soloNode.storage = soloStorage := by rw [soloNode]
  have height : soloNode.engine.currentHeight = 0 := by rw [soloNode]
  have tip : Tip soloNode.storage soloNode.engine.currentHeight := by
    rw [genesis, height]
    exact tip_genesis solo_loaded
  have here : Reaches {alice} soloNode.launch soloNode.launch := .refl
  have own : ∀ block, TaskMove.store syncedBlock = .store block → block.header.height ∈ ({1} : Set U64) := by
    rintro block ⟨rfl⟩
    rfl
  have allowed : soloNode.launch.Allows {alice} (.store syncedBlock) := trivial
  have leads : Leads {alice} {1} soloNode.launch next := .move .refl allowed own ran
  have apart : soloNode.engine.currentHeight ∉ ({1} : Set U64) := by
    rw [height]
    decide
  obtain ⟨keeps, rpc⟩ := servers_take_nothing_back sound tip here leads
  have latest := rpc.latest apart
  have launched : soloNode.launch.storage = soloStorage := by rw [Node.launch, genesis]
  refine ⟨next, ran, height ▸ keeps, latest.trans ?_⟩
  rw [RpcApp.blockLatest, Node.rpcApp, launched, height, solo_blocks]

end Sample

end Tasks

end Mononium
