import Mononium.Ledger.Refinement
import Mononium.Node.Recovery

/-! The chain explains the ledger. What the slots of a node have done to its machine is an era's
entry before each boundary block, and the blocks that are in storage in the order of their heights;
so the ledger is the book that these blocks make of the genesis. -/
namespace Mononium

open Rust Scale StateMachine

/-- What a slot did: it was about a height, with the validators listed in some order, and made the
block of that height unless it waited for it. -/
structure Round where
  height : U64
  listing : List Address
  block : Option Block

def Round.entry (r : Round) : List Op :=
  if isEraBoundary r.height then
    [.thawAll r.listing (eraAtHeight r.height),
      .election r.listing maxValidators (eraAtHeight r.height)]
  else []

def Round.ops (r : Round) : List Op :=
  r.entry ++ match r.block with
    | some block => [.stateRoot, .block block]
    | none => []

def blocksOf (rounds : List Round) : List Block := rounds.filterMap Round.block

theorem Round.entry_within {A : Finset Address} {r : Round} (within : ∀ a ∈ r.listing, a ∈ A) :
    ∀ op ∈ r.entry, op.Within A := by
  unfold Round.entry
  split
  next => simpa [Op.Within] using within
  next => simp

theorem Round.entry_elective {r : Round} (nodup : r.listing.Nodup) : ∀ op ∈ r.entry, op.Elective := by
  unfold Round.entry
  split
  next => simpa [Op.Elective] using nodup
  next => simp

section

variable [Blake3] {A : Finset Address} {node next start : Node} {input : Slot} {s t : StateMachine}
  {storage after : Storage} {height : U64} {rounds : List Round}

theorem run_entry (engine : ConsensusEngine) (s : StateMachine) (r : Round) :
    s.run r.entry = .ok (enterEra engine s r.listing r.height).2 := by
  unfold Round.entry
  by_cases boundary : isEraBoundary r.height
  · rw [if_pos boundary, enterEra_of_boundary engine s r.listing boundary]
    rfl
  · rw [if_neg boundary, enterEra, if_neg boundary]
    rfl

theorem run_append {ops more : List Op} (ran : s.run ops = .ok t) : s.run (ops ++ more) = t.run more := by
  rw [run] at ran ⊢
  rw [List.foldlM_append, ran]
  rfl

theorem buildBlock_run {txs : List Transaction} {parent block : Block} {proposer : Address} {now : U64}
    {signature : Falcon512Signature} {u : StateMachine} {receipt : BlockReceipt}
    (built : buildBlock s txs parent proposer now signature = .ok (block, u))
    (applied : u.applyBlock block = .ok (receipt, t)) :
    s.run [.stateRoot, .block block] = .ok t ∧ block.body.transactions = txs := by
  obtain ⟨next, -, built⟩ := bind_eq_ok.mp built
  obtain ⟨⟨root, v⟩, read, built⟩ := bind_eq_ok.mp built
  obtain ⟨made, rfl⟩ := Prod.mk.inj (pure_eq_ok.mp built)
  have first : s.step .stateRoot = .ok v := by
    rw [step, read]
    rfl
  have second : v.step (.block block) = .ok t := by
    rw [step, applied]
    rfl
  refine ⟨?_, by rw [← made]⟩
  rw [run, List.foldlM_cons, first, ok_bind, List.foldlM_cons, second, ok_bind]
  rfl

theorem produceBlock_run {parent : Block} {schedule : ProposerSchedule}
    (stored : blockAt storage (saturatingSub height 1) = some parent)
    (produced : produceBlock s storage height schedule input = .ok (t, after)) :
    ∃ block, s.run [.stateRoot, .block block] = .ok t ∧ block.body.transactions = input.selected ∧
      Codec.block.fits block = true ∧
      after = storage.put .blocks (heightKey height) (Codec.block.encode block) := by
  obtain ⟨proposer, block, u, receipt, built, applied, fits, rfl⟩ := produceBlock_spec stored produced
  obtain ⟨ran, body⟩ := buildBlock_run built applied
  exact ⟨block, ran, body, fits, rfl⟩

/-- The rounds account for the node's machine and for its blocks above the height at the start. -/
structure Explains (A : Finset Address) (start : Node) (rounds : List Round) (node : Node) : Prop where
  ran : start.state.run (rounds.flatMap Round.ops) = .ok node.state
  within : ∀ op ∈ rounds.flatMap Round.ops, op.Within A
  elective : ∀ op ∈ rounds.flatMap Round.ops, op.Elective
  tip : Tip node.storage node.engine.currentHeight
  counted : node.engine.currentHeight.toNat =
    start.engine.currentHeight.toNat + (blocksOf rounds).length
  stored : ∀ height, blockAt node.storage height =
    if height ≤ start.engine.currentHeight then blockAt start.storage height
    else (blocksOf rounds)[height.toNat - start.engine.currentHeight.toNat - 1]?
  placed : ∀ before r later, rounds = before ++ r :: later →
    r.height.toNat = start.engine.currentHeight.toNat + (blocksOf before).length + 1

namespace Explains

theorem refl (tip : Tip start.storage start.engine.currentHeight) : Explains A start [] start where
  ran := rfl
  within := by simp
  elective := by simp
  tip := tip
  counted := rfl
  stored height := by
    split
    next => rfl
    next above => exact tip.blockAt_of_lt (BitVec.not_le.mp above)
  placed before r later none := by simp at none

theorem sound (explains : Explains A start rounds node) (sound : Sound A start.state) :
    Sound A node.state :=
  run_sound sound explains.within explains.ran

/-- One more round, which leaves the chain as it is or puts a block on it. -/
theorem snoc {r : Round} (explains : Explains A start rounds node)
    (above : r.height.toNat = node.engine.currentHeight.toNat + 1)
    (ran : node.state.run r.ops = .ok next.state) (within : ∀ op ∈ r.ops, op.Within A)
    (elective : ∀ op ∈ r.ops, op.Elective)
    (result : match r.block with
      | none => next.storage = node.storage ∧ next.engine.currentHeight = node.engine.currentHeight
      | some block => Codec.block.fits block = true ∧ next.engine.currentHeight = r.height ∧
          next.storage = node.storage.put .blocks (heightKey r.height) (Codec.block.encode block)) :
    Explains A start (rounds ++ [r]) next where
  ran := by rw [List.flatMap_append, List.flatMap_singleton, run_append explains.ran, ran]
  within := by
    rw [List.flatMap_append, List.flatMap_singleton]
    exact List.forall_mem_append.mpr ⟨explains.within, within⟩
  elective := by
    rw [List.flatMap_append, List.flatMap_singleton]
    exact List.forall_mem_append.mpr ⟨explains.elective, elective⟩
  tip := by
    cases made : r.block with
    | none =>
      rw [made] at result
      rw [result.1, result.2]
      exact explains.tip
    | some block =>
      rw [made] at result
      obtain ⟨fits, height, storage⟩ := result
      rw [storage, height]
      exact explains.tip.put (BitVec.le_def.mpr (by omega)) fits
  counted := by
    have counted := explains.counted
    cases made : r.block with
    | none =>
      rw [made] at result
      simpa [blocksOf, made, result.2] using counted
    | some block =>
      rw [made] at result
      obtain ⟨-, height, -⟩ := result
      simp only [blocksOf, List.filterMap_append, List.length_append, height] at counted ⊢
      simp [made]
      omega
  stored asked := by
    have stored := explains.stored asked
    have counted := explains.counted
    cases made : r.block with
    | none =>
      rw [made] at result
      simpa [blocksOf, made, result.1] using stored
    | some block =>
      rw [made] at result
      obtain ⟨fits, -, storage⟩ := result
      have longer : blocksOf (rounds ++ [r]) = blocksOf rounds ++ [block] := by simp [blocksOf, made]
      rw [storage, blockAt_put fits, stored, longer]
      by_cases top : asked = r.height
      · subst top
        have new : r.height.toNat - start.engine.currentHeight.toNat - 1 = (blocksOf rounds).length := by
          omega
        rw [if_pos rfl, if_neg (by rw [BitVec.le_def]; omega), new, List.getElem?_concat_length]
      · have other := BitVec.toNat_ne.mp top
        rw [if_neg top]
        by_cases old : asked ≤ start.engine.currentHeight
        · rw [if_pos old, if_pos old]
        · rw [BitVec.le_def] at old
          rw [if_neg (mt BitVec.le_def.mp old), if_neg (mt BitVec.le_def.mp old), List.getElem?_append]
          split
          next => rfl
          next past =>
            rw [List.getElem?_eq_none (by omega), List.getElem?_eq_none (by simp; omega)]
  placed before last later split := by
    rcases List.eq_nil_or_concat later with rfl | ⟨rest, final, rfl⟩
    · obtain ⟨rfl, same⟩ := List.append_inj' split rfl
      cases same
      rw [above, explains.counted]
    · rw [List.concat_eq_append, ← List.cons_append, ← List.append_assoc] at split
      exact explains.placed before last rest (List.append_inj' split rfl).1

theorem slot (explains : Explains A start rounds node) (sound : Sound A start.state)
    (lists : Lists input.listing node.state) (selected : ∀ tx ∈ input.selected, tx.Within A)
    (ran : slot node input = .ok next) : ∃ round, Explains A start (rounds ++ [round]) next := by
  have listed : ∀ a ∈ input.listing, a ∈ A := lists.within (explains.sound sound)
  obtain ⟨height, added, cases⟩ := slot_cases ran
  have above : height.toNat = node.engine.currentHeight.toNat + 1 := add_eq_ok.mp added
  have entered (block : Option Block) := run_entry node.engine node.state ⟨height, input.listing, block⟩
  rcases cases with ⟨state, storage, same⟩ | ⟨schedule, produced, made⟩
  · refine ⟨⟨height, input.listing, none⟩, explains.snoc above ?_ ?_ ?_ ⟨storage, same⟩⟩
    · rw [Round.ops, List.append_nil, entered, state]
    · rw [Round.ops, List.append_nil]
      exact Round.entry_within listed
    · rw [Round.ops, List.append_nil]
      exact Round.entry_elective lists.nodup
  · have below : saturatingSub height 1 = node.engine.currentHeight := saturatingSub_of_toNat above
    obtain ⟨parent, found⟩ := Option.isSome_iff_exists.mp explains.tip.stored
    obtain ⟨block, applied, body, fits, storage⟩ :=
      produceBlock_run (by rw [below]; exact found) produced
    refine ⟨⟨height, input.listing, some block⟩, explains.snoc above ?_ ?_ ?_ ⟨fits, made, storage⟩⟩
    · rw [Round.ops, run_append (entered _), applied]
    · rw [Round.ops]
      refine List.forall_mem_append.mpr ⟨Round.entry_within listed, ?_⟩
      simpa [Op.Within, body] using selected
    · rw [Round.ops]
      refine List.forall_mem_append.mpr ⟨Round.entry_elective lists.nodup, ?_⟩
      simp [Op.Elective]

end Explains

theorem Runs.explained (runs : Runs A start node) (sound : Sound A start.state)
    (tip : Tip start.storage start.engine.currentHeight) :
    ∃ rounds, Explains A start rounds node := by
  induction runs with
  | start => exact ⟨[], .refl tip⟩
  | slot _ lists within ran ih =>
    obtain ⟨rounds, explains⟩ := ih
    obtain ⟨round, more⟩ := explains.slot sound lists within ran
    exact ⟨_, more⟩

/-- In every run of slots from a genesis, whatever the mempool selects and however the validators
are listed: the node's ledger is the book that begins with the accounts of the genesis and goes
through the stored blocks in the order of their heights, entering an era before its first block. -/
theorem chain_explains_ledger [SerdeJson] {file : Except String String} {localValidator : Option Address}
    (apart : KeysApart A) (loaded : loadGenesis file Storage.empty = (.ok (), storage))
    (genesis : ∀ p ∈ loadAccounts storage, p.1 ∈ A)
    (supply : ((loadAccounts storage).map fun p => p.2.balance.toNat).sum < 2 ^ 256)
    (started : startNode localValidator storage = .ok (.ok start)) (runs : Runs A start node) :
    ∃ rounds, node.state.book A = Book.after (loadAccounts storage) (rounds.flatMap Round.ops) ∧
      (blocksOf rounds).length = node.engine.currentHeight.toNat ∧
      (∀ height : U64, 0 < height →
        blockAt node.storage height = (blocksOf rounds)[height.toNat - 1]?) ∧
      ∀ before r later, rounds = before ++ r :: later →
        r.height.toNat = (blocksOf before).length + 1 := by
  have tip := tip_genesis loaded
  obtain ⟨u, verified, rfl⟩ := (startNode_eq_ok tip).mp started
  cases verified
  have solvent := new_solvent apart genesis supply
  obtain ⟨rounds, explains⟩ := runs.explained solvent.sound tip
  have counted := explains.counted
  refine ⟨rounds, ?_, by simpa using counted.symm, fun height positive => ?_,
    fun before r later split => ?_⟩
  · have regular : StateMachine.Regular A (loadAccounts storage) (rounds.flatMap Round.ops) node.state :=
      ⟨apart, genesis, supply, explains.within, explains.elective, explains.ran⟩
    exact regular.book.2
  · rw [explains.stored, if_neg (BitVec.not_le.mpr positive)]
    simp
  · simpa using explains.placed before r later split

end

section Sample

attribute [local instance] peakBlake3 soloSerdeJson

/-- The ledger of a node that has made one block. -/
theorem freshVote_explained : ∃ node, Runs {alice} soloNode node ∧ ∃ rounds,
    node.state.book {alice} = Book.after solo (rounds.flatMap Round.ops) ∧
    (blocksOf rounds).length = 1 := by
  obtain ⟨node, block, runs, at_, -⟩ := solo_slot freshVote (by decide) (by decide) (by decide)
  obtain ⟨rounds, book, counted, -⟩ := chain_explains_ledger (by decide) solo_loaded
    (by rw [solo_loadAccounts]; decide) (by rw [solo_loadAccounts]; decide) solo_started runs
  rw [solo_loadAccounts] at book
  rw [at_] at counted
  exact ⟨node, runs, rounds, book, counted⟩

end Sample

end Mononium
