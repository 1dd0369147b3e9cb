import Mononium.Node.Split

/-! What the tasks of a node do to the chain in storage, whatever their order. A slot counts even
if it failed, and what it did to the state machine and the mempool stays done; the catch-up loop
stores blocks at any height. -/
namespace Mononium

open Rust Scale

namespace SameContents

variable [Blake3] {s t : StateMachine}

theorem applyBlock {block : Block} {receipt : BlockReceipt} (empty : block.body.transactions = [])
    (applied : s.applyBlock block = .ok (receipt, t)) : SameContents s t := by
  obtain ⟨p, looped, applied⟩ := bind_eq_ok.mp applied
  rw [empty] at looped
  cases looped
  obtain ⟨middle, distributed, applied⟩ := bind_eq_ok.mp applied
  obtain ⟨⟨root, after⟩, read, applied⟩ := bind_eq_ok.mp applied
  cases applied
  rw [StateMachine.distributeFees, if_pos (.inl rfl)] at distributed
  cases distributed
  exact stateRoot read

theorem buildBlock {txs : List Transaction} {parent block : Block} {proposer : Address}
    {timestamp : U64} {signature : Falcon512Signature}
    (built : buildBlock s txs parent proposer timestamp signature = .ok (block, t)) :
    block.body.transactions = txs ∧ SameContents s t := by
  obtain ⟨height, -, built⟩ := bind_eq_ok.mp built
  obtain ⟨⟨root, after⟩, read, built⟩ := bind_eq_ok.mp built
  cases built
  exact ⟨rfl, stateRoot read⟩

end SameContents

section

variable [Blake3] {s : StateMachine} {listing : List Address} {height : U64}

/-- At the boundary of an era nobody thaws, and who is elected is so already. -/
def Settled (state : StateMachine) (listing : List Address) (height : U64) : Prop :=
  isEraBoundary height = true →
    (∀ a ∈ listing, ∀ entry frozenUntil, state.getValidator a = some entry →
      entry.status = .frozen frozenUntil → eraAtHeight height < frozenUntil) ∧
    (state.elected listing maxValidators (eraAtHeight height)).map (·.address) = state.activeSet ∧
    ∀ e ∈ state.elected listing maxValidators (eraAtHeight height), e.address ∈ state.validators ∧
      state.state.get (validatorKey e.address) = some (Codec.validatorEntry.encode (StateMachine.activated e))

theorem thawAll_settled {era : U64} (frozen : ∀ a ∈ listing, ∀ entry frozenUntil,
    s.getValidator a = some entry → entry.status = .frozen frozenUntil → era < frozenUntil) :
    (s.thawAll listing era).1 = s := by
  have stays : ∀ a ∈ listing, (s.processThaw a era).1 = s := by
    intro a member
    unfold StateMachine.processThaw
    split
    next => rfl
    next entry there =>
      split
      next frozenUntil status => rw [if_pos (frozen a member entry frozenUntil there status)]
      next => rfl
  rw [StateMachine.thawAll_fst]
  induction listing with
  | nil => rfl
  | cons a rest ih =>
    rw [List.foldl_cons, stays a List.mem_cons_self]
    exact ih (fun b member => frozen b (List.mem_cons_of_mem _ member))
      fun b member => stays b (List.mem_cons_of_mem _ member)

theorem elect_settled {t : StateMachine} {elected : List ValidatorEntry} (same : SameContents s t)
    (there : ∀ e ∈ elected, e.address ∈ s.validators ∧ s.state.get (validatorKey e.address) =
      some (Codec.validatorEntry.encode (StateMachine.activated e))) :
    SameContents s (elected.foldl (fun machine e =>
      machine.setValidator (StateMachine.activated e).address (StateMachine.activated e)) t) := by
  induction elected generalizing t with
  | nil => exact same
  | cons e rest ih =>
    obtain ⟨listed, stored⟩ := there e List.mem_cons_self
    rw [List.foldl_cons, StateMachine.activated_address]
    refine ih (same.trans (SameContents.setValidator ?_ ?_))
      fun other member => there other (List.mem_cons_of_mem _ member)
    · exact same.validators ▸ listed
    · rw [same.get, stored]

/-- Where that holds, the boundary of the era changes nothing. -/
theorem enterEra_settled (engine : ConsensusEngine) (settled : Settled s listing height) :
    SameContents s (enterEra engine s listing height).2 := by
  by_cases boundary : isEraBoundary height = true
  · obtain ⟨frozen, active, there⟩ := settled boundary
    have thawed := thawAll_settled frozen
    rw [enterEra_of_boundary _ _ _ boundary, thawed]
    have same := elect_settled (.refl s) there
    have installed := active.symm
    refine ⟨same.leaves, same.validators, ?_⟩
    simpa only [StateMachine.setActiveSet, StateMachine.runElection] using installed
  · rw [enterEra, if_neg boundary]
    exact .refl s

end

namespace Tasks

section

variable [Blake3]

/-- The block at `height` is there and continues the one below it. -/
def LinkedAt (storage : Storage) (height : U64) : Prop :=
  ∃ block parent, blockAt storage height = some block ∧
    blockAt storage (height - 1) = some parent ∧ block.header.height = height ∧
    block.header.parentHash = headerHash parent.header

def ChainLinked (tasks : Tasks) : Prop :=
  ∀ height, 0 < height → height ≤ tasks.engine.currentHeight → LinkedAt tasks.storage height

/-- The state machine as the slot in progress, or else the next one, found it. -/
def found (tasks : Tasks) : StateMachine :=
  match tasks.production with
  | none => tasks.state
  | some production => production.before

/-- A block that another task stores continues the one below it, and does not take the place
of a block that is built on. -/
def Fits (tasks : Tasks) (block : Block) : Prop :=
  (0 < block.header.height → ∃ parent, blockAt tasks.storage (block.header.height - 1) = some parent ∧
    block.header.parentHash = headerHash parent.header) ∧
  (block.header.height < tasks.engine.currentHeight ∨ tasks.production.isSome →
    ∃ old, blockAt tasks.storage block.header.height = some old ∧
      headerHash block.header = headerHash old.header)

end

section

variable [Blake3] {storage : Storage} {block : Block} {height current next : U64}

/-- A block stored elsewhere leaves a link alone, and so does one with the same header hash
stored below it. -/
theorem LinkedAt.put (linked : LinkedAt storage height) {key : U64}
    (fits : Codec.block.fits block = true) (other : height ≠ key)
    (same : key = height - 1 → ∃ old, blockAt storage key = some old ∧
      headerHash block.header = headerHash old.header) :
    LinkedAt (storage.put .blocks (heightKey key) (Codec.block.encode block)) height := by
  obtain ⟨top, parent, found, below, own, link⟩ := linked
  by_cases under : key = height - 1
  · obtain ⟨old, there, hash⟩ := same under
    rw [under, below] at there
    cases there
    refine ⟨top, block, ?_, ?_, own, link.trans hash.symm⟩
    · rw [blockAt_put fits, if_neg other, found]
    · rw [blockAt_put fits, if_pos under.symm]
  · refine ⟨top, parent, ?_, ?_, own, link⟩
    · rw [blockAt_put fits, if_neg other, found]
    · rw [blockAt_put fits, if_neg (Ne.symm under), below]

theorem linkedAt_put_self {parent : Block} (fits : Codec.block.fits block = true)
    (below : blockAt storage (block.header.height - 1) = some parent)
    (link : block.header.parentHash = headerHash parent.header) :
    LinkedAt (storage.put .blocks (heightKey block.header.height) (Codec.block.encode block))
      block.header.height := by
  have apart : block.header.height - 1 ≠ block.header.height := by bv_omega
  refine ⟨block, parent, ?_, ?_, rfl, link⟩
  · rw [blockAt_put fits, if_pos rfl]
  · rw [blockAt_put fits, if_neg apart, below]

theorem linked_extend (linked : ∀ height, 0 < height → height ≤ current → LinkedAt storage height)
    (added : add current 1 = .ok next) (top : LinkedAt storage next) :
    ∀ height, 0 < height → height ≤ next → LinkedAt storage height := by
  intro height positive le
  have value := add_eq_ok.mp added
  by_cases last : height = next
  · exact last ▸ top
  · exact linked height positive (by bv_omega)

end

structure InProgress [Blake3] (tasks : Tasks) (production : Production) : Prop where
  next : add tasks.engine.currentHeight 1 = .ok production.height
  numbered : production.parent.header.height = tasks.engine.currentHeight
  parent : ∃ block, blockAt tasks.storage tasks.engine.currentHeight = some block ∧
    headerHash production.parent.header = headerHash block.header
  settled : Settled production.before production.listing production.height →
    SameContents production.before tasks.state

structure Lawful [Blake3] (tasks : Tasks) : Prop where
  genesis : ∃ block, blockAt tasks.storage 0 = some block ∧ block.header.height = 0
  linked : tasks.ChainLinked
  production : ∀ production, tasks.production = some production → tasks.InProgress production

section

variable [Blake3] {tasks next : Tasks} {listing : List Address} {fault : Bool} {slotEnd : SlotEnd}
  {production : Production} {now : U64} {order : SenderOrder} {block : Block}

theorem Lawful.tip (lawful : tasks.Lawful) : ∃ block,
    blockAt tasks.storage tasks.engine.currentHeight = some block ∧
      block.header.height = tasks.engine.currentHeight := by
  by_cases zero : tasks.engine.currentHeight = 0
  · rw [zero]
    exact lawful.genesis
  · obtain ⟨block, _, found, _, own, _⟩ :=
      lawful.linked tasks.engine.currentHeight (by bv_omega) (BitVec.le_refl _)
    exact ⟨block, found, own⟩

/-- A slot that is over goes on to the next height, which is linked already. -/
theorem Lawful.pass (lawful : tasks.Lawful)
    (added : add tasks.engine.currentHeight 1 = .ok next.engine.currentHeight)
    (top : LinkedAt tasks.storage next.engine.currentHeight) (kept : next.storage = tasks.storage)
    (done : next.production = none) : next.Lawful := by
  refine ⟨?_, ?_, by simp [done]⟩
  · rw [kept]
    exact lawful.genesis
  · rw [ChainLinked, kept]
    exact linked_extend lawful.linked added top

/-- A slot that is over has put its block on top of the chain. -/
theorem Lawful.extend {below : Block} (lawful : tasks.Lawful)
    (added : add tasks.engine.currentHeight 1 = .ok block.header.height)
    (found : blockAt tasks.storage tasks.engine.currentHeight = some below)
    (link : block.header.parentHash = headerHash below.header) (fits : Codec.block.fits block = true)
    (stored : next.storage =
      tasks.storage.put .blocks (heightKey block.header.height) (Codec.block.encode block))
    (current : next.engine.currentHeight = block.header.height) (done : next.production = none) :
    next.Lawful := by
  have above := add_eq_ok.mp added
  refine ⟨?_, ?_, by simp [done]⟩
  · obtain ⟨genesis, first, zero⟩ := lawful.genesis
    refine ⟨genesis, ?_, zero⟩
    rw [stored, blockAt_put fits, if_neg (by bv_omega), first]
  · have top : LinkedAt next.storage block.header.height := by
      rw [stored]
      refine linkedAt_put_self fits ?_ link
      rw [show block.header.height - 1 = tasks.engine.currentHeight by bv_omega, found]
    rw [ChainLinked, current]
    refine linked_extend (fun height positive le => ?_) added top
    rw [stored]
    refine (lawful.linked height positive le).put fits (by bv_omega) fun under => ?_
    exfalso
    bv_omega

/-- A slot waits, or is under way, or has not found its parent. -/
theorem start_cases (ran : tasks.startSlot listing fault = .ok (slotEnd, next)) :
    ∃ height engine, add tasks.engine.currentHeight 1 = .ok height ∧
      engine.currentHeight = tasks.engine.currentHeight ∧
      let state := (enterEra tasks.engine tasks.state listing height).2
      (slotEnd = .none ∧ next = { tasks with engine, state }) ∨
      producesFor tasks.node ⟨0, [], listing⟩ = .ok (some height) ∧
        ((∃ schedule parent, readParent tasks.storage height fault = some parent ∧
          slotEnd = .none ∧ next = { tasks with
            engine, state, production := some ⟨height, schedule, parent, tasks.state, listing⟩ }) ∨
        (readParent tasks.storage height fault = none ∧ slotEnd = .unstored ∧
          next = { tasks with engine := { engine with currentHeight := height }, state })) := by
  obtain ⟨height, added, ran⟩ := bind_eq_ok.mp ran
  dsimp only at ran
  obtain ⟨ours, decided, ran⟩ := bind_eq_ok.mp ran
  refine ⟨height, { (enterEra tasks.engine tasks.state listing height).1 with
    schedule := some (scheduleFor (enterEra tasks.engine tasks.state listing height).1 height) },
    added, enterEra_currentHeight tasks.engine tasks.state listing height, ?_⟩
  cases ours with
  | false =>
    cases ran
    exact .inl ⟨rfl, rfl⟩
  | true =>
    right
    have own : producesFor tasks.node ⟨0, [], listing⟩ = .ok (some height) := by
      simp only [producesFor, node, added, ok_bind]
      rw [decided]
      rfl
    refine ⟨own, ?_⟩
    rw [if_pos rfl] at ran
    split at ran
    next parent read =>
      cases ran
      exact .inl ⟨_, parent, read, rfl, rfl⟩
    next read =>
      cases ran
      exact .inr ⟨read, rfl, rfl⟩

theorem Lawful.start (lawful : tasks.Lawful) (idle : tasks.production = none)
    (sustains : fault = true → ∀ height, producesFor tasks.node ⟨0, [], listing⟩ = .ok (some height) →
      LinkedAt tasks.storage height ∧ Settled tasks.state listing height)
    (ran : tasks.startSlot listing fault = .ok (slotEnd, next)) :
    next.Lawful ∧ next.mempool = tasks.mempool ∧
      (slotEnd = .unstored → SameContents tasks.found next.state) := by
  obtain ⟨height, engine, added, kept, cases⟩ := start_cases ran
  have below : saturatingSub height 1 = tasks.engine.currentHeight :=
    saturatingSub_of_toNat (add_eq_ok.mp added)
  obtain ⟨tip, found, numbered⟩ := lawful.tip
  rcases cases with ⟨rfl, rfl⟩ | ⟨own, ⟨schedule, parent, read, rfl, rfl⟩ | ⟨unread, rfl, rfl⟩⟩
  · refine ⟨⟨lawful.genesis, ?_, ?_⟩, rfl, nofun⟩
    · simpa only [ChainLinked, kept] using lawful.linked
    · simp [idle]
  · have same : parent = tip := by
      cases fault with
      | true => cases read
      | false =>
        rw [readParent, readBlock_false, below, found] at read
        exact (Option.some.inj read).symm
    subst same
    refine ⟨⟨lawful.genesis, ?_, ?_⟩, rfl, nofun⟩
    · simpa only [ChainLinked, kept] using lawful.linked
    · rintro _ ⟨⟩
      refine ⟨by rw [kept, added], by rw [kept, numbered], ⟨parent, by rw [kept, found], rfl⟩, ?_⟩
      exact fun settled => enterEra_settled tasks.engine settled
  · have failed : fault = true := by
      cases fault with
      | true => rfl
      | false => rw [readParent, readBlock_false, below, found] at unread; cases unread
    obtain ⟨linked, settled⟩ := sustains failed height own
    refine ⟨lawful.pass added linked rfl idle, rfl, fun _ => ?_⟩
    rw [Tasks.found, idle]
    exact enterEra_settled tasks.engine settled

/-- A block on top of the chain, or one that fits, keeps the chain linked. -/
theorem Lawful.store (lawful : tasks.Lawful)
    (sustains : block.header.height ≤ tasks.engine.currentHeight → tasks.Fits block)
    (fits : Codec.block.fits block = true) : Lawful { tasks with
      storage := tasks.storage.put .blocks (heightKey block.header.height) (Codec.block.encode block) } := by
  refine ⟨?_, fun height positive le => ?_, fun production going => ?_⟩
  · obtain ⟨genesis, first, zero⟩ := lawful.genesis
    by_cases same : 0 = block.header.height
    · exact ⟨block, by rw [blockAt_put fits, if_pos same], same.symm⟩
    · exact ⟨genesis, by rw [blockAt_put fits, if_neg same, first], zero⟩
  · by_cases same : height = block.header.height
    · subst same
      obtain ⟨parent, below, link⟩ := (sustains le).1 positive
      exact linkedAt_put_self fits below link
    · refine (lawful.linked height positive le).put fits same fun under => ?_
      have less : block.header.height < tasks.engine.currentHeight := by bv_omega
      exact (sustains (BitVec.le_of_lt less)).2 (.inl less)
  · obtain ⟨next, numbered, ⟨below, there, hash⟩, settled⟩ := lawful.production production going
    refine ⟨next, numbered, ?_, settled⟩
    by_cases same : tasks.engine.currentHeight = block.header.height
    · have le : block.header.height ≤ tasks.engine.currentHeight := same ▸ BitVec.le_refl _
      obtain ⟨old, found, replaced⟩ := (sustains le).2 (.inr (by rw [going]; rfl))
      rw [← same, there] at found
      cases found
      exact ⟨block, by rw [blockAt_put fits, if_pos same], hash.trans replaced.symm⟩
    · exact ⟨below, by rw [blockAt_put fits, if_neg same, there], hash⟩

end

end Tasks

namespace Split

section

variable [Blake3]

/-- The state machine is what the slot found, and the slot takes nothing out of the mempool. -/
def Untouched (split next : Split) : Prop :=
  SameContents split.tasks.found next.tasks.state ∧ next.tasks.mempool = split.tasks.mempool ∧
    ∀ txs, split.taken = some txs → txs = []

/-- The chain stays linked in every state, and a slot without its block leaves nothing behind. -/
def Kept (split : Split) : List SplitMove → Prop
  | [] => split.tasks.ChainLinked
  | move :: rest => split.tasks.ChainLinked ∧ ∀ slotEnd next, split.step move = .ok (slotEnd, next) →
      (slotEnd = .unstored → split.Untouched next) ∧ next.Kept rest

/-- The condition on a move. A slot may fail only if nothing depends on it: its height is filled
already, and it has nothing to do. A block may come from elsewhere above the heights of all slots
that have stored theirs. -/
def Sustains (split : Split) : SplitMove → Prop
  | .start listing fault => fault = true → split.tasks.production = none → split.publishing = none →
      ∀ height, producesFor split.tasks.node ⟨0, [], listing⟩ = .ok (some height) →
        Tasks.LinkedAt split.tasks.storage height ∧ Settled split.tasks.state listing height
  | .apply _ fault => fault = true → ∀ production txs, split.tasks.production = some production →
      split.taken = some txs → Tasks.LinkedAt split.tasks.storage production.height ∧
        Settled production.before production.listing production.height ∧ txs = []
  | .store block => block.header.height ≤ split.settled.engine.currentHeight → split.settled.Fits block
  | .select _ | .publish | .submit _ _ => True

def Sustained (split : Split) : List SplitMove → Prop
  | [] => True
  | move :: rest => split.Sustains move ∧
      ∀ slotEnd next, split.step move = .ok (slotEnd, next) → next.Sustained rest

/-- The tasks are lawful once the block that is stored is published. -/
structure Lawful (split : Split) : Prop where
  tasks : split.settled.Lawful
  taken : split.tasks.production = none → split.taken = none
  publishing : ∀ height, split.publishing = some height →
    split.tasks.engine.currentHeight ≤ height ∧ split.tasks.production = none

variable {split next : Split} {slotEnd : SlotEnd} {production : Production} {txs : List Transaction}
  {now : U64} {fault : Bool}

theorem Lawful.chainLinked (lawful : split.Lawful) : split.tasks.ChainLinked := by
  intro height positive le
  refine lawful.tasks.linked height positive (BitVec.le_trans le ?_)
  cases stored : split.publishing with
  | none =>
    rw [settled_of_none stored]
    exact BitVec.le_refl _
  | some above =>
    rw [settled_height stored]
    exact (lawful.publishing above stored).1

theorem Lawful.unpublished (lawful : split.Lawful) (going : split.tasks.production = some production) :
    split.publishing = none := by
  cases stored : split.publishing with
  | none => rfl
  | some height =>
    have idle := (lawful.publishing height stored).2
    cases idle.symm.trans going

theorem Lawful.of_tasks (lawful : next.tasks.Lawful) (done : next.publishing = none)
    (taken : next.tasks.production = none → next.taken = none) : next.Lawful := by
  refine ⟨?_, taken, fun _ stored => by cases done.symm.trans stored⟩
  rw [settled_of_none done]
  exact lawful

theorem Lawful.apply (lawful : split.Lawful) (going : split.tasks.production = some production)
    (taken : split.taken = some txs) (sustains : split.Sustains (.apply now fault))
    (ran : split.applySlot production txs now fault = .ok (slotEnd, next)) :
    next.Lawful ∧ (slotEnd = .unstored → split.Untouched next) := by
  obtain ⟨proposer, block, u, receipt, built, applied, fits, pool, empty, done, current, ended⟩ :=
    apply_cases ran
  have before := lawful.tasks
  rw [settled_of_none (lawful.unpublished going)] at before
  have progress := before.production production going
  rcases ended with ⟨failed, published, kept⟩ | ⟨rfl, published, engine, stored⟩
  · obtain ⟨linked, settled, rfl⟩ := sustains failed production txs going taken
    obtain ⟨body, read⟩ := SameContents.buildBlock built
    have after := SameContents.applyBlock body applied
    refine ⟨⟨?_, fun _ => empty, by simp [published]⟩, fun _ => ⟨?_, pool, ?_⟩⟩
    · exact before.pass (current ▸ progress.next) (current ▸ linked) kept done
    · rw [Tasks.found, going]
      exact (progress.settled settled).trans (read.trans after)
    · rintro txs took
      exact Option.some.inj (took.symm.trans taken)
  · obtain ⟨below, found, hash⟩ := progress.parent
    obtain ⟨numbered, link⟩ := buildBlock_links built
    rw [progress.numbered, progress.next] at numbered
    have own := Except.ok.inj numbered
    refine ⟨⟨?_, fun _ => empty, fun height same => ?_⟩, fun unstored => by cases unstored⟩
    · rw [own] at stored current
      exact before.extend (own ▸ progress.next) found (link.trans hash) fits stored current done
    · cases published.symm.trans same
      have above := add_eq_ok.mp progress.next
      refine ⟨?_, done⟩
      rw [engine]
      bv_omega

theorem Lawful.store {block : Block} (lawful : split.Lawful) (sustains : split.Sustains (.store block))
    (ran : split.elsewhere (.store block) = .ok (slotEnd, next)) :
    next.Lawful ∧ (slotEnd = .unstored → split.Untouched next) := by
  obtain ⟨⟨_, after⟩, stepped, ran⟩ := bind_eq_ok.mp ran
  cases ran
  cases Tasks.step_cases stepped with
  | store fits =>
    exact ⟨⟨lawful.tasks.store sustains fits, lawful.taken, lawful.publishing⟩, nofun⟩

theorem Lawful.pool {mempool : Mempool} {taken : Option (List Transaction)} (lawful : split.Lawful)
    (idle : split.tasks.production = none → taken = none) :
    Lawful { split with tasks := { split.tasks with mempool }, taken } := by
  obtain ⟨⟨genesis, linked, progress⟩, -, publishing⟩ := lawful
  exact ⟨⟨genesis, linked, fun production going =>
    ⟨(progress production going).next, (progress production going).numbered,
      (progress production going).parent, (progress production going).settled⟩⟩, idle, publishing⟩

theorem Lawful.step (lawful : split.Lawful) {move : SplitMove} (sustains : split.Sustains move)
    (ran : split.step move = .ok (slotEnd, next)) :
    next.Lawful ∧ (slotEnd = .unstored → split.Untouched next) := by
  cases move with
  | start listing fault =>
    rw [Split.step] at ran
    split at ran
    next done =>
      obtain ⟨⟨_, after⟩, stepped, ran⟩ := bind_eq_ok.mp ran
      cases ran
      have before := lawful.tasks
      rw [settled_of_none done] at before
      cases Tasks.step_cases stepped with
      | busy => exact ⟨lawful, fun unstored => by cases unstored⟩
      | start idle ran =>
        obtain ⟨after, pool, same⟩ := before.start idle (fun failed => sustains failed idle done) ran
        have untaken := lawful.taken idle
        exact ⟨.of_tasks after done fun _ => untaken, fun unstored => ⟨same unstored, pool, by simp [untaken]⟩⟩
    next =>
      cases ran
      exact ⟨lawful, fun unstored => by cases unstored⟩
  | select order =>
    rw [Split.step] at ran
    split at ran
    next production going _ =>
      obtain ⟨⟨txs, mempool⟩, selected, ran⟩ := bind_eq_ok.mp ran
      cases ran
      refine ⟨lawful.pool fun idle => ?_, fun unstored => by cases unstored⟩
      cases idle.symm.trans going
    next =>
      cases ran
      exact ⟨lawful, fun unstored => by cases unstored⟩
  | apply now fault =>
    rw [Split.step] at ran
    split at ran
    next production txs going taken => exact lawful.apply going taken sustains ran
    next =>
      cases ran
      exact ⟨lawful, fun unstored => by cases unstored⟩
  | publish =>
    cases ran
    exact ⟨.of_tasks lawful.tasks rfl lawful.taken, fun unstored => by cases unstored⟩
  | store block => exact lawful.store sustains ran
  | submit tx now =>
    obtain ⟨⟨_, after⟩, stepped, ran⟩ := bind_eq_ok.mp ran
    cases ran
    cases Tasks.step_cases stepped with
    | submit => exact ⟨lawful.pool lawful.taken, fun unstored => by cases unstored⟩

/-- If every move of a run meets the condition, the chain is linked in all of its states and no
slot without its block leaves anything behind. -/
theorem kept_of_sustained {moves : List SplitMove} (lawful : split.Lawful)
    (sustained : split.Sustained moves) : split.Kept moves := by
  induction moves generalizing split with
  | nil => exact lawful.chainLinked
  | cons move rest ih =>
    obtain ⟨sustains, later⟩ := sustained
    refine ⟨lawful.chainLinked, fun slotEnd next ran => ?_⟩
    obtain ⟨after, clean⟩ := lawful.step sustains ran
    exact ⟨clean, ih after (later slotEnd next ran)⟩

theorem Kept.linked {moves : List SplitMove} (kept : split.Kept moves) : split.tasks.ChainLinked := by
  cases moves with
  | nil => exact kept
  | cons move rest => exact kept.1

theorem Kept.after {move : SplitMove} {rest : List SplitMove} (kept : split.Kept (move :: rest))
    (ran : split.step move = .ok (slotEnd, next)) : next.Kept rest :=
  (kept.2 slotEnd next ran).2

/-- A node that starts on its genesis is lawful. -/
theorem launch_lawful [SerdeJson] {file : Except String String} {storage : Storage}
    {localValidator : Option Address} {node : Node}
    (loaded : loadGenesis file Storage.empty = (.ok (), storage))
    (started : startNode localValidator storage = .ok (.ok node)) : node.launch.split.Lawful := by
  obtain ⟨chainId, found⟩ := blockAt_genesis loaded
  obtain ⟨t, -, rfl⟩ := (startNode_eq_ok (tip_genesis loaded)).mp started
  refine .of_tasks ⟨⟨genesisBlock chainId, ?_, rfl⟩, ?_, nofun⟩ rfl fun _ => rfl
  · rw [Tasks.split, Node.launch, found, if_pos rfl]
  · intro height positive le
    change height ≤ 0 at le
    exfalso
    bv_omega

end

end Split

namespace Tasks

section Sample

open StateMachine

attribute [local instance] peakBlake3 soloSerdeJson

def syncedBlock : Block where
  header := { (genesisBlock 0).header with
    height := 1, parentHash := headerHash (genesisBlock 0).header, timestamp := 1700000001 }
  body := ⟨[]⟩

theorem synced_fits : Codec.block.fits syncedBlock = true := by decide

theorem synced_linked : LinkedAt (soloNode.launch.storage.put .blocks
    (heightKey syncedBlock.header.height) (Codec.block.encode syncedBlock)) 1 := by
  have parent : syncedBlock.header.height - 1 = 0 := by decide
  have below : blockAt soloNode.launch.storage (syncedBlock.header.height - 1) =
      some (genesisBlock 0) := by
    rw [parent, Node.launch, soloNode, solo_blocks]
  have link : syncedBlock.header.parentHash = headerHash (genesisBlock 0).header := by
    rw [syncedBlock]
  exact linkedAt_put_self synced_fits below link

def votePool : Mempool := (valueD (nodeMempool.insert freshVote 1) (.ok (), nodeMempool)).2

theorem vote_inserted : nodeMempool.insert freshVote 1 = .ok (.ok (), votePool) := by
  have accepted : (nodeMempool.insert freshVote 1).map Prod.fst = .ok (.ok ()) := by decide
  obtain ⟨⟨result, pool⟩, inserted⟩ : Returns (nodeMempool.insert freshVote 1) := by decide
  rw [inserted] at accepted
  rw [votePool, inserted, ← Except.ok.inj accepted]
  rfl

theorem vote_selected : ∃ mempool, votePool.select .plain 500 = .ok ([freshVote], mempool) := by
  have selected : (votePool.select .plain 500).map Prod.fst = .ok [freshVote] := by decide +kernel
  obtain ⟨⟨txs, mempool⟩, ran⟩ : Returns (votePool.select .plain 500) := by decide
  rw [ran] at selected
  cases Except.ok.inj selected
  exact ⟨mempool, ran⟩

def voteProduction : Production :=
  ⟨1, scheduleFor soloNode.engine 1, genesisBlock 0, new solo, []⟩

theorem vote_started {tasks : Tasks} (idle : tasks.production = none)
    (engine : tasks.engine = soloNode.engine) (machine : tasks.state = new solo)
    (storage : tasks.storage = soloStorage) :
    ∃ next, tasks.step (.start [] false) = .ok (.none, next) ∧ next.production = some voteProduction ∧
      next.mempool = tasks.mempool ∧ next.state = new solo ∧ next.storage = soloStorage := by
  have added : add tasks.engine.currentHeight 1 = .ok 1 := by
    rw [engine]
    rfl
  have settled : enterEra tasks.engine tasks.state [] 1 = (soloNode.engine, new solo) := by
    rw [enterEra, if_neg (by decide), engine, machine]
  have ours : isOurSlot { soloNode.engine with schedule := some (scheduleFor soloNode.engine 1) }
      (scheduleFor soloNode.engine 1) 1 = .ok true := rfl
  have parent : saturatingSub (1 : U64) 1 = 0 := by decide
  have stored : blockAt tasks.storage (saturatingSub 1 1) = some (genesisBlock 0) := by
    rw [storage, parent, solo_blocks]
  refine ⟨_, (step_start idle false).trans (startSlot_reads added settled ours stored), ?_, rfl, rfl,
    storage⟩
  rw [voteProduction, machine]

end Sample

end Tasks

namespace Split

section Sample

open StateMachine Tasks

attribute [local instance] peakBlake3 soloSerdeJson

/-- A slot that fails after the block of its height came from elsewhere. -/
theorem syncedSlot_kept : soloNode.launch.split.Kept [.store syncedBlock, .start [] true] ∧
    Returns (soloNode.launch.split.run [.store syncedBlock, .start [] true]) := by
  refine ⟨?_, by decide⟩
  refine kept_of_sustained (launch_lawful solo_loaded solo_started) ⟨fun le => ?_, ?_⟩
  · exact absurd le (by decide)
  intro slotEnd next ran
  obtain ⟨⟨_, after⟩, stored, ran⟩ := bind_eq_ok.mp ran
  cases ran
  rw [Tasks.split, Tasks.step, Codec.write_of_fits synced_fits] at stored
  obtain ⟨-, rfl⟩ := Prod.mk.inj (Except.ok.inj stored)
  refine ⟨fun _ _ _ height own => ?_, fun _ _ _ => trivial⟩
  obtain ⟨_, added, own⟩ := bind_eq_ok.mp own
  obtain ⟨ours, -, own⟩ := bind_eq_ok.mp own
  have first : height = 1 := by
    cases ours with
    | false => cases own
    | true =>
      cases own
      exact (Except.ok.inj added).symm
  subst first
  refine ⟨?_, fun boundary => absurd boundary (by decide)⟩
  dsimp only [Tasks.split]
  exact synced_linked

/-- The slot takes the vote, and the database fails to store its block. -/
theorem vote_unstored {tasks : Tasks} (going : tasks.production = some voteProduction)
    (pool : tasks.mempool = votePool) (machine : tasks.state = new solo) :
    ∃ middle next, tasks.split.step (.select .plain) = .ok (.none, middle) ∧
      middle.step (.apply 1700000001 true) = .ok (.unstored, next) ∧
      next.tasks.engine.currentHeight = 1 ∧ next.tasks.storage = tasks.storage := by
  obtain ⟨mempool, selected⟩ := vote_selected
  obtain ⟨block, u, receipt, t, built, applied, -⟩ := solo_built freshVote (genesisBlock 0) (repeated 0)
    1700000001 (FixedBytes.replicate 809 0xCD) (returns_ok _) rfl (by decide) (by decide)
  have fits : Codec.block.fits block = true := by
    change Codec.blockBody.fits ⟨block.body.transactions⟩ = true
    rw [(SameContents.buildBlock built).1]
    decide
  have named : voteProduction.schedule.proposerForHeight voteProduction.height = .ok (repeated 0) := by
    decide
  rw [← machine] at built
  let middle : Split := ⟨{ tasks with mempool }, some [freshVote], none⟩
  rw [← pool] at selected
  have taken : tasks.split.step (.select .plain) = .ok (.none, middle) := step_select going rfl selected
  have here : middle.tasks.production = some voteProduction := going
  have applied := (step_apply here rfl).trans (applySlot_eq true named built applied fits)
  exact ⟨middle, _, taken, applied, rfl, rfl⟩

/-- The database fails to store block 1. The vote is gone, and the engine goes on to height 2. -/
theorem unstoredVote_not_kept :
    loadGenesis (.ok soloGenesis) Storage.empty = (.ok (), soloStorage) ∧
    startNode none soloStorage = .ok (.ok soloNode) ∧
    ¬soloNode.launch.split.Kept
      [.submit freshVote 1, .start [] false, .select .plain, .apply 1700000001 true] := by
  refine ⟨solo_loaded, solo_started, fun kept => ?_⟩
  have submitted : soloNode.launch.step (.submit freshVote 1) = .ok (.none, _) :=
    step_submit vote_inserted
  have genesis : ({ soloNode.launch with mempool := votePool } : Tasks).storage = soloStorage := by
    rw [Node.launch, soloNode]
  obtain ⟨begun, started, going, pool, machine, storage⟩ := vote_started rfl rfl rfl genesis
  obtain ⟨middle, next, taken, applied, current, same⟩ := vote_unstored going pool machine
  have first : soloNode.launch.split.step (.submit freshVote 1) = .ok (.none, Tasks.split _) :=
    elsewhere_split submitted
  have second : Split.step (Tasks.split _) (.start [] false) = .ok (.none, begun.split) :=
    elsewhere_split started
  have linked := ((((kept.after first).after second).after taken).after applied).linked
  obtain ⟨_, _, found, -⟩ := linked 1 (by decide) (by rw [current]; decide)
  obtain ⟨_, alone⟩ := blockAt_genesis solo_loaded
  rw [same, storage, alone] at found
  cases found

end Sample

end Split

end Mononium
