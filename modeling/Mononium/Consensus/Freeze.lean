import Mononium.Consensus.Loop

/-! Frozen validators. A slash edits the entry of a validator and nothing else: the active
set, by which fees are shared, and the schedule, by which blocks are proposed, are copies made
at the last era boundary that elected somebody. -/
namespace Mononium

open Rust Scale

structure Replica where
  engine : ConsensusEngine
  state : StateMachine

/-- A tick is the part of a slot before production: the boundary, if there is one, and the
schedule for the height. -/
inductive Move where
  | block (block : Block)
  | slash (proposer reporter : Address) (currentEra : U64)
  | tick (listing : List Address) (height : U64)

def Move.Within (A : Finset Address) : Move → Prop
  | .block b => ∀ tx ∈ b.body.transactions, tx.Within A
  | .slash proposer reporter _ => proposer ∈ A ∧ reporter ∈ A ∧ burnAddress ∈ A
  | .tick listing _ => ∀ a ∈ listing, a ∈ A

instance (A : Finset Address) : DecidablePred (Move.Within A)
  | .block b => inferInstanceAs (Decidable (∀ tx ∈ b.body.transactions, tx.Within A))
  | .slash proposer reporter _ =>
    inferInstanceAs (Decidable (proposer ∈ A ∧ reporter ∈ A ∧ burnAddress ∈ A))
  | .tick listing _ => inferInstanceAs (Decidable (∀ a ∈ listing, a ∈ A))

section

variable [Blake3]

def StateMachine.Frozen (s : StateMachine) (v : Address) : Prop :=
  ∃ e until_, s.getValidator v = some e ∧ e.status = .frozen until_

namespace Replica

def step (r : Replica) : Move → Exec Replica
  | .block b => do
    let (_, state) ← r.state.applyBlock b
    return { r with state }
  | .slash proposer reporter currentEra => do
    let (_, state) ← r.state.applySlash proposer reporter currentEra
    return { r with state }
  | .tick listing height =>
    let (engine, state) := enterEra r.engine r.state listing height
    return ⟨{ engine with schedule := some (scheduleFor engine height) }, state⟩

def run (r : Replica) (moves : List Move) : Exec Replica := moves.foldlM step r

/-- The machine as the boundary leaves it for the election. -/
def thawedAt (r : Replica) (listing : List Address) (height : U64) : StateMachine :=
  (r.state.thawAll listing (eraAtHeight height)).1

/-- The move cannot favour a frozen validator: a block whose transactions pool a fee is applied only
while no member of the active set that has stake is frozen, and where a boundary elects nobody, no
member of the schedule that stays in force is frozen. -/
def Spares (r : Replica) : Move → Prop
  | .block b =>
    (∀ p, StateMachine.applyTxs b.header.chainId ⟨r.state, 0, 0, 0⟩ b.body.transactions = .ok p →
        p.blockFees = 0) ∨
      ∀ v ∈ r.state.activeSet, r.state.Frozen v → r.state.stake v = 0
  | .slash _ _ _ => True
  | .tick listing height => isEraBoundary height →
    (r.thawedAt listing height).elected listing maxValidators (eraAtHeight height) = [] →
    ∀ v ∈ (scheduleFor r.engine height).activeSet, ¬(r.thawedAt listing height).Frozen v

/-- `v` is frozen in every state that the moves come through. -/
def StaysFrozen (r : Replica) (moves : List Move) (v : Address) : Prop :=
  ∀ before after u, moves = before ++ after → r.run before = .ok u → u.state.Frozen v

def Excludes (r : Replica) (v : Address) : Prop :=
  ∃ schedule, r.engine.schedule = some schedule ∧ v ∉ schedule.activeSet

variable {A : Finset Address} {r t : Replica} {v : Address}

theorem step_sound {move : Move} (sound : r.state.Sound A) (within : move.Within A)
    (h : r.step move = .ok t) : t.state.Sound A := by
  cases move with
  | block b =>
    obtain ⟨⟨receipt, state⟩, applied, h⟩ := bind_eq_ok.mp h
    cases h
    obtain ⟨_, _, _, _, credited, _⟩ := StateMachine.applyBlock_spec sound within applied
    exact credited.sound
  | slash proposer reporter era =>
    obtain ⟨⟨result, state⟩, applied, h⟩ := bind_eq_ok.mp h
    cases h
    exact (StateMachine.applySlash_spec sound within.1 within.2.1 within.2.2 applied).1
  | tick listing height =>
    cases h
    exact (enterEra_accounts r.engine height sound within).1

theorem tick_returns (r : Replica) (listing : List Address) (height : U64) :
    Returns (r.step (.tick listing height)) := ⟨_, rfl⟩

theorem run_cons {move : Move} {moves : List Move} (stepped : r.step move = .ok t) :
    r.run (move :: moves) = t.run moves := by
  rw [run, List.foldlM_cons, stepped]
  rfl

theorem run_cons_eq_ok {move : Move} {moves : List Move} (ran : r.run (move :: moves) = .ok t) :
    ∃ u, r.step move = .ok u ∧ u.run moves = .ok t := by
  rw [run, List.foldlM_cons] at ran
  exact bind_eq_ok.mp ran

theorem run_append {before after : List Move} {m : Replica} (first : r.run before = .ok m) :
    r.run (before ++ after) = m.run after := by
  rw [run, List.foldlM_append, ← run, first]
  rfl

theorem run_append_eq_ok {before after : List Move} (ran : r.run (before ++ after) = .ok t) :
    ∃ u, r.run before = .ok u ∧ u.run after = .ok t := by
  rw [run, List.foldlM_append] at ran
  exact bind_eq_ok.mp ran

section Fees

open StateMachine

variable {s : StateMachine} {b : Block} {p : Progress}

theorem loop_frozen (sound : s.Sound A) (within : ∀ tx ∈ b.body.transactions, tx.Within A)
    (looped : applyTxs b.header.chainId ⟨s, 0, 0, 0⟩ b.body.transactions = .ok p) (hv : v ∈ A)
    (frozen : s.Frozen v) : p.machine.getValidator v = s.getValidator v := by
  obtain ⟨e, until_, found, status⟩ := frozen
  have rewrites : Rewrites v (.block b) (s.getValidator v) (p.machine.getValidator v) :=
    applyTxs_rewrites sound within looped hv
  rw [found] at rewrites ⊢
  refine rewrites.invariant (P := (· = some e)) ?_ rfl
  rintro x y rewrite rfl
  obtain ⟨era, asked, -⟩ := rewrite.of_frozen status
  cases asked

/-- A block that spares the frozen validators pays them nothing. -/
theorem block_pays_no_frozen {m : StateMachine} (sound : r.state.Sound A)
    (within : ∀ tx ∈ b.body.transactions, tx.Within A) (spares : r.Spares (.block b)) (hv : v ∈ A)
    (frozen : r.state.Frozen v)
    (looped : applyTxs b.header.chainId ⟨r.state, 0, 0, 0⟩ b.body.transactions = .ok p)
    (distributed : p.machine.distributeFees p.blockFees = .ok m) :
    m.account v = p.machine.account v := by
  obtain ⟨soundLoop, active⟩ := applyTxs_sound sound within looped
  have credited := distributeFees_spec soundLoop distributed
  have share : p.machine.feeShare p.blockFees v = 0 := by
    rcases spares with free | unstaked
    · exact feeShare_eq_zero (.inl (free p looped)) v
    · by_cases member : v ∈ r.state.activeSet
      · have same := loop_frozen sound within looped hv frozen
        have none : p.machine.stake v = 0 := by
          rw [StateMachine.stake, same]
          exact unstaked v member frozen
        exact feeShare_of_unstaked none _
      · exact feeShare_of_inactive (active ▸ member) _
  rw [credited.account v hv, if_pos share]

end Fees

section Schedule

variable {listing : List Address} {height : U64}

/-- A boundary excludes everybody who is frozen after it. -/
theorem boundary_excludes (sound : r.state.Sound A) (within : ∀ a ∈ listing, a ∈ A)
    (boundary : isEraBoundary height = true) (spares : r.Spares (.tick listing height)) (hv : v ∈ A)
    (h : r.step (.tick listing height) = .ok t) (frozen : t.state.Frozen v) : t.Excludes v := by
  have soundThawed : (r.thawedAt listing height).Sound A :=
    (StateMachine.thawAll_adjusted listing (eraAtHeight height) sound within).sound
  rw [step, enterEra_of_boundary r.engine r.state listing boundary, ← thawedAt] at h
  cases h
  obtain ⟨e, until_, found, status⟩ := frozen
  change ((r.thawedAt listing height).runElection listing maxValidators
    (eraAtHeight height)).2.getValidator v = some e at found
  rw [StateMachine.runElection_getValidator soundThawed within hv] at found
  split at found
  next member =>
    obtain ⟨elected, here, rfl⟩ := List.mem_map.mp member
    obtain ⟨-, stored, open_⟩ := StateMachine.elected_known soundThawed within here
    rw [stored, Option.map_some, Option.some.injEq] at found
    rw [← found, activated_status open_] at status
    cases status
  next absent =>
    split
    next nobody =>
      refine ⟨_, rfl, fun member => ?_⟩
      exact spares boundary (List.map_eq_nil_iff.mp nobody) v member ⟨e, until_, found, status⟩
    next => exact ⟨_, rfl, absent⟩

/-- Until then nothing brings a frozen validator back. -/
theorem step_excludes {move : Move} (sound : r.state.Sound A) (within : move.Within A)
    (spares : r.Spares move) (hv : v ∈ A) (excludes : r.Excludes v) (h : r.step move = .ok t)
    (frozen : t.state.Frozen v) : t.Excludes v := by
  cases move with
  | block b =>
    obtain ⟨_, -, h⟩ := bind_eq_ok.mp h
    cases h
    exact excludes
  | slash proposer reporter era =>
    obtain ⟨_, -, h⟩ := bind_eq_ok.mp h
    cases h
    exact excludes
  | tick listing height =>
    by_cases boundary : isEraBoundary height = true
    · exact boundary_excludes sound within boundary spares hv h frozen
    · obtain ⟨schedule, current, absent⟩ := excludes
      rw [step, enterEra, if_neg boundary] at h
      cases h
      exact ⟨schedule, by simp [scheduleFor, current], absent⟩

theorem run_excludes {moves : List Move} (sound : r.state.Sound A)
    (within : ∀ move ∈ moves, move.Within A) (spares : ∀ before move after u,
      moves = before ++ move :: after → r.run before = .ok u → u.Spares move) (hv : v ∈ A)
    (excludes : r.Excludes v) (frozen : r.StaysFrozen moves v) (ran : r.run moves = .ok t) :
    t.Excludes v := by
  induction moves generalizing r with
  | nil =>
    cases ran
    exact excludes
  | cons move moves ih =>
    obtain ⟨u, stepped, ran⟩ := run_cons_eq_ok ran
    have here := within move List.mem_cons_self
    have still : u.state.Frozen v := frozen [move] moves u rfl (by rw [run_cons stepped]; rfl)
    refine ih (step_sound sound here stepped)
      (fun move later => within move (List.mem_cons_of_mem _ later)) ?_
      (step_excludes sound here (spares [] move moves r rfl rfl) hv excludes stepped still) ?_ ran
    · rintro before other after w rfl reached
      exact spares (move :: before) other after w rfl (by rw [run_cons stepped, reached])
    · rintro before after w rfl reached
      exact frozen (move :: before) after w rfl (by rw [run_cons stepped, reached])

end Schedule

theorem run_sound {moves : List Move} (sound : r.state.Sound A)
    (within : ∀ move ∈ moves, move.Within A) (ran : r.run moves = .ok t) : t.state.Sound A :=
  foldlM_invariant (P := fun r : Replica => r.state.Sound A)
    (fun _ move member _ sound stepped => step_sound sound (within move member) stepped) sound ran

/-- In every run whose moves spare the frozen validators, no block shares fees with a
validator that is frozen, and after an era boundary no validator that stays frozen proposes
at any height. -/
theorem frozen_inert {accounts : List (Address × Account)} {moves : List Move}
    (apart : KeysApart A) (genesis : ∀ p ∈ accounts, p.1 ∈ A)
    (fresh : r.state = StateMachine.new accounts) (within : ∀ move ∈ moves, move.Within A)
    (spares : ∀ before move after u, moves = before ++ move :: after → r.run before = .ok u →
      u.Spares move) (ran : r.run moves = .ok t) :
    (∀ before b after u p m, moves = before ++ .block b :: after → r.run before = .ok u →
      StateMachine.applyTxs b.header.chainId ⟨u.state, 0, 0, 0⟩ b.body.transactions = .ok p →
      p.machine.distributeFees p.blockFees = .ok m →
      ∀ v ∈ A, u.state.Frozen v → m.account v = p.machine.account v) ∧
    ∀ before listing height after u, moves = before ++ .tick listing height :: after →
      isEraBoundary height = true → r.run (before ++ [.tick listing height]) = .ok u →
      ∀ v ∈ A, u.StaysFrozen after v →
        ∀ schedule, t.engine.schedule = some schedule → ∀ h, schedule.proposerForHeight h ≠ .ok v := by
  have sound : r.state.Sound A := fresh ▸ (StateMachine.new_sound apart genesis).1
  constructor
  · rintro before b after u p m rfl reached looped distributed v hv frozen
    have soundU := run_sound sound (fun move h => within move (List.mem_append_left _ h)) reached
    exact block_pays_no_frozen soundU (within (.block b) (by simp))
      (spares before (.block b) after u rfl reached) hv frozen looped distributed
  · rintro before listing height after u rfl boundary reached v hv frozen schedule current h found
    obtain ⟨w, early, last⟩ := run_append_eq_ok reached
    have soundW := run_sound sound (fun move h => within move (List.mem_append_left _ h)) early
    have inside : (Move.tick listing height).Within A := within _ (by simp)
    obtain ⟨_, now, same⟩ := run_cons_eq_ok last
    cases same
    have excludes := boundary_excludes soundW inside boundary
      (spares before _ after w rfl early) hv now (frozen [] after u rfl rfl)
    have rest : u.run after = .ok t := by
      rw [run_append early, run_cons now] at ran
      exact ran
    have sparesRest : ∀ first move later x, after = first ++ move :: later → u.run first = .ok x →
        x.Spares move := by
      rintro first move later x rfl through
      refine spares (before ++ .tick listing height :: first) move later x (by simp) ?_
      rw [run_append early, run_cons now, through]
    obtain ⟨newest, same, absent⟩ := run_excludes (step_sound soundW inside now)
      (fun move later => within move (by simp [later])) sparesRest hv excludes frozen rest
    cases current.symm.trans same
    exact absent (ProposerSchedule.proposerForHeight_mem found)

theorem spares_cons {move : Move} {moves : List Move} (here : r.Spares move)
    (stepped : r.step move = .ok t) (rest : ∀ before other after u,
      moves = before ++ other :: after → t.run before = .ok u → u.Spares other) :
    ∀ before other after u, move :: moves = before ++ other :: after → r.run before = .ok u →
      u.Spares other := by
  intro before other after u split reached
  cases before with
  | nil =>
    cases split
    cases reached
    exact here
  | cons first before =>
    cases split
    rw [run_cons stepped] at reached
    exact rest before other after u rfl reached

end Replica

end

namespace Replica

section Sample

attribute [local instance] prefixBlake3

set_option maxRecDepth 8192

open StateMachine

def freezeAddresses : Finset Address := {alice, bob, burnAddress}

def freshReplica : Replica := ⟨⟨none, some bob, 0⟩, new founders⟩

/-- The next replica of the sample. -/
def next (r : Replica) (move : Move) : Replica := valueD (r.step move) freshReplica

def foundedReplica : Replica := freshReplica.next (.block foundingBlock)
def electedReplica : Replica := foundedReplica.next (.tick [alice, bob] 720)
def slashedReplica : Replica := electedReplica.next (.slash alice bob 1)
def laterReplica : Replica := slashedReplica.next (.tick [alice, bob] 1440)

theorem next_eq {r : Replica} {move : Move} (returns : Returns (r.step move)) :
    r.step move = .ok (r.next move) := returns.eq_ok freshReplica

theorem sample_computed :
    Returns (freshReplica.step (.block foundingBlock)) ∧
    Returns (electedReplica.step (.slash alice bob 1)) ∧
    ((foundedReplica.thawedAt [alice, bob] 720).elected [alice, bob] maxValidators
      (eraAtHeight 720)).isEmpty = false ∧
    ((slashedReplica.thawedAt [alice, bob] 1440).elected [alice, bob] maxValidators
      (eraAtHeight 1440)).isEmpty = false ∧
    (slashedReplica.state.getValidator alice).map (·.status) = some (.frozen 73) ∧
    (laterReplica.state.getValidator alice).map (·.status) = some (.frozen 73) := by
  decide +kernel

theorem founded_next : freshReplica.step (.block foundingBlock) = .ok foundedReplica :=
  next_eq sample_computed.1

theorem elected_next : foundedReplica.step (.tick [alice, bob] 720) = .ok electedReplica :=
  next_eq (tick_returns _ _ _)

theorem slashed_next : electedReplica.step (.slash alice bob 1) = .ok slashedReplica :=
  next_eq sample_computed.2.1

theorem later_next : slashedReplica.step (.tick [alice, bob] 1440) = .ok laterReplica :=
  next_eq (tick_returns _ _ _)

theorem frozen_of_status {s : StateMachine} {v : Address} (until_ : U64)
    (status : (s.getValidator v).map (·.status) = some (.frozen until_)) : s.Frozen v := by
  obtain ⟨e, found, frozen⟩ := Option.map_eq_some_iff.mp status
  exact ⟨e, until_, found, frozen⟩

/-- While no block pools a fee, Alice gets nothing, and the next schedule is without her. -/
theorem slashed_inert :
    freshReplica.run [.block foundingBlock, .tick [alice, bob] 720, .slash alice bob 1,
        .tick [alice, bob] 1440] = .ok laterReplica ∧
      laterReplica.state.Frozen alice ∧
      ∀ schedule, laterReplica.engine.schedule = some schedule →
        ∀ h, schedule.proposerForHeight h ≠ .ok alice := by
  have idle : freshReplica.state.activeSet = [] := by decide
  obtain ⟨-, -, first, second, -, status⟩ := sample_computed
  have frozen : laterReplica.state.Frozen alice := frozen_of_status 73 status
  have sparesFounding : freshReplica.Spares (.block foundingBlock) := .inr (by simp [idle])
  have sparesElection : foundedReplica.Spares (.tick [alice, bob] 720) := by
    intro _ nobody
    rw [nobody] at first
    cases first
  have sparesSlash : electedReplica.Spares (.slash alice bob 1) := trivial
  have sparesLater : slashedReplica.Spares (.tick [alice, bob] 1440) := by
    intro _ nobody
    rw [nobody] at second
    cases second
  have none : ∀ before other after u, [] = before ++ other :: after → laterReplica.run before = .ok u →
      u.Spares other := by
    intro before other after u split
    simp at split
  have spares := spares_cons sparesFounding founded_next (spares_cons sparesElection elected_next
    (spares_cons sparesSlash slashed_next (spares_cons sparesLater later_next none)))
  have ran : freshReplica.run [.block foundingBlock, .tick [alice, bob] 720, .slash alice bob 1,
      .tick [alice, bob] 1440] = .ok laterReplica := by
    rw [run_cons founded_next, run_cons elected_next, run_cons slashed_next, run_cons later_next]
    rfl
  refine ⟨ran, frozen, ?_⟩
  have inert := (frozen_inert (A := freezeAddresses) (by decide) (by decide) rfl ?_ spares ran).2
  · refine inert [.block foundingBlock, .tick [alice, bob] 720, .slash alice bob 1] [alice, bob] 1440 []
      laterReplica rfl (by decide) ran alice (by decide) ?_
    intro before after u split reached
    obtain ⟨rfl, rfl⟩ := List.append_eq_nil_iff.mp split.symm
    have same : laterReplica = u := pure_eq_ok.mp reached
    exact same ▸ frozen
  · decide

def payingBlock : Block := testBlock [⟨0, 1, bob, 1000, .transfer burnAddress 10, dummySig⟩]

def paidLoop : Progress :=
  valueD (applyTxs 0 ⟨slashedReplica.state, 0, 0, 0⟩ payingBlock.body.transactions) ⟨new [], 0, 0, 0⟩

def paidMachine : StateMachine := valueD (paidLoop.machine.distributeFees paidLoop.blockFees) (new [])

theorem paid_computed :
    Returns (applyTxs 0 ⟨slashedReplica.state, 0, 0, 0⟩ payingBlock.body.transactions) ∧
    Returns (paidLoop.machine.distributeFees paidLoop.blockFees) ∧
    paidMachine.account alice ≠ paidLoop.machine.account alice := by
  decide +kernel

/-- Of the fee that Bob pays, a share goes to Alice, who is frozen. -/
theorem frozen_paid :
    freshReplica.run [.block foundingBlock, .tick [alice, bob] 720, .slash alice bob 1] =
        .ok slashedReplica ∧
      slashedReplica.state.Frozen alice ∧
      applyTxs 0 ⟨slashedReplica.state, 0, 0, 0⟩ payingBlock.body.transactions = .ok paidLoop ∧
      paidLoop.machine.distributeFees paidLoop.blockFees = .ok paidMachine ∧
      paidMachine.account alice ≠ paidLoop.machine.account alice := by
  obtain ⟨looped, shared, different⟩ := paid_computed
  have frozen : slashedReplica.state.Frozen alice := frozen_of_status 73 sample_computed.2.2.2.2.1
  refine ⟨?_, frozen, looped.eq_ok _, shared.eq_ok _, different⟩
  rw [run_cons founded_next, run_cons elected_next, run_cons slashed_next]
  rfl

end Sample

end Replica

end Mononium
