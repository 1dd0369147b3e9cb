import Mononium.Consensus.Contest
import Mononium.Node.Turns

/-! What an election does to a node with a key. The slot loop takes up no block of another proposer,
so a node goes on only as long as it proposes every block itself. An election of somebody else, alone
or beside the node's own validator, is therefore the last one that the node ever holds. -/
namespace Mononium

open Rust Scale StateMachine

/-- An era's schedule with somebody besides `v`. -/
structure ProposerSchedule.Shared (schedule : ProposerSchedule) (v : Address) : Prop where
  nodup : schedule.activeSet.Nodup
  seated : schedule.activeSet ≠ []
  others : schedule.activeSet ≠ [v]
  boundary : isEraBoundary schedule.startHeight = true

namespace ProposerSchedule

variable {schedule : ProposerSchedule} {v : Address} {height : U64} {ours : Bool}

theorem proposes_of_alone (alone : schedule.activeSet = [v]) (height : U64) :
    schedule.isScheduledProposer v height = .ok true := by
  rw [isScheduledProposer_eq_true, proposerForHeight]
  simp [alone, Nat.mod_one]

theorem first_of_proposes (decided : schedule.isScheduledProposer v schedule.startHeight = .ok true) :
    schedule.activeSet.head? = some v := by
  rw [isScheduledProposer_eq_true, proposerForHeight] at decided
  have slot : (saturatingSub schedule.startHeight schedule.startHeight).toNat = 0 := by
    simp [saturatingSub]
  simp only [slot, Nat.zero_mod] at decided
  rw [List.head?_eq_getElem?]
  split at decided
  next proposer found =>
    cases decided
    exact found
  next => cases decided

theorem Shared.second (shared : schedule.Shared v) (first : schedule.activeSet.head? = some v)
    (above : height.toNat = schedule.startHeight.toNat + 1)
    (decided : schedule.isScheduledProposer v height = .ok ours) : ours = false := by
  cases ours with
  | false => rfl
  | true =>
    rw [isScheduledProposer_eq_true, proposerForHeight] at decided
    have slot : (saturatingSub height schedule.startHeight).toNat = 1 := by
      rw [saturatingSub_toNat]
      omega
    rcases seats : schedule.activeSet with _ | ⟨a, _ | ⟨b, rest⟩⟩
    · exact absurd seats shared.seated
    · rw [seats] at first
      cases first
      exact absurd seats shared.others
    · rw [seats] at first
      cases first
      have small : 1 % (v :: b :: rest).length = 1 := Nat.mod_eq_of_lt (by simp)
      simp only [slot, seats, small] at decided
      cases decided
      have distinct := shared.nodup
      rw [seats] at distinct
      simp at distinct

end ProposerSchedule

namespace Tasks

section

variable [Blake3]

/-- A slot of the node's own: production begins, or the slot is over without a block. -/
def Proposes (tasks next : Tasks) : Prop :=
  next.production.isSome ∨ next.engine.currentHeight.toNat = tasks.engine.currentHeight.toNat + 1

structure Steady (A : Finset Address) (v : Address) (tasks : Tasks) : Prop extends Tended A tasks where
  key : tasks.engine.localValidator = some v
  ahead : ∀ production, tasks.production = some production →
    production.height.toNat = tasks.engine.currentHeight.toNat + 1

def Alone (v : Address) (tasks : Tasks) : Prop :=
  ∀ schedule, tasks.engine.schedule = some schedule → schedule.activeSet = [v]

/-- Before, in and after the first slot of a shared schedule. -/
inductive Phase (v : Address) (schedule : ProposerSchedule) (tasks : Tasks) : Prop
  | waits (below : schedule.startHeight.toNat = tasks.engine.currentHeight.toNat + 1)
    (idle : tasks.production = none)
    (contested : tasks.state.Contested v (eraAtHeight schedule.startHeight))
  | produces {production : Production} (going : tasks.production = some production)
    (height : production.height = schedule.startHeight)
    (below : schedule.startHeight.toNat = tasks.engine.currentHeight.toNat + 1)
    (first : schedule.activeSet.head? = some v)
  | ended (reached : tasks.engine.currentHeight = schedule.startHeight) (idle : tasks.production = none)
    (first : schedule.activeSet.head? = some v)

/-- The node stands still at the boundary. -/
def StandsStill (v : Address) (boundary : U64) (tasks : Tasks) : Prop :=
  ∃ schedule, tasks.engine.schedule = some schedule ∧ schedule.startHeight = boundary ∧
    schedule.Shared v ∧ tasks.Phase v schedule

structure Turn (tasks next : Tasks) (listing : List Address) (height : U64) (ours : Bool) : Prop where
  above : height.toNat = tasks.engine.currentHeight.toNat + 1
  state : next.state = (enterEra tasks.engine tasks.state listing height).2
  mempool : next.mempool = tasks.mempool
  schedule : next.engine.schedule =
    some (scheduleFor (enterEra tasks.engine tasks.state listing height).1 height)
  key : next.engine.localValidator = tasks.engine.localValidator
  decided : ∀ v, tasks.engine.localValidator = some v →
    (scheduleFor (enterEra tasks.engine tasks.state listing height).1 height).isScheduledProposer v height =
      .ok ours
  stranger : tasks.engine.localValidator = none → ours = true
  waits : ours = false → next.production = tasks.production ∧
    next.engine.currentHeight = tasks.engine.currentHeight
  begins : ours = true → (∃ production, next.production = some production ∧
      production.height = height ∧ next.engine.currentHeight = tasks.engine.currentHeight) ∨
    next.production = tasks.production ∧ next.engine.currentHeight = height

variable {A : Finset Address} {v : Address} {boundary height : U64} {tasks next : Tasks}
  {listing : List Address} {fault : Bool} {slotEnd : SlotEnd} {production : Production} {now : U64}
  {order : SenderOrder} {ours : Bool}

theorem enterEra_localValidator (engine : ConsensusEngine) (state : StateMachine)
    (listing : List Address) (height : U64) :
    (enterEra engine state listing height).1.localValidator = engine.localValidator := by
  unfold enterEra
  split
  next =>
    dsimp only
    split
    next => rfl
    next => rfl
  next => rfl

/-- A slot starts if somebody is scheduled for it. -/
theorem startSlot_returns (added : add tasks.engine.currentHeight 1 = .ok height)
    (seated : (scheduleFor (enterEra tasks.engine tasks.state listing height).1 height).activeSet ≠ [])
    (fault : Bool) : ∃ slotEnd next, tasks.startSlot listing fault = .ok (slotEnd, next) := by
  have decides (engine : ConsensusEngine) : Returns (isOurSlot engine
      (scheduleFor (enterEra tasks.engine tasks.state listing height).1 height) height) := by
    unfold isOurSlot
    split
    next => exact ⟨true, rfl⟩
    next address _ =>
      obtain ⟨proposer, found⟩ := ProposerSchedule.proposerForHeight_returns.mpr seated
      exact ⟨_, by rw [ProposerSchedule.isScheduledProposer, found]; rfl⟩
  rw [startSlot, added, ok_bind]
  dsimp only
  obtain ⟨ours, decided⟩ := decides
    ⟨some (scheduleFor (enterEra tasks.engine tasks.state listing height).1 height),
      (enterEra tasks.engine tasks.state listing height).1.localValidator,
      (enterEra tasks.engine tasks.state listing height).1.currentHeight⟩
  rw [decided, ok_bind]
  split
  next =>
    split
    next => exact ⟨_, _, rfl⟩
    next => exact ⟨_, _, rfl⟩
  next => exact ⟨_, _, rfl⟩

theorem start_turn (ran : tasks.startSlot listing fault = .ok (slotEnd, next)) :
    ∃ height ours, tasks.Turn next listing height ours := by
  obtain ⟨height, added, ran⟩ := bind_eq_ok.mp ran
  dsimp only at ran
  obtain ⟨ours, decided, ran⟩ := bind_eq_ok.mp ran
  have kept := enterEra_currentHeight tasks.engine tasks.state listing height
  have key := enterEra_localValidator tasks.engine tasks.state listing height
  have asked : ∀ v, tasks.engine.localValidator = some v →
      (scheduleFor (enterEra tasks.engine tasks.state listing height).1 height).isScheduledProposer v
        height = .ok ours := by
    intro v own
    rw [isOurSlot] at decided
    simpa only [key, own] using decided
  have stranger : tasks.engine.localValidator = none → ours = true := by
    intro unknown
    rw [isOurSlot] at decided
    simp only [key, unknown] at decided
    exact (Except.ok.inj decided).symm
  refine ⟨height, ours, ?_⟩
  cases ours with
  | false =>
    cases ran
    exact ⟨add_eq_ok.mp added, rfl, rfl, rfl, key, asked, stranger, fun _ => ⟨rfl, kept⟩, by simp⟩
  | true =>
    rw [if_pos rfl] at ran
    split at ran
    next =>
      cases ran
      exact ⟨add_eq_ok.mp added, rfl, rfl, rfl, key, asked, stranger, by simp, fun _ => .inl ⟨_, rfl, rfl, kept⟩⟩
    next =>
      cases ran
      exact ⟨add_eq_ok.mp added, rfl, rfl, rfl, key, asked, stranger, by simp, fun _ => .inr ⟨rfl, rfl⟩⟩

theorem finish_engine (ran : tasks.finishSlot production now order fault = .ok (slotEnd, next)) :
    next.engine = { tasks.engine with currentHeight := production.height } := by
  obtain ⟨_, -, ran⟩ := bind_eq_ok.mp ran
  obtain ⟨_, -, ran⟩ := bind_eq_ok.mp ran
  obtain ⟨_, -, ran⟩ := bind_eq_ok.mp ran
  obtain ⟨_, -, ran⟩ := bind_eq_ok.mp ran
  obtain ⟨_, -, ran⟩ := bind_eq_ok.mp ran
  dsimp only at ran
  split at ran
  next =>
    cases ran
    rfl
  next =>
    cases ran
    rfl

/-- A boundary that can seat somebody else does so, and can do so again. -/
theorem enterEra_shared {s : StateMachine} (engine : ConsensusEngine) (sound : Sound A s)
    (lists : Lists listing s) (first : isEraBoundary height = true)
    (contested : s.Contested v (eraAtHeight height)) :
    (scheduleFor (enterEra engine s listing height).1 height).startHeight = height ∧
      (scheduleFor (enterEra engine s listing height).1 height).Shared v ∧
      (enterEra engine s listing height).2.Contested v (eraAtHeight height) := by
  have later := eraAtHeight_ne_zero first
  obtain ⟨seated, others⟩ :=
    (processBoundary_shared_iff sound lists later (by decide : 2 ≤ maxValidators)).mpr contested
  have nodup := (slate_nodup sound lists later).sublist (List.take_sublist maxValidators _)
  rw [← processBoundary_elected] at nodup
  have installed : scheduleFor (enterEra engine s listing height).1 height =
      ⟨(s.processBoundary listing maxValidators (eraAtHeight height)).1, eraAtHeight height, height⟩ := by
    rw [enterEra_of_boundary engine s listing first]
    change scheduleFor (if (s.processBoundary listing maxValidators (eraAtHeight height)).1 = [] then engine
      else { engine with schedule := some _ }) height = _
    rw [if_neg seated]
    rfl
  rw [installed]
  refine ⟨rfl, ⟨nodup, seated, others, first⟩, ?_⟩
  rw [enterEra_processBoundary engine s listing first]
  exact contested.processBoundary sound lists maxValidators

/-- Otherwise a node that was alone stays alone. -/
theorem enterEra_alone {s : StateMachine} {engine : ConsensusEngine} (sound : Sound A s)
    (lists : Lists listing s) (key : engine.localValidator = some v)
    (alone : ∀ schedule, engine.schedule = some schedule → schedule.activeSet = [v])
    (free : isEraBoundary height = true → ¬s.Contested v (eraAtHeight height)) :
    (scheduleFor (enterEra engine s listing height).1 height).activeSet = [v] := by
  have unchanged : (scheduleFor engine height).activeSet = [v] := by
    unfold scheduleFor
    split
    next schedule scheduled => exact alone schedule scheduled
    next => rw [key, Option.getD_some]
  by_cases first : isEraBoundary height = true
  · have elected := mt (processBoundary_shared_iff sound lists (eraAtHeight_ne_zero first)
      (by decide : 2 ≤ maxValidators)).mp (free first)
    rw [not_and_or, not_not, not_not] at elected
    rw [enterEra_of_boundary engine s listing first]
    change (scheduleFor (if (s.processBoundary listing maxValidators (eraAtHeight height)).1 = []
      then engine else { engine with schedule := some ⟨(s.processBoundary listing maxValidators
        (eraAtHeight height)).1, eraAtHeight height, height⟩ }) height).activeSet = [v]
    split
    next => exact unchanged
    next seated => exact elected.resolve_left seated
  · rw [enterEra, if_neg first]
    exact unchanged

namespace Turn

theorem steady (turn : tasks.Turn next listing height ours) (steady : tasks.Steady A v)
    (lists : Lists listing tasks.state) (idle : tasks.production = none) : next.Steady A v where
  toTended := (steady.enter lists height turn.state turn.mempool).1
  key := turn.key.trans steady.key
  ahead := by
    intro production going
    cases ours with
    | false => simp [(turn.waits rfl).1, idle] at going
    | true =>
      rcases turn.begins rfl with ⟨other, begun, own, same⟩ | ⟨same, -⟩
      · cases begun.symm.trans going
        rw [own, same, turn.above]
      · simp [same, idle] at going

/-- At a contested boundary the node stands still. -/
theorem contested (turn : tasks.Turn next listing height ours) (steady : tasks.Steady A v)
    (lists : Lists listing tasks.state) (idle : tasks.production = none)
    (first : isEraBoundary height = true) (contested : tasks.state.Contested v (eraAtHeight height)) :
    next.StandsStill v height := by
  obtain ⟨start, shared, still⟩ := enterEra_shared tasks.engine steady.sound lists first contested
  refine ⟨_, turn.schedule, start, shared, ?_⟩
  have decided := turn.decided v steady.key
  cases ours with
  | false =>
    obtain ⟨same, kept⟩ := turn.waits rfl
    refine .waits ?_ (same.trans idle) ?_
    · rw [start, kept, turn.above]
    · rw [start, turn.state]
      exact still
  | true =>
    have own := ProposerSchedule.first_of_proposes (by rw [start]; exact decided)
    rcases turn.begins rfl with ⟨production, begun, number, kept⟩ | ⟨same, reached⟩
    · exact .produces begun (number.trans start.symm) (by rw [start, kept, turn.above]) own
    · exact .ended (reached.trans start.symm) (same.trans idle) own

/-- A node that was alone proposes, or from now on stands still. -/
theorem alone (turn : tasks.Turn next listing height ours) (steady : tasks.Steady A v)
    (lists : Lists listing tasks.state) (idle : tasks.production = none) (alone : tasks.Alone v) :
    next.Alone v ∧ tasks.Proposes next ∨ next.StandsStill v height := by
  by_cases stops : isEraBoundary height = true ∧ tasks.state.Contested v (eraAtHeight height)
  · exact .inr (turn.contested steady lists idle stops.1 stops.2)
  · left
    have seats := enterEra_alone steady.sound lists steady.key alone fun first contested =>
      stops ⟨first, contested⟩
    have decided := turn.decided v steady.key
    rw [ProposerSchedule.proposes_of_alone seats height] at decided
    cases decided
    refine ⟨fun schedule scheduled => ?_, ?_⟩
    · cases turn.schedule.symm.trans scheduled
      exact seats
    · rcases turn.begins rfl with ⟨production, begun, -, -⟩ | ⟨-, reached⟩
      · exact .inl (by rw [begun]; rfl)
      · exact .inr (by rw [reached, turn.above])

/-- A node that stands still goes on standing still. -/
theorem standsStill (turn : tasks.Turn next listing height ours) (steady : tasks.Steady A v)
    (lists : Lists listing tasks.state) (idle : tasks.production = none)
    (still : tasks.StandsStill v boundary) : next.StandsStill v boundary := by
  obtain ⟨schedule, scheduled, rfl, shared, phase⟩ := still
  cases phase with
  | waits below _ contested =>
    obtain rfl : height = schedule.startHeight :=
      BitVec.eq_of_toNat_eq (turn.above.trans below.symm)
    exact turn.contested steady lists idle shared.boundary contested
  | produces going => simp [idle] at going
  | ended reached _ own =>
    have above : height.toNat = schedule.startHeight.toNat + 1 := by rw [turn.above, reached]
    have inside : ¬isEraBoundary height = true := by
      intro first
      have multiple := (isEraBoundary_iff.mp first).2
      have before := (isEraBoundary_iff.mp shared.boundary).2
      omega
    have same : scheduleFor (enterEra tasks.engine tasks.state listing height).1 height = schedule := by
      rw [enterEra, if_neg inside, scheduleFor, scheduled]
    have decided := turn.decided v steady.key
    rw [same] at decided
    have passed := shared.second own above decided
    obtain ⟨idle', kept⟩ := turn.waits passed
    exact ⟨schedule, by rw [turn.schedule, same], rfl, shared,
      .ended (kept.trans reached) (idle'.trans idle) own⟩

end Turn

theorem Steady.finish (steady : tasks.Steady A v)
    (ran : tasks.finishSlot production now order fault = .ok (slotEnd, next)) : next.Steady A v := by
  refine ⟨(steady.toTended.finish ran).1, ?_, by simp [(finish_ends ran).1]⟩
  rw [finish_engine ran]
  exact steady.key

theorem Steady.aside (steady : tasks.Steady A v) (tended : next.Tended A)
    (engine : next.engine = tasks.engine) (production : next.production = tasks.production) :
    next.Steady A v where
  toTended := tended
  key := engine ▸ steady.key
  ahead := by
    rw [engine, production]
    exact steady.ahead

theorem StandsStill.aside (still : tasks.StandsStill v boundary) (engine : next.engine = tasks.engine)
    (production : next.production = tasks.production) (state : next.state = tasks.state) :
    next.StandsStill v boundary := by
  obtain ⟨schedule, scheduled, start, shared, phase⟩ := still
  refine ⟨schedule, engine ▸ scheduled, start, shared, ?_⟩
  cases phase with
  | waits below idle contested => exact .waits (engine ▸ below) (production ▸ idle) (state ▸ contested)
  | produces going number below own => exact .produces (production ▸ going) number (engine ▸ below) own
  | ended reached idle own => exact .ended (engine ▸ reached) (production ▸ idle) own

theorem Steady.step {move : TaskMove} (steady : tasks.Steady A v) (allowed : tasks.Allows A move)
    (ran : tasks.step move = .ok (slotEnd, next)) : next.Steady A v ∧
      (tasks.Alone v → next.Alone v ∨ ∃ boundary, next.StandsStill v boundary) ∧
      ∀ boundary, tasks.StandsStill v boundary → next.StandsStill v boundary := by
  have kept := (steady.toTended.step allowed ran).1
  cases step_cases ran with
  | busy | idle => exact ⟨steady, .inl, fun _ still => still⟩
  | start idle ran =>
    obtain ⟨height, ours, turn⟩ := start_turn ran
    refine ⟨turn.steady steady allowed idle, fun alone => ?_, fun boundary still =>
      turn.standsStill steady allowed idle still⟩
    rcases turn.alone steady allowed idle alone with ⟨stays, -⟩ | still
    · exact .inl stays
    · exact .inr ⟨height, still⟩
  | finish going ran =>
    have engine := finish_engine ran
    refine ⟨steady.finish ran, fun alone => .inl ?_, fun boundary still => ?_⟩
    · rw [Alone, engine]
      exact alone
    · obtain ⟨schedule, scheduled, start, shared, phase⟩ := still
      refine ⟨schedule, by rw [engine]; exact scheduled, start, shared, ?_⟩
      cases phase with
      | waits _ idle => simp [idle] at going
      | produces begun number _ own =>
        cases begun.symm.trans going
        exact .ended (by rw [engine]; exact number) (finish_ends ran).1 own
      | ended _ idle => simp [idle] at going
  | store | submit =>
    exact ⟨steady.aside kept rfl rfl, .inl, fun _ still => still.aside rfl rfl rfl⟩

theorem Reaches.steady {start : Tasks} (reaches : Reaches A start tasks) (steady : start.Steady A v) :
    tasks.Steady A v ∧
      (start.Alone v → tasks.Alone v ∨ ∃ boundary, tasks.StandsStill v boundary) ∧
      ∀ boundary, start.StandsStill v boundary → tasks.StandsStill v boundary := by
  induction reaches with
  | refl => exact ⟨steady, .inl, fun _ still => still⟩
  | move _ allowed ran ih =>
    obtain ⟨before, alone, stands⟩ := ih
    obtain ⟨after, leaves, stays⟩ := before.step allowed ran
    refine ⟨after, fun first => ?_, fun boundary still => stays boundary (stands boundary still)⟩
    rcases alone first with still | ⟨boundary, still⟩
    · exact leaves still
    · exact .inr ⟨boundary, stays boundary still⟩

theorem Phase.height_le {schedule : ProposerSchedule} (phase : tasks.Phase v schedule) :
    tasks.engine.currentHeight.toNat ≤ schedule.startHeight.toNat := by
  cases phase with
  | waits below | produces _ _ below => omega
  | ended reached => rw [reached]

theorem launch_steady {node : Node} (key : node.engine.localValidator = some v)
    (sound : Sound A node.state) : node.launch.Steady A v where
  toTended := launch_tended sound
  key := key
  ahead := by simp [Node.launch]

/-- Once an election has seated anybody besides the node's validator, the node never gets beyond the
height of that election, whatever it syncs, whatever is submitted and however the database fails. As
long as that has not happened, every slot is its own. -/
theorem stands_still {node : Node} {height : U64} (engine : node.engine = ⟨none, some v, height⟩)
    (sound : Sound A node.state) (reached : Reaches A node.launch tasks) :
    (∀ schedule, tasks.engine.schedule = some schedule → schedule.activeSet ≠ [v] →
      isEraBoundary schedule.startHeight = true ∧
      ∀ later, Reaches A tasks later → later.engine.currentHeight ≤ schedule.startHeight ∧
        ∃ other, later.engine.schedule = some other ∧ other.startHeight = schedule.startHeight ∧
          other.activeSet ≠ [v]) ∧
    (tasks.Alone v → tasks.production = none → ∀ listing fault slotEnd next,
      Lists listing tasks.state → tasks.step (.start listing fault) = .ok (slotEnd, next) →
      next.Alone v → tasks.Proposes next) := by
  have first := launch_steady (A := A) (by rw [engine]) sound
  have fresh : node.launch.Alone v := by
    intro schedule scheduled
    rw [Node.launch, engine] at scheduled
    cases scheduled
  obtain ⟨steady, fate, -⟩ := reached.steady first
  refine ⟨fun schedule scheduled others => ?_, fun alone idle listing fault slotEnd next lists ran stays => ?_⟩
  · obtain ⟨boundary, still⟩ := (fate fresh).resolve_left fun alone => others (alone schedule scheduled)
    have here := still
    obtain ⟨same, seen, rfl, shared, -⟩ := here
    cases seen.symm.trans scheduled
    refine ⟨shared.boundary, fun later reaches => ?_⟩
    obtain ⟨other, now, start, apart, phase⟩ := (reaches.steady steady).2.2 _ still
    refine ⟨?_, other, now, start, apart.others⟩
    rw [BitVec.le_def, ← start]
    exact phase.height_le
  · rw [Tasks.step, idle] at ran
    obtain ⟨height, ours, turn⟩ := start_turn ran
    rcases turn.alone steady lists idle alone with ⟨-, proposes⟩ | ⟨schedule, scheduled, -, shared, -⟩
    · exact proposes
    · exact absurd (stays schedule scheduled) shared.others

end

section Sample

attribute [local instance] prefixBlake3

/-- Alice and Bob are elected together, and the node of Bob waits for a block of Alice's for ever. -/
theorem bob_stands_still : ∃ (node : Node) (tasks : Tasks),
    node.engine = ⟨none, some bob, 719⟩ ∧ Reaches {alice, bob} node.launch tasks ∧
    (∃ schedule, tasks.engine.schedule = some schedule ∧ schedule.startHeight = 720 ∧
      schedule.activeSet ≠ [bob]) ∧
    ∀ later, Reaches {alice, bob} tasks later → later.engine.currentHeight ≤ 720 := by
  obtain ⟨s, reachable, atAlice, atBob⟩ := founded_reachable
  have lists := founded_lists reachable atAlice atBob
  have sound := reachable.sound
  let node : Node := ⟨⟨none, some bob, 719⟩, s, .empty⟩
  have added : add node.launch.engine.currentHeight 1 = .ok 720 := rfl
  have contested : s.Contested bob (eraAtHeight 720) :=
    ⟨alice, by decide, (lists.mem alice).mp (by decide), _, atAlice, by decide, by decide⟩
  obtain ⟨-, shared, -⟩ := enterEra_shared node.launch.engine sound lists rfl contested
  obtain ⟨slotEnd, tasks, ran⟩ := startSlot_returns added shared.seated false
  obtain ⟨height, ours, turn⟩ := start_turn ran
  obtain rfl : height = 720 := BitVec.eq_of_toNat_eq turn.above
  obtain ⟨schedule, scheduled, start, apart, -⟩ :=
    turn.contested (launch_steady rfl sound) lists rfl rfl contested
  have listing : node.launch.Allows {alice, bob} (.start [alice, bob] false) := lists
  have reached : Reaches {alice, bob} node.launch tasks := .move .refl listing ran
  refine ⟨node, tasks, rfl, reached, ⟨schedule, scheduled, start, apart.others⟩, fun later reaches => ?_⟩
  have stands := ((stands_still rfl sound reached).1 schedule scheduled apart.others).2 later reaches
  exact start ▸ stands.1

end Sample

end Tasks

end Mononium
