import Mononium.Node.Recovery

/-! Several nodes on copies of one storage. Nothing but the election sets a common schedule, and
a node that starts knows no validators; so every node begins with a schedule of its own. -/
namespace Mononium

open Rust Scale

section

variable [Blake3]

def producesFor (node : Node) (input : Slot) : Exec (Option U64) := do
  let height ← add node.engine.currentHeight 1
  let (engine, _) := enterEra node.engine node.state input.listing height
  let schedule := scheduleFor engine height
  let ours ← isOurSlot { engine with schedule := some schedule } schedule height
  return if ours then some height else none

/-- A slot produces or waits as `producesFor` says. -/
theorem slot_eq_producesFor (node : Node) (input : Slot) :
    slot node input = do
      match ← producesFor node input with
      | some height =>
        let (engine, state) := enterEra node.engine node.state input.listing height
        let (state, storage) ← produceBlock state node.storage height (scheduleFor engine height) input
        return ⟨⟨some (scheduleFor engine height), engine.localValidator, height⟩, state, storage⟩
      | none =>
        let height := node.engine.currentHeight + 1
        let (engine, state) := enterEra node.engine node.state input.listing height
        return ⟨{ engine with schedule := some (scheduleFor engine height) }, state, node.storage⟩ := by
  unfold slot producesFor
  cases added : add node.engine.currentHeight 1 with
  | error reason => rfl
  | ok height =>
    have value : height = node.engine.currentHeight + 1 := by
      have := add_eq_ok.mp added
      bv_omega
    simp only [ok_bind]
    rw [← value]
    cases isOurSlot _ _ height with
    | error reason => rfl
    | ok ours => cases ours <;> rfl

/-- A node that has panicked is gone. -/
abbrev Cluster (ι : Type) := ι → Option Node

namespace Cluster

variable {ι : Type} [DecidableEq ι]

def tick (c : Cluster ι) (i : ι) (input : Slot) : Cluster ι :=
  match c i with
  | none => c
  | some node => Function.update c i (slot node input).toOption

def produced (c : Cluster ι) (i : ι) (input : Slot) : Option U64 :=
  (c i).bind fun node => valueD (producesFor node input) none

def log (c : Cluster ι) : List (ι × Slot) → List (ι × U64)
  | [] => []
  | (i, input) :: ticks => ((c.produced i input).map (i, ·)).toList ++ (c.tick i input).log ticks

def Listed (c : Cluster ι) : List (ι × Slot) → Prop
  | [] => True
  | (i, input) :: ticks =>
    (∀ node, c i = some node → Lists input.listing node.state) ∧ (c.tick i input).Listed ticks

/-- No two nodes produce for one height. -/
def SingleProducer (c : Cluster ι) (ticks : List (ι × Slot)) : Prop :=
  ∀ i j height, (i, height) ∈ c.log ticks → (j, height) ∈ c.log ticks → i = j

variable {c : Cluster ι} {ticks : List (ι × Slot)} {i : ι} {input : Slot} {height : U64}

theorem tick_of_ne {j : ι} (different : j ≠ i) : c.tick i input j = c j := by
  cases here : c i with
  | none => simp [tick, here]
  | some node => simp [tick, here, different]

theorem mem_log_cons {j : ι} : (j, height) ∈ c.log ((i, input) :: ticks) ↔
    (j = i ∧ c.produced i input = some height) ∨ (j, height) ∈ (c.tick i input).log ticks := by
  rw [log, List.mem_append]
  refine or_congr_left ?_
  cases c.produced i input with
  | none => simp
  | some first => simp [eq_comm]

/-- Only who ticks produces. -/
theorem ticks_of_mem_log (member : (i, height) ∈ c.log ticks) : ∃ input, (i, input) ∈ ticks := by
  induction ticks generalizing c with
  | nil => cases member
  | cons first ticks ih =>
    rcases mem_log_cons.mp member with ⟨rfl, -⟩ | later
    · exact ⟨first.2, List.mem_cons_self⟩
    · obtain ⟨input, there⟩ := ih later
      exact ⟨input, List.mem_cons_of_mem _ there⟩

end Cluster

structure Fresh (node : Node) (height : U64) (validator : Address) : Prop where
  engine : node.engine = ⟨none, some validator, height⟩
  validators : node.state.validators = ∅

theorem verifyStateConsistency_validators {s t : StateMachine} {storage : Storage} {height : U64}
    {result : Except String Unit} (checked : verifyStateConsistency s storage height = .ok (result, t)) :
    t.validators = s.validators := by
  unfold verifyStateConsistency at checked
  split at checked
  next =>
    cases checked
    rfl
  next =>
    split at checked
    next =>
      split at checked
      next =>
        obtain ⟨⟨root, after⟩, read, checked⟩ := bind_eq_ok.mp checked
        dsimp only at checked
        split at checked
        next =>
          cases checked
          exact (SameContents.stateRoot read).validators.symm
        next =>
          cases checked
          exact (SameContents.stateRoot read).validators.symm
      next =>
        cases checked
        rfl
    next =>
      cases checked
      rfl

theorem startNode_fresh {validator : Address} {storage : Storage} {node : Node} {height : U64}
    (tip : loadLatestHeight storage = .ok height)
    (started : startNode (some validator) storage = .ok (.ok node)) : Fresh node height validator := by
  rw [startNode, tip, ok_bind] at started
  obtain ⟨⟨consistent, state⟩, checked, started⟩ := bind_eq_ok.mp started
  cases consistent with
  | error e => cases started
  | ok _ =>
    cases started
    exact ⟨rfl, verifyStateConsistency_validators checked⟩

namespace Fresh

variable {node : Node} {height next : U64} {validator : Address} {input : Slot}

/-- The first slot is always the node's own: without validators nobody is elected, and the
fallback schedule names the local validator alone. -/
theorem produces (fresh : Fresh node height validator) (lists : Lists input.listing node.state)
    (added : add height 1 = .ok next) : producesFor node input = .ok (some next) := by
  have none := lists.eq_nil fresh.validators
  have kept : (enterEra node.engine node.state input.listing next).1 = node.engine := by
    by_cases boundary : isEraBoundary next = true
    · rw [enterEra_of_boundary _ _ _ boundary, none]
      simp [StateMachine.runElection, StateMachine.elected, StateMachine.eligible]
    · rw [enterEra, if_neg boundary]
  unfold producesFor
  rw [fresh.engine] at kept ⊢
  rw [added, ok_bind]
  dsimp only
  rw [kept]
  simp [scheduleFor, isOurSlot, ProposerSchedule.isScheduledProposer,
    ProposerSchedule.proposerForHeight, Nat.mod_one]

theorem stops (fresh : Fresh node height validator) (last : height.toNat + 1 = 2 ^ 64) :
    producesFor node input = .error .overflow ∧ slot node input = .error .overflow := by
  have overflow : add node.engine.currentHeight 1 = .error .overflow := by
    rw [fresh.engine, add, if_neg]
    change ¬height.toNat + 1 < 2 ^ 64
    omega
  exact ⟨by rw [producesFor, overflow]; rfl, by rw [slot, overflow]; rfl⟩

end Fresh

namespace Cluster

variable {ι : Type} [DecidableEq ι] {c : Cluster ι} {ticks : List (ι × Slot)} {height next : U64}

/-- Whoever ticks at all produces the first height. -/
theorem first_mem_log {i : ι} {input : Slot} {node : Node} {validator : Address} (here : c i = some node)
    (fresh : Fresh node height validator) (added : add height 1 = .ok next) (listed : c.Listed ticks)
    (member : (i, input) ∈ ticks) : (i, next) ∈ c.log ticks := by
  induction ticks generalizing c with
  | nil => cases member
  | cons first ticks ih =>
    obtain ⟨j, other⟩ := first
    obtain ⟨lists, rest⟩ := listed
    rw [mem_log_cons]
    by_cases same : i = j
    · subst same
      left
      simp [produced, here, fresh.produces (lists node here) added, valueD]
    · right
      have later : (i, input) ∈ ticks := by
        rcases List.mem_cons.mp member with first | later
        · exact absurd (Prod.mk.inj first).1 same
        · exact later
      exact ih ((tick_of_ne same).trans here) rest later

theorem log_eq_nil {validator : ι → Address} (last : height.toNat + 1 = 2 ^ 64)
    (stopped : ∀ i node, c i = some node → Fresh node height (validator i)) : c.log ticks = [] := by
  induction ticks generalizing c with
  | nil => rfl
  | cons first ticks ih =>
    obtain ⟨i, input⟩ := first
    have nothing : c.produced i input = none := by
      cases here : c i with
      | none => simp [produced, here]
      | some node => simp [produced, here, ((stopped i node here).stops last).1, valueD]
    have rest : ∀ j node, c.tick i input j = some node → Fresh node height (validator j) := by
      intro j node found
      by_cases same : j = i
      · subst same
        cases here : c j with
        | none => simp [tick, here] at found
        | some before => simp [tick, here, ((stopped j before here).stops last).2, Except.toOption] at found
      · exact stopped j node ((tick_of_ne same).symm.trans found)
    rw [log, nothing, ih rest]
    rfl

/-- Nodes that start on the same storage never produce for the same height exactly if only
one of them ever ticks, or there is no height left. -/
theorem single_producer_iff {storage : Storage} {validator : ι → Address} {nodes : ι → Node}
    (tip : loadLatestHeight storage = .ok height)
    (started : ∀ i, startNode (some (validator i)) storage = .ok (.ok (nodes i)))
    (listed : Listed (fun i => some (nodes i)) ticks) :
    SingleProducer (fun i => some (nodes i)) ticks ↔
      (∀ x ∈ ticks, ∀ y ∈ ticks, x.1 = y.1) ∨ height.toNat + 1 = 2 ^ 64 := by
  have fresh (i : ι) : Fresh (nodes i) height (validator i) := startNode_fresh tip (started i)
  constructor
  · intro single
    by_cases last : height.toNat + 1 = 2 ^ 64
    · exact .inr last
    · left
      obtain ⟨next, added⟩ : Returns (add height 1) := by
        rw [add_returns]
        have := height.isLt
        change height.toNat + 1 < 2 ^ 64
        omega
      intro x hx y hy
      exact single x.1 y.1 next (first_mem_log rfl (fresh x.1) added listed hx)
        (first_mem_log rfl (fresh y.1) added listed hy)
  · rintro (alone | last) i j height left right
    · obtain ⟨one, first⟩ := ticks_of_mem_log left
      obtain ⟨other, second⟩ := ticks_of_mem_log right
      exact alone (i, one) first (j, other) second
    · rw [log_eq_nil last fun i node here => Option.some.inj here ▸ fresh i] at left
      cases left

end Cluster

end

namespace Cluster

section Sample

attribute [local instance] peakBlake3 soloSerdeJson

def pairValidator (first : Bool) : Address := if first then alice else bob

def pairNode (first : Bool) : Node :=
  ⟨⟨none, some (pairValidator first), 0⟩, StateMachine.new StateMachine.solo, soloStorage⟩

def pairSlot : Slot := ⟨1700000001, [], []⟩

theorem pair_started (first : Bool) :
    startNode (some (pairValidator first)) soloStorage = .ok (.ok (pairNode first)) := by
  refine (startNode_eq_ok (tip_genesis solo_loaded)).mpr ⟨StateMachine.new StateMachine.solo, ?_, rfl⟩
  rw [loadStateFromStorage, solo_loadAccounts]
  rfl

theorem pair_lists (first : Bool) : Lists pairSlot.listing (pairNode first).state :=
  ⟨List.nodup_nil, fun a => by simp [pairSlot, pairNode, StateMachine.new]⟩

theorem alice_alone : SingleProducer (fun i => some (pairNode i)) [(true, pairSlot)] := by
  have listed : Listed (fun i => some (pairNode i)) [(true, pairSlot)] :=
    ⟨fun node here => Option.some.inj here ▸ pair_lists true, trivial⟩
  refine (single_producer_iff (tip_genesis solo_loaded).loadLatestHeight pair_started listed).mpr
    (.inl ?_)
  simp

/-- Both nodes produce block 1. -/
theorem pair_both_produce :
    loadGenesis (.ok soloGenesis) Storage.empty = (.ok (), soloStorage) ∧
    Function.Injective pairValidator ∧
    (∀ i, startNode (some (pairValidator i)) soloStorage = .ok (.ok (pairNode i))) ∧
    Listed (fun i => some (pairNode i)) [(true, pairSlot), (false, pairSlot)] ∧
    ¬SingleProducer (fun i => some (pairNode i)) [(true, pairSlot), (false, pairSlot)] := by
  have listed : Listed (fun i => some (pairNode i)) [(true, pairSlot), (false, pairSlot)] := by
    refine ⟨fun node here => Option.some.inj here ▸ pair_lists true, fun node here => ?_, trivial⟩
    rw [tick_of_ne (by decide)] at here
    exact Option.some.inj here ▸ pair_lists false
  have fresh (i : Bool) : Fresh (pairNode i) 0 (pairValidator i) :=
    startNode_fresh (tip_genesis solo_loaded).loadLatestHeight (pair_started i)
  refine ⟨solo_loaded, by decide, pair_started, listed, fun single => ?_⟩
  have added : add (0 : U64) 1 = .ok 1 := rfl
  have same := single true false 1
    (first_mem_log rfl (fresh true) added listed List.mem_cons_self)
    (first_mem_log rfl (fresh false) added listed (List.mem_cons_of_mem _ List.mem_cons_self))
  exact absurd same (by decide)

end Sample

end Cluster

end Mononium
