import Mononium.Node.Split
import Mononium.Node.Turns

/-! Slots that are interrupted. What is submitted while a slot has taken transactions might as well be
submitted after the slot, and a slot might as well count as soon as its block is stored. -/
namespace Mononium

open Rust Scale

theorem filterMap_cons_toList (f : α → Option β) (x : α) (xs : List α) :
    (x :: xs).filterMap f = (f x).toList ++ xs.filterMap f := by
  cases value : f x with
  | none => simp [value]
  | some y => simp [value]

namespace SplitMove

def submission : SplitMove → Option (Transaction × Nat)
  | submit tx now => some (tx, now)
  | _ => none

def stored : SplitMove → Option Block
  | store block => some block
  | _ => none

end SplitMove

namespace TaskMove

def submission : TaskMove → Option (Transaction × Nat)
  | submit tx now => some (tx, now)
  | _ => none

def stored : TaskMove → Option Block
  | store block => some block
  | _ => none

def submitted (late : List (Transaction × Nat)) : List TaskMove := late.map fun p => .submit p.1 p.2

@[simp] theorem submission_submitted (late : List (Transaction × Nat)) :
    (submitted late).filterMap submission = late := by
  simp [submitted, List.filterMap_map, Function.comp_def, submission]

@[simp] theorem stored_submitted (late : List (Transaction × Nat)) :
    (submitted late).filterMap stored = [] := by
  simp [submitted, List.filterMap_map, Function.comp_def, stored]

end TaskMove

namespace Tasks

variable [Blake3] {tasks next last : Tasks}

theorem run_append {moves more : List TaskMove} (ran : tasks.run moves = .ok next) :
    tasks.run (moves ++ more) = next.run more := by
  induction moves generalizing tasks with
  | nil =>
    cases ran
    rfl
  | cons move moves ih =>
    obtain ⟨⟨slotEnd, middle⟩, stepped, ran⟩ := bind_eq_ok.mp ran
    rw [List.cons_append, run, stepped]
    exact ih ran

theorem run_single {move : TaskMove} {slotEnd : SlotEnd} (stepped : tasks.step move = .ok (slotEnd, next)) :
    tasks.run [move] = .ok next := by
  rw [run, stepped]
  rfl

/-- Submissions see the pool only, and change nothing else. -/
theorem run_submitted {late : List (Transaction × Nat)} {other : Tasks} (pool : other.mempool = tasks.mempool)
    (ran : tasks.run (TaskMove.submitted late) = .ok next) :
    next = { tasks with mempool := next.mempool } ∧
      other.run (TaskMove.submitted late) = .ok { other with mempool := next.mempool } := by
  induction late generalizing tasks other with
  | nil =>
    cases ran
    exact ⟨rfl, by rw [← pool]; rfl⟩
  | cons p late ih =>
    obtain ⟨⟨_, middle⟩, stepped, ran⟩ := bind_eq_ok.mp ran
    obtain ⟨⟨result, mempool⟩, inserted, stepped⟩ := bind_eq_ok.mp stepped
    cases stepped
    have both : ({ other with mempool } : Tasks).mempool = ({ tasks with mempool } : Tasks).mempool := rfl
    obtain ⟨same, ran⟩ := ih both ran
    refine ⟨same, ?_⟩
    rw [TaskMove.submitted, List.map_cons, run, step_submit (pool ▸ inserted)]
    exact ran

end Tasks

namespace Split

section

variable [Blake3] {split next : Split} {tasks : Tasks} {slotEnd : SlotEnd} {txs : List Transaction}
  {production : Production} {now : U64} {fault : Bool} {late : List (Transaction × Nat)}

/-- The tasks without interruption. What was submitted while a slot had taken transactions is late:
it comes after the slot. A slot that has stored its block is over. -/
inductive Lags (split : Split) (tasks : Tasks) : List (Transaction × Nat) → Prop
  | level (untaken : split.taken = none) (ended : split.publishing.isSome → split.tasks.production = none)
      (same : split.settled = tasks) : Lags split tasks []
  | taken {late : List (Transaction × Nat)} {txs : List Transaction} {mempool : Mempool}
      {order : SenderOrder} (holds : split.taken = some txs) (unstored : split.publishing = none)
      (going : tasks.production.isSome)
      (selected : tasks.mempool.select order 500 = .ok (txs, mempool))
      (ran : ({ tasks with mempool } : Tasks).run (TaskMove.submitted late) = .ok split.tasks) :
      Lags split tasks late

/-- But for the pool and for what is to be published, the tasks are those without interruption. -/
theorem Lags.settled_eq (lags : split.Lags tasks late) :
    split.settled = { tasks with mempool := split.tasks.mempool } := by
  cases lags with
  | level _ _ same => rw [← same, ← settled_mempool]
  | taken _ unstored _ _ ran =>
    rw [settled_of_none unstored]
    exact (Tasks.run_submitted rfl ran).1

theorem Lags.production_eq (lags : split.Lags tasks late) : split.tasks.production = tasks.production := by
  rw [← settled_production, lags.settled_eq]

/-- Building and storing do not look at the pool. -/
theorem applySlot_pool {other : Split} (same : other.tasks = { split.tasks with mempool := other.tasks.mempool })
    (ran : split.applySlot production txs now fault = .ok (slotEnd, next)) :
    next.taken = none ∧ next.tasks.mempool = split.tasks.mempool ∧
      other.applySlot production txs now fault =
        .ok (slotEnd, ⟨{ next.tasks with mempool := other.tasks.mempool }, none, next.publishing⟩) := by
  obtain ⟨proposer, named, ran⟩ := bind_eq_ok.mp ran
  obtain ⟨⟨block, u⟩, built, ran⟩ := bind_eq_ok.mp ran
  obtain ⟨⟨receipt, t⟩, applied, ran⟩ := bind_eq_ok.mp ran
  obtain ⟨encoded, written, ran⟩ := bind_eq_ok.mp ran
  rw [applySlot, same]
  dsimp only
  rw [named, ok_bind, built, ok_bind]
  dsimp only
  rw [applied, ok_bind]
  dsimp only
  rw [written, ok_bind]
  cases fault with
  | true =>
    cases ran
    exact ⟨rfl, rfl, rfl⟩
  | false =>
    cases ran
    exact ⟨rfl, rfl, rfl⟩

/-- What the tasks do without interruption for a move. -/
def Follows (tasks : Tasks) (late : List (Transaction × Nat)) (move : SplitMove) (next : Split) : Prop :=
  ∃ moves after rest, tasks.run moves = .ok after ∧ next.Lags after rest ∧
    moves.filterMap TaskMove.submission ++ rest = late ++ move.submission.toList ∧
    moves.filterMap TaskMove.stored = move.stored.toList

theorem Follows.idle {move : SplitMove} (lags : split.Lags tasks late) (submission : move.submission = none)
    (stored : move.stored = none) : Follows tasks late move split :=
  ⟨[], tasks, late, rfl, lags, by simp [submission], by simp [stored]⟩

theorem Lags.start {listing : List Address} (lags : split.Lags tasks late)
    (ran : split.step (.start listing fault) = .ok (slotEnd, next)) :
    Follows tasks late (.start listing fault) next := by
  have same := lags.production_eq
  rw [step] at ran
  split at ran
  next stored =>
    obtain ⟨⟨_, after⟩, stepped, ran⟩ := bind_eq_ok.mp ran
    cases ran
    cases lags with
    | level untaken _ level =>
      rw [settled_of_none stored] at level
      rw [level] at stepped
      refine ⟨_, after, [], Tasks.run_single stepped, ?_, rfl, rfl⟩
      exact .level untaken (by simp [stored]) (settled_of_none stored)
    | taken holds unstored going selected submitted =>
      -- a slot is going on, and none begins
      obtain ⟨production, going'⟩ := Option.isSome_iff_exists.mp going
      rw [Tasks.step, same, going'] at stepped
      cases stepped
      exact .idle (.taken holds unstored going selected submitted) rfl rfl
  next =>
    cases ran
    exact .idle lags rfl rfl

theorem Lags.store {block : Block} (lags : split.Lags tasks late)
    (ran : split.elsewhere (.store block) = .ok (slotEnd, next)) :
    Follows tasks late (.store block) next := by
  have same := lags.settled_eq
  obtain ⟨⟨_, after⟩, stepped, ran⟩ := bind_eq_ok.mp ran
  cases ran
  cases Tasks.step_cases stepped with
  | store fits =>
    have stored : tasks.run [.store block] = .ok { tasks with
        storage := tasks.storage.put .blocks (heightKey block.header.height) (Codec.block.encode block) } := by
      have single : tasks.step (.store block) = .ok (.none, { tasks with
          storage := tasks.storage.put .blocks (heightKey block.header.height) (Codec.block.encode block) }) := by
        rw [Tasks.step, Codec.write_of_fits fits]
        rfl
      exact Tasks.run_single single
    refine ⟨_, _, late, stored, ?_, by simp [TaskMove.submission, SplitMove.submission], rfl⟩
    cases lags with
    | level untaken ended level =>
      subst level
      exact .level untaken ended rfl
    | @taken _ txs mempool order holds unstored going selected submitted =>
      have pool : ({ tasks with
          mempool,
          storage := tasks.storage.put .blocks (heightKey block.header.height) (Codec.block.encode block) } :
          Tasks).mempool = ({ tasks with mempool } : Tasks).mempool := rfl
      rw [settled_of_none unstored] at same
      refine .taken holds unstored going selected ((Tasks.run_submitted pool submitted).2.trans ?_)
      rw [same]

theorem Lags.submit {tx : Transaction} {at_ : Nat} (lags : split.Lags tasks late)
    (ran : split.elsewhere (.submit tx at_) = .ok (slotEnd, next)) :
    Follows tasks late (.submit tx at_) next := by
  obtain ⟨⟨_, after⟩, stepped, ran⟩ := bind_eq_ok.mp ran
  cases ran
  cases lags with
  | level untaken ended level =>
    subst level
    cases Tasks.step_cases stepped with
    | submit inserted =>
      have single : split.settled.step (.submit tx at_) = .ok (.none, _) := Tasks.step_submit inserted
      exact ⟨_, _, [], Tasks.run_single single, .level untaken ended rfl, rfl, rfl⟩
  | taken holds unstored going selected submitted =>
    have more : TaskMove.submitted (late ++ [(tx, at_)]) = TaskMove.submitted late ++ [.submit tx at_] := by
      simp [TaskMove.submitted]
    refine ⟨[], tasks, late ++ [(tx, at_)], rfl, .taken holds unstored going selected ?_, rfl, rfl⟩
    rw [more, Tasks.run_append submitted]
    exact Tasks.run_single stepped

theorem Lags.select {order : SenderOrder} (lags : split.Lags tasks late)
    (ran : split.step (.select order) = .ok (slotEnd, next)) :
    Follows tasks late (.select order) next := by
  rw [step] at ran
  split at ran
  next production going untaken =>
    obtain ⟨⟨txs, mempool⟩, selected, ran⟩ := bind_eq_ok.mp ran
    cases ran
    cases lags with
    | level _ ended same =>
      have unstored : split.publishing = none := by
        cases stored : split.publishing with
        | none => rfl
        | some height => cases (ended (by rw [stored]; rfl)).symm.trans going
      rw [settled_of_none unstored] at same
      subst same
      exact ⟨[], _, [], rfl, .taken rfl unstored (by rw [going]; rfl) selected rfl, rfl, rfl⟩
    | taken holds => simp [untaken] at holds
  next =>
    cases ran
    exact .idle lags rfl rfl

theorem Lags.apply (lags : split.Lags tasks late) (ran : split.step (.apply now fault) = .ok (slotEnd, next)) :
    Follows tasks late (.apply now fault) next := by
  have same := lags.settled_eq
  have tasks_going := lags.production_eq
  rw [step] at ran
  split at ran
  next production txs going holds =>
    cases lags with
    | level untaken => simp [untaken] at holds
    | @taken _ _ mempool order holds' unstored _ selected submitted =>
      cases holds.symm.trans holds'
      rw [settled_of_none unstored] at same
      have other : (⟨{ tasks with mempool }, some txs, none⟩ : Split).tasks = { split.tasks with mempool } := by
        rw [same]
      obtain ⟨untaken, pool, applied⟩ := applySlot_pool other ran
      have finished : tasks.step (.finish now order fault) = .ok (slotEnd, { next.settled with mempool }) := by
        rw [Tasks.step_finish (tasks_going.symm.trans going), Tasks.finishSlot_eq_split, selected, ok_bind]
        dsimp only
        rw [applied]
        rfl
      -- what was submitted meanwhile comes after the slot
      have level : ({ next.settled with mempool } : Tasks).mempool = ({ tasks with mempool } : Tasks).mempool := rfl
      have behind := (Tasks.run_submitted level submitted).2
      dsimp only at behind
      rw [← pool, ← settled_mempool] at behind
      refine ⟨.finish now order fault :: TaskMove.submitted late, next.settled, [], ?_,
        .level untaken (fun _ => apply_ends ran) rfl, ?_, ?_⟩
      · rw [Tasks.run, finished]
        exact behind
      · rw [List.filterMap_cons_none rfl, TaskMove.submission_submitted]
        simp [SplitMove.submission]
      · rw [List.filterMap_cons_none rfl, TaskMove.stored_submitted]
        rfl
  next =>
    cases ran
    exact .idle lags rfl rfl

/-- The slot was over before. -/
theorem Lags.publish (lags : split.Lags tasks late) (ran : split.step .publish = .ok (slotEnd, next)) :
    Follows tasks late .publish next := by
  cases ran
  have published : Lags ⟨split.settled, split.taken, none⟩ tasks late := by
    cases lags with
    | level untaken _ same => exact .level untaken (by simp) same
    | taken holds unstored going selected submitted =>
      rw [← settled_of_none unstored] at submitted
      exact .taken holds rfl going selected submitted
  exact .idle published rfl rfl

theorem Lags.step {move : SplitMove} (lags : split.Lags tasks late)
    (ran : split.step move = .ok (slotEnd, next)) : Follows tasks late move next := by
  cases move with
  | start listing fault => exact lags.start ran
  | select order => exact lags.select ran
  | apply now fault => exact lags.apply ran
  | publish => exact lags.publish ran
  | store block => exact lags.store ran
  | submit tx at_ => exact lags.submit ran

theorem Lags.run {moves : List SplitMove} (lags : split.Lags tasks late) (ran : split.run moves = .ok next) :
    ∃ whole after rest, tasks.run whole = .ok after ∧ next.Lags after rest ∧
      whole.filterMap TaskMove.submission ++ rest = late ++ moves.filterMap SplitMove.submission ∧
      whole.filterMap TaskMove.stored = moves.filterMap SplitMove.stored := by
  induction moves generalizing split tasks late with
  | nil =>
    cases ran
    exact ⟨[], tasks, late, rfl, lags, by simp, rfl⟩
  | cons move moves ih =>
    obtain ⟨⟨_, middle⟩, stepped, ran⟩ := bind_eq_ok.mp ran
    obtain ⟨first, between, behind, firstRan, lags, submitted, stored⟩ := lags.step stepped
    obtain ⟨more, after, rest, moreRan, lags, submittedMore, storedMore⟩ := ih lags ran
    refine ⟨first ++ more, after, rest, (Tasks.run_append firstRan).trans moreRan, lags, ?_, ?_⟩
    · rw [List.filterMap_append, List.append_assoc, submittedMore, ← List.append_assoc, submitted,
        List.append_assoc, filterMap_cons_toList]
    · rw [List.filterMap_append, stored, storedMore, filterMap_cons_toList]

theorem run_append {moves more : List SplitMove} (ran : split.run moves = .ok next) :
    split.run (moves ++ more) = next.run more := by
  induction moves generalizing split with
  | nil =>
    cases ran
    rfl
  | cons move moves ih =>
    obtain ⟨⟨_, middle⟩, stepped, ran⟩ := bind_eq_ok.mp ran
    rw [List.cons_append, run, stepped]
    exact ih ran

theorem run_single {move : SplitMove} (stepped : split.step move = .ok (slotEnd, next)) :
    split.run [move] = .ok next := by
  rw [run, stepped]
  rfl

theorem run_finish {order : SenderOrder} {after : Tasks} (going : tasks.production = some production)
    (ran : tasks.finishSlot production now order fault = .ok (slotEnd, after)) :
    tasks.split.run [.select order, .apply now fault, .publish] = .ok after.split := by
  rw [Tasks.finishSlot_eq_split] at ran
  obtain ⟨⟨txs, mempool⟩, selected, ran⟩ := bind_eq_ok.mp ran
  obtain ⟨⟨_, last⟩, applied, ran⟩ := bind_eq_ok.mp ran
  cases ran
  have first : tasks.split.step (.select order) = .ok (.none, ⟨{ tasks with mempool }, some txs, none⟩) :=
    step_select going rfl selected
  have here : (⟨{ tasks with mempool }, some txs, none⟩ : Split).tasks.production = some production := going
  have second := (step_apply here rfl).trans applied
  have third : last.step .publish = .ok (.none, last.settled.split) := by
    rw [step, Tasks.split, (applySlot_pool rfl applied).1]
    rfl
  exact (run_append (run_single first)).trans ((run_append (run_single second)).trans (run_single third))

/-- Every move of the tasks is made of such steps. -/
theorem run_move {move : TaskMove} {after : Tasks} (stepped : tasks.step move = .ok (slotEnd, after)) :
    ∃ moves, tasks.split.run moves = .ok after.split ∧
      moves.filterMap SplitMove.submission = move.submission.toList ∧
      moves.filterMap SplitMove.stored = move.stored.toList := by
  cases move with
  | start listing fault => exact ⟨[.start listing fault], run_single (elsewhere_split stepped), rfl, rfl⟩
  | store block => exact ⟨[.store block], run_single (elsewhere_split stepped), rfl, rfl⟩
  | submit tx at_ => exact ⟨[.submit tx at_], run_single (elsewhere_split stepped), rfl, rfl⟩
  | finish now order fault =>
    rw [Tasks.step] at stepped
    split at stepped
    next =>
      cases stepped
      exact ⟨[], rfl, rfl, rfl⟩
    next production going => exact ⟨_, run_finish going stepped, rfl, rfl⟩

theorem run_moves {whole : List TaskMove} {after : Tasks} (ran : tasks.run whole = .ok after) :
    ∃ moves, tasks.split.run moves = .ok after.split ∧
      moves.filterMap SplitMove.submission = whole.filterMap TaskMove.submission ∧
      moves.filterMap SplitMove.stored = whole.filterMap TaskMove.stored := by
  induction whole generalizing tasks with
  | nil =>
    cases ran
    exact ⟨[], rfl, rfl, rfl⟩
  | cons move whole ih =>
    obtain ⟨⟨_, middle⟩, stepped, ran⟩ := bind_eq_ok.mp ran
    obtain ⟨first, firstRan, submitted, stored⟩ := run_move stepped
    obtain ⟨more, moreRan, submittedMore, storedMore⟩ := ih ran
    refine ⟨first ++ more, (run_append firstRan).trans moreRan, ?_, ?_⟩
    · rw [List.filterMap_append, submitted, submittedMore, filterMap_cons_toList]
    · rw [List.filterMap_append, stored, storedMore, filterMap_cons_toList]

/-- Whatever goes on while a slot has taken transactions and not yet made a block of them, or has stored
the block and not yet published it, the node is where it is without interruption, with the same
submissions and the same blocks stored in the same order; what was submitted while the slot that goes
on had taken its transactions is still to come. And every run without interruption is a run. -/
theorem interruption_harmless (tasks : Tasks) :
    (∀ moves split, tasks.split.run moves = .ok split → ∃ whole after late, tasks.run whole = .ok after ∧
      split.Lags after late ∧
      whole.filterMap TaskMove.submission ++ late = moves.filterMap SplitMove.submission ∧
      whole.filterMap TaskMove.stored = moves.filterMap SplitMove.stored) ∧
    ∀ whole after, tasks.run whole = .ok after → ∃ moves, tasks.split.run moves = .ok after.split ∧
      moves.filterMap SplitMove.submission = whole.filterMap TaskMove.submission ∧
      moves.filterMap SplitMove.stored = whole.filterMap TaskMove.stored := by
  refine ⟨fun moves split ran => ?_, fun whole after ran => run_moves ran⟩
  obtain ⟨whole, after, late, wholeRan, lags, submitted, stored⟩ :=
    Lags.run (.level rfl (by simp [Tasks.split]) rfl : tasks.split.Lags tasks []) ran
  exact ⟨whole, after, late, wholeRan, lags, submitted, stored⟩

end

section Sample

open StateMachine

attribute [local instance] peakBlake3 soloSerdeJson

def resubmission : List SplitMove :=
  [.submit freshVote 1, .start [] false, .select .plain, .submit freshVote 2]

theorem resubmission_late : ∃ split whole after late, soloNode.launch.split.run resubmission = .ok split ∧
    soloNode.launch.run whole = .ok after ∧ split.Lags after late ∧
    whole.filterMap TaskMove.submission ++ late = [(freshVote, 1), (freshVote, 2)] := by
  have submitted : soloNode.launch.step (.submit freshVote 1) = .ok (.none, _) :=
    Tasks.step_submit (Tasks.alone_inserted freshVote)
  have genesis : ({ soloNode.launch with mempool := Tasks.alonePool freshVote } : Tasks).storage =
      soloStorage := by
    rw [Node.launch, soloNode]
  obtain ⟨middle, started, going, pool, -⟩ := Tasks.vote_started rfl rfl rfl genesis
  obtain ⟨mempool, selected⟩ := Tasks.alone_selected freshVote
  obtain ⟨⟨result, more⟩, inserted⟩ := mempool.insert_returns freshVote 2
  rw [← show middle.mempool = Tasks.alonePool freshVote from pool] at selected
  have taken : step middle.split (.select .plain) =
      .ok (.none, ⟨{ middle with mempool }, some [freshVote], none⟩) := step_select going rfl selected
  have again : step ⟨{ middle with mempool }, some [freshVote], none⟩ (.submit freshVote 2) =
      .ok (.none, ⟨{ middle with mempool := more }, some [freshVote], none⟩) := by
    rw [step, elsewhere, Tasks.step_submit inserted]
    rfl
  have ran : soloNode.launch.split.run resubmission =
      .ok ⟨{ middle with mempool := more }, some [freshVote], none⟩ := by
    have first : soloNode.launch.split.step (.submit freshVote 1) = .ok (.none, Tasks.split _) :=
      elsewhere_split submitted
    have second : step (Tasks.split _) (.start [] false) = .ok (.none, middle.split) :=
      elsewhere_split started
    exact (run_append (run_single first)).trans ((run_append (run_single second)).trans
      ((run_append (run_single taken)).trans (run_single again)))
  obtain ⟨whole, after, late, wholeRan, lags, submissions, -⟩ :=
    (interruption_harmless soloNode.launch).1 _ _ ran
  exact ⟨_, whole, after, late, ran, wholeRan, lags, submissions⟩

end Sample

end Split

end Mononium
