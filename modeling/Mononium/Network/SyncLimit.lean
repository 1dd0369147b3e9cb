import Mononium.Network.Sync

/-! When the catch-up loop gives up. Four of the six branches in which a batch fails look at
the number of failures; the loop stops in time as long as the tenth failure in a row falls
into one of them. -/
namespace Mononium

open Rust Scale

def SyncEvent.outcome : SyncEvent PeerId → Option Bool
  | .sent _ _ => none
  | .failed _ => some true
  | .stored => some false

def failuresInARow (log : List (SyncEvent PeerId)) : Nat :=
  ((log.reverse.filterMap SyncEvent.outcome).takeWhile id).length

theorem failuresInARow_sent (log : List (SyncEvent PeerId)) (peer : PeerId) (request : SyncRequest) :
    failuresInARow (log ++ [.sent peer request]) = failuresInARow log := by
  rw [failuresInARow, List.reverse_append]
  rfl

theorem failuresInARow_failed (log : List (SyncEvent PeerId)) (failure : Failure) :
    failuresInARow (log ++ [.failed failure]) = failuresInARow log + 1 := by
  rw [failuresInARow, List.reverse_append]
  rfl

theorem failuresInARow_stored (log : List (SyncEvent PeerId)) :
    failuresInARow (log ++ [.stored]) = 0 := by
  rw [failuresInARow, List.reverse_append]
  rfl

/-- No request is sent once the last ten batches have failed. -/
def Restrained (log : List (SyncEvent PeerId)) : Prop :=
  ∀ before peer request after, log = before ++ .sent peer request :: after →
    failuresInARow before < maxConsecutiveFailures

/-- Only a request at the end of the log has something to answer for. -/
theorem Restrained.append {log : List (SyncEvent PeerId)} {event : SyncEvent PeerId}
    (restrained : Restrained log)
    (last : ∀ peer request, event = .sent peer request → failuresInARow log < maxConsecutiveFailures) :
    Restrained (log ++ [event]) := by
  intro before peer request after same
  rcases List.eq_nil_or_concat after with rfl | ⟨between, final, rfl⟩
  · obtain ⟨rfl, here⟩ := List.append_inj' same rfl
    exact last peer request (List.singleton_injective here)
  · rw [List.concat_eq_append, ← List.cons_append, ← List.append_assoc] at same
    exact restrained before peer request between (List.append_inj' same rfl).1

/-- The count is the number of failures in a row, and reaching the limit is an error. -/
structure Patient (run : SyncRun PeerId) : Prop where
  counted : run.consecutiveFailures = failuresInARow run.log
  restrained : Restrained run.log
  gaveUp : maxConsecutiveFailures ≤ run.consecutiveFailures → ∃ message,
    run.ending = some (.error message)

namespace Patient

variable {first : PeerId} {others : List PeerId} {run : SyncRun PeerId}

/-- At the start the log holds at most the question for the tip. -/
theorem of_quiet (count : run.consecutiveFailures = 0)
    (log : run.log = [] ∨ ∃ peer, run.log = [.sent peer tipRequest]) : Patient run := by
  have empty : Restrained ([] : List (SyncEvent PeerId)) := by
    intro before peer request after same
    simp at same
  have quiet : failuresInARow run.log = 0 ∧ Restrained run.log := by
    rcases log with log | ⟨peer, log⟩
    · rw [log]
      exact ⟨rfl, empty⟩
    · rw [log]
      exact ⟨rfl, empty.append fun _ _ _ => Nat.zero_lt_succ 9⟩
  refine ⟨count.trans quiet.1.symm, quiet.2, fun reached => ?_⟩
  rw [count] at reached
  cases Nat.le_zero.mp reached

theorem lt (patient : Patient run) (going : run.ending = none) :
    run.consecutiveFailures < maxConsecutiveFailures := by
  by_contra reached
  obtain ⟨message, ended⟩ := patient.gaveUp (Nat.le_of_not_lt reached)
  rw [going] at ended
  cases ended

theorem asked (patient : Patient run) (going : run.ending = none) :
    Patient (run.asked first others) where
  counted := by
    change run.consecutiveFailures = failuresInARow (run.log ++ [_])
    rw [failuresInARow_sent, patient.counted]
  restrained := by
    apply patient.restrained.append
    intro _ _ _
    exact patient.counted ▸ patient.lt going
  gaveUp := patient.gaveUp

/-- A batch that fails short of the limit, or in a branch that looks at it. -/
theorem fail (patient : Patient run) (going : run.ending = none) {failure : Failure}
    (limited : run.consecutiveFailures + 1 = maxConsecutiveFailures → failure.limit ≠ none) :
    Patient (run.fail failure) := by
  obtain ⟨-, -, count, log⟩ := run.fail_fields failure
  refine ⟨?_, ?_, fun reached => ?_⟩
  · rw [count, log, failuresInARow_failed, patient.counted]
  · rw [log]
    apply patient.restrained.append
    intro _ _ impossible
    cases impossible
  · rw [count] at reached
    have tenth : run.consecutiveFailures + 1 = maxConsecutiveFailures :=
      Nat.le_antisymm (patient.lt going) reached
    obtain ⟨message, found⟩ := Option.ne_none_iff_exists'.mp (limited tenth)
    exact ⟨message, SyncRun.fail_stops found reached⟩

end Patient

section

variable [Blake3] {PeerId : Type}

/-- The answers whose branch does not look at the limit: a response of the other type,
and a batch with the right hash whose blocks do not continue one another. -/
def Unlimited (cursor : SyncCursor) : Answer → Prop
  | .response (.blockByHash _) => True
  | .response (.blockSync bsr) => bsr.blocks ≠ [] ∧
      computeBatchHash cursor.lastVerifiedHash bsr.blocks = .ok bsr.batchHash ∧
      continues cursor.lastVerifiedHash bsr.blocks = false
  | _ => False

theorem unlimited_of_check {cursor : SyncCursor} {answer : Answer} {failure : Failure}
    (checked : checkAnswer cursor answer = .ok (.error failure)) (unlimited : failure.limit = none) :
    Unlimited cursor answer := by
  cases answer with
  | unsent reason => cases checked; cases unlimited
  | closed => cases checked; cases unlimited
  | timeout => cases checked; cases unlimited
  | response response =>
    cases response with
    | blockByHash _ => trivial
    | blockSync bsr =>
      rw [checkAnswer] at checked
      split at checked
      next => cases checked; cases unlimited
      next some =>
        obtain ⟨localHash, hashed, checked⟩ := bind_eq_ok.mp checked
        split at checked
        next => cases checked; cases unlimited
        next same =>
          rw [not_not] at same
          split at checked
          next => cases checked
          next broken => exact ⟨some, same ▸ hashed, by simpa using broken⟩

namespace Patient

variable {first : PeerId} {others : List PeerId} {run next : SyncRun PeerId} {turn : Turn}

theorem accept (patient : Patient run) {blocks : List Block} {fault : Option Nat}
    (ran : run.accept blocks fault = .ok next) : Patient next := by
  obtain ⟨_, storage, _, -, -, ⟨-, cursor, -, rfl⟩ | ⟨-, rfl⟩⟩ := SyncRun.accept_cases ran
  · refine ⟨(failuresInARow_stored _).symm, ?_, fun reached => ?_⟩
    · apply patient.restrained.append
      intro _ _ impossible
      cases impossible
    · cases Nat.le_zero.mp reached
  · exact ⟨patient.counted, patient.restrained, fun _ => ⟨_, rfl⟩⟩

theorem round (patient : Patient run) (going : run.ending = none) (ahead : run.cursor.gap ≠ 0)
    (limited : run.consecutiveFailures + 1 = maxConsecutiveFailures →
      ¬Unlimited run.cursor turn.answer)
    (ran : run.round first others turn = .ok next) : Patient next := by
  have waiting : Patient (run.asked first others) := patient.asked going
  rcases SyncRun.round_cases ahead ran with ⟨reason, rfl⟩ | ⟨failure, checked, rfl⟩ |
    ⟨blocks, checked, accepted⟩
  · exact ⟨patient.counted, patient.restrained, fun _ => ⟨_, rfl⟩⟩
  · exact waiting.fail going fun tenth none => limited tenth (unlimited_of_check checked none)
  · exact waiting.accept accepted

end Patient

/-- If a tenth failure in a row never falls in a branch that does not look at the limit,
no request follows ten failures in a row, and ten failures in a row are an error. -/
theorem sync_gives_up {peers : List PeerId} {cursor : SyncCursor} {storage : Storage}
    {eraLength : U64} {tip : Answer} {turns : List Turn} {run : SyncRun PeerId}
    (limited : SyncAlong (fun run turn => run.consecutiveFailures + 1 = maxConsecutiveFailures →
      ¬Unlimited run.cursor turn.answer) peers cursor storage tip turns)
    (ran : runSyncLoop peers cursor storage eraLength tip turns = .ok run) :
    Restrained run.log ∧ (maxConsecutiveFailures ≤ failuresInARow run.log → ∃ message,
      run.ending = some (.error message)) := by
  suffices patient : Patient run from
    ⟨patient.restrained, fun reached => patient.gaveUp (patient.counted ▸ reached)⟩
  rcases runSyncLoop_cases ran with ⟨-, -, count, log⟩ | ⟨first, others, bsr, rfl, rfl, looped⟩
  · exact .of_quiet count log
  · refine SyncRun.loop_invariant (fun _ _ _ kept going ahead holds ran => kept.round going ahead
      holds ran) (fun _ kept going _ => kept.asked going) (fun _ kept going => ?_)
      (.of_quiet rfl (.inr ⟨first, rfl⟩)) rfl limited looped
    exact ⟨kept.counted, kept.restrained, fun reached => absurd (kept.lt going) (Nat.not_lt.mpr reached)⟩

end

section Sample

attribute [local instance] prefixBlake3

def barrenSync (answer : Answer) : Exec (SyncRun Nat) :=
  runSyncLoop [0] (SyncCursor.new (FixedBytes.replicate 32 0)) Storage.empty 720
    (.response (.blockSync ⟨[], 1, FixedBytes.replicate 32 0⟩)) (List.replicate 10 ⟨answer, none⟩)

/-- Ten timeouts end the loop. -/
theorem timeouts_give_up :
    ∃ run, barrenSync .timeout = .ok run ∧ Restrained run.log ∧
      ∃ message, run.ending = some (.error message) := by
  obtain ⟨run, ran⟩ : Returns (barrenSync .timeout) := by decide
  have counted : (barrenSync .timeout).map (fun run => failuresInARow run.log) = .ok 10 := by
    decide
  rw [ran] at counted
  have limited := sync_gives_up (.of_forall fun turn member run _ => by
    rw [List.eq_of_mem_replicate member]
    exact id) ran
  exact ⟨run, ran, limited.1, limited.2 (Except.ok.inj counted).ge⟩

def barrenRequest : SyncRequest := .blockSync ⟨1, 100, .forward, some (FixedBytes.replicate 32 0)⟩

def barrenLog : List (SyncEvent Nat) :=
  .sent 0 tipRequest :: (List.replicate 10 [.sent 0 barrenRequest, .failed .wrongType]).flatten

/-- After ten responses of the other type the loop sends an eleventh request. -/
theorem wrongTypes_keep_asking :
    ∃ run, barrenSync (.response (.blockByHash ⟨[]⟩)) = .ok run ∧ ¬Restrained run.log := by
  obtain ⟨run, ran⟩ : Returns (barrenSync (.response (.blockByHash ⟨[]⟩))) := by decide
  have logged : (barrenSync (.response (.blockByHash ⟨[]⟩))).map SyncRun.log =
      .ok (barrenLog ++ [.sent 0 barrenRequest]) := by
    decide
  rw [ran] at logged
  refine ⟨run, ran, fun restrained => ?_⟩
  have bound := restrained barrenLog 0 barrenRequest [] (Except.ok.inj logged)
  revert bound
  decide

end Sample

end Mononium
