import Mononium.Core.Types
import Mononium.Lib.HashMap
import Mathlib.Data.List.Induction

/-! Peer scores and bans of `network::peer_score`. A ban is the height at which it was
applied; it expires, but the recorded height is never cleared. -/
namespace Mononium

open Rust Scale

def banDuration : U64 := 720

def banThreshold : Int := -20

def maxScore : Int := 100

def minScore : Int := -100

/-- The ban begun at one height lasts at another, and ends at a height there is. -/
def BanLasts (banned h : U64) : Prop := h.toNat < banned.toNat + 720 ∧ banned.toNat + 720 < 2 ^ 64

def clampScore (score : Int) : Int := max minScore (min maxScore score)

/-- A score is always clamped to its range. The time of the last positive interaction is
left out: nothing reads it. -/
structure PeerScore where
  score : Int
  bannedAtHeight : Option U64
  clamped : minScore ≤ score ∧ score ≤ maxScore
  deriving DecidableEq, Repr

namespace PeerScore

def new : PeerScore := ⟨0, none, by decide⟩

def isBanned (self : PeerScore) (currentHeight : U64) : Exec Bool :=
  match self.bannedAtHeight with
  | some h => do return currentHeight < (← add h banDuration)
  | none => pure false

theorem isBanned_eq_true {self : PeerScore} {currentHeight : U64} :
    self.isBanned currentHeight = .ok true ↔
      ∃ h, self.bannedAtHeight = some h ∧ BanLasts h currentHeight := by
  unfold isBanned BanLasts
  cases recorded : self.bannedAtHeight with
  | none => simp
  | some h =>
    simp only [bind_eq_ok, add_eq_ok, pure_eq_ok, decide_eq_true_eq, BitVec.lt_def,
      Option.some.injEq, exists_eq_left']
    constructor
    · rintro ⟨ends, sum, before⟩
      have bound := ends.isLt
      have duration : banDuration.toNat = 720 := rfl
      omega
    · rintro ⟨before, room⟩
      have sum : (h + banDuration).toNat = h.toNat + 720 := add_toNat room
      exact ⟨h + banDuration, sum, by omega⟩

def shouldBan (self : PeerScore) : Bool := self.score < banThreshold

def applyBan (self : PeerScore) (currentHeight : U64) : PeerScore :=
  { self with bannedAtHeight := some currentHeight }

/-- The sum is one of 32-bit signed integers. -/
def adjust (self : PeerScore) (delta : Int) : Exec PeerScore :=
  if -2 ^ 31 ≤ self.score + delta ∧ self.score + delta < 2 ^ 31 then
    .ok { self with
      score := clampScore (self.score + delta)
      clamped := by simp [clampScore, minScore, maxScore] }
  else .error .overflow

end PeerScore

inductive ScoreEvent where
  | validBlockPropagated
  | validVotePropagated
  | successfulSyncBatch
  | syncBatchHashMismatch
  | syncBatchVerifyFail
  | emptySyncResponse
  | syncTimeout
  | invalidBlockGossiped
  | invalidVoteGossiped
  | connectDisconnectLoop
  | duplicateBlockGossip
  deriving DecidableEq, Repr

def ScoreEvent.delta : ScoreEvent → Int
  | validBlockPropagated => 1
  | validVotePropagated => 1
  | successfulSyncBatch => 2
  | syncBatchHashMismatch => -10
  | syncBatchVerifyFail => -20
  | emptySyncResponse => -2
  | syncTimeout => -4
  | invalidBlockGossiped => -10
  | invalidVoteGossiped => -10
  | connectDisconnectLoop => -10
  | duplicateBlockGossip => -2

/-- No event moves a score out of the 32-bit integers. -/
theorem PeerScore.adjust_event (self : PeerScore) (event : ScoreEvent) :
    ∃ adjusted, self.adjust event.delta = .ok adjusted ∧
      adjusted.score = clampScore (self.score + event.delta) ∧
      adjusted.bannedAtHeight = self.bannedAtHeight := by
  obtain ⟨low, high⟩ := self.clamped
  have small : -20 ≤ event.delta ∧ event.delta ≤ 2 := by cases event <;> decide
  unfold minScore at low
  unfold maxScore at high
  exact ⟨_, if_pos (by omega), rfl, rfl⟩

structure PeerScoreRepo (PeerId : Type) where
  scores : HashMap PeerId PeerScore

namespace PeerScoreRepo

variable {PeerId : Type} [DecidableEq PeerId]

def new : PeerScoreRepo PeerId := ⟨∅⟩

def applyEvent (self : PeerScoreRepo PeerId) (peer : PeerId) (event : ScoreEvent) :
    Exec (PeerScoreRepo PeerId) := do
  let score := (self.scores.lookup peer).getD .new
  return ⟨self.scores.insert peer (← score.adjust event.delta)⟩

def score (self : PeerScoreRepo PeerId) (peer : PeerId) : Option Int :=
  (self.scores.lookup peer).map PeerScore.score

def isBanned (self : PeerScoreRepo PeerId) (peer : PeerId) (currentHeight : U64) : Exec Bool :=
  match self.scores.lookup peer with
  | some score => score.isBanned currentHeight
  | none => pure false

def autoBan (self : PeerScoreRepo PeerId) (currentHeight : U64) : PeerScoreRepo PeerId :=
  ⟨HashMap.mapValues self.scores fun score =>
    if score.shouldBan && score.bannedAtHeight.isNone then score.applyBan currentHeight
    else score⟩

inductive Call (PeerId : Type) where
  | applyEvent (peer : PeerId) (event : ScoreEvent)
  | autoBan (currentHeight : U64)
  deriving DecidableEq, Repr

def call (self : PeerScoreRepo PeerId) : Call PeerId → Exec (PeerScoreRepo PeerId)
  | .applyEvent peer event => self.applyEvent peer event
  | .autoBan currentHeight => .ok (self.autoBan currentHeight)

def after (calls : List (Call PeerId)) : Exec (PeerScoreRepo PeerId) := calls.foldlM call new

def BadPeersBanned (self : PeerScoreRepo PeerId) (currentHeight : U64) : Prop :=
  ∀ peer score, self.score peer = some score → score < banThreshold →
    self.isBanned peer currentHeight = .ok true

/-- What a call means for one peer: its score, and the heights at which it was found below the
threshold. -/
def observe (peer : PeerId) (seen : Int × List U64) : Call PeerId → Int × List U64
  | .applyEvent other event =>
    if peer = other then (clampScore (seen.1 + event.delta), seen.2) else seen
  | .autoBan h => if seen.1 < banThreshold then (seen.1, seen.2 ++ [h]) else seen

def history (peer : PeerId) (calls : List (Call PeerId)) : Int × List U64 :=
  calls.foldl (observe peer) (0, [])

/-- The heights all lie in the ban that the first of them begins. -/
def WithinOneBan : List U64 → Prop
  | [] => True
  | first :: later => ∀ h ∈ first :: later, BanLasts first h

/-- The repository holds what each peer's history says; a peer without events is not tracked. -/
def Records (self : PeerScoreRepo PeerId) (calls : List (Call PeerId)) : Prop :=
  ∀ peer, match self.scores.lookup peer with
    | some score => score.score = (history peer calls).1 ∧
        score.bannedAtHeight = (history peer calls).2.head?
    | none => history peer calls = (0, [])

section

variable {self : PeerScoreRepo PeerId} {calls : List (Call PeerId)}

@[simp] theorem observe_applyEvent_snd (peer other : PeerId) (event : ScoreEvent)
    (seen : Int × List U64) : (observe peer seen (.applyEvent other event)).2 = seen.2 := by
  rw [observe]
  split <;> rfl

@[simp] theorem observe_autoBan_fst (peer : PeerId) (h : U64) (seen : Int × List U64) :
    (observe peer seen (.autoBan h)).1 = seen.1 := by
  rw [observe]
  split <;> rfl

theorem observe_autoBan_snd (peer : PeerId) (h : U64) (seen : Int × List U64) :
    (observe peer seen (.autoBan h)).2 =
      if seen.1 < banThreshold then seen.2 ++ [h] else seen.2 := by
  rw [observe]
  split <;> rfl

theorem history_append (peer : PeerId) (calls : List (Call PeerId)) (c : Call PeerId) :
    history peer (calls ++ [c]) = observe peer (history peer calls) c := by
  simp [history]

theorem lookup_autoBan (self : PeerScoreRepo PeerId) (h : U64) (peer : PeerId) :
    (self.autoBan h).scores.lookup peer = (self.scores.lookup peer).map fun score =>
      if score.shouldBan && score.bannedAtHeight.isNone then score.applyBan h else score :=
  HashMap.lookup_mapValues self.scores _ peer

theorem Records.applyEvent (records : self.Records calls) (peer : PeerId) (event : ScoreEvent) :
    ∃ next, self.applyEvent peer event = .ok next ∧
      next.Records (calls ++ [.applyEvent peer event]) := by
  obtain ⟨adjusted, called, score, ban⟩ :=
    ((self.scores.lookup peer).getD .new).adjust_event event
  refine ⟨⟨self.scores.insert peer adjusted⟩, by rw [PeerScoreRepo.applyEvent, called]; rfl, ?_⟩
  intro other
  have before := records other
  rw [history_append, HashMap.lookup_insert_if]
  by_cases same : other = peer
  · subst same
    cases found : self.scores.lookup other with
    | none => simp_all [observe, PeerScore.new]
    | some old => simp_all [observe]
  · simpa [observe, same] using before

theorem Records.autoBan (records : self.Records calls) (h : U64) :
    (self.autoBan h).Records (calls ++ [.autoBan h]) := by
  intro peer
  have before := records peer
  rw [history_append, lookup_autoBan]
  cases found : self.scores.lookup peer with
  | none => simp_all [observe, banThreshold]
  | some score =>
    rw [found] at before
    obtain ⟨same, ban⟩ := before
    by_cases bad : score.score < banThreshold
    · cases recorded : score.bannedAtHeight with
      | none =>
        have first : (history peer calls).2 = [] := by
          rwa [recorded, eq_comm, List.head?_eq_none_iff] at ban
        simp [observe, ← same, bad, PeerScore.shouldBan, recorded, first, PeerScore.applyBan]
      | some b =>
        rw [recorded] at ban
        simp [observe, ← same, bad, recorded, List.head?_append, ← ban]
    · simp [observe, ← same, bad, PeerScore.shouldBan, ban]

theorem after_records (calls : List (Call PeerId)) :
    ∃ repo, after calls = .ok repo ∧ repo.Records calls := by
  induction calls using List.reverseRecOn with
  | nil => exact ⟨new, rfl, fun _ => rfl⟩
  | append_singleton calls c ih =>
    obtain ⟨repo, ran, records⟩ := ih
    rw [after, List.foldlM_append, ← after, ran, ok_bind]
    cases c with
    | applyEvent peer event => simpa [call] using records.applyEvent peer event
    | autoBan h => exact ⟨_, rfl, records.autoBan h⟩

/-- A bad peer is banned if its first ban lasts. -/
theorem Records.badPeersBanned_iff (records : self.Records calls) (h : U64) :
    self.BadPeersBanned h ↔ ∀ peer, (history peer calls).1 < banThreshold →
      ∃ banned, (history peer calls).2.head? = some banned ∧ BanLasts banned h := by
  apply forall_congr'
  intro peer
  have here := records peer
  unfold score isBanned
  cases found : self.scores.lookup peer with
  | none =>
    rw [found] at here
    simp [here, banThreshold]
  | some score =>
    rw [found] at here
    obtain ⟨same, ban⟩ := here
    simp [← same, ← ban, PeerScore.isBanned_eq_true]

theorem withinOneBan_append (heights : List U64) (h : U64) :
    WithinOneBan (heights ++ [h]) ↔ WithinOneBan heights ∧
      ∃ banned, (heights ++ [h]).head? = some banned ∧ BanLasts banned h := by
  cases heights with
  | nil => simp [WithinOneBan]
  | cons first heights =>
    simp only [WithinOneBan, List.cons_append, List.head?_cons]
    grind

/-- One more call that bans asks only that those it finds bad are in their first ban. -/
theorem withinOneBan_autoBan (peer : PeerId) (h : U64) (seen : Int × List U64) :
    WithinOneBan (observe peer seen (.autoBan h)).2 ↔ WithinOneBan seen.2 ∧
      (seen.1 < banThreshold → ∃ banned,
        (observe peer seen (.autoBan h)).2.head? = some banned ∧ BanLasts banned h) := by
  rw [observe_autoBan_snd]
  split
  next bad => simp [withinOneBan_append, bad]
  next fair => simp [fair]

end

/-- In every history the bad peers are banned right after each call that bans if and only if the
calls that find a peer bad all come within the ban that the first of them began: a ban is
recorded once and not renewed. -/
theorem bad_peers_stay_banned_iff (calls : List (Call PeerId)) :
    (∀ before h, before ++ [.autoBan h] <+: calls → ∃ repo,
      after (before ++ [.autoBan h]) = .ok repo ∧ repo.BadPeersBanned h) ↔
    ∀ peer, WithinOneBan (history peer calls).2 := by
  induction calls using List.reverseRecOn with
  | nil => simp [history, WithinOneBan]
  | append_singleton calls c ih =>
    simp only [List.prefix_concat_iff, history_append]
    cases c with
    | applyEvent other event => simpa using ih
    | autoBan h =>
      obtain ⟨repo, ran, records⟩ := after_records (calls ++ [.autoBan h])
      have now := records.badPeersBanned_iff h
      simp only [history_append, observe_autoBan_fst] at now
      simp only [withinOneBan_autoBan, forall_and, ← ih, ← now]
      constructor
      · intro banned
        refine ⟨fun before k earlier => banned before k (.inr earlier), ?_⟩
        obtain ⟨same, called, last⟩ := banned calls h (.inl rfl)
        cases ran.symm.trans called
        exact last
      · rintro ⟨earlier, last⟩ before k (same | shorter)
        · obtain ⟨rfl, here⟩ := List.append_inj' same rfl
          cases here
          exact ⟨repo, ran, last⟩
        · exact earlier before k shorter

section Sample

/-- A peer served two bad batches, was banned at height 100 and comes back at 820. -/
def offences : List (Call Nat) :=
  [.applyEvent 7 .syncBatchVerifyFail, .applyEvent 7 .syncBatchVerifyFail, .autoBan 100]

theorem offences_unbanned : ∃ repo, after (offences ++ [.autoBan 820]) = .ok repo ∧
    repo.score 7 = some (-40) ∧ -40 < banThreshold ∧ repo.isBanned 7 820 = .ok false :=
  ⟨valueD (after (offences ++ [.autoBan 820])) new, rfl, by decide⟩

end Sample

end PeerScoreRepo

end Mononium
