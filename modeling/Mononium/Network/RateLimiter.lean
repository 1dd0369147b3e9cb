import Mononium.Core.Types
import Mononium.Lib.HashMap
import Mononium.Lib.FixedWindow

/-! The rate limiter of `network::topics`. It counts the messages of a peer from a start that
moves on with the first message a window later, so it is a fixed-window counter, where its
documentation speaks of a sliding window. Times are nanoseconds on the monotonic clock. -/
namespace Mononium

open Rust Scale FixedWindow

structure RateLimiter (SocketAddr : Type) where
  maxPerWindow : U32
  window : Nat
  counters : HashMap SocketAddr (U32 × Nat)

namespace RateLimiter

variable {SocketAddr : Type} [DecidableEq SocketAddr]

/-- The window is one second. -/
def new (maxPerWindow : U32) : RateLimiter SocketAddr := ⟨maxPerWindow, 1000000000, ∅⟩

def entry (self : RateLimiter SocketAddr) (now : Nat) (peer : SocketAddr) : U32 × Nat :=
  let entry := (self.counters.lookup peer).getD (0, now)
  if self.window ≤ now - entry.2 then (0, now) else entry

def setEntry (self : RateLimiter SocketAddr) (peer : SocketAddr) (entry : U32 × Nat) :
    RateLimiter SocketAddr :=
  { self with counters := self.counters.insert peer entry }

def check (self : RateLimiter SocketAddr) (now : Nat) (peer : SocketAddr) :
    Bool × RateLimiter SocketAddr :=
  let entry := self.entry now peer
  (entry.1 < self.maxPerWindow, self.setEntry peer entry)

def increment (self : RateLimiter SocketAddr) (now : Nat) (peer : SocketAddr) :
    Exec (RateLimiter SocketAddr) := do
  let entry := self.entry now peer
  return self.setEntry peer (← add entry.1 1, entry.2)

def allow (self : RateLimiter SocketAddr) (now : Nat) (peer : SocketAddr) :
    Exec (Bool × RateLimiter SocketAddr) := do
  let (allowed, self) := self.check now peer
  let self ← if allowed then self.increment now peer else pure self
  return (allowed, self)

def process (self : RateLimiter SocketAddr) :
    List (SocketAddr × Nat) → Exec (List (SocketAddr × Nat))
  | [] => pure []
  | (peer, now) :: calls => do
    let (allowed, self) ← self.allow now peer
    let rest ← self.process calls
    return if allowed then (peer, now) :: rest else rest

def timesOf (peer : SocketAddr) (messages : List (SocketAddr × Nat)) : List Nat :=
  (messages.filter fun message => message.1 = peer).map Prod.snd

section

variable {self next : RateLimiter SocketAddr} {now : Nat} {peer other : SocketAddr}

@[simp] theorem setEntry_maxPerWindow (self : RateLimiter SocketAddr) (peer : SocketAddr)
    (entry : U32 × Nat) : (self.setEntry peer entry).maxPerWindow = self.maxPerWindow := rfl

@[simp] theorem setEntry_window (self : RateLimiter SocketAddr) (peer : SocketAddr)
    (entry : U32 × Nat) : (self.setEntry peer entry).window = self.window := rfl

@[simp] theorem lookup_setEntry (self : RateLimiter SocketAddr) (peer : SocketAddr)
    (entry : U32 × Nat) : (self.setEntry peer entry).counters.lookup peer = some entry :=
  AList.lookup_insert _

theorem lookup_setEntry_of_ne (self : RateLimiter SocketAddr) {peer other : SocketAddr}
    (ne : other ≠ peer) (entry : U32 × Nat) :
    (self.setEntry peer entry).counters.lookup other = self.counters.lookup other :=
  AList.lookup_insert_ne ne

@[simp] theorem setEntry_setEntry (self : RateLimiter SocketAddr) (peer : SocketAddr)
    (first second : U32 × Nat) :
    (self.setEntry peer first).setEntry peer second = self.setEntry peer second := by
  simp [setEntry]

/-- Reading a counter again at the same time changes nothing. -/
theorem entry_setEntry (self : RateLimiter SocketAddr) (now : Nat) (peer : SocketAddr) :
    (self.setEntry peer (self.entry now peer)).entry now peer = self.entry now peer := by
  unfold entry
  simp only [lookup_setEntry, setEntry_window, Option.getD_some]
  split <;> simp_all

theorem allow_eq (self : RateLimiter SocketAddr) (now : Nat) (peer : SocketAddr) :
    self.allow now peer = .ok (if (self.entry now peer).1 < self.maxPerWindow then
      (true, self.setEntry peer ((self.entry now peer).1 + 1, (self.entry now peer).2))
      else (false, self.setEntry peer (self.entry now peer))) := by
  unfold allow check
  by_cases room : (self.entry now peer).1 < self.maxPerWindow
  · have fits : (self.entry now peer).1.toNat + 1 < 2 ^ 32 := by
      have bound := self.maxPerWindow.isLt
      have below := BitVec.lt_def.mp room
      omega
    have sum : add (self.entry now peer).1 1 = .ok ((self.entry now peer).1 + 1) := if_pos fits
    have counted : (self.setEntry peer (self.entry now peer)).increment now peer =
        .ok (self.setEntry peer ((self.entry now peer).1 + 1, (self.entry now peer).2)) := by
      simp only [increment, entry_setEntry, sum, ok_bind, setEntry_setEntry]
      rfl
    simp [room, counted, pure, Except.pure]
  · simp [room, pure, Except.pure]

theorem timesOf_cons (peer other : SocketAddr) (now : Nat) (messages : List (SocketAddr × Nat)) :
    timesOf peer ((other, now) :: messages) =
      if other = peer then now :: timesOf peer messages else timesOf peer messages := by
  unfold timesOf
  split <;> simp_all

/-- What the limiter admits of one peer's messages when the peer has this counter. -/
def admittedFrom (limit window : Nat) : Option (U32 × Nat) → List Nat → List Nat
  | none, times => admitted limit window times
  | some entry, times => admitFrom limit window entry.1.toNat entry.2 times

@[simp] theorem admittedFrom_some (limit window : Nat) (entry : U32 × Nat) (times : List Nat) :
    admittedFrom limit window (some entry) times =
      admitFrom limit window entry.1.toNat entry.2 times := rfl

/-- The first message starts a counter where there is none. -/
theorem admittedFrom_cons (self : RateLimiter SocketAddr) (limit now : Nat) (peer : SocketAddr)
    (times : List Nat) :
    admittedFrom limit self.window (self.counters.lookup peer) (now :: times) =
      if (self.entry now peer).1.toNat < limit then
        now :: admitFrom limit self.window ((self.entry now peer).1.toNat + 1) (self.entry now peer).2 times
      else admitFrom limit self.window (self.entry now peer).1.toNat (self.entry now peer).2 times := by
  have start : admittedFrom limit self.window (self.counters.lookup peer) (now :: times) =
      let entry := (self.counters.lookup peer).getD (0, now)
      admitFrom limit self.window entry.1.toNat entry.2 (now :: times) := by
    cases self.counters.lookup peer <;> rfl
  rw [start]
  unfold entry
  simp only [admitFrom]
  split <;> simp

/-- Every sequence of calls returns, and what it allows of a peer's messages depends on those
messages alone. -/
theorem process_returns (self : RateLimiter SocketAddr) (calls : List (SocketAddr × Nat)) :
    ∃ allowed, self.process calls = .ok allowed ∧ ∀ peer, timesOf peer allowed =
      admittedFrom self.maxPerWindow.toNat self.window (self.counters.lookup peer)
        (timesOf peer calls) := by
  induction calls generalizing self with
  | nil =>
    refine ⟨[], rfl, fun peer => ?_⟩
    cases self.counters.lookup peer <;> rfl
  | cons message calls ih =>
    obtain ⟨peer, now⟩ := message
    by_cases room : (self.entry now peer).1 < self.maxPerWindow
    · have less := BitVec.lt_def.mp room
      obtain ⟨count, sum⟩ : ∃ count, (self.entry now peer).1 + 1 = count := ⟨_, rfl⟩
      have counted : count.toNat = (self.entry now peer).1.toNat + 1 := by
        rw [← sum]
        exact add_toNat (lt_of_le_of_lt less self.maxPerWindow.isLt)
      obtain ⟨rest, ran, admits⟩ := ih (self.setEntry peer (count, (self.entry now peer).2))
      refine ⟨(peer, now) :: rest, ?_, fun other => ?_⟩
      · rw [process, allow_eq, if_pos room, sum]
        simp [ran]
      · by_cases same : other = peer
        · subst same
          simpa [timesOf_cons, admittedFrom_cons, counted, less] using admits other
        · simpa [timesOf_cons, Ne.symm same, lookup_setEntry_of_ne _ same] using admits other
    · obtain ⟨rest, ran, admits⟩ := ih (self.setEntry peer (self.entry now peer))
      refine ⟨rest, ?_, fun other => ?_⟩
      · rw [process, allow_eq, if_neg room]
        simp [ran]
      · rw [BitVec.lt_def] at room
        by_cases same : other = peer
        · subst same
          simpa [timesOf_cons, admittedFrom_cons, room] using admits other
        · simpa [timesOf_cons, Ne.symm same, lookup_setEntry_of_ne _ same] using admits other

end

/-- The limiter keeps its bound on every interval as long as the window if and only if, for
every two windows of its counter in a row, the messages it allows of them that are the bound
apart are a window apart in time. Other peers' calls do not matter. -/
theorem sliding_window_iff (maxPerWindow : U32) (window : Nat) (calls : List (SocketAddr × Nat))
    (ordered : (calls.map Prod.snd).Pairwise (· ≤ ·)) :
    ∃ allowed, process { new maxPerWindow with window } calls = .ok allowed ∧ ∀ peer,
      (∀ t, ((timesOf peer allowed).countP fun x => t ≤ x ∧ x < t + window) ≤ maxPerWindow.toNat) ↔
        ((windows window (timesOf peer calls)).map (List.take maxPerWindow.toNat)).IsChain
          (Apart maxPerWindow.toNat window) := by
  obtain ⟨allowed, ran, admits⟩ :=
    process_returns { new maxPerWindow with window } calls
  refine ⟨allowed, ran, fun peer => ?_⟩
  have sorted : (timesOf peer calls).Pairwise (· ≤ ·) :=
    ordered.sublist (List.filter_sublist.map Prod.snd)
  rw [admits peer]
  exact limited_admitted_iff sorted

section Sample

/-- Two messages at most. The second of the old window and both of the new one come within a
tenth of a second. -/
def burst : List (Nat × Nat) := [(7, 0), (7, 950000000), (7, 1000000000), (7, 1000000000)]

theorem burst_allowed : ∃ allowed, (new 2).process burst = .ok allowed ∧
    2 < (timesOf 7 allowed).countP fun x => 900000000 ≤ x ∧ x < 900000000 + 1000000000 :=
  ⟨burst, by decide, by decide⟩

theorem burst_decided : (burst.map Prod.snd).Pairwise (· ≤ ·) ∧
    ∃ allowed, process { new 2 with window := 1000000000 } burst = .ok allowed ∧ ∀ peer,
      (∀ t, ((timesOf peer allowed).countP fun x => t ≤ x ∧ x < t + 1000000000) ≤ (2 : U32).toNat) ↔
        ((windows 1000000000 (timesOf peer burst)).map (List.take (2 : U32).toNat)).IsChain
          (Apart (2 : U32).toNat 1000000000) :=
  ⟨by decide, sliding_window_iff 2 1000000000 burst (by decide)⟩

end Sample

end RateLimiter

end Mononium
