import Mathlib.Data.List.Induction
import Mononium.Lib.Rust

/-! What a loop emits. A round may emit a value, and what a run has done is read off the list of
these: by a pure loop over it, by its last value, or by what it brought in and took out. -/
namespace Rust

/-- What the rounds of a loop emit, in order. -/
def emissions (f : β → α → Exec β) (emits : β → α → Option γ) (b : β) : List α → List γ
  | [] => []
  | x :: xs => (emits b x).toList ++
    match f b x with
    | .ok next => emissions f emits next xs
    | .error _ => []

section

variable {α β γ δ : Type} {f : β → α → Exec β} {emits : β → α → Option γ} {observe : β → Option γ}
  {P : β → Prop} {xs : List α} {b c : β}

theorem emissions_cons {x : α} (ran : f b x = .ok c) :
    emissions f emits b (x :: xs) = (emits b x).toList ++ emissions f emits c xs := by
  rw [emissions, ran]

/-- A loop does what a pure loop does with what its rounds emit, if its rounds do. -/
theorem foldlM_emissions (emits : β → α → Option γ) (g : δ → γ → δ) (R : β → δ → Prop) {d : δ}
    (step : ∀ b d, ∀ a ∈ xs, ∀ c, R b d → f b a = .ok c → R c ((emits b a).elim d (g d)))
    (start : R b d) (h : xs.foldlM f b = .ok c) : R c ((emissions f emits b xs).foldl g d) := by
  induction xs generalizing b d with
  | nil =>
    cases h
    exact start
  | cons x xs ih =>
    rw [List.foldlM_cons] at h
    obtain ⟨next, first, rest⟩ := bind_eq_ok.mp h
    have here := step b d x List.mem_cons_self next start first
    have later := ih (fun b d a member => step b d a (List.mem_cons_of_mem _ member)) here rest
    rw [emissions_cons first, List.foldl_append]
    cases emitted : emits b x with
    | none => simpa [emitted] using later
    | some value => simpa [emitted] using later

theorem foldl_some (values : List γ) (before : Option γ) :
    values.foldl (fun _ value => some value) before = values.getLast?.or before := by
  induction values using List.reverseRecOn with
  | nil => rfl
  | append_singleton values value _ => simp

/-- What a loop leaves is what its rounds have emitted last, if every round leaves what it emits
or what was there. -/
theorem foldlM_last (observe : β → Option γ) (P : β → Prop)
    (step : ∀ b, ∀ a ∈ xs, ∀ c, P b → f b a = .ok c → P c ∧ observe c = (emits b a).or (observe b))
    (start : P b) (h : xs.foldlM f b = .ok c) :
    observe c = (emissions f emits b xs).getLast?.or (observe b) := by
  rw [← foldl_some]
  have both := foldlM_emissions emits (fun _ value => some value) (fun b seen => P b ∧ observe b = seen)
    (fun b seen a member c before stepped => ?_) ⟨start, rfl⟩ h
  · exact both.2
  · obtain ⟨kept, left⟩ := step b a member c before.1 stepped
    refine ⟨kept, left.trans ?_⟩
    cases emits b a with
    | none => exact before.2
    | some value => rfl

theorem foldl_snoc (values log : List γ) : values.foldl (fun log value => log ++ [value]) log = log ++ values := by
  induction values generalizing log with
  | nil => simp
  | cons value values ih => rw [List.foldl_cons, ih, List.append_assoc, List.singleton_append]

/-- What a loop keeps with a log of what its rounds emit holds with all that they emit. -/
theorem foldlM_logs (emits : β → α → Option γ) (R : β → List γ → Prop)
    (step : ∀ b log, ∀ a ∈ xs, ∀ c, R b log → f b a = .ok c → R c (log ++ (emits b a).toList))
    (start : R b []) (h : xs.foldlM f b = .ok c) : R c (emissions f emits b xs) := by
  have logged := foldlM_emissions emits (fun log value => log ++ [value]) R (fun b log a member c before stepped => ?_) start h
  · rwa [foldl_snoc, List.nil_append] at logged
  · have next := step b log a member c before stepped
    cases emitted : emits b a with
    | none => simpa [emitted] using next
    | some value => simpa [emitted] using next

/-- A loop refines a loop over what its rounds emit, if its rounds do; a round that emits nothing
leaves the abstraction alone. -/
theorem foldlM_refines (emits : β → α → Option γ) (g : δ → γ → Exec δ) (abstraction : β → δ)
    (step : ∀ b, ∀ a ∈ xs, ∀ c, f b a = .ok c →
      (emits b a).toList.foldlM g (abstraction b) = .ok (abstraction c))
    (h : xs.foldlM f b = .ok c) :
    (emissions f emits b xs).foldlM g (abstraction b) = .ok (abstraction c) := by
  refine foldlM_logs emits (fun now log => log.foldlM g (abstraction b) = .ok (abstraction now))
    (fun now log a member c before stepped => ?_) rfl h
  rw [List.foldlM_append, before, ok_bind]
  exact step now a member c stepped

/-- What has come in is what is held together with what has gone out. -/
theorem conserved_append {arrived held gone arrives holds goes : List δ} (before : arrived.Perm (held ++ gone))
    (moved : (held ++ arrives).Perm (holds ++ goes)) : (arrived ++ arrives).Perm (holds ++ (gone ++ goes)) := by
  have first := before.append_right arrives
  rw [List.append_assoc] at first
  have second := (first.trans (List.perm_append_comm.append_left held))
  rw [← List.append_assoc] at second
  have third := second.trans (moved.append_right gone)
  rw [List.append_assoc] at third
  exact third.trans (List.perm_append_comm.append_left holds)

/-- A loop neither loses nor doubles what its rounds bring in, hold and take out, if no round
does. -/
theorem foldlM_conserves (emits : β → α → Option γ) (holding : β → List δ) (arrivals departures : γ → List δ)
    (P : β → Prop)
    (step : ∀ b, ∀ a ∈ xs, ∀ c, P b → f b a = .ok c → P c ∧
      (holding b ++ (emits b a).toList.flatMap arrivals).Perm
        (holding c ++ (emits b a).toList.flatMap departures))
    (start : P b) (empty : holding b = []) (h : xs.foldlM f b = .ok c) :
    ((emissions f emits b xs).flatMap arrivals).Perm
      (holding c ++ (emissions f emits b xs).flatMap departures) := by
  have both := foldlM_logs emits (fun b log => P b ∧
      (log.flatMap arrivals).Perm (holding b ++ log.flatMap departures))
    (fun b log a member c before stepped => ?_) ⟨start, by rw [empty]; exact .refl _⟩ h
  · exact both.2
  · obtain ⟨kept, moved⟩ := step b a member c before.1 stepped
    rw [List.flatMap_append, List.flatMap_append]
    exact ⟨kept, conserved_append before.2 moved⟩

end

end Rust
