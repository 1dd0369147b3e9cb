import Mathlib.Data.List.Chain
import Mathlib.Data.List.Count

/-! Rate limits on a line of time. A counter that starts over at the first event a window after
its last start is compared with the bound it is meant to keep in every position of the window:
the counter cuts the events into windows of its own, and what it admits is the head of each. -/
namespace FixedWindow

/-- No time interval of the given length, open at its end, holds more than the limit. -/
def Limited (limit window : Nat) (times : List Nat) : Prop :=
  ∀ t, (times.countP fun x => t ≤ x ∧ x < t + window) ≤ limit

/-- Events that are the limit apart in the list are a window apart in time. -/
def Spaced (limit window : Nat) (times : List Nat) : Prop :=
  ∀ i x y, times[i]? = some x → times[i + limit]? = some y → x + window ≤ y

section Intervals

variable {limit window : Nat} {times : List Nat}

theorem le_of_sorted {xs : List Nat} (sorted : xs.Pairwise (· ≤ ·)) {i j x y : Nat} (le : i ≤ j)
    (first : xs[i]? = some x) (last : xs[j]? = some y) : x ≤ y := by
  obtain ⟨inside, rfl⟩ := List.getElem?_eq_some_iff.mp first
  obtain ⟨bound, rfl⟩ := List.getElem?_eq_some_iff.mp last
  rcases Nat.eq_or_lt_of_le le with rfl | less
  · exact le_rfl
  · exact List.pairwise_iff_getElem.mp sorted i j inside bound less

theorem Limited.spaced (sorted : times.Pairwise (· ≤ ·)) (limited : Limited limit window times) :
    Spaced limit window times := by
  intro i x y first last
  by_contra close
  have inside : ((times.drop i).take (limit + 1)).length = limit + 1 := by
    have bound := (List.getElem?_eq_some_iff.mp last).1
    simp
    omega
  have burst : ∀ z ∈ (times.drop i).take (limit + 1), x ≤ z ∧ z < x + window := by
    intro z member
    obtain ⟨j, here⟩ := List.mem_iff_getElem?.mp member
    have short : j ≤ limit := by
      have bound := (List.getElem?_eq_some_iff.mp here).1
      omega
    rw [List.getElem?_take_of_lt (by omega), List.getElem?_drop] at here
    have low := le_of_sorted sorted (Nat.le_add_right i j) first here
    have high := le_of_sorted sorted (Nat.add_le_add_left short i) here last
    omega
  have counted := ((List.take_sublist (limit + 1) _).trans (List.drop_sublist i times)).countP_le
    (p := fun z => decide (x ≤ z ∧ z < x + window))
  rw [List.countP_eq_length.mpr (by simpa using burst), inside] at counted
  have := limited x
  omega

theorem Spaced.limited (sorted : times.Pairwise (· ≤ ·)) (spaced : Spaced limit window times) :
    Limited limit window times := by
  intro t
  induction times with
  | nil => simp
  | cons x times ih =>
    have rest : Spaced limit window times := fun i a b first last =>
      spaced (i + 1) a b first (by rwa [Nat.add_right_comm])
    by_cases inside : t ≤ x ∧ x < t + window
    · -- Whatever comes the limit after the first that counts comes too late to count.
      have late : ((x :: times).drop limit).countP (fun z => t ≤ z ∧ z < t + window) = 0 := by
        rw [List.countP_eq_zero]
        intro z member
        obtain ⟨j, here⟩ := List.mem_iff_getElem?.mp member
        rw [List.getElem?_drop] at here
        obtain ⟨y, there⟩ : ∃ y, (x :: times)[limit]? = some y := by
          have bound := (List.getElem?_eq_some_iff.mp here).1
          exact ⟨_, List.getElem?_eq_getElem (by omega)⟩
        have apart := spaced 0 x y rfl (by rwa [Nat.zero_add])
        have after := le_of_sorted sorted (Nat.le_add_right limit j) there here
        simp
        omega
      rw [← List.take_append_drop limit (x :: times), List.countP_append, late]
      exact (List.countP_le_length).trans (List.length_take_le _ _)
    · rw [List.countP_cons_of_neg (by simpa using inside)]
      exact ih (List.pairwise_cons.mp sorted).2 rest

theorem limited_iff_spaced (sorted : times.Pairwise (· ≤ ·)) :
    Limited limit window times ↔ Spaced limit window times :=
  ⟨Limited.spaced sorted, Spaced.limited sorted⟩

end Intervals

/-- What a counter at a count and a start admits of the events to come. -/
def admitFrom (limit window : Nat) : Nat → Nat → List Nat → List Nat
  | _, _, [] => []
  | count, start, now :: times =>
    let (count, start) := if window ≤ now - start then (0, now) else (count, start)
    if count < limit then now :: admitFrom limit window (count + 1) start times
    else admitFrom limit window count start times

def windowsFrom (window : Nat) : Nat → List Nat → List Nat × List (List Nat)
  | _, [] => ([], [])
  | start, now :: times =>
    if window ≤ now - start then
      let (rest, later) := windowsFrom window now times
      ([], (now :: rest) :: later)
    else
      let (rest, later) := windowsFrom window start times
      (now :: rest, later)

/-- The windows of a counter: each begins with the first event that comes a window or more
after the beginning of the one before. -/
def windows (window : Nat) : List Nat → List (List Nat)
  | [] => []
  | now :: times =>
    let (rest, later) := windowsFrom window now times
    (now :: rest) :: later

def admitted (limit window : Nat) : List Nat → List Nat
  | [] => []
  | now :: times => admitFrom limit window 0 now (now :: times)

/-- Two windows in a row are apart if the events that are the limit apart in them are: the one
at `q` in the second is the limit after the one at `p` in the first. -/
def Apart (limit window : Nat) (first second : List Nat) : Prop :=
  ∀ p q x y, first[p]? = some x → second[q]? = some y → first.length + q = p + limit →
    x + window ≤ y

/-- Events of two windows that do not follow each other are a window apart in time. -/
def Far (window : Nat) : List (List Nat) → Prop
  | first :: second :: rest =>
    (∀ x ∈ first, ∀ y ∈ rest.flatten, x + window ≤ y) ∧ Far window (second :: rest)
  | _ => True

section Blocks

variable {limit window : Nat} {first rest : List Nat} {blocks : List (List Nat)}

theorem spaced_append_iff (short : first.length ≤ limit) :
    Spaced limit window (first ++ rest) ↔
      Apart limit window first rest ∧ Spaced limit window rest := by
  constructor
  · intro spaced
    refine ⟨fun p q x y here there at_ => ?_, fun i x y here there => ?_⟩
    · refine spaced p x y ?_ ?_
      · rwa [List.getElem?_append_left (List.getElem?_eq_some_iff.mp here).1]
      · rwa [← at_, List.getElem?_append_right (Nat.le_add_right _ _), Nat.add_sub_cancel_left]
    · refine spaced (first.length + i) x y ?_ ?_
      · rwa [List.getElem?_append_right (Nat.le_add_right _ _), Nat.add_sub_cancel_left]
      · rwa [Nat.add_assoc, List.getElem?_append_right (Nat.le_add_right _ _),
          Nat.add_sub_cancel_left]
  · rintro ⟨apart, spaced⟩ i x y here there
    rw [List.getElem?_append_right (short.trans (Nat.le_add_left _ _))] at there
    by_cases inside : i < first.length
    · rw [List.getElem?_append_left inside] at here
      exact apart i _ x y here there (by omega)
    · rw [List.getElem?_append_right (Nat.le_of_not_lt inside)] at here
      refine spaced _ x y here ?_
      rwa [← Nat.sub_add_comm (Nat.le_of_not_lt inside)]

theorem apart_append_iff {second : List Nat} (far : ∀ x ∈ first, ∀ y ∈ rest, x + window ≤ y) :
    Apart limit window first (second ++ rest) ↔ Apart limit window first second := by
  constructor
  · intro apart p q x y here there
    refine apart p q x y here ?_
    rwa [List.getElem?_append_left (List.getElem?_eq_some_iff.mp there).1]
  · intro apart p q x y here there
    by_cases inside : q < second.length
    · rw [List.getElem?_append_left inside] at there
      exact apart p q x y here there
    · rw [List.getElem?_append_right (Nat.le_of_not_lt inside)] at there
      exact fun _ => far x (List.mem_of_getElem? here) y (List.mem_of_getElem? there)

/-- Only neighbours can be too close, so it is enough to look at two blocks at a time. -/
theorem spaced_flatten_iff (short : ∀ block ∈ blocks, block.length ≤ limit) (far : Far window blocks) :
    Spaced limit window blocks.flatten ↔ blocks.IsChain (Apart limit window) := by
  induction blocks with
  | nil => simp [Spaced]
  | cons first blocks ih =>
    rw [List.flatten_cons, spaced_append_iff (short first List.mem_cons_self)]
    cases blocks with
    | nil => simp [Apart, Spaced]
    | cons second rest =>
      rw [ih (fun block member => short block (List.mem_cons_of_mem _ member)) far.2,
        List.flatten_cons, apart_append_iff far.1, List.isChain_cons_cons]

end Blocks

section Counter

variable {limit window : Nat}

theorem admitFrom_eq (count start : Nat) (times : List Nat) :
    admitFrom limit window count start times =
      (windowsFrom window start times).1.take (limit - count) ++
        ((windowsFrom window start times).2.map (List.take limit)).flatten := by
  induction times generalizing count start with
  | nil => simp [admitFrom, windowsFrom]
  | cons now times ih =>
    rw [admitFrom, windowsFrom]
    by_cases expired : window ≤ now - start
    · simp only [if_pos expired]
      split
      next room => simp [ih, List.take_cons room]
      next full =>
        have none : limit = 0 := by omega
        rw [ih]
        simp [none]
    · simp only [if_neg expired]
      split
      next room =>
        have left : limit - count = limit - (count + 1) + 1 := by omega
        simp [ih, left]
      next full =>
        have none : limit - count = 0 := by omega
        rw [ih]
        simp [none]

theorem admitFrom_sublist (count start : Nat) (times : List Nat) :
    (admitFrom limit window count start times).Sublist times := by
  induction times generalizing count start with
  | nil => exact .slnil
  | cons now times ih =>
    rw [admitFrom]
    by_cases expired : window ≤ now - start
    · simp only [if_pos expired]
      split
      next room => exact (ih 1 now).cons_cons now
      next full => exact (ih 0 now).cons now
    · simp only [if_neg expired]
      split
      next room => exact (ih (count + 1) start).cons_cons now
      next full => exact (ih count start).cons now

theorem admitted_eq (limit window : Nat) (times : List Nat) :
    admitted limit window times = ((windows window times).map (List.take limit)).flatten := by
  cases times with
  | nil => rfl
  | cons now times =>
    have afresh : admitFrom limit window 0 now (now :: times) =
        if 0 < limit then now :: admitFrom limit window 1 now times
        else admitFrom limit window 0 now times := by
      simp [admitFrom]
    rw [admitted, afresh, windows]
    split
    next room => simp [admitFrom_eq, List.take_cons room]
    next full =>
      have none : limit = 0 := by omega
      rw [admitFrom_eq]
      simp [none]

theorem windowsFrom_flatten (window start : Nat) (times : List Nat) :
    (windowsFrom window start times).1 ++ (windowsFrom window start times).2.flatten = times := by
  induction times generalizing start with
  | nil => rfl
  | cons now times ih =>
    rw [windowsFrom]
    split <;> simp [ih]

/-- Later windows are a window away from the beginning of the first. -/
theorem windowsFrom_late {start : Nat} {times : List Nat}
    (sorted : (start :: times).Pairwise (· ≤ ·)) :
    ∀ y ∈ (windowsFrom window start times).2.flatten, start + window ≤ y := by
  induction times generalizing start with
  | nil => simp [windowsFrom]
  | cons now times ih =>
    obtain ⟨least, later⟩ := List.pairwise_cons.mp sorted
    rw [windowsFrom]
    by_cases expired : window ≤ now - start
    · -- The next window is what comes from here on.
      intro y member
      simp only [if_pos expired, List.flatten_cons, List.cons_append, windowsFrom_flatten] at member
      have first := least now List.mem_cons_self
      have after : now ≤ y := by
        rcases List.mem_cons.mp member with rfl | later'
        · exact le_rfl
        · exact (List.pairwise_cons.mp later).1 y later'
      omega
    · simp only [if_neg expired]
      exact ih (List.pairwise_cons.mpr
        ⟨fun x member => least x (List.mem_cons_of_mem _ member), (List.pairwise_cons.mp later).2⟩)

theorem windowsFrom_far {start : Nat} {begun times : List Nat}
    (sorted : (begun ++ times).Pairwise (· ≤ ·)) :
    Far window ((begun ++ (windowsFrom window start times).1) ::
      (windowsFrom window start times).2) := by
  induction times generalizing start begun with
  | nil => simp [windowsFrom, Far]
  | cons now times ih =>
    obtain ⟨-, later, before⟩ := List.pairwise_append.mp sorted
    rw [windowsFrom]
    by_cases expired : window ≤ now - start
    · have next : Far window (([now] ++ (windowsFrom window now times).1) ::
          (windowsFrom window now times).2) := ih later
      simp only [if_pos expired, List.append_nil, Far]
      refine ⟨fun x member y there => ?_, next⟩
      have late := windowsFrom_late later y there
      have first := before x member now List.mem_cons_self
      omega
    · have rest : Far window ((begun ++ [now] ++ (windowsFrom window start times).1) ::
          (windowsFrom window start times).2) := ih (by simpa using sorted)
      simpa [if_neg expired] using rest

theorem Far.map_take {blocks : List (List Nat)} (far : Far window blocks) :
    Far window (blocks.map (List.take limit)) := by
  induction blocks with
  | nil => trivial
  | cons first blocks ih =>
    cases blocks with
    | nil => trivial
    | cons second rest =>
      refine ⟨fun x here y there => ?_, ih far.2⟩
      obtain ⟨block, listed, member⟩ := List.mem_flatten.mp there
      obtain ⟨whole, before, rfl⟩ := List.mem_map.mp listed
      exact far.1 x (List.mem_of_mem_take here) y
        (List.mem_flatten.mpr ⟨whole, before, List.mem_of_mem_take member⟩)

theorem windows_far {times : List Nat} (sorted : times.Pairwise (· ≤ ·)) :
    Far window (windows window times) := by
  cases times with
  | nil => trivial
  | cons now times =>
    have all : Far window (([now] ++ (windowsFrom window now times).1) ::
        (windowsFrom window now times).2) := windowsFrom_far sorted
    exact all

theorem admitted_sublist (limit window : Nat) (times : List Nat) :
    (admitted limit window times).Sublist times := by
  cases times with
  | nil => exact .slnil
  | cons now times => exact admitFrom_sublist _ _ _

/-- The counter keeps the bound in every position of the window if and only if neighbouring
windows of its own are apart in what it admits of them. -/
theorem limited_admitted_iff {times : List Nat} (sorted : times.Pairwise (· ≤ ·)) :
    Limited limit window (admitted limit window times) ↔
      ((windows window times).map (List.take limit)).IsChain (Apart limit window) := by
  rw [limited_iff_spaced (sorted.sublist (admitted_sublist limit window times)), admitted_eq,
    spaced_flatten_iff _ (windows_far sorted).map_take]
  intro block member
  obtain ⟨whole, -, rfl⟩ := List.mem_map.mp member
  exact List.length_take_le _ _

end Counter

end FixedWindow
