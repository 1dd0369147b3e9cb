import Mononium.Lib.Rust

/-! Two runs of panicking computations. They are related if both panic for the same
reason or both return and the values are related; the rules follow the structure of
the program text. -/
namespace Rust

inductive Related (R : α → β → Prop) : Exec α → Exec β → Prop
  | ok {a : α} {b : β} (values : R a b) : Related R (.ok a) (.ok b)
  | panic (reason : Panic) : Related R (.error reason) (.error reason)

namespace Related

variable {R : α → β → Prop} {S : γ → δ → Prop} {x : Exec α} {y : Exec β}

theorem pure {a : α} {b : β} (values : R a b) : Related R (Pure.pure a) (Pure.pure b) := .ok values

theorem bind {f : α → Exec γ} {g : β → Exec δ} (first : Related R x y)
    (rest : ∀ a b, R a b → Related S (f a) (g b)) : Related S (x >>= f) (y >>= g) := by
  cases first with
  | ok values => exact rest _ _ values
  | panic reason => exact .panic reason

/-- Both runs begin with one and the same computation. -/
theorem bind_same {f : α → Exec γ} {g : α → Exec δ} (rest : ∀ a, Related S (f a) (g a)) :
    Related S (x >>= f) (x >>= g) := by
  cases x with
  | ok a => exact rest a
  | error reason => exact .panic reason

theorem ite {c : Prop} [Decidable c] {x' : Exec α} {y' : Exec β} (yes : Related R x y)
    (no : Related R x' y') : Related R (if c then x else x') (if c then y else y') := by
  split
  · exact yes
  · exact no

theorem outcomes (related : Related R x y) :
    (∃ a b, x = .ok a ∧ y = .ok b ∧ R a b) ∨ ∃ reason, x = .error reason ∧ y = .error reason := by
  cases related with
  | ok values => exact .inl ⟨_, _, rfl, rfl, values⟩
  | panic reason => exact .inr ⟨reason, rfl, rfl⟩

theorem mono {T : α → β → Prop} (related : Related R x y) (weaker : ∀ a b, R a b → T a b) :
    Related T x y := by
  cases related with
  | ok values => exact .ok (weaker _ _ values)
  | panic reason => exact .panic reason

theorem values {a : α} {b : β} (related : Related R x y) (first : x = .ok a) (second : y = .ok b) :
    R a b := by
  subst first second
  cases related with
  | ok values => exact values

/-- Loops over one list are related if their rounds are. -/
theorem foldlM {f : α → ι → Exec α} {g : β → ι → Exec β} {xs : List ι} {a : α} {b : β}
    (step : ∀ i ∈ xs, ∀ a b, R a b → Related R (f a i) (g b i)) (start : R a b) :
    Related R (xs.foldlM f a) (xs.foldlM g b) := by
  induction xs generalizing a b with
  | nil => exact .ok start
  | cons i xs ih =>
    rw [List.foldlM_cons, List.foldlM_cons]
    apply bind (step i List.mem_cons_self a b start)
    intro a b related
    exact ih (fun i member => step i (List.mem_cons_of_mem _ member)) related

end Related

end Rust
