import Mathlib.Data.BitVec
import Mathlib.Data.List.Basic
import Mathlib.Data.Nat.Basic

/-! Panicking computations and fixed-width unsigned words. A panic is a value
here, so "does not panic" is an ordinary statement about a result. Plain
operators panic outside their range, as they do in the checked profile (the release profile
lets them wrap); the checked and saturating forms do not. -/
namespace Rust

inductive Panic where
  | overflow
  | divideByZero
  | assertion (message : String)
  | expect (message : String)
  deriving DecidableEq, Repr

abbrev Exec := Except Panic

@[simp] theorem bind_eq_ok {x : Exec α} {f : α → Exec β} {r : β} :
    (x >>= f) = .ok r ↔ ∃ a, x = .ok a ∧ f a = .ok r := by
  cases x with
  | error reason => simp [bind, Except.bind]
  | ok a => simp [bind, Except.bind]

@[simp] theorem ok_bind (a : α) (f : α → Exec β) : ((.ok a : Exec α) >>= f) = f a := rfl

@[simp] theorem error_bind (reason : Panic) (f : α → Exec β) :
    ((.error reason : Exec α) >>= f) = .error reason := rfl

@[simp] theorem pure_eq_ok {a b : α} : (pure a : Exec α) = .ok b ↔ a = b := by
  simp [pure, Except.pure]

@[simp] theorem map_eq_ok {x : Exec α} {f : α → β} {r : β} :
    (f <$> x) = .ok r ↔ ∃ a, x = .ok a ∧ f a = r := by
  cases x with
  | error reason => simp [Functor.map, Except.map]
  | ok a => simp [Functor.map, Except.map]

/-- A check with an early return, and the rest of the computation. -/
theorem early_return {c : Prop} [Decidable c] {early r : α} {rest : Exec α}
    (h : (if c then pure early else rest) = .ok r) : c ∧ early = r ∨ ¬c ∧ rest = .ok r := by
  split at h
  next met => exact .inl ⟨met, pure_eq_ok.mp h⟩
  next unmet => exact .inr ⟨unmet, h⟩

def Returns (x : Exec α) : Prop := ∃ a, x = .ok a

instance : (x : Exec α) → Decidable (Returns x)
  | .ok a => isTrue ⟨a, rfl⟩
  | .error _ => isFalse fun ⟨_, impossible⟩ => by cases impossible

def valueD (x : Exec α) (default : α) : α :=
  match x with
  | .ok a => a
  | .error _ => default

theorem Returns.eq_ok {x : Exec α} (returns : Returns x) (default : α) :
    x = .ok (valueD x default) := by
  obtain ⟨a, rfl⟩ := returns
  rfl

@[simp] theorem returns_ok (a : α) : Returns (.ok a) := ⟨a, rfl⟩

@[simp] theorem returns_pure (a : α) : Returns (pure a) := ⟨a, rfl⟩

@[simp] theorem not_returns_error (reason : Panic) : ¬Returns (.error reason : Exec α) := by
  rintro ⟨a, impossible⟩
  cases impossible

@[simp] theorem returns_map {x : Exec α} {f : α → β} : Returns (f <$> x) ↔ Returns x := by
  cases x <;> simp [Functor.map, Except.map]

theorem returns_bind {x : Exec α} {f : α → Exec β} :
    Returns (x >>= f) ↔ ∃ a, x = .ok a ∧ Returns (f a) := by
  simp only [Returns, bind_eq_ok]
  constructor
  · rintro ⟨r, a, first, second⟩
    exact ⟨a, first, r, second⟩
  · rintro ⟨a, first, r, second⟩
    exact ⟨r, a, first, second⟩

/-- When what follows depends on the first value only through one condition. -/
theorem returns_bind_iff {x : Exec α} {f : α → Exec β} {P : Prop}
    (rest : ∀ a, x = .ok a → (Returns (f a) ↔ P)) : Returns (x >>= f) ↔ Returns x ∧ P := by
  rw [returns_bind]
  constructor
  · rintro ⟨a, first, second⟩
    exact ⟨⟨a, first⟩, (rest a first).mp second⟩
  · rintro ⟨⟨a, first⟩, holds⟩
    exact ⟨a, first, (rest a first).mpr holds⟩

theorem returns_bind_of_forall {x : Exec α} {f : α → Exec β}
    (rest : ∀ a, x = .ok a → Returns (f a)) : Returns (x >>= f) ↔ Returns x := by
  rw [returns_bind_iff fun a first => iff_of_true (rest a first) trivial, and_true]

/-- A property that every round of a loop keeps holds after the loop. -/
theorem foldlM_invariant {f : β → α → Exec β} {P : β → Prop} {xs : List α} {b c : β}
    (step : ∀ b, ∀ a ∈ xs, ∀ c, P b → f b a = .ok c → P c) (start : P b)
    (h : xs.foldlM f b = .ok c) : P c := by
  induction xs generalizing b with
  | nil =>
    cases h
    exact start
  | cons x xs ih =>
    rw [List.foldlM_cons] at h
    obtain ⟨next, first, rest⟩ := bind_eq_ok.mp h
    exact ih (fun b a member => step b a (List.mem_cons_of_mem _ member))
      (step b x List.mem_cons_self next start first) rest

/-- A loop does to an abstraction what a pure loop does, if its rounds do. -/
theorem foldlM_simulates {f : β → α → Exec β} {g : γ → α → γ} {abstraction : β → γ}
    {P : β → Prop} {xs : List α} {b c : β}
    (step : ∀ b, ∀ a ∈ xs, ∀ c, P b → f b a = .ok c → P c ∧ abstraction c = g (abstraction b) a)
    (start : P b) (h : xs.foldlM f b = .ok c) :
    P c ∧ abstraction c = xs.foldl g (abstraction b) := by
  induction xs generalizing b with
  | nil =>
    cases h
    exact ⟨start, rfl⟩
  | cons x xs ih =>
    rw [List.foldlM_cons] at h
    obtain ⟨next, first, rest⟩ := bind_eq_ok.mp h
    obtain ⟨kept, same⟩ := step b x List.mem_cons_self next start first
    rw [List.foldl_cons, ← same]
    exact ih (fun b a member => step b a (List.mem_cons_of_mem _ member)) kept rest

/-- A loop returns if a property that every round keeps lets the round return. -/
theorem foldlM_returns {f : β → α → Exec β} {P : β → Prop}
    (step : ∀ b a, P b → ∃ c, f b a = .ok c ∧ P c) {b : β} (start : P b) (xs : List α) :
    ∃ c, xs.foldlM f b = .ok c ∧ P c := by
  induction xs generalizing b with
  | nil => exact ⟨b, rfl, start⟩
  | cons x xs ih =>
    obtain ⟨next, first, kept⟩ := step b x start
    obtain ⟨c, rest, last⟩ := ih kept
    exact ⟨c, by rw [List.foldlM_cons, first, ok_bind, rest], last⟩

section Word

variable {w : Nat}

def add (x y : BitVec w) : Exec (BitVec w) :=
  if x.toNat + y.toNat < 2 ^ w then .ok (x + y) else .error .overflow

def sub (x y : BitVec w) : Exec (BitVec w) :=
  if y.toNat ≤ x.toNat then .ok (x - y) else .error .overflow

def mul (x y : BitVec w) : Exec (BitVec w) :=
  if x.toNat * y.toNat < 2 ^ w then .ok (x * y) else .error .overflow

def div (x y : BitVec w) : Exec (BitVec w) :=
  if y.toNat = 0 then .error .divideByZero else .ok (x / y)

def checkedAdd (x y : BitVec w) : Option (BitVec w) :=
  if x.toNat + y.toNat < 2 ^ w then some (x + y) else none

def checkedMul (x y : BitVec w) : Option (BitVec w) :=
  if x.toNat * y.toNat < 2 ^ w then some (x * y) else none

def saturatingAdd (x y : BitVec w) : BitVec w :=
  if x.toNat + y.toNat < 2 ^ w then x + y else BitVec.allOnes w

def saturatingSub (x y : BitVec w) : BitVec w :=
  if y.toNat ≤ x.toNat then x - y else 0

theorem add_toNat {x y : BitVec w} (fits : x.toNat + y.toNat < 2 ^ w) :
    (x + y).toNat = x.toNat + y.toNat := by
  rw [BitVec.toNat_add, Nat.mod_eq_of_lt fits]

theorem sub_toNat {x y : BitVec w} (fits : y.toNat ≤ x.toNat) :
    (x - y).toNat = x.toNat - y.toNat :=
  BitVec.toNat_sub_of_le fits

theorem mul_toNat {x y : BitVec w} (fits : x.toNat * y.toNat < 2 ^ w) :
    (x * y).toNat = x.toNat * y.toNat := by
  rw [BitVec.toNat_mul, Nat.mod_eq_of_lt fits]

/-- The word below `2 ^ w` is the sum itself, so no separate bound is carried. -/
theorem add_eq_ok {x y z : BitVec w} : add x y = .ok z ↔ z.toNat = x.toNat + y.toNat := by
  unfold add
  split
  next fits =>
    rw [Except.ok.injEq]
    constructor
    · rintro rfl; exact add_toNat fits
    · intro h; exact BitVec.eq_of_toNat_eq ((add_toNat fits).trans h.symm)
  next overflow =>
    have := z.isLt
    simp only [reduceCtorEq, false_iff]
    omega

theorem sub_eq_ok {x y z : BitVec w} : sub x y = .ok z ↔ z.toNat + y.toNat = x.toNat := by
  unfold sub
  split
  next fits =>
    rw [Except.ok.injEq]
    have value := sub_toNat fits
    constructor
    · rintro rfl; omega
    · intro h; exact BitVec.eq_of_toNat_eq (by omega)
  next overflow =>
    simp only [reduceCtorEq, false_iff]
    omega

theorem mul_eq_ok {x y z : BitVec w} : mul x y = .ok z ↔ z.toNat = x.toNat * y.toNat := by
  unfold mul
  split
  next fits =>
    rw [Except.ok.injEq]
    constructor
    · rintro rfl; exact mul_toNat fits
    · intro h; exact BitVec.eq_of_toNat_eq ((mul_toNat fits).trans h.symm)
  next overflow =>
    have := z.isLt
    simp only [reduceCtorEq, false_iff]
    omega

theorem div_eq_ok {x y z : BitVec w} :
    div x y = .ok z ↔ y.toNat ≠ 0 ∧ z.toNat = x.toNat / y.toNat := by
  unfold div
  split
  next zero => simp [zero]
  next nonzero =>
    rw [Except.ok.injEq]
    constructor
    · rintro rfl; exact ⟨nonzero, BitVec.toNat_udiv⟩
    · intro h; exact BitVec.eq_of_toNat_eq (BitVec.toNat_udiv.trans h.2.symm)

theorem eq_of_add {x y z : BitVec w} (h : add x y = .ok z) : z = x + y := by
  unfold add at h
  split at h
  next => cases h; rfl
  next => cases h

theorem eq_of_sub {x y z : BitVec w} (h : sub x y = .ok z) : z = x - y := by
  unfold sub at h
  split at h
  next => cases h; rfl
  next => cases h

theorem add_returns {x y : BitVec w} : Returns (add x y) ↔ x.toNat + y.toNat < 2 ^ w := by
  unfold add
  split <;> simp_all

/-- A loop of additions gives the sum, or panics where no word holds it. -/
theorem foldlM_add_eq_ok {xs : List (BitVec w)} {start z : BitVec w} :
    xs.foldlM add start = .ok z ↔ z.toNat = start.toNat + (xs.map BitVec.toNat).sum := by
  induction xs generalizing start with
  | nil =>
    rw [List.foldlM_nil, pure_eq_ok, List.map_nil, List.sum_nil, Nat.add_zero, BitVec.toNat_inj]
    exact eq_comm
  | cons x xs ih =>
    rw [List.foldlM_cons, bind_eq_ok, List.map_cons, List.sum_cons, ← Nat.add_assoc]
    constructor
    · rintro ⟨next, first, rest⟩
      rw [← add_eq_ok.mp first]
      exact ih.mp rest
    · intro sum
      have bound := z.isLt
      have room : start.toNat + x.toNat < 2 ^ w := by omega
      refine ⟨start + x, if_pos room, ih.mpr ?_⟩
      rw [add_toNat room, sum]

theorem sub_returns {x y : BitVec w} : Returns (sub x y) ↔ y.toNat ≤ x.toNat := by
  unfold sub
  split <;> simp_all

theorem mul_returns {x y : BitVec w} : Returns (mul x y) ↔ x.toNat * y.toNat < 2 ^ w := by
  unfold mul
  split <;> simp_all

theorem div_returns {x y : BitVec w} : Returns (div x y) ↔ y.toNat ≠ 0 := by
  unfold div
  split <;> simp_all

theorem checkedAdd_eq_some {x y z : BitVec w} :
    checkedAdd x y = some z ↔ z.toNat = x.toNat + y.toNat := by
  unfold checkedAdd
  split
  next fits =>
    rw [Option.some.injEq]
    constructor
    · rintro rfl; exact add_toNat fits
    · intro h; exact BitVec.eq_of_toNat_eq ((add_toNat fits).trans h.symm)
  next overflow =>
    have := z.isLt
    simp only [reduceCtorEq, false_iff]
    omega

theorem checkedAdd_eq_none {x y : BitVec w} :
    checkedAdd x y = none ↔ 2 ^ w ≤ x.toNat + y.toNat := by
  unfold checkedAdd
  split <;> simp_all

theorem checkedMul_of_lt {x y : BitVec w} (fits : x.toNat * y.toNat < 2 ^ w) :
    checkedMul x y = some (x * y) := by
  simp [checkedMul, fits]

theorem saturatingAdd_toNat (x y : BitVec w) :
    (saturatingAdd x y).toNat = min (x.toNat + y.toNat) (2 ^ w - 1) := by
  unfold saturatingAdd
  split
  next fits => rw [add_toNat fits]; omega
  next overflow => rw [BitVec.toNat_allOnes]; omega

/-- A saturating sum is the sum, cut off at the largest word. -/
theorem foldl_saturatingAdd_toNat (xs : List α) (f : α → BitVec w) (start : BitVec w) :
    (xs.foldl (fun sum x => saturatingAdd sum (f x)) start).toNat =
      min (start.toNat + (xs.map fun x => (f x).toNat).sum) (2 ^ w - 1) := by
  induction xs generalizing start with
  | nil =>
    have := start.isLt
    simp
    omega
  | cons x xs ih =>
    rw [List.foldl_cons, ih, saturatingAdd_toNat, List.map_cons, List.sum_cons]
    omega

theorem saturatingSub_toNat (x y : BitVec w) :
    (saturatingSub x y).toNat = x.toNat - y.toNat := by
  unfold saturatingSub
  split
  next fits => exact sub_toNat fits
  next overflow =>
    have : x.toNat - y.toNat = 0 := by omega
    simp [this]

theorem saturatingSub_of_toNat {x y z : BitVec w} (sum : z.toNat = x.toNat + y.toNat) :
    saturatingSub z y = x := by
  apply BitVec.eq_of_toNat_eq
  rw [saturatingSub_toNat, sum, Nat.add_sub_cancel]

end Word

end Rust
