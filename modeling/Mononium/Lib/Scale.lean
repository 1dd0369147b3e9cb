import Mononium.Lib.Rust
import Mathlib.Logic.Equiv.Prod
import Mathlib.Tactic.Ring

/-! Length-free binary codecs in the SCALE format. A codec carries its own laws:
decoding undoes encoding in front of any suffix, and whatever decodes was the
encoding of the decoded value. Collections are prefixed with a compact 32-bit
count, so an encoder can meet a value whose count it cannot write. -/
namespace Scale

open Rust

abbrev Bytes := List UInt8

structure FixedBytes (n : Nat) where
  bytes : Bytes
  length : bytes.length = n
  deriving DecidableEq, Repr

namespace FixedBytes

theorem ext {a b : FixedBytes n} (same : a.bytes = b.bytes) : a = b := by
  cases a; cases b; simp_all

def replicate (n : Nat) (byte : UInt8) : FixedBytes n := ⟨List.replicate n byte, List.length_replicate⟩

end FixedBytes

def leBytes : Nat → Nat → Bytes
  | 0, _ => []
  | n + 1, x => UInt8.ofNat x :: leBytes n (x / 256)

def leValue : Bytes → Nat
  | [] => 0
  | byte :: rest => byte.toNat + 256 * leValue rest

@[simp] theorem leBytes_length (n x : Nat) : (leBytes n x).length = n := by
  induction n generalizing x with
  | zero => rfl
  | succ n ih => simp [leBytes, ih]

theorem leValue_leBytes (n x : Nat) (bound : x < 256 ^ n) : leValue (leBytes n x) = x := by
  induction n generalizing x with
  | zero => simp at bound; simp [leBytes, leValue, bound]
  | succ n ih =>
    have quotient : x / 256 < 256 ^ n := by
      rw [Nat.div_lt_iff_lt_mul (by decide)]
      rwa [Nat.pow_succ] at bound
    simp only [leBytes, leValue, ih _ quotient, UInt8.toNat_ofNat']
    omega

theorem leValue_lt (bytes : Bytes) : leValue bytes < 256 ^ bytes.length := by
  induction bytes with
  | nil => simp [leValue]
  | cons byte rest ih =>
    have := byte.toNat_lt
    simp only [leValue, List.length_cons, Nat.pow_succ]
    omega

theorem leBytes_leValue (bytes : Bytes) : leBytes bytes.length (leValue bytes) = bytes := by
  induction bytes with
  | nil => rfl
  | cons byte rest ih =>
    have bound := byte.toNat_lt
    have quotient : (byte.toNat + 256 * leValue rest) / 256 = leValue rest := by omega
    simp only [List.length_cons, leBytes, leValue, quotient, ih, List.cons.injEq, and_true]
    apply UInt8.toNat_inj.mp
    simp only [UInt8.toNat_ofNat']
    omega

def takeExact (n : Nat) (input : Bytes) : Option (FixedBytes n × Bytes) :=
  if h : n ≤ input.length then some (⟨input.take n, by simp [h]⟩, input.drop n) else none

theorem takeExact_append (a : FixedBytes n) (rest : Bytes) :
    takeExact n (a.bytes ++ rest) = some (a, rest) := by
  have bound : n ≤ (a.bytes ++ rest).length := by simp [a.length]
  simp only [takeExact, bound, ↓reduceDIte, Option.some.injEq, Prod.mk.injEq]
  exact ⟨FixedBytes.ext (List.take_left' a.length), List.drop_left' a.length⟩

theorem takeExact_eq_some {input rest : Bytes} {a : FixedBytes n}
    (taken : takeExact n input = some (a, rest)) : input = a.bytes ++ rest := by
  unfold takeExact at taken
  split at taken
  next bound =>
    simp only [Option.some.injEq, Prod.mk.injEq] at taken
    obtain ⟨rfl, rfl⟩ := taken
    simp
  next short => cases taken

/-- `fits` says that every count inside the value can be written. -/
structure Codec (α : Type) where
  encode : α → Bytes
  fits : α → Bool
  decode : Bytes → Option (α × Bytes)
  decode_encode : ∀ {a}, fits a = true → ∀ rest, decode (encode a ++ rest) = some (a, rest)
  encode_decode : ∀ {input a rest}, decode input = some (a, rest) →
    fits a = true ∧ input = encode a ++ rest

namespace Codec

/-- Encoding as the library performs it: a count that cannot be written panics. -/
def write (c : Codec α) (a : α) : Exec Bytes :=
  if c.fits a then .ok (c.encode a) else .error (.expect "Compact encodes length")

theorem write_eq_ok {c : Codec α} {a : α} {bytes : Bytes} :
    c.write a = .ok bytes ↔ c.fits a = true ∧ c.encode a = bytes := by
  unfold write
  split <;> simp_all

theorem write_of_fits {c : Codec α} {a : α} (fits : c.fits a = true) :
    c.write a = .ok (c.encode a) := write_eq_ok.mpr ⟨fits, rfl⟩

theorem mapM_write {c : Codec α} {xs : List α} (fits : ∀ a ∈ xs, c.fits a = true) :
    xs.mapM c.write = .ok (xs.map c.encode) := by
  induction xs with
  | nil => rfl
  | cons a rest ih =>
    have later : ∀ b ∈ rest, c.fits b = true := fun b member => fits b (List.mem_cons_of_mem _ member)
    rw [List.mapM_cons, write_of_fits (fits a List.mem_cons_self), ok_bind, ih later]
    rfl

theorem mapM_write_error {c : Codec α} {xs : List α} (overlong : ¬∀ a ∈ xs, c.fits a = true) :
    xs.mapM c.write = .error (.expect "Compact encodes length") := by
  induction xs with
  | nil => simp at overlong
  | cons a xs ih =>
    rw [List.mapM_cons]
    by_cases fits : c.fits a = true
    · have later : ¬∀ b ∈ xs, c.fits b = true := fun all => overlong (List.forall_mem_cons.mpr ⟨fits, all⟩)
      rw [write_of_fits fits, ok_bind, ih later]
      rfl
    · rw [write, if_neg fits]
      rfl

theorem mapM_write_eq_ok {c : Codec α} {xs : List α} {encoded : List Bytes}
    (written : xs.mapM c.write = .ok encoded) :
    (∀ a ∈ xs, c.fits a = true) ∧ encoded = xs.map c.encode := by
  induction xs generalizing encoded with
  | nil =>
    cases written
    simp
  | cons a rest ih =>
    rw [List.mapM_cons] at written
    obtain ⟨bytes, first, written⟩ := bind_eq_ok.mp written
    obtain ⟨others, later, written⟩ := bind_eq_ok.mp written
    cases pure_eq_ok.mp written
    obtain ⟨fits, rfl⟩ := write_eq_ok.mp first
    obtain ⟨allFit, rfl⟩ := ih later
    exact ⟨List.forall_mem_cons.mpr ⟨fits, allFit⟩, rfl⟩

/-- What both ends of a wire rely on. A value is written exactly when it is `encodable`;
whatever follows its bytes is left alone by the reader, and a value has one encoding. -/
structure Canonical (c : Codec α) (encodable : α → Prop) : Prop where
  reads : ∀ a, encodable a → ∃ bytes, c.write a = .ok bytes ∧
    ∀ rest, c.decode (bytes ++ rest) = some (a, rest)
  refuses : ∀ a, ¬encodable a → ¬Returns (c.write a)
  unique : ∀ input a rest, c.decode input = some (a, rest) →
    ∃ bytes, c.write a = .ok bytes ∧ input = bytes ++ rest

theorem canonical_of_fits {c : Codec α} {encodable : α → Prop}
    (fits : ∀ a, c.fits a = true ↔ encodable a) : c.Canonical encodable where
  reads a small := by
    have written := (fits a).mpr small
    exact ⟨c.encode a, write_of_fits written, c.decode_encode written⟩
  refuses a large := by
    rintro ⟨bytes, written⟩
    exact large ((fits a).mp (write_eq_ok.mp written).1)
  unique input a rest read := by
    obtain ⟨small, split⟩ := c.encode_decode read
    exact ⟨c.encode a, write_of_fits small, split⟩

theorem decode_encode_nil (c : Codec α) {a : α} (fits : c.fits a = true) :
    c.decode (c.encode a) = some (a, []) := by
  simpa using c.decode_encode fits []

theorem encode_append_injective (c : Codec α) {a b : α} (ha : c.fits a = true)
    (hb : c.fits b = true) {r t : Bytes} (same : c.encode a ++ r = c.encode b ++ t) :
    a = b ∧ r = t := by
  have first := c.decode_encode ha r
  rw [same, c.decode_encode hb t] at first
  simp only [Option.some.injEq, Prod.mk.injEq] at first
  exact ⟨first.1.symm, first.2.symm⟩

theorem encode_injective (c : Codec α) {a b : α} (ha : c.fits a = true) (hb : c.fits b = true)
    (same : c.encode a = c.encode b) : a = b :=
  (c.encode_append_injective ha hb (r := []) (t := []) (by simpa using same)).1

/-- Encodings that stand back to back are told apart without a separator, as none is empty. -/
theorem flatMap_encode_injective (c : Codec α) (occupied : ∀ a, c.encode a ≠ []) {xs ys : List α}
    (hx : ∀ a ∈ xs, c.fits a = true) (hy : ∀ a ∈ ys, c.fits a = true)
    (same : xs.flatMap c.encode = ys.flatMap c.encode) : xs = ys := by
  induction xs generalizing ys with
  | nil =>
    cases ys with
    | nil => rfl
    | cons b ys =>
      have empty := (List.append_eq_nil_iff.mp same.symm).1
      exact absurd empty (occupied b)
  | cons a xs ih =>
    cases ys with
    | nil => exact absurd (List.append_eq_nil_iff.mp same).1 (occupied a)
    | cons b ys =>
      rw [List.forall_mem_cons] at hx hy
      rw [List.flatMap_cons, List.flatMap_cons] at same
      obtain ⟨rfl, rest⟩ := c.encode_append_injective hx.1 hy.1 same
      rw [ih hx.2 hy.2 rest]

/-- One complete encoding stands at the front of both inputs. -/
def StartAlike (c : Codec α) (x y : Bytes) : Prop :=
  ∃ a bytes, c.write a = .ok bytes ∧ bytes <+: x ∧ bytes <+: y

/-- A reader that stops at the end of a value sees only the encoding in front. -/
theorem same_iff_startAlike (c : Codec α) {x y r t : Bytes} {a b : α}
    (left : c.decode x = some (a, r)) (right : c.decode y = some (b, t)) :
    a = b ↔ c.StartAlike x y := by
  obtain ⟨ha, rfl⟩ := c.encode_decode left
  obtain ⟨hb, rfl⟩ := c.encode_decode right
  constructor
  · rintro rfl
    exact ⟨a, c.encode a, write_of_fits ha, List.prefix_append _ _, List.prefix_append _ _⟩
  · rintro ⟨m, bytes, written, ⟨_, first⟩, ⟨_, second⟩⟩
    obtain ⟨hm, rfl⟩ := write_eq_ok.mp written
    have here := (c.encode_append_injective hm ha first).1
    have there := (c.encode_append_injective hm hb second).1
    exact here.symm.trans there

def unit : Codec Unit where
  encode _ := []
  fits _ := true
  decode input := some ((), input)
  decode_encode _ rest := rfl
  encode_decode h := by simp_all

def fixed (n : Nat) : Codec (FixedBytes n) where
  encode a := a.bytes
  fits _ := true
  decode := takeExact n
  decode_encode _ rest := takeExact_append _ rest
  encode_decode h := ⟨rfl, takeExact_eq_some h⟩

/-- An unsigned word of `n` bytes, least significant byte first. -/
def word (n : Nat) : Codec (BitVec (8 * n)) where
  encode x := leBytes n x.toNat
  fits _ := true
  decode input := (takeExact n input).map fun (a, rest) => (BitVec.ofNat _ (leValue a.bytes), rest)
  decode_encode := by
    intro x _ rest
    have bound : x.toNat < 256 ^ n := by
      have := x.isLt
      rwa [Nat.pow_mul] at this
    have taken := takeExact_append ⟨leBytes n x.toNat, leBytes_length n _⟩ rest
    simp [taken, leValue_leBytes n _ bound]
  encode_decode := by
    intro input x rest h
    simp only [Option.map_eq_some_iff, Prod.mk.injEq, Prod.exists] at h
    obtain ⟨a, _, taken, rfl, rfl⟩ := h
    have bound := leValue_lt a.bytes
    rw [a.length, show 256 = 2 ^ 8 from rfl, ← Nat.pow_mul] at bound
    have canonical := leBytes_leValue a.bytes
    rw [a.length] at canonical
    simp only [BitVec.toNat_ofNat, Nat.mod_eq_of_lt bound, canonical, true_and]
    exact takeExact_eq_some taken

def pair (left : Codec α) (right : Codec β) : Codec (α × β) where
  encode p := left.encode p.1 ++ right.encode p.2
  fits p := left.fits p.1 && right.fits p.2
  decode input := do
    let (a, rest) ← left.decode input
    let (b, rest) ← right.decode rest
    return ((a, b), rest)
  decode_encode := by
    intro p fits rest
    simp only [Bool.and_eq_true] at fits
    simp [List.append_assoc, left.decode_encode fits.1, right.decode_encode fits.2]
  encode_decode := by
    intro input p rest h
    simp only [Option.bind_eq_bind, Option.bind_eq_some_iff, Prod.exists, Option.pure_def,
      Option.some.injEq, Prod.mk.injEq] at h
    obtain ⟨a, middle, first, b, _, second, rfl, rfl⟩ := h
    obtain ⟨ha, rfl⟩ := left.encode_decode first
    obtain ⟨hb, rfl⟩ := right.encode_decode second
    simp [ha, hb]

/-- The payload's codec depends on the value read before it, as in a tagged union. -/
def sigma {β : α → Type} (tag : Codec α) (payload : (a : α) → Codec (β a)) :
    Codec ((a : α) × β a) where
  encode p := tag.encode p.1 ++ (payload p.1).encode p.2
  fits p := tag.fits p.1 && (payload p.1).fits p.2
  decode input := do
    let (a, rest) ← tag.decode input
    let (b, rest) ← (payload a).decode rest
    return (⟨a, b⟩, rest)
  decode_encode := by
    intro p fits rest
    simp only [Bool.and_eq_true] at fits
    simp [List.append_assoc, tag.decode_encode fits.1, (payload p.1).decode_encode fits.2]
  encode_decode := by
    intro input p rest h
    simp only [Option.bind_eq_bind, Option.bind_eq_some_iff, Prod.exists, Option.pure_def,
      Option.some.injEq, Prod.mk.injEq] at h
    obtain ⟨a, middle, first, b, _, second, rfl, rfl⟩ := h
    obtain ⟨ha, rfl⟩ := tag.encode_decode first
    obtain ⟨hb, rfl⟩ := (payload a).encode_decode second
    simp [ha, hb]

def iso (c : Codec α) (e : α ≃ β) : Codec β where
  encode b := c.encode (e.symm b)
  fits b := c.fits (e.symm b)
  decode input := (c.decode input).map fun (a, rest) => (e a, rest)
  decode_encode := by
    intro b fits rest
    simp [c.decode_encode fits]
  encode_decode := by
    intro input b rest h
    simp only [Option.map_eq_some_iff, Prod.mk.injEq, Prod.exists] at h
    obtain ⟨a, _, read, rfl, rfl⟩ := h
    simpa using c.encode_decode read

def byte : Codec UInt8 where
  encode b := [b]
  fits _ := true
  decode
    | [] => none
    | b :: rest => some (b, rest)
  decode_encode _ rest := rfl
  encode_decode := by
    intro input b rest h
    cases input with
    | nil => cases h
    | cons head tail => simp_all

/-- One byte naming a constructor; bytes that name none are refused. -/
def index (all : List α) (code : α → UInt8)
    (named : ∀ a, all.find? (fun other => code other == code a) = some a) : Codec α where
  encode a := [code a]
  fits _ := true
  decode
    | [] => none
    | head :: rest => (all.find? fun a => code a == head).map fun a => (a, rest)
  decode_encode := by
    intro a _ rest
    simp [named]
  encode_decode := by
    intro input a rest h
    cases input with
    | nil => cases h
    | cons head tail =>
      simp only [Option.map_eq_some_iff, Prod.mk.injEq] at h
      obtain ⟨_, found, rfl, rfl⟩ := h
      have code := List.find?_some found
      simp only [beq_iff_eq] at code
      simp [code]

def boolean : Codec Bool := index [false, true] (fun b => if b then 1 else 0) (by decide)

def option (c : Codec α) : Codec (Option α) where
  encode
    | none => [0]
    | some a => 1 :: c.encode a
  fits
    | none => true
    | some a => c.fits a
  decode
    | [] => none
    | byte :: rest =>
      if byte = 0 then some (none, rest)
      else if byte = 1 then (c.decode rest).map fun (a, rest) => (some a, rest)
      else none
  decode_encode := by
    intro a fits rest
    cases a with
    | none => simp
    | some a => simp [c.decode_encode fits]
  encode_decode := by
    intro input a rest h
    cases input with
    | nil => cases h
    | cons byte tail =>
      dsimp only at h
      split at h
      next zero => cases h; simp [zero]
      next =>
        split at h
        next one =>
          simp only [Option.map_eq_some_iff, Prod.mk.injEq, Prod.exists] at h
          obtain ⟨a, _, read, rfl, rfl⟩ := h
          obtain ⟨fits, rfl⟩ := c.encode_decode read
          exact ⟨fits, by simp [one]⟩
        next => cases h

/-- The two low bits of the first byte give the width of a compact count. -/
def compactBytes (n : Nat) : Bytes :=
  if n < 2 ^ 6 then leBytes 1 (4 * n)
  else if n < 2 ^ 14 then leBytes 2 (4 * n + 1)
  else if n < 2 ^ 30 then leBytes 4 (4 * n + 2)
  else 3 :: leBytes 4 n

/-- How many bytes a compact count takes. -/
def compactSize (n : Nat) : Nat :=
  if n < 2 ^ 6 then 1 else if n < 2 ^ 14 then 2 else if n < 2 ^ 30 then 4 else 5

theorem compactBytes_length (n : Nat) : (compactBytes n).length = compactSize n := by
  unfold compactBytes compactSize
  split
  next => exact leBytes_length 1 _
  next =>
    split
    next => exact leBytes_length 2 _
    next =>
      split
      next => exact leBytes_length 4 _
      next => simp

/-- The number left after `shift` mode bits; a count that would have fitted a
narrower mode is out of range, never accepted. -/
def compactWide (width shift least : Nat) (input : Bytes) : Option (Nat × Bytes) := do
  let (a, rest) ← takeExact width input
  let n := leValue a.bytes / shift
  if least ≤ n then some (n, rest) else none

def compactRead (input : Bytes) : Option (Nat × Bytes) :=
  match input with
  | [] => none
  | head :: rest =>
    if head.toNat % 4 = 0 then some (head.toNat / 4, rest)
    else if head.toNat % 4 = 1 then compactWide 2 4 (2 ^ 6) input
    else if head.toNat % 4 = 2 then compactWide 4 4 (2 ^ 14) input
    else if head.toNat / 4 = 0 then compactWide 4 1 (2 ^ 30) rest
    else none

theorem compactWide_leBytes (width shift least x : Nat) (rest : Bytes) (bound : x < 256 ^ width)
    (wide : least ≤ x / shift) :
    compactWide width shift least (leBytes width x ++ rest) = some (x / shift, rest) := by
  have taken := takeExact_append ⟨leBytes width x, leBytes_length width x⟩ rest
  simp [compactWide, taken, leValue_leBytes width x bound, wide]

theorem compactWide_eq_some {width shift least n : Nat} {input rest : Bytes}
    (read : compactWide width shift least input = some (n, rest)) :
    ∃ x < 256 ^ width, input = leBytes width x ++ rest ∧ n = x / shift ∧ least ≤ n := by
  simp only [compactWide, Option.bind_eq_bind, Option.bind_eq_some_iff, Prod.exists] at read
  obtain ⟨a, middle, taken, read⟩ := read
  split at read
  next wide =>
    simp only [Option.some.injEq, Prod.mk.injEq] at read
    obtain ⟨rfl, rfl⟩ := read
    have bound := leValue_lt a.bytes
    have canonical := leBytes_leValue a.bytes
    rw [a.length] at bound canonical
    exact ⟨leValue a.bytes, bound, by rw [canonical]; exact takeExact_eq_some taken, rfl, wide⟩
  next => cases read

theorem compactRead_compactBytes (n : Nat) (bound : n < 2 ^ 32) (rest : Bytes) :
    compactRead (compactBytes n ++ rest) = some (n, rest) := by
  unfold compactBytes
  split
  next small =>
    have low : 4 * n % 256 = 4 * n := by omega
    simp [compactRead, leBytes, low]
  next =>
    split
    next medium =>
      have low : (4 * n + 1) % 256 % 4 = 1 := by omega
      have read := compactWide_leBytes 2 4 (2 ^ 6) (4 * n + 1) rest (by omega) (by omega)
      have value : (4 * n + 1) / 4 = n := by omega
      rw [value] at read
      simpa [compactRead, leBytes, low] using read
    next =>
      split
      next large =>
        have low : (4 * n + 2) % 256 % 4 = 2 := by omega
        have read := compactWide_leBytes 4 4 (2 ^ 14) (4 * n + 2) rest (by omega) (by omega)
        have value : (4 * n + 2) / 4 = n := by omega
        rw [value] at read
        simpa [compactRead, leBytes, low] using read
      next =>
        have read := compactWide_leBytes 4 1 (2 ^ 30) n rest (by omega) (by omega)
        simpa [compactRead] using read

private theorem leBytes_head {width x : Nat} {head : UInt8} {tail rest : Bytes}
    (input : head :: tail = leBytes (width + 1) x ++ rest) : x % 4 = head.toNat % 4 := by
  simp only [leBytes, List.cons_append, List.cons.injEq] at input
  rw [input.1, UInt8.toNat_ofNat']
  omega

theorem compactBytes_of_read {input rest : Bytes} {n : Nat}
    (read : compactRead input = some (n, rest)) :
    n < 2 ^ 32 ∧ input = compactBytes n ++ rest := by
  cases input with
  | nil => cases read
  | cons head tail =>
    have headBound := head.toNat_lt
    simp only [compactRead] at read
    split at read
    next low =>
      simp only [Option.some.injEq, Prod.mk.injEq] at read
      obtain ⟨rfl, rfl⟩ := read
      have small : head.toNat / 4 < 2 ^ 6 := by omega
      have whole : 4 * (head.toNat / 4) = head.toNat := by omega
      refine ⟨by omega, ?_⟩
      rw [compactBytes, if_pos small]
      simp [leBytes, whole]
    next =>
      split at read
      next low =>
        obtain ⟨x, bound, input, rfl, wide⟩ := compactWide_eq_some read
        have bits := leBytes_head input
        have whole : 4 * (x / 4) + 1 = x := by omega
        refine ⟨by omega, ?_⟩
        rw [compactBytes, if_neg (by omega), if_pos (by omega), whole, input]
      next =>
        split at read
        next low =>
          obtain ⟨x, bound, input, rfl, wide⟩ := compactWide_eq_some read
          have bits := leBytes_head input
          have whole : 4 * (x / 4) + 2 = x := by omega
          refine ⟨by omega, ?_⟩
          rw [compactBytes, if_neg (by omega), if_neg (by omega), if_pos (by omega), whole, input]
        next =>
          split at read
          next zero =>
            obtain ⟨x, bound, rfl, rfl, wide⟩ := compactWide_eq_some read
            have mode : head = 3 := by
              apply UInt8.toNat_inj.mp
              change head.toNat = 3
              omega
            rw [Nat.div_one] at wide ⊢
            refine ⟨by omega, ?_⟩
            rw [compactBytes, if_neg (by omega), if_neg (by omega), if_neg (by omega), mode,
              List.cons_append]
          next => cases read

def compact : Codec Nat where
  encode := compactBytes
  fits n := n < 2 ^ 32
  decode := compactRead
  decode_encode fits rest := compactRead_compactBytes _ (by simpa using fits) rest
  encode_decode read := by simpa using compactBytes_of_read read

def decodeMany (c : Codec α) : Nat → Bytes → Option (List α × Bytes)
  | 0, input => some ([], input)
  | count + 1, input => do
    let (a, rest) ← c.decode input
    let (as, rest) ← decodeMany c count rest
    return (a :: as, rest)

theorem decodeMany_encode (c : Codec α) (as : List α) (fits : as.all c.fits = true) (rest : Bytes) :
    decodeMany c as.length (as.flatMap c.encode ++ rest) = some (as, rest) := by
  induction as with
  | nil => rfl
  | cons a as ih =>
    simp only [List.all_cons, Bool.and_eq_true] at fits
    simp [decodeMany, c.decode_encode fits.1, ih fits.2]

theorem encode_decodeMany (c : Codec α) {count : Nat} {input rest : Bytes} {as : List α}
    (read : decodeMany c count input = some (as, rest)) :
    as.length = count ∧ as.all c.fits = true ∧ input = as.flatMap c.encode ++ rest := by
  induction count generalizing input as with
  | zero =>
    simp only [decodeMany, Option.some.injEq, Prod.mk.injEq] at read
    obtain ⟨rfl, rfl⟩ := read
    simp
  | succ count ih =>
    simp only [decodeMany, Option.bind_eq_bind, Option.bind_eq_some_iff, Prod.exists,
      Option.pure_def, Option.some.injEq, Prod.mk.injEq] at read
    obtain ⟨a, middle, first, more, _, later, rfl, rfl⟩ := read
    obtain ⟨fits, rfl⟩ := c.encode_decode first
    obtain ⟨length, others, rfl⟩ := ih later
    simp [length, fits, others]

/-- A counted sequence. Counts of `2 ^ 32` and more cannot be written. -/
def vec (c : Codec α) : Codec (List α) where
  encode as := compact.encode as.length ++ as.flatMap c.encode
  fits as := compact.fits as.length && as.all c.fits
  decode input := do
    let (count, rest) ← compact.decode input
    decodeMany c count rest
  decode_encode := by
    intro as fits rest
    simp only [Bool.and_eq_true] at fits
    simp [List.append_assoc, compact.decode_encode fits.1, decodeMany_encode c as fits.2]
  encode_decode := by
    intro input as rest h
    simp only [Option.bind_eq_bind, Option.bind_eq_some_iff, Prod.exists] at h
    obtain ⟨count, middle, first, later⟩ := h
    obtain ⟨fits, rfl⟩ := compact.encode_decode first
    obtain ⟨rfl, others, rfl⟩ := encode_decodeMany c later
    simp [fits, others]

/-- Every value takes `n` bytes, and any `n` bytes are a value. -/
structure Sized (c : Codec α) (n : Nat) : Prop where
  length : ∀ a, (c.encode a).length = n
  total : ∀ input, n ≤ input.length → ∃ a rest, c.decode input = some (a, rest)

theorem Sized.exists_encode {c : Codec α} (sized : c.Sized n) {bytes : Bytes}
    (length : bytes.length = n) : ∃ a, c.encode a = bytes := by
  obtain ⟨a, rest, read⟩ := sized.total bytes length.ge
  obtain ⟨-, split⟩ := c.encode_decode read
  have nothing : rest.length = 0 := by
    have lengths := congrArg List.length split
    rw [List.length_append, sized.length a] at lengths
    omega
  rw [List.length_eq_zero_iff.mp nothing, List.append_nil] at split
  exact ⟨a, split.symm⟩

theorem takeExact_total {input : Bytes} (long : n ≤ input.length) :
    ∃ a, takeExact n input = some (a, input.drop n) :=
  ⟨⟨input.take n, by simp [long]⟩, by rw [takeExact, dif_pos long]⟩

theorem sized_fixed (n : Nat) : (fixed n).Sized n where
  length a := a.length
  total input long := by
    obtain ⟨a, taken⟩ := takeExact_total long
    exact ⟨a, input.drop n, taken⟩

theorem sized_word (n : Nat) : (word n).Sized n where
  length x := leBytes_length n _
  total input long := by
    obtain ⟨a, taken⟩ := takeExact_total long
    exact ⟨BitVec.ofNat _ (leValue a.bytes), input.drop n, by simp [word, taken]⟩

theorem Sized.pair {left : Codec α} {right : Codec β} (first : left.Sized n) (second : right.Sized m) :
    (Codec.pair left right).Sized (n + m) where
  length p := by
    change (left.encode p.1 ++ right.encode p.2).length = n + m
    rw [List.length_append, first.length, second.length]
  total input long := by
    obtain ⟨a, rest, read⟩ := first.total input (by omega)
    obtain ⟨-, rfl⟩ := left.encode_decode read
    rw [List.length_append, first.length] at long
    obtain ⟨b, tail, more⟩ := second.total rest (by omega)
    exact ⟨(a, b), tail, by simp [Codec.pair, read, more]⟩

theorem Sized.iso {c : Codec α} (sized : c.Sized n) (e : α ≃ β) : (c.iso e).Sized n where
  length b := sized.length _
  total input long := by
    obtain ⟨a, rest, read⟩ := sized.total input long
    exact ⟨e a, rest, by simp [Codec.iso, read]⟩

theorem vec_encode_length (c : Codec α) (as : List α) :
    ((vec c).encode as).length = compactSize as.length + (as.map fun a => (c.encode a).length).sum := by
  change (compactBytes as.length ++ as.flatMap c.encode).length = _
  rw [List.length_append, compactBytes_length, List.length_flatMap]

theorem vec_fits_iff {c : Codec α} {as : List α} :
    (vec c).fits as = true ↔ as.length < 2 ^ 32 ∧ ∀ a ∈ as, c.fits a = true := by
  simp [vec, compact]

end Codec

end Scale
