import Mononium.Lib.Text

/-! Hexadecimal digits in either case. A decoder takes the digits of some bytes up to case, and
nothing else. What begins a text in bytes begins it in characters too. -/
namespace Rust

open Scale

/-- `u8::to_ascii_lowercase`. -/
def toAsciiLowercase (byte : UInt8) : UInt8 := if 65 ≤ byte ∧ byte ≤ 90 then byte + 32 else byte

section

variable (byte : UInt8)

set_option maxRecDepth 8192 in
/-- A byte that is read as a digit is one, up to case. -/
theorem hexValue_digit : ∀ n < 256, (hexValue (UInt8.ofNat n)).all fun v =>
    v.toNat < 16 ∧ [toAsciiLowercase (UInt8.ofNat n)] = String.utf8EncodeChar (hexDigit v.toNat) := by
  decide

set_option maxRecDepth 8192 in
theorem hexValue_lowercase : ∀ n < 256,
    hexValue (toAsciiLowercase (UInt8.ofNat n)) = hexValue (UInt8.ofNat n) := by
  decide

theorem hexValue_eq_some {v : UInt8} :
    hexValue byte = some v ↔
      v.toNat < 16 ∧ [toAsciiLowercase byte] = String.utf8EncodeChar (hexDigit v.toNat) := by
  have digit := hexValue_digit byte.toNat byte.toNat_lt
  have lowercase := hexValue_lowercase byte.toNat byte.toNat_lt
  rw [UInt8.ofNat_toNat] at digit lowercase
  constructor
  · intro value
    rw [value] at digit
    simpa using digit
  · rintro ⟨small, spelled⟩
    have value := hexValue_hexDigit v.toNat small
    rw [← spelled, List.map_singleton, List.singleton_inj, lowercase, UInt8.ofNat_toNat] at value
    exact value

end

theorem hexPair_eq {high low h l : UInt8} (first : hexValue high = some h)
    (second : hexValue low = some l) :
    hexPair (16 * h + l) = [toAsciiLowercase high, toAsciiLowercase low] := by
  obtain ⟨smallH, spelledH⟩ := (hexValue_eq_some high).mp first
  obtain ⟨smallL, spelledL⟩ := (hexValue_eq_some low).mp second
  have value : (16 * h + l).toNat = 16 * h.toNat + l.toNat := by
    rw [UInt8.toNat_add, UInt8.toNat_mul]
    simp only [UInt8.reduceToNat]
    omega
  rw [hexPair, value, show (16 * h.toNat + l.toNat) / 16 = h.toNat by omega,
    show (16 * h.toNat + l.toNat) % 16 = l.toNat by omega, ← spelledH, ← spelledL]
  rfl

theorem toOption_map (x : Except ε α) (f : α → β) : (x.map f).toOption = x.toOption.map f := by
  cases x <;> rfl

theorem toOption_eq_some {x : Except ε α} {a : α} : x.toOption = some a ↔ x = .ok a := by
  cases x <;> simp [Except.toOption]

/-- What is decoded stood there, up to case. -/
theorem lowercase_of_hexPairs {position : Nat} {text bytes : Bytes}
    (decoded : hexPairs position text = .ok bytes) :
    text.map toAsciiLowercase = bytes.flatMap hexPair := by
  induction position, text using hexPairs.induct generalizing bytes with
  | case1 position =>
    cases decoded
    rfl
  | case2 position odd => cases decoded
  | case3 position high low rest first =>
    rw [hexPairs, first] at decoded
    cases decoded
  | case4 position high low rest h second first =>
    rw [hexPairs, first, second] at decoded
    cases decoded
  | case5 position high low rest h l second first ih =>
    rw [hexPairs, first, second] at decoded
    cases tail : hexPairs (position + 2) rest with
    | error e =>
      rw [tail] at decoded
      cases decoded
    | ok more =>
      rw [tail] at decoded
      cases decoded
      rw [List.flatMap_cons, hexPair_eq first second, ← ih tail]
      rfl

/-- The case of the digits does not matter. -/
theorem hexPairs_map_lowercase (position : Nat) (text : Bytes) :
    (hexPairs position (text.map toAsciiLowercase)).toOption = (hexPairs position text).toOption := by
  have value (byte : UInt8) : hexValue (toAsciiLowercase byte) = hexValue byte := by
    simpa using hexValue_lowercase byte.toNat byte.toNat_lt
  induction position, text using hexPairs.induct with
  | case1 position => rfl
  | case2 position odd => rfl
  | case3 position high low rest first =>
    rw [List.map_cons, List.map_cons, hexPairs, hexPairs, value, first]
    rfl
  | case4 position high low rest h second first =>
    rw [List.map_cons, List.map_cons, hexPairs, hexPairs, value, value, first, second]
    rfl
  | case5 position high low rest h l second first ih =>
    rw [List.map_cons, List.map_cons, hexPairs, hexPairs, value, value, first, second]
    rw [toOption_map, toOption_map, ih]

theorem hexPairs_eq_ok {position : Nat} {text bytes : Bytes} :
    hexPairs position text = .ok bytes ↔ text.map toAsciiLowercase = bytes.flatMap hexPair := by
  refine ⟨lowercase_of_hexPairs, fun digits => ?_⟩
  rw [← toOption_eq_some, ← hexPairs_map_lowercase, digits, hexPairs_digits]
  rfl

/-- A decoder takes the digits of the bytes in either case, and nothing else. -/
theorem hexDecodeBytes_eq_ok {text bytes : Bytes} :
    hexDecodeBytes text = .ok bytes ↔ text.map toAsciiLowercase = utf8 (hexEncode bytes) := by
  rw [hexDecodeBytes]
  by_cases odd : text.length % 2 = 1
  · rw [if_pos odd]
    simp only [reduceCtorEq, false_iff]
    intro digits
    have length := congrArg List.length digits
    rw [List.length_map, utf8_hexEncode_length] at length
    omega
  · rw [if_neg odd, hexPairs_eq_ok, utf8_hexEncode]

theorem length_of_hexDecodeBytes {text bytes : Bytes} (decoded : hexDecodeBytes text = .ok bytes) :
    text.length = 2 * bytes.length := by
  have length := congrArg List.length (hexDecodeBytes_eq_ok.mp decoded)
  rwa [List.length_map, utf8_hexEncode_length] at length

set_option maxRecDepth 4096 in
theorem lowercase_ascii : ∀ n < 128,
    (String.utf8EncodeChar (Char.ofNat n)).map toAsciiLowercase =
      String.utf8EncodeChar (Char.ofNat n).toLower := by decide

theorem toLower_of_not_ascii {c : Char} (large : 128 ≤ c.toNat) : c.toLower = c := by
  have above : ¬(c.val ≥ 'A'.val ∧ c.val ≤ 'Z'.val) := by
    rintro ⟨-, upper⟩
    have small : c.toNat ≤ 90 := upper
    omega
  exact dif_neg above

theorem utf8EncodeChar_toLower (c : Char) :
    (String.utf8EncodeChar c).map toAsciiLowercase = String.utf8EncodeChar c.toLower := by
  rcases Nat.lt_or_ge c.toNat 128 with small | large
  · have ascii := lowercase_ascii c.toNat small
    rwa [Char.ofNat_toNat] at ascii
  · obtain ⟨first, rest, spelled, high, more⟩ := utf8EncodeChar_of_not_ascii large
    have unchanged {b : UInt8} (above : 128 ≤ b.toNat) : toAsciiLowercase b = b := by
      apply if_neg
      rintro ⟨-, upper⟩
      have small : b.toNat ≤ 90 := upper
      omega
    rw [toLower_of_not_ascii large, spelled, List.map_cons, unchanged (by omega)]
    congr 1
    calc rest.map toAsciiLowercase
      _ = rest.map id := List.map_congr_left fun b member => unchanged (more b member)
      _ = rest := List.map_id rest

/-- A text is put into lower case byte by byte. -/
theorem utf8_toLower (chars : List Char) :
    (utf8 (String.ofList chars)).map toAsciiLowercase =
      utf8 (String.ofList (chars.map Char.toLower)) := by
  simp only [utf8_ofList, List.map_flatMap, utf8EncodeChar_toLower, List.flatMap_map]

/-- The bytes tell the characters. -/
theorem utf8_injective {s t : String} (same : utf8 s = utf8 t) : s = t := by
  rw [utf8, utf8] at same
  apply String.toByteArray_inj.mp
  exact ByteArray.ext (Array.toList_inj.mp same)

theorem prefix_of_utf8 {text chars : List Char}
    (begins : utf8 (String.ofList text) <+: utf8 (String.ofList chars)) : text <+: chars := by
  obtain ⟨rest, whole⟩ := begins
  apply List.isPrefix_of_utf8Encode_append_eq_utf8Encode ⟨rest.toArray⟩
  apply ByteArray.ext
  apply Array.toList_inj.mp
  simpa [utf8] using whole

/-- Bytes below 128 are a text. -/
theorem exists_utf8_of_ascii {bytes : Bytes} (ascii : ∀ b ∈ bytes, b.toNat < 128) :
    ∃ chars, utf8 (String.ofList chars) = bytes := by
  refine ⟨bytes.map fun b => Char.ofNat b.toNat, ?_⟩
  rw [utf8_ofList]
  induction bytes with
  | nil => rfl
  | cons b bytes ih =>
    rw [List.forall_mem_cons] at ascii
    have valid : b.toNat.isValidChar := .inl (by omega)
    have number : (Char.ofNat b.toNat).toNat = b.toNat := by
      rw [Char.ofNat, dif_pos valid]
      rfl
    rw [List.map_cons, List.flatMap_cons, ih ascii.2,
      utf8EncodeChar_of_ascii (by rw [number]; exact ascii.1), number, UInt8.ofNat_toNat]
    rfl

theorem lt_of_toAsciiLowercase_lt {b : UInt8} (small : (toAsciiLowercase b).toNat < 128) :
    b.toNat < 128 := by
  rw [toAsciiLowercase] at small
  split at small
  next upper =>
    have below : b.toNat ≤ 90 := upper.2
    omega
  next => exact small

/-- A character starts where a text ends. -/
theorem isCharBoundary_append (s t : String) :
    isCharBoundary (utf8 s ++ utf8 t) (utf8 s).length = true := by
  have after : (utf8 s ++ utf8 t)[(utf8 s).length]? = (utf8 t)[0]? := by
    rw [List.getElem?_append_right (Nat.le_refl _), Nat.sub_self]
  rw [isCharBoundary, after, ← String.ofList_toList (s := t), utf8_ofList]
  cases t.toList with
  | nil => simp [utf8]
  | cons c chars =>
    rw [List.flatMap_cons]
    rcases Nat.lt_or_ge c.toNat 128 with small | large
    · rw [utf8EncodeChar_of_ascii small]
      apply decide_eq_true
      left
      rw [UInt8.lt_iff_toNat_lt, UInt8.toNat_ofNat', Nat.mod_eq_of_lt (by omega)]
      exact small
    · obtain ⟨first, rest, spelled, high, -⟩ := utf8EncodeChar_of_not_ascii large
      rw [spelled]
      apply decide_eq_true
      right
      exact UInt8.le_iff_toNat_le.mpr high

theorem isCharBoundary_of_prefix {s t : String} (begins : utf8 t <+: utf8 s) :
    isCharBoundary (utf8 s) (utf8 t).length = true := by
  rw [← String.ofList_toList (s := s), ← String.ofList_toList (s := t)] at begins
  obtain ⟨rest, whole⟩ := prefix_of_utf8 begins
  rw [← String.ofList_toList (s := s), ← whole, String.ofList_append, utf8_append,
    String.ofList_toList]
  exact isCharBoundary_append t (String.ofList rest)

end Rust
