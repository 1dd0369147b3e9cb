import Mononium.Lib.Scale

/-! Texts as bytes: the UTF-8 bytes of a string, slices of them, and hexadecimal digits that are
written and read. Keys made of a label and digits are told apart by their labels if no label is
a prefix of another. -/
namespace Rust

open Scale

def utf8 (s : String) : Bytes := s.toByteArray.data.toList

def hexDigit (value : Nat) : Char := if value < 10 then Char.ofNat (48 + value) else Char.ofNat (87 + value)

def hexEncode (bytes : Bytes) : String :=
  String.ofList (bytes.flatMap fun b => [hexDigit (b.toNat / 16), hexDigit (b.toNat % 16)])

theorem utf8_ofList (chars : List Char) :
    utf8 (String.ofList chars) = chars.flatMap String.utf8EncodeChar := by
  simp [utf8, List.utf8Encode]

theorem utf8EncodeChar_of_ascii {c : Char} (ascii : c.toNat < 128) :
    String.utf8EncodeChar c = [UInt8.ofNat c.toNat] := by
  rw [String.utf8EncodeChar]
  exact if_pos (Nat.le_of_lt_succ ascii)

/-- The first byte of two, three or four tells that more follow, and they tell that they do. -/
theorem utf8EncodeChar_of_not_ascii {c : Char} (large : 128 ≤ c.toNat) :
    ∃ byte rest, String.utf8EncodeChar c = byte :: rest ∧ 192 ≤ byte.toNat ∧
      ∀ b ∈ rest, 128 ≤ b.toNat := by
  have above : ¬c.val.toNat ≤ 127 := Nat.not_le.mpr large
  have first (n : Nat) (low : 192 ≤ n) (high : n < 256) : 192 ≤ (UInt8.ofNat n).toNat := by
    rw [UInt8.toNat_ofNat', Nat.mod_eq_of_lt high]
    exact low
  have more (n : Nat) : 128 ≤ (n % 64 + 128) % 256 := by omega
  rw [String.utf8EncodeChar, if_neg above]
  split
  next => exact ⟨_, _, rfl, first _ (by omega) (by omega), by simp [more]⟩
  next =>
    split
    next => exact ⟨_, _, rfl, first _ (by omega) (by omega), by simp [more]⟩
    next => exact ⟨_, _, rfl, first _ (by omega) (by omega), by simp [more]⟩

/-- A character that starts with a byte below 128 is that byte. -/
theorem utf8EncodeChar_eq_cons {c : Char} {byte : UInt8} {rest : Bytes}
    (bytes : String.utf8EncodeChar c = byte :: rest) (ascii : byte.toNat < 128) :
    c.toNat = byte.toNat := by
  rcases Nat.lt_or_ge c.toNat 128 with small | large
  · rw [utf8EncodeChar_of_ascii small, List.cons.injEq] at bytes
    rw [← bytes.1, UInt8.toNat_ofNat', Nat.mod_eq_of_lt (by omega)]
  · obtain ⟨first, more, spelled, high, -⟩ := utf8EncodeChar_of_not_ascii large
    rw [spelled, List.cons.injEq] at bytes
    rw [bytes.1] at high
    omega

def hexPair (b : UInt8) : Bytes :=
  String.utf8EncodeChar (hexDigit (b.toNat / 16)) ++ String.utf8EncodeChar (hexDigit (b.toNat % 16))

theorem utf8_hexEncode (bytes : Bytes) : utf8 (hexEncode bytes) = bytes.flatMap hexPair := by
  rw [hexEncode, utf8_ofList, List.flatMap_assoc]
  simp only [List.flatMap_cons, List.flatMap_nil, List.append_nil]
  rfl

theorem hexDigit_length : ∀ v < 16, (String.utf8EncodeChar (hexDigit v)).length = 1 := by decide

theorem hexDigit_injective : ∀ v < 16, ∀ w < 16,
    String.utf8EncodeChar (hexDigit v) = String.utf8EncodeChar (hexDigit w) → v = w := by decide

theorem hexPair_length (b : UInt8) : (hexPair b).length = 2 := by
  have bound := b.toNat_lt
  simp [hexPair, hexDigit_length (b.toNat / 16) (by omega), hexDigit_length (b.toNat % 16) (by omega)]

theorem hexPair_injective : Function.Injective hexPair := by
  intro a b same
  have ha := a.toNat_lt
  have hb := b.toNat_lt
  have width : (String.utf8EncodeChar (hexDigit (a.toNat / 16))).length =
      (String.utf8EncodeChar (hexDigit (b.toNat / 16))).length := by
    rw [hexDigit_length _ (by omega), hexDigit_length _ (by omega)]
  obtain ⟨first, second⟩ := List.append_inj same width
  have high := hexDigit_injective _ (by omega) _ (by omega) first
  have low := hexDigit_injective _ (by omega) _ (by omega) second
  apply UInt8.toNat_inj.mp
  omega

theorem utf8_hexEncode_length (bytes : Bytes) : (utf8 (hexEncode bytes)).length = 2 * bytes.length := by
  rw [utf8_hexEncode]
  induction bytes with
  | nil => rfl
  | cons b bytes ih =>
    rw [List.flatMap_cons, List.length_append, hexPair_length, ih, List.length_cons]
    omega

theorem utf8_hexEncode_injective : Function.Injective fun bytes => utf8 (hexEncode bytes) := by
  intro a b same
  have width : 2 * a.length = 2 * b.length := by
    rw [← utf8_hexEncode_length, ← utf8_hexEncode_length]
    exact congrArg List.length same
  simp only [utf8_hexEncode] at same
  induction a generalizing b with
  | nil =>
    cases b with
    | nil => rfl
    | cons y b => simp at width
  | cons x a ih =>
    cases b with
    | nil => simp at width
    | cons y b =>
      rw [List.flatMap_cons, List.flatMap_cons] at same
      obtain ⟨first, rest⟩ := List.append_inj same (by rw [hexPair_length, hexPair_length])
      rw [List.length_cons, List.length_cons] at width
      rw [hexPair_injective first, ih (by omega) rest]

/-- Digits of the same number of bytes, with anything after them. -/
theorem hexEncode_append_inj {a b rest other : Bytes} (length : a.length = b.length)
    (same : utf8 (hexEncode a) ++ rest = utf8 (hexEncode b) ++ other) : a = b ∧ rest = other := by
  have width : (utf8 (hexEncode a)).length = (utf8 (hexEncode b)).length := by
    rw [utf8_hexEncode_length, utf8_hexEncode_length, length]
  obtain ⟨digits, tail⟩ := List.append_inj same width
  exact ⟨utf8_hexEncode_injective digits, tail⟩

def hexValue (byte : UInt8) : Option UInt8 :=
  if 48 ≤ byte ∧ byte ≤ 57 then some (byte - 48)
  else if 97 ≤ byte ∧ byte ≤ 102 then some (byte - 87)
  else if 65 ≤ byte ∧ byte ≤ 70 then some (byte - 55)
  else none

def invalidHex (byte : UInt8) (position : Nat) : String :=
  "Invalid character '" ++ String.singleton (Char.ofNat byte.toNat) ++ "' at position " ++
    toString position

def hexPairs (position : Nat) : Bytes → Except String Bytes
  | [] => .ok []
  | [_] => .error "Odd number of digits"
  | high :: low :: rest =>
    match hexValue high, hexValue low with
    | none, _ => .error (invalidHex high position)
    | some _, none => .error (invalidHex low (position + 1))
    | some h, some l => (hexPairs (position + 2) rest).map ((16 * h + l) :: ·)

/-- `hex::decode`; the length is checked before the digits. -/
def hexDecodeBytes (text : Bytes) : Except String Bytes :=
  if text.length % 2 = 1 then .error "Odd number of digits" else hexPairs 0 text

def hexDecode (s : String) : Except String Bytes := hexDecodeBytes (utf8 s)

/-- `str::strip_prefix("0x")`, and the text itself without it. -/
def stripHexPrefix (s : String) : String :=
  match s.toList with
  | '0' :: 'x' :: rest => String.ofList rest
  | _ => s

/-- `str::trim_start_matches("0x")` drops the mark as often as it is repeated. -/
def trimHexMarks : List Char → List Char
  | '0' :: 'x' :: rest => trimHexMarks rest
  | text => text

/-- `str::is_char_boundary`: no character goes on at the index. -/
def isCharBoundary (text : Bytes) (index : Nat) : Bool :=
  match text[index]? with
  | none => index = text.length
  | some byte => byte < 128 ∨ 192 ≤ byte

/-- The slice of a text panics if it would split a character. -/
def slice (text : Bytes) (first last : Nat) : Exec Bytes :=
  if first ≤ last ∧ isCharBoundary text first ∧ isCharBoundary text last then
    .ok ((text.drop first).take (last - first))
  else .error (.expect "byte index is not a char boundary")

def copyFromSlice (n : Nat) (source : Bytes) : Exec (FixedBytes n) :=
  if length : source.length = n then .ok ⟨source, length⟩
  else .error (.expect "copy_from_slice: source slice length does not match destination slice length")

theorem copyFromSlice_bytes (a : FixedBytes n) : copyFromSlice n a.bytes = .ok a := dif_pos a.length

theorem isCharBoundary_of_ascii {text : Bytes} (ascii : ∀ b ∈ text, b < 128) {index : Nat}
    (within : index ≤ text.length) : isCharBoundary text index = true := by
  unfold isCharBoundary
  split
  next outside =>
    have := List.getElem?_eq_none_iff.mp outside
    exact decide_eq_true (Nat.le_antisymm within this)
  next byte found => exact decide_eq_true (.inl (ascii byte (List.mem_of_getElem? found)))

theorem slice_of_ascii {text : Bytes} (ascii : ∀ b ∈ text, b < 128) {first last : Nat}
    (order : first ≤ last) (within : last ≤ text.length) :
    slice text first last = .ok ((text.drop first).take (last - first)) :=
  if_pos ⟨order, isCharBoundary_of_ascii ascii (order.trans within),
    isCharBoundary_of_ascii ascii within⟩

theorem utf8_append (s t : String) : utf8 (s ++ t) = utf8 s ++ utf8 t := by
  simp [utf8]

set_option maxRecDepth 2048 in
theorem hexDigit_ascii : ∀ v < 16, ∀ b ∈ String.utf8EncodeChar (hexDigit v), b < 128 := by decide

theorem utf8_hexEncode_ascii (bytes : Bytes) : ∀ b ∈ utf8 (hexEncode bytes), b < 128 := by
  intro b member
  rw [utf8_hexEncode] at member
  obtain ⟨byte, -, digit⟩ := List.mem_flatMap.mp member
  have bound := byte.toNat_lt
  rcases List.mem_append.mp digit with high | low
  · exact hexDigit_ascii _ (by omega) b high
  · exact hexDigit_ascii _ (by omega) b low

theorem hexValue_hexDigit : ∀ v < 16,
    (String.utf8EncodeChar (hexDigit v)).map hexValue = [some (UInt8.ofNat v)] := by decide

theorem hexPairs_cons (position : Nat) (b : UInt8) (rest : Bytes) :
    hexPairs position (hexPair b ++ rest) = (hexPairs (position + 2) rest).map (b :: ·) := by
  have bound := b.toNat_lt
  obtain ⟨high, first, h⟩ := List.map_eq_singleton_iff.mp (hexValue_hexDigit (b.toNat / 16) (by omega))
  obtain ⟨low, second, l⟩ := List.map_eq_singleton_iff.mp (hexValue_hexDigit (b.toNat % 16) (by omega))
  have value : 16 * UInt8.ofNat (b.toNat / 16) + UInt8.ofNat (b.toNat % 16) = b := by
    apply UInt8.toNat_inj.mp
    simp only [UInt8.toNat_add, UInt8.toNat_mul, UInt8.toNat_ofNat', UInt8.reduceToNat]
    omega
  simp only [hexPair, first, second, List.cons_append, List.nil_append, hexPairs, h, l, value]

theorem hexPairs_digits (position : Nat) (bytes : Bytes) :
    hexPairs position (bytes.flatMap hexPair) = .ok bytes := by
  induction bytes generalizing position with
  | nil => rfl
  | cons b bytes ih =>
    rw [List.flatMap_cons, hexPairs_cons, ih]
    rfl

@[simp] theorem hexDecode_hexEncode (bytes : Bytes) : hexDecode (hexEncode bytes) = .ok bytes := by
  have even : ¬(utf8 (hexEncode bytes)).length % 2 = 1 := by
    rw [utf8_hexEncode_length]
    omega
  rw [hexDecode, hexDecodeBytes, if_neg even, utf8_hexEncode, hexPairs_digits]

theorem hexEncode_append (a b : Bytes) : hexEncode (a ++ b) = hexEncode a ++ hexEncode b := by
  rw [hexEncode, hexEncode, hexEncode, List.flatMap_append, String.ofList_append]

@[simp] theorem stripHexPrefix_marked (s : String) : stripHexPrefix ("0x" ++ s) = s := by
  simp [stripHexPrefix]

theorem hexDigit_ne_x : ∀ v < 16, hexDigit v ≠ 'x' := by decide

/-- No mark stands inside of digits. -/
theorem trimHexMarks_hexEncode (bytes : Bytes) :
    trimHexMarks (hexEncode bytes).toList = (hexEncode bytes).toList := by
  cases bytes with
  | nil => rfl
  | cons b bytes =>
    have bound := b.toNat_lt
    have second := hexDigit_ne_x (b.toNat % 16) (by omega)
    simp only [hexEncode, String.toList_ofList, List.flatMap_cons, List.cons_append,
      List.nil_append]
    rw [trimHexMarks]
    simp_all

theorem stripHexPrefix_hexEncode (bytes : Bytes) : stripHexPrefix (hexEncode bytes) = hexEncode bytes := by
  cases bytes with
  | nil => rfl
  | cons b bytes =>
    have bound := b.toNat_lt
    have second := hexDigit_ne_x (b.toNat % 16) (by omega)
    simp only [stripHexPrefix, hexEncode, String.toList_ofList, List.flatMap_cons, List.cons_append,
      List.nil_append]
    split
    next marked => simp_all
    next => rfl

theorem trimHexMarks_marked (bytes : Bytes) :
    trimHexMarks ("0x" ++ hexEncode bytes).toList = (hexEncode bytes).toList := by
  rw [String.toList_append]
  exact trimHexMarks_hexEncode bytes

end Rust
