import Mononium.Node.Wallet

/-! What the wallet reads as an amount: digits, perhaps a point and digits after it, and the number
they stand for in the smallest unit. -/
namespace Mononium

open Rust Scale

def Digits (text : List Char) : Prop := ∀ c ∈ text, c.isDigit = true

def decimal (text : List Char) : Nat := Nat.ofDigitChars 10 text 0

/-- `i` or `i.f`, with at most 32 digits after the point, and its number of smallest units. -/
def AmountText (s : String) (value : Nat) : Prop :=
  ∃ i f : List Char, (s.toList = i ∧ f = [] ∨ s.toList = i ++ '.' :: f) ∧ Digits i ∧ Digits f ∧
    f.length ≤ 32 ∧ value = decimal i * 10 ^ 32 + decimal f * 10 ^ (32 - f.length)

@[simp] theorem digits_nil : Digits [] := by simp [Digits]

@[simp] theorem digits_cons {c : Char} {text : List Char} :
    Digits (c :: text) ↔ c.isDigit = true ∧ Digits text := by simp [Digits]

@[simp] theorem digits_append {text more : List Char} :
    Digits (text ++ more) ↔ Digits text ∧ Digits more := by
  simp only [Digits, List.mem_append, or_imp, forall_and]

@[simp] theorem digits_zeros (n : Nat) : Digits (List.replicate n '0') := by
  intro c member
  rw [List.eq_of_mem_replicate member]
  rfl

theorem Digits.not_point {text : List Char} (digits : Digits text) : '.' ∉ text := by
  intro member
  have digit := digits _ member
  simp at digit

theorem decimal_append_zeros (text : List Char) (n : Nat) :
    decimal (text ++ List.replicate n '0') = decimal text * 10 ^ n := by
  rw [decimal, Nat.ofDigitChars_append, Nat.ofDigitChars_replicate_zero, Nat.mul_comm, decimal]

theorem decimal_append (text more : List Char) :
    decimal (text ++ more) = decimal text * 10 ^ more.length + decimal more := by
  rw [decimal, Nat.ofDigitChars_append, Nat.ofDigitChars_eq_ofDigitChars_zero, Nat.mul_comm]
  rfl

theorem le_ofDigitChars (text : List Char) (start : Nat) : start ≤ Nat.ofDigitChars 10 text start := by
  rw [Nat.ofDigitChars_eq_ofDigitChars_zero]
  have positive : 1 ≤ 10 ^ text.length := Nat.one_le_pow _ _ (by omega)
  have larger := Nat.mul_le_mul_right start positive
  omega

theorem toNat_of_isDigit {c : Char} (digit : c.isDigit = true) : 48 ≤ c.toNat ∧ c.toNat ≤ 57 :=
  Char.isDigit_iff_toNat.mp digit

theorem utf8EncodeChar_of_isDigit {c : Char} (digit : c.isDigit = true) :
    String.utf8EncodeChar c = [UInt8.ofNat c.toNat] := by
  have range := toNat_of_isDigit digit
  exact utf8EncodeChar_of_ascii (by omega)

theorem utf8_length_of_digits {text : List Char} (digits : Digits text) :
    (utf8 (String.ofList text)).length = text.length := by
  rw [utf8_ofList]
  induction text with
  | nil => rfl
  | cons c text ih =>
    rw [digits_cons] at digits
    simp [utf8EncodeChar_of_isDigit digits.1, ih digits.2]

/-- A byte that is taken is a digit, and its number is pushed. -/
theorem pushDigit_eq_ok {value w : U256} {byte : UInt8} :
    pushDigit value byte = .ok w ↔
      (48 ≤ byte.toNat ∧ byte.toNat ≤ 57) ∧ 10 * value.toNat + (byte.toNat - 48) = w.toNat := by
  have small := byte.toNat_lt
  have width := w.isLt
  have shifted : (byte - 48).toNat = (256 - 48 + byte.toNat) % 256 := UInt8.toNat_sub ..
  have range : 9 < byte - 48 ↔ ¬(48 ≤ byte.toNat ∧ byte.toNat ≤ 57) := by
    rw [UInt8.lt_iff_toNat_lt, shifted, show (9 : UInt8).toNat = 9 from rfl]
    omega
  rw [pushDigit]
  by_cases digit : 48 ≤ byte.toNat ∧ byte.toNat ≤ 57
  · have number : (byte - 48).toNat = byte.toNat - 48 := by omega
    rw [if_neg (range.not.mpr (not_not_intro digit)), number]
    by_cases large : 2 ^ 256 ≤ value.toNat * 10 + (byte.toNat - 48)
    · rw [if_pos large]
      simp only [reduceCtorEq, false_iff, not_and]
      omega
    · rw [if_neg large, Except.ok.injEq, ← BitVec.toNat_inj, BitVec.toNat_ofNat,
        Nat.mod_eq_of_lt (by omega)]
      constructor
      · intro same
        exact ⟨digit, by omega⟩
      · rintro ⟨-, same⟩
        omega
  · rw [if_pos (range.mpr digit)]
    simp [digit]

theorem pushDigits_append {bytes more : Bytes} {value w : U256} :
    (bytes ++ more).foldlM pushDigit value = .ok w ↔
      ∃ between, bytes.foldlM pushDigit value = .ok between ∧
        more.foldlM pushDigit between = .ok w := by
  rw [List.foldlM_append]
  cases bytes.foldlM pushDigit value <;> simp [bind, Except.bind]

/-- A character is taken if it is a digit, and only then. -/
theorem pushDigits_char {c : Char} {value w : U256} :
    (String.utf8EncodeChar c).foldlM pushDigit value = .ok w ↔
      c.isDigit = true ∧ 10 * value.toNat + (c.toNat - '0'.toNat) = w.toNat := by
  have single (digit : c.isDigit = true) :
      (String.utf8EncodeChar c).foldlM pushDigit value = .ok w ↔
        10 * value.toNat + (c.toNat - '0'.toNat) = w.toNat := by
    have range := toNat_of_isDigit digit
    have number : (UInt8.ofNat c.toNat).toNat = c.toNat := by
      rw [UInt8.toNat_ofNat', Nat.mod_eq_of_lt (by omega)]
    rw [utf8EncodeChar_of_isDigit digit, List.foldlM_cons]
    simp [pushDigit_eq_ok, number, range]
  constructor
  · intro pushed
    obtain ⟨byte, rest, bytes⟩ := List.exists_cons_of_ne_nil (String.utf8EncodeChar_ne_nil (c := c))
    have first := pushed
    rw [bytes, ← List.singleton_append, pushDigits_append] at first
    obtain ⟨next, taken, -⟩ := first
    simp only [List.foldlM_cons, List.foldlM_nil, bind_pure, pushDigit_eq_ok] at taken
    have same := utf8EncodeChar_eq_cons bytes (by omega)
    have digit : c.isDigit = true := by
      rw [Char.isDigit_iff_toNat, same]
      exact taken.1
    exact ⟨digit, (single digit).mp pushed⟩
  · rintro ⟨digit, same⟩
    exact (single digit).mpr same

/-- `U256::from_dec_str` takes digits whose number fits, and nothing else. -/
theorem pushDigits_eq_ok {text : List Char} {value w : U256} :
    (utf8 (String.ofList text)).foldlM pushDigit value = .ok w ↔
      Digits text ∧ Nat.ofDigitChars 10 text value.toNat = w.toNat := by
  rw [utf8_ofList]
  induction text generalizing value with
  | nil =>
    simp [pure, Except.pure, BitVec.toNat_inj]
  | cons c text ih =>
    rw [List.flatMap_cons, pushDigits_append, digits_cons, Nat.ofDigitChars_cons]
    constructor
    · rintro ⟨between, first, rest⟩
      obtain ⟨digit, number⟩ := pushDigits_char.mp first
      obtain ⟨digits, total⟩ := ih.mp rest
      rw [number]
      exact ⟨⟨digit, digits⟩, total⟩
    · rintro ⟨⟨digit, digits⟩, total⟩
      -- What the first digits make fits, as it is no more than the whole.
      have fits : 10 * value.toNat + (c.toNat - '0'.toNat) < 2 ^ 256 := by
        have below := le_ofDigitChars text (10 * value.toNat + (c.toNat - '0'.toNat))
        rw [total] at below
        exact below.trans_lt w.isLt
      have number : (BitVec.ofNat 256 (10 * value.toNat + (c.toNat - '0'.toNat))).toNat =
          10 * value.toNat + (c.toNat - '0'.toNat) := by
        rw [BitVec.toNat_ofNat, Nat.mod_eq_of_lt fits]
      refine ⟨_, pushDigits_char.mpr ⟨digit, number.symm⟩, ih.mpr ⟨digits, ?_⟩⟩
      rw [number, total]

/-- The two parts, filled up to 32 places and read as one number. -/
theorem pushDigits_filled {i f : List Char} {v : U256} (places : f.length ≤ 32) :
    (utf8 (String.ofList (i ++ f ++ List.replicate (32 - f.length) '0'))).foldlM pushDigit 0 = .ok v ↔
      (Digits i ∧ Digits f) ∧
        v.toNat = decimal i * 10 ^ 32 + decimal f * 10 ^ (32 - f.length) := by
  have split : 10 ^ 32 = 10 ^ f.length * 10 ^ (32 - f.length) := by
    rw [← Nat.pow_add, Nat.add_sub_cancel' places]
  have number : decimal (i ++ f ++ List.replicate (32 - f.length) '0') =
      decimal i * 10 ^ 32 + decimal f * 10 ^ (32 - f.length) := by
    rw [decimal_append_zeros, decimal_append, Nat.add_mul, Nat.mul_assoc, ← split]
  rw [pushDigits_eq_ok, digits_append, digits_append, ← number, decimal]
  simp [eq_comm]

def readParts (s : String) (i f : List Char) : Except String U256 := do
  let places := (utf8 (String.ofList f)).length
  if 32 < places then
    throw ("too many decimal places (max 32): " ++ s)
  match (utf8 (String.ofList (i ++ f ++ List.replicate (32 - places) '0'))).foldlM pushDigit 0 with
  | .ok value => return value
  | .error _ => throw ("invalid amount: " ++ s)

theorem readParts_eq_ok {s : String} {i f : List Char} {v : U256} :
    readParts s i f = .ok v ↔ Digits i ∧ Digits f ∧ f.length ≤ 32 ∧
      v.toNat = decimal i * 10 ^ 32 + decimal f * 10 ^ (32 - f.length) := by
  have read : readParts s i f = .ok v ↔ (utf8 (String.ofList f)).length ≤ 32 ∧
      (utf8 (String.ofList (i ++ f ++ List.replicate (32 - (utf8 (String.ofList f)).length) '0'))).foldlM
        pushDigit 0 = .ok v := by
    rw [readParts]
    by_cases many : 32 < (utf8 (String.ofList f)).length
    · simp only [many, ↓reduceIte, Nat.not_le.mpr many, false_and, iff_false]
      intro refused
      cases refused
    · simp only [many, ↓reduceIte, Nat.not_lt.mp many, true_and]
      split
      next value ran =>
        rw [ran]
        rfl
      next e ran => simp only [ran, reduceCtorEq]
  rw [read]
  constructor
  · rintro ⟨places, pushed⟩
    have digits := (pushDigits_eq_ok.mp pushed).1
    rw [digits_append, digits_append] at digits
    rw [utf8_length_of_digits digits.1.2] at places pushed
    obtain ⟨-, number⟩ := (pushDigits_filled places).mp pushed
    exact ⟨digits.1.1, digits.1.2, places, number⟩
  · rintro ⟨first, second, places, number⟩
    rw [utf8_length_of_digits second]
    exact ⟨places, (pushDigits_filled places).mpr ⟨⟨first, second⟩, number⟩⟩

def amountParts (s : String) : Option (List Char × List Char) :=
  match s.toList.splitOn '.' with
  | [i] => some (i, [])
  | [i, f] => some (i, f)
  | _ => none

/-- Joined at the point, the parts are the text. -/
theorem spelled_of_amountParts {s : String} {i f : List Char} (cut : amountParts s = some (i, f)) :
    s.toList = i ∧ f = [] ∨ s.toList = i ++ '.' :: f := by
  have whole : ['.'].intercalate (s.toList.splitOn '.') = s.toList := List.intercalate_splitOn '.'
  rw [amountParts] at cut
  split at cut
  next single =>
    rw [single] at whole
    cases cut
    exact .inl ⟨by simpa using whole.symm, rfl⟩
  next pair =>
    rw [pair] at whole
    cases cut
    exact .inr (by simpa using whole.symm)
  next => cases cut

theorem amountParts_of_spelled {s : String} {i f : List Char}
    (spelled : s.toList = i ∧ f = [] ∨ s.toList = i ++ '.' :: f) (first : Digits i)
    (second : Digits f) : amountParts s = some (i, f) := by
  rcases spelled with ⟨whole, rfl⟩ | whole
  · rw [amountParts, whole, List.splitOn_eq_singleton first.not_point]
  · rw [amountParts, whole, List.splitOn_append_cons_self_of_not_mem first.not_point,
      List.splitOn_eq_singleton second.not_point]

theorem parseMonexAmount_eq (s : String) :
    parseMonexAmount s =
      match amountParts s with
      | some (i, f) => readParts s i f
      | none => .error ("invalid amount format: " ++ s) := by
  rw [parseMonexAmount, amountParts]
  generalize s.toList.splitOn '.' = parts
  rcases parts with _ | ⟨i, _ | ⟨f, _ | ⟨more, rest⟩⟩⟩ <;> rfl

/-- What is read is spelled, and what is spelled is read. -/
theorem parseMonexAmount_eq_ok {s : String} {v : U256} :
    parseMonexAmount s = .ok v ↔ AmountText s v.toNat := by
  rw [parseMonexAmount_eq]
  constructor
  · intro read
    cases cut : amountParts s with
    | none =>
      rw [cut] at read
      cases read
    | some parts =>
      obtain ⟨i, f⟩ := parts
      rw [cut] at read
      obtain ⟨first, second, places, number⟩ := readParts_eq_ok.mp read
      exact ⟨i, f, spelled_of_amountParts cut, first, second, places, number⟩
  · rintro ⟨i, f, spelled, first, second, places, number⟩
    rw [amountParts_of_spelled spelled first second]
    exact readParts_eq_ok.mpr ⟨first, second, places, number⟩

/-- The amount that is read is the number that is spelled, for every text; any other text is
refused. -/
theorem amount_exact (s : String) :
    (∀ v, parseMonexAmount s = .ok v ↔ AmountText s v.toNat) ∧
    ((∃ e, parseMonexAmount s = .error e) ↔ ¬∃ value < 2 ^ 256, AmountText s value) := by
  refine ⟨fun v => parseMonexAmount_eq_ok, ?_⟩
  cases ran : parseMonexAmount s with
  | ok v =>
    have spelled := parseMonexAmount_eq_ok.mp ran
    simp only [reduceCtorEq, exists_false, false_iff, not_not]
    exact ⟨v.toNat, v.isLt, spelled⟩
  | error e =>
    simp only [Except.error.injEq, exists_eq', true_iff]
    rintro ⟨value, fits, spelled⟩
    have number : (BitVec.ofNat 256 value).toNat = value := by
      rw [BitVec.toNat_ofNat, Nat.mod_eq_of_lt fits]
    have read := parseMonexAmount_eq_ok.mpr (number.symm ▸ spelled)
    rw [ran] at read
    cases read

end Mononium
