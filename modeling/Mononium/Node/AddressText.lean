import Mononium.Node.Addresses
import Mononium.Lib.HexText

/-! Which texts the parser of `core` is exact on. It cuts by bytes and looks at the first 82 of
them, so a longer character at a cut stops it, and more text after an address is not seen. -/
namespace Mononium

open Rust Scale

section

variable [Blake3]

/-- The mark and 80 hexadecimal digits: in lower case, the form of the address. -/
def SpellsAddress (text : List Char) (a : Address) : Prop :=
  ∃ digits, text = '0' :: 'x' :: digits ∧ digits.length = 80 ∧
    (∀ c ∈ digits, c.isHexDigit = true) ∧
    '0' :: 'x' :: digits.map Char.toLower = (formatAddress a).toList

/-- The parser comes to an end, and it gives the address that is spelled and no other. -/
def AddressExact (s : String) : Prop :=
  Returns (parseAddress s) ∧ ∀ a, parseAddress s = .ok (.ok a) ↔ SpellsAddress s.toList a

/-- The text has no mark, or is short, or its characters end where it is cut and no more text
follows an address. -/
def AddressReadable (s : String) : Prop :=
  ¬utf8 "0x" <+: utf8 s ∨ (utf8 s).length < 82 ∨
    (isCharBoundary (utf8 s) 66 = true ∧ isCharBoundary (utf8 s) 82 = true ∧
      ¬∃ text rest a, s.toList = text ++ rest ∧ rest ≠ [] ∧ SpellsAddress text a)

theorem formatAddress_toList (a : Address) :
    (formatAddress a).toList = '0' :: 'x' :: (hexEncode (checked a)).toList := by
  rw [formatAddress_eq, String.toList_append]
  rfl

end

theorem isHexDigit_hexDigit : ∀ v < 16, (hexDigit v).isHexDigit = true := by decide

theorem hexEncode_isHexDigit {bytes : Bytes} {c : Char} (member : c ∈ (hexEncode bytes).toList) :
    c.isHexDigit = true := by
  rw [hexEncode, String.toList_ofList, List.mem_flatMap] at member
  obtain ⟨b, -, digit⟩ := member
  have bound := b.toNat_lt
  rcases List.mem_pair.mp digit with rfl | rfl
  · exact isHexDigit_hexDigit _ (by omega)
  · exact isHexDigit_hexDigit _ (by omega)

set_option maxRecDepth 4096 in
theorem isHexDigit_toLower_ascii : ∀ n < 128,
    (Char.ofNat n).toLower.isHexDigit = (Char.ofNat n).isHexDigit := by decide

theorem isHexDigit_of_toLower {c : Char} (digit : c.toLower.isHexDigit = true) :
    c.isHexDigit = true := by
  rcases Nat.lt_or_ge c.toNat 128 with small | large
  · have ascii := isHexDigit_toLower_ascii c.toNat small
    rw [Char.ofNat_toNat] at ascii
    exact ascii ▸ digit
  · rwa [toLower_of_not_ascii large] at digit

theorem hexEncode_toList_length (bytes : Bytes) :
    (hexEncode bytes).toList.length = 2 * bytes.length := by
  rw [hexEncode, String.toList_ofList]
  induction bytes with
  | nil => rfl
  | cons b bytes ih =>
    rw [List.flatMap_cons, List.length_append, ih, List.length_cons]
    simp only [List.length_cons, List.length_nil]
    omega

section

variable [Blake3] {a : Address} {s : String} {text : List Char}

theorem spellsAddress_iff :
    SpellsAddress text a ↔ utf8 "0x" <+: utf8 (String.ofList text) ∧
      (utf8 (String.ofList text)).map toAsciiLowercase = utf8 (formatAddress a) := by
  constructor
  · rintro ⟨digits, rfl, -, -, form⟩
    have lower : ('0' :: 'x' :: digits).map Char.toLower = (formatAddress a).toList := form
    refine ⟨?_, by rw [utf8_toLower, lower, String.ofList_toList]⟩
    rw [show String.ofList ('0' :: 'x' :: digits) = "0x" ++ String.ofList digits by
      rw [← String.toList_inj]; simp, utf8_append]
    exact List.prefix_append _ _
  · rintro ⟨mark, form⟩
    obtain ⟨digits, rfl⟩ : ['0', 'x'] <+: text := prefix_of_utf8 mark
    rw [utf8_toLower] at form
    have lower : '0' :: 'x' :: digits.map Char.toLower = (formatAddress a).toList := by
      rw [← utf8_injective form, String.toList_ofList]
      rfl
    have spelled : digits.map Char.toLower = (hexEncode (checked a)).toList := by
      rw [formatAddress_toList] at lower
      simpa using lower
    refine ⟨digits, rfl, ?_, ?_, lower⟩
    · have length := congrArg List.length spelled
      rwa [List.length_map, hexEncode_toList_length, checked_length] at length
    · intro c member
      have digit : c.toLower ∈ (hexEncode (checked a)).toList := by
        rw [← spelled]
        exact List.mem_map_of_mem member
      exact isHexDigit_of_toLower (hexEncode_isHexDigit digit)

theorem SpellsAddress.length (spells : SpellsAddress text a) :
    (utf8 (String.ofList text)).length = 82 := by
  have lower := congrArg List.length (spellsAddress_iff.mp spells).2
  rwa [List.length_map, utf8_formatAddress_length] at lower

/-- The two parts of the first 82 bytes, up to case. -/
theorem first_bytes_iff (mark : utf8 "0x" <+: utf8 s) (enough : 82 ≤ (utf8 s).length) :
    ((utf8 s).take 82).map toAsciiLowercase = utf8 (formatAddress a) ↔
      hexDecodeBytes (((utf8 s).drop 2).take (66 - 2)) = .ok a.asBytes ∧
      hexDecodeBytes (((utf8 s).drop 66).take (82 - 66)) = .ok (checksum a.asBytes) := by
  have markLower : (utf8 "0x").map toAsciiLowercase = utf8 "0x" := by decide
  have cut : (utf8 s).take 82 = utf8 "0x" ++ (((utf8 s).drop 2).take (66 - 2) ++
      ((utf8 s).drop 66).take (82 - 66)) := by
    rw [show 82 = 2 + ((66 - 2) + (82 - 66)) from rfl, List.take_add, List.take_add, List.drop_drop,
      List.prefix_iff_eq_take.mp mark]
    rfl
  have width : ((((utf8 s).drop 2).take (66 - 2)).map toAsciiLowercase).length =
      (utf8 (hexEncode a.asBytes)).length := by
    rw [List.length_map, List.length_take, List.length_drop, utf8_hexEncode_length, a.asBytes_length]
    omega
  rw [hexDecodeBytes_eq_ok, hexDecodeBytes_eq_ok, cut, utf8_formatAddress, List.map_append,
    List.map_append, markLower, List.append_cancel_left_eq]
  constructor
  · intro same
    exact List.append_inj same width
  · rintro ⟨body, check⟩
    rw [body, check]

/-- What the parser makes of a text that it can cut. -/
theorem parseAddress_of_cut (mark : utf8 "0x" <+: utf8 s) (enough : 82 ≤ (utf8 s).length)
    (first : isCharBoundary (utf8 s) 66 = true) (last : isCharBoundary (utf8 s) 82 = true) :
    Returns (parseAddress s) ∧ ∀ a, parseAddress s = .ok (.ok a) ↔
      ((utf8 s).take 82).map toAsciiLowercase = utf8 (formatAddress a) := by
  have body : slice (utf8 s) 2 66 = .ok (((utf8 s).drop 2).take (66 - 2)) :=
    if_pos ⟨by decide, isCharBoundary_of_prefix mark, first⟩
  have check : slice (utf8 s) 66 82 = .ok (((utf8 s).drop 66).take (82 - 66)) :=
    if_pos ⟨by decide, first, last⟩
  have width : (((utf8 s).drop 2).take (66 - 2)).length = 64 := by
    rw [List.length_take, List.length_drop]
    omega
  simp only [first_bytes_iff mark enough]
  rw [parseAddress, if_neg (not_not_intro mark), if_neg (Nat.not_lt.mpr enough), body, check]
  simp only [ok_bind]
  cases decodedBody : hexDecodeBytes (((utf8 s).drop 2).take (66 - 2)) with
  | error e => simp
  | ok bodyBytes =>
    cases decodedCheck : hexDecodeBytes (((utf8 s).drop 66).take (82 - 66)) with
    | error e => simp
    | ok checksumBytes =>
      have length : bodyBytes.length = 32 := by
        have double := length_of_hexDecodeBytes decodedBody
        omega
      have raw : copyFromSlice 32 bodyBytes = .ok ⟨bodyBytes, length⟩ := dif_pos length
      simp only [raw, ok_bind]
      by_cases proper : checksumBytes = checksum bodyBytes
      · simp only [proper, ne_eq, not_true_eq_false, ↓reduceIte, returns_pure, true_and, pure_eq_ok,
          Except.ok.injEq]
        intro a
        constructor
        · rintro rfl
          exact ⟨rfl, rfl⟩
        · rintro ⟨same, -⟩
          exact Address.asBytes_injective same
      · simp only [proper, ne_eq, not_false_eq_true, ↓reduceIte, returns_pure, true_and, pure_eq_ok,
          reduceCtorEq, Except.ok.injEq, false_iff, not_and]
        rintro a rfl
        exact proper

theorem parseAddress_of_unmarked (unmarked : ¬utf8 "0x" <+: utf8 s) :
    parseAddress s = .ok (.error .missingPrefix) := by
  rw [parseAddress, if_pos unmarked]
  rfl

theorem parseAddress_of_short (mark : utf8 "0x" <+: utf8 s) (short : (utf8 s).length < 82) :
    parseAddress s = .ok (.error .tooShort) := by
  rw [parseAddress, if_neg (not_not_intro mark), if_pos short]
  rfl

/-- A character at a cut stops the parser. -/
theorem parseAddress_of_uncut (mark : utf8 "0x" <+: utf8 s) (enough : 82 ≤ (utf8 s).length)
    (uncut : ¬(isCharBoundary (utf8 s) 66 = true ∧ isCharBoundary (utf8 s) 82 = true)) :
    ¬Returns (parseAddress s) := by
  rw [parseAddress, if_neg (not_not_intro mark), if_neg (Nat.not_lt.mpr enough)]
  by_cases first : isCharBoundary (utf8 s) 66 = true
  · have body : slice (utf8 s) 2 66 = .ok (((utf8 s).drop 2).take (66 - 2)) :=
      if_pos ⟨by decide, isCharBoundary_of_prefix mark, first⟩
    have last : slice (utf8 s) 66 82 = .error (.expect "byte index is not a char boundary") :=
      if_neg fun cut => uncut cut.2
    simp [body, last]
  · have body : slice (utf8 s) 2 66 = .error (.expect "byte index is not a char boundary") :=
      if_neg fun cut => first cut.2.2
    simp [body]

/-- The first 82 bytes are those of an address if a beginning of the text spells it. -/
theorem first_bytes_spell (mark : utf8 "0x" <+: utf8 s) (enough : 82 ≤ (utf8 s).length) :
    ((utf8 s).take 82).map toAsciiLowercase = utf8 (formatAddress a) ↔
      ∃ text rest, s.toList = text ++ rest ∧ SpellsAddress text a := by
  constructor
  · intro form
    have ascii : ∀ b ∈ (utf8 s).take 82, b.toNat < 128 := by
      intro b member
      apply lt_of_toAsciiLowercase_lt
      have lower := List.mem_map_of_mem (f := toAsciiLowercase) member
      rw [form] at lower
      exact utf8_formatAddress_ascii a _ lower
    obtain ⟨text, bytes⟩ := exists_utf8_of_ascii ascii
    obtain ⟨rest, whole⟩ : text <+: s.toList := by
      apply prefix_of_utf8
      rw [bytes, String.ofList_toList]
      exact List.take_prefix 82 (utf8 s)
    have marked : utf8 "0x" <+: utf8 (String.ofList text) := by
      rw [bytes]
      apply List.prefix_of_prefix_length_le mark (List.take_prefix 82 (utf8 s))
      rw [List.length_take_of_le enough]
      decide
    exact ⟨text, rest, whole.symm, spellsAddress_iff.mpr ⟨marked, by rw [bytes, form]⟩⟩
  · rintro ⟨text, rest, whole, spells⟩
    have bytes : utf8 s = utf8 (String.ofList text) ++ utf8 (String.ofList rest) := by
      rw [← utf8_append, ← String.ofList_append, ← whole, String.ofList_toList]
    rw [bytes, List.take_left' spells.length]
    exact (spellsAddress_iff.mp spells).2

theorem exact_of_refused {e : ParseAddressError} (refused : parseAddress s = .ok (.error e))
    (nothing : ∀ a, ¬SpellsAddress s.toList a) : AddressExact s := by
  rw [AddressExact, refused]
  refine ⟨returns_ok _, fun a => ?_⟩
  simp [nothing a]

theorem SpellsAddress.bytes (spells : SpellsAddress s.toList a) :
    utf8 "0x" <+: utf8 s ∧ (utf8 s).length = 82 := by
  have mark := (spellsAddress_iff.mp spells).1
  have length := spells.length
  rw [String.ofList_toList] at mark length
  exact ⟨mark, length⟩

/-- Where the text is cut between characters, the parser is exact if no more text follows an
address. -/
theorem exact_of_cut_iff (mark : utf8 "0x" <+: utf8 s) (enough : 82 ≤ (utf8 s).length)
    (first : isCharBoundary (utf8 s) 66 = true) (last : isCharBoundary (utf8 s) 82 = true) :
    AddressExact s ↔ ¬∃ text rest a, s.toList = text ++ rest ∧ rest ≠ [] ∧ SpellsAddress text a := by
  obtain ⟨returns, parsed⟩ := parseAddress_of_cut mark enough first last
  simp only [first_bytes_spell mark enough] at parsed
  constructor
  · rintro ⟨-, exact_⟩ ⟨text, rest, a, whole, more, spells⟩
    have all := (exact_ a).mp ((parsed a).mpr ⟨text, rest, whole, spells⟩)
    obtain ⟨digits, rfl, count, -⟩ := spells
    obtain ⟨allDigits, same, allCount, -⟩ := all
    have length := congrArg List.length (whole.symm.trans same)
    simp only [List.length_append, List.length_cons, count, allCount] at length
    exact more (List.eq_nil_of_length_eq_zero (by omega))
  · intro alone
    refine ⟨returns, fun a => (parsed a).trans ?_⟩
    constructor
    · rintro ⟨text, rest, whole, spells⟩
      rcases rest with _ | ⟨c, rest⟩
      · rwa [whole, List.append_nil]
      · exact absurd ⟨text, c :: rest, a, whole, by simp, spells⟩ alone
    · intro spells
      exact ⟨s.toList, [], by simp, spells⟩

/-- The parser is exact on the texts that it can read, and on no other, and it reads the form of
every address. -/
theorem parse_address_exact_iff :
    (∀ s, AddressExact s ↔ AddressReadable s) ∧
    ∀ a, parseAddress (formatAddress a) = .ok (.ok a) := by
  refine ⟨fun s => ?_, parseAddress_formatAddress⟩
  rw [AddressReadable]
  by_cases mark : utf8 "0x" <+: utf8 s
  · rcases Nat.lt_or_ge (utf8 s).length 82 with short | enough
    · refine iff_of_true (exact_of_refused (parseAddress_of_short mark short) ?_) (.inr (.inl short))
      intro a spells
      have length := spells.bytes.2
      omega
    · by_cases cut : isCharBoundary (utf8 s) 66 = true ∧ isCharBoundary (utf8 s) 82 = true
      · simp [exact_of_cut_iff mark enough cut.1 cut.2, mark, Nat.not_lt.mpr enough, cut]
      · refine iff_of_false (fun exact_ => parseAddress_of_uncut mark enough cut exact_.1) ?_
        rintro (unmarked | short | ⟨first, last, -⟩)
        · exact unmarked mark
        · omega
        · exact cut ⟨first, last⟩
  · refine iff_of_true (exact_of_refused (parseAddress_of_unmarked mark) ?_) (.inl mark)
    intro a spells
    exact mark spells.bytes.1

end

section Sample

attribute [local instance] prefixBlake3

/-- The bytes 65 and 66 are one character. -/
def accented : String :=
  "0x" ++ String.ofList (List.replicate 63 '0' ++ 'é' :: List.replicate 16 '0')

set_option maxRecDepth 4096 in
/-- The accented text stops the parser, and a longer text is taken for Alice. -/
theorem accented_not_exact : ¬AddressExact accented ∧ ¬AddressExact (formatAddress alice ++ "!") := by
  have stops : ¬Returns (parseAddress accented) := by decide
  have taken : parseAddress (formatAddress alice ++ "!") = .ok (.ok alice) := by decide
  refine ⟨fun exact_ => stops exact_.1, fun exact_ => ?_⟩
  have length := ((exact_.2 alice).mp taken).bytes.2
  rw [utf8_append, List.length_append, utf8_formatAddress_length] at length
  exact absurd length (by decide)

end Sample

end Mononium
