import Mononium.Storage.Genesis

/-! The canonical form of an address, and the readers of addresses: the parser of `core`, the
RPC and REST servers, the genesis loader, the wallet, and the node with its key file. -/
namespace Mononium

open Rust Scale

section

variable [Blake3]

def checksum (raw : Bytes) : Bytes := (blake3 raw).bytes.take 8

def formatAddress (addr : Address) : String :=
  "0x" ++ hexEncode addr.asBytes ++ hexEncode (checksum addr.asBytes)

inductive ParseAddressError where
  | missingPrefix
  | tooShort
  | invalidHex
  | checksumMismatch
  deriving DecidableEq, Repr

/-- `parse_address` of `core`. What follows the 82 characters is not read. -/
def parseAddress (s : String) : Exec (Except ParseAddressError Address) := do
  let text := utf8 s
  if ¬utf8 "0x" <+: text then
    return .error .missingPrefix
  if text.length < 82 then
    return .error .tooShort
  let body ← slice text 2 66
  let checksumHex ← slice text 66 82
  let .ok bodyBytes := hexDecodeBytes body | return .error .invalidHex
  let .ok checksumBytes := hexDecodeBytes checksumHex | return .error .invalidHex
  let raw ← copyFromSlice 32 bodyBytes
  if checksumBytes ≠ checksum raw.bytes then
    return .error .checksumMismatch
  return .ok ⟨raw⟩

structure ErrorObject where
  code : Int
  message : String
  deriving DecidableEq, Repr

structure ErrResponse where
  code : Nat
  msg : String
  deriving DecidableEq, Repr

end

/-- Digits of exactly 32 bytes. The readers differ in the mark and in the errors. -/
def decodeAddress (invalid : String → ε) (wrongLength : Nat → ε) (s : String) : Except ε Address :=
  match hexDecode s with
  | .error e => .error (invalid e)
  | .ok bytes =>
    if length : bytes.length = 32 then .ok ⟨⟨bytes, length⟩⟩ else .error (wrongLength bytes.length)

/-- `parse_address` of the RPC server. -/
def rpcParseAddress (hexStr : String) : Except ErrorObject Address :=
  decodeAddress (fun e => ⟨-2, "invalid hex: " ++ e⟩) (fun _ => ⟨-2, "address must be 32 bytes"⟩)
    (String.ofList (trimHexMarks hexStr.toList))

/-- `parse_raw_address` of the REST server. -/
def parseRawAddress (s : String) : Result Address :=
  let s := stripHexPrefix s
  decodeAddress (fun _ => .invalidAddress s) (fun _ => .invalidAddress s) s

/-- The recipient in `wallet::transfer`. -/
def recipientAddress (recipient : String) : Except String Address :=
  decodeAddress (fun e => "invalid recipient address hex: " ++ e)
    (fun n => "recipient address must be 32 bytes, got " ++ toString n) (stripHexPrefix recipient)

/-- The validator in `wallet::stake` and `wallet::unstake`. -/
def validatorAddress (validatorAddr : String) : Except String Address :=
  decodeAddress (fun e => "invalid validator address hex: " ++ e)
    (fun n => "validator address must be 32 bytes, got " ++ toString n) (stripHexPrefix validatorAddr)

/-- The wallet's own address in `wallet::register_and_stake`. The length is not checked before
the bytes are copied. -/
def ownAddress (address : String) : Exec (Except String Address) :=
  match hexDecode (stripHexPrefix address) with
  | .error e => return .error ("invalid address hex: " ++ e)
  | .ok addrBytes => do
    let raw ← copyFromSlice 32 addrBytes
    return .ok ⟨raw⟩

/-- The address of the local validator that `run_node` takes from the key file. Bytes after the
first 32 are ignored. -/
def localAddress (address : String) : Option Address :=
  match hexDecode (String.ofList (trimHexMarks address.toList)) with
  | .error _ => none
  | .ok bytes =>
    if length : 32 ≤ bytes.length then some ⟨⟨bytes.take 32, List.length_take_of_le length⟩⟩ else none

inductive AddressReader where
  | core
  | rpc
  | rest
  | genesis
  | transfer
  | stake
  | unstake
  | registerAndStake
  | keyFile
  deriving DecidableEq, Repr

def AddressReader.read [Blake3] (s : String) : AddressReader → Exec (Option Address)
  | core => Except.toOption <$> parseAddress s
  | rpc => .ok (rpcParseAddress s).toOption
  | rest => .ok (parseRawAddress s).toOption
  | genesis => .ok ((parseHexAddr s).toOption.map Address.mk)
  | transfer => .ok (recipientAddress s).toOption
  | stake | unstake => .ok (validatorAddress s).toOption
  | registerAndStake => Except.toOption <$> ownAddress s
  | keyFile => .ok (localAddress s)

theorem decodeAddress_hexEncode {invalid : String → ε} {wrongLength : Nat → ε} {bytes : Bytes}
    (other : bytes.length ≠ 32) :
    decodeAddress invalid wrongLength (hexEncode bytes) = .error (wrongLength bytes.length) := by
  rw [decodeAddress, hexDecode_hexEncode]
  exact dif_neg other

def markedDigits (a : Address) : String := "0x" ++ hexEncode a.asBytes

theorem decodeAddress_markedDigits {invalid : String → ε} {wrongLength : Nat → ε} (a : Address) :
    decodeAddress invalid wrongLength (stripHexPrefix (markedDigits a)) = .ok a := by
  rw [markedDigits, stripHexPrefix_marked, decodeAddress, hexDecode_hexEncode]
  exact dif_pos a.asBytes_length

section

variable [Blake3] (a : Address)

def checked : Bytes := a.asBytes ++ checksum a.asBytes

@[simp] theorem checksum_length (raw : Bytes) : (checksum raw).length = 8 := by
  rw [checksum, List.length_take, (blake3 raw).length]
  rfl

@[simp] theorem checked_length : (checked a).length = 40 := by simp [checked]

theorem formatAddress_eq : formatAddress a = "0x" ++ hexEncode (checked a) := by
  rw [formatAddress, checked, hexEncode_append, String.append_assoc]

theorem utf8_formatAddress :
    utf8 (formatAddress a) =
      utf8 "0x" ++ (utf8 (hexEncode a.asBytes) ++ utf8 (hexEncode (checksum a.asBytes))) := by
  rw [formatAddress, utf8_append, utf8_append, List.append_assoc]

theorem utf8_formatAddress_ascii : ∀ b ∈ utf8 (formatAddress a), b < 128 := by
  have zeroX : utf8 "0x" = [48, 120] := by decide
  intro b member
  rw [utf8_formatAddress, List.mem_append, List.mem_append] at member
  rcases member with marked | digit | digit
  · rw [zeroX] at marked
    rcases List.mem_pair.mp marked with rfl | rfl <;> decide
  · exact utf8_hexEncode_ascii _ b digit
  · exact utf8_hexEncode_ascii _ b digit

@[simp] theorem utf8_formatAddress_length : (utf8 (formatAddress a)).length = 82 := by
  have mark : (utf8 "0x").length = 2 := by decide
  simp [utf8_formatAddress, utf8_hexEncode_length, mark]

theorem parseAddress_formatAddress : parseAddress (formatAddress a) = .ok (.ok a) := by
  have mark : (utf8 "0x").length = 2 := by decide
  have body : (utf8 (hexEncode a.asBytes)).length = 64 := by simp [utf8_hexEncode_length]
  have check : (utf8 (hexEncode (checksum a.asBytes))).length = 16 := by simp [utf8_hexEncode_length]
  have ascii := utf8_formatAddress_ascii a
  have length := utf8_formatAddress_length a
  have first : slice (utf8 (formatAddress a)) 2 66 = .ok (utf8 (hexEncode a.asBytes)) := by
    rw [slice_of_ascii ascii (by decide) (by rw [length]; decide), utf8_formatAddress,
      List.drop_left' mark, List.take_left' body]
  have second : slice (utf8 (formatAddress a)) 66 82 =
      .ok (utf8 (hexEncode (checksum a.asBytes))) := by
    rw [slice_of_ascii ascii (by decide) (by rw [length]), utf8_formatAddress, ← List.append_assoc,
      List.drop_left' (by rw [List.length_append, mark, body]), List.take_of_length_le (by rw [check])]
  have decoded (bytes : Bytes) : hexDecodeBytes (utf8 (hexEncode bytes)) = .ok bytes :=
    hexDecode_hexEncode bytes
  have marked : utf8 "0x" <+: utf8 (formatAddress a) := by
    rw [utf8_formatAddress]
    exact List.prefix_append _ _
  rw [parseAddress, if_neg (not_not_intro marked), if_neg (by rw [length]; decide), first, second]
  simp only [ok_bind, decoded]
  rw [Address.asBytes, copyFromSlice_bytes, ok_bind, if_neg (not_not_intro rfl)]
  rfl

theorem localAddress_formatAddress : localAddress (formatAddress a) = some a := by
  rw [localAddress, formatAddress_eq, trimHexMarks_marked, String.ofList_toList, hexDecode_hexEncode]
  have enough : 32 ≤ (checked a).length := by simp
  refine (dif_pos enough).trans (congrArg some ?_)
  apply Address.asBytes_injective
  exact List.take_left' a.asBytes_length

theorem read_formatAddress (reader : AddressReader) :
    reader.read (formatAddress a) =
      match reader with
      | .core | .keyFile => .ok (some a)
      | .registerAndStake => .error (.expect
          "copy_from_slice: source slice length does not match destination slice length")
      | _ => .ok none := by
  have other : (checked a).length ≠ 32 := by simp
  cases reader with
  | core => rw [AddressReader.read, parseAddress_formatAddress]; rfl
  | rpc =>
    rw [AddressReader.read, rpcParseAddress, formatAddress_eq, trimHexMarks_marked,
      String.ofList_toList, decodeAddress_hexEncode other]
    rfl
  | rest =>
    rw [AddressReader.read, parseRawAddress, formatAddress_eq, stripHexPrefix_marked,
      decodeAddress_hexEncode other]
    rfl
  | genesis =>
    rw [AddressReader.read, parseHexAddr, formatAddress_eq, stripHexPrefix_marked,
      hexDecode_hexEncode]
    simp
    rfl
  | transfer =>
    rw [AddressReader.read, recipientAddress, formatAddress_eq, stripHexPrefix_marked,
      decodeAddress_hexEncode other]
    rfl
  | stake | unstake =>
    rw [AddressReader.read, validatorAddress, formatAddress_eq, stripHexPrefix_marked,
      decodeAddress_hexEncode other]
    rfl
  | registerAndStake =>
    rw [AddressReader.read, ownAddress, formatAddress_eq, stripHexPrefix_marked, hexDecode_hexEncode]
    simp only [copyFromSlice, dif_neg other]
    rfl
  | keyFile => rw [AddressReader.read, localAddress_formatAddress]

/-- The parser of `core` and the key file of the node read the canonical form of every address,
and no other reader reads that of any. -/
theorem canonical_read_iff (reader : AddressReader) :
    reader.read (formatAddress a) = .ok (some a) ↔ reader = .core ∨ reader = .keyFile := by
  rw [read_formatAddress]
  cases reader <;> simp

end

section Sample

attribute [local instance] prefixBlake3

/-- The REST server refuses what the wallet prints for Alice, and the wallet panics at it. -/
theorem canonical_not_read :
    AddressReader.rest.read (formatAddress alice) = .ok none ∧
    AddressReader.registerAndStake.read (formatAddress alice) = .error (.expect
      "copy_from_slice: source slice length does not match destination slice length") :=
  ⟨read_formatAddress alice .rest, read_formatAddress alice .registerAndStake⟩

end Sample

end Mononium
