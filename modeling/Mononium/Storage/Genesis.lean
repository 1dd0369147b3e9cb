import Mononium.Storage.Tables
import Mononium.Lib.Text

/-! The genesis loader of `storage::genesis`. -/
namespace Mononium

open Rust Scale

structure GenesisValidator where
  address : String
  stake : String

/-- The iteration order of the account map is that of its entries. -/
structure GenesisConfig where
  chainId : U64
  initialAccounts : HashMap String String
  initialValidators : List GenesisValidator

/-- Reading the configuration from JSON is a library function. -/
class SerdeJson where
  genesisConfig : String → Except String GenesisConfig

/-- One digit of `U256::from_dec_str`. -/
def pushDigit (value : U256) (byte : UInt8) : Except String U256 :=
  if 9 < byte - 48 then .error "a character is not in the range 0-9"
  else if 2 ^ 256 ≤ value.toNat * 10 + (byte - 48).toNat then
    .error "the number is too large for the type"
  else .ok (BitVec.ofNat 256 (value.toNat * 10 + (byte - 48).toNat))

def parseU256 (s : String) : Result U256 :=
  match (utf8 s).foldlM pushDigit 0 with
  | .ok value => .ok value
  | .error e => .error (.storage ("invalid decimal U256 '" ++ s ++ "': " ++ e))

def parseHexAddr (s : String) : Result (FixedBytes 32) :=
  let s := stripHexPrefix s
  match hexDecode s with
  | .error e => .error (.storage ("invalid hex address '" ++ s ++ "': " ++ e))
  | .ok bytes =>
    if length : bytes.length = 32 then .ok ⟨bytes, length⟩
    else .error (.storage ("address must be 32 bytes, got " ++ toString bytes.length))

/-- A computation on the storage. What was written before an error stays written. -/
abbrev StoreM := ExceptT LibError (StateM Storage)

namespace StoreM

def put (table : Table) (key value : Bytes) : StoreM Unit := modify fun storage =>
  storage.put table key value

def ofResult (result : Result α) : StoreM α :=
  match result with
  | .ok a => pure a
  | .error e => throw e

def forEach (xs : List α) (f : α → StoreM Unit) : StoreM Unit :=
  xs.foldlM (fun _ x => f x) ()

theorem bind_ok {x : StoreM α} {f : α → StoreM β} {b : β} {s t : Storage}
    (h : (x >>= f) s = (.ok b, t)) : ∃ a u, x s = (.ok a, u) ∧ f a u = (.ok b, t) := by
  change ExceptT.bindCont f (x s).1 (x s).2 = (.ok b, t) at h
  generalize ran : x s = result at h
  obtain ⟨outcome, u⟩ := result
  cases outcome with
  | ok a => exact ⟨a, u, rfl, h⟩
  | error e => cases h

theorem ofResult_ok {result : Result α} {a : α} {s t : Storage}
    (h : ofResult result s = (.ok a, t)) : result = .ok a ∧ s = t := by
  cases result with
  | ok b =>
    cases h
    exact ⟨rfl, rfl⟩
  | error e => cases h

theorem forEach_invariant {P : Storage → Prop} {f : α → StoreM Unit} {xs : List α} {s t : Storage}
    (step : ∀ x ∈ xs, ∀ s t, P s → f x s = (.ok (), t) → P t) (start : P s)
    (h : forEach xs f s = (.ok (), t)) : P t := by
  induction xs generalizing s with
  | nil =>
    cases h
    exact start
  | cons x xs ih =>
    rw [forEach, List.foldlM_cons] at h
    obtain ⟨_, u, first, rest⟩ := bind_ok h
    exact ih (fun x member => step x (List.mem_cons_of_mem _ member))
      (step x List.mem_cons_self s u start first) rest

end StoreM

def genesisLoadedKey : Bytes := utf8 "genesis_loaded"
def chainIdKey : Bytes := utf8 "chain_id"
def genesisHashKey : Bytes := utf8 "genesis_hash"

def genesisBlock (chainId : U64) : Block where
  header := {
    height := 0
    parentHash := FixedBytes.replicate 32 0
    globalStateRoot := FixedBytes.replicate 32 0
    txRoot := FixedBytes.replicate 32 0
    timestamp := 0
    proposer := repeated 0
    chainId
    proposerSignature := FixedBytes.replicate 809 0 }
  body := ⟨[]⟩

def loadAccount (addrHex balanceStr : String) : StoreM Unit := do
  let rawAddr ← StoreM.ofResult (parseHexAddr addrHex)
  let balance ← StoreM.ofResult (parseU256 balanceStr)
  StoreM.put .accounts rawAddr.bytes (Codec.account.encode (Account.new balance))

/-- A genesis validator is stored as its address and stake, not as an entry. -/
def loadValidator (v : GenesisValidator) : StoreM Unit := do
  let rawAddr ← StoreM.ofResult (parseHexAddr v.address)
  let stake ← StoreM.ofResult (parseU256 v.stake)
  StoreM.put .validators rawAddr.bytes (rawAddr.bytes ++ leBytes 32 stake.toNat)

def loadGenesis [Blake3] [SerdeJson] (file : Except String String) : StoreM Unit := do
  if (← getThe Storage).contains .metadata genesisLoadedKey then
    throw (.storage "genesis already loaded")
  let json ← StoreM.ofResult (file.mapError fun e => .storage ("cannot read genesis file: " ++ e))
  let config ← StoreM.ofResult ((SerdeJson.genesisConfig json).mapError fun e =>
    .storage ("invalid genesis JSON: " ++ e))
  StoreM.put .metadata chainIdKey (leBytes 8 config.chainId.toNat)
  StoreM.forEach config.initialAccounts.entries fun e => loadAccount e.1 e.2
  StoreM.forEach config.initialValidators loadValidator
  StoreM.put .metadata genesisHashKey (blake3 (utf8 json)).bytes
  StoreM.put .blocks (heightKey 0) (Codec.block.encode (genesisBlock config.chainId))
  StoreM.put .metadata genesisLoadedKey (utf8 "1")

theorem loadAccount_blocks {addrHex balanceStr : String} {s t : Storage}
    (h : loadAccount addrHex balanceStr s = (.ok (), t)) : t.table .blocks = s.table .blocks := by
  obtain ⟨rawAddr, u, parsed, h⟩ := StoreM.bind_ok h
  obtain ⟨balance, v, read, h⟩ := StoreM.bind_ok h
  obtain ⟨-, rfl⟩ := StoreM.ofResult_ok parsed
  obtain ⟨-, rfl⟩ := StoreM.ofResult_ok read
  cases h
  exact s.table_put_of_ne _ _ (by decide)

theorem loadValidator_blocks {v : GenesisValidator} {s t : Storage}
    (h : loadValidator v s = (.ok (), t)) : t.table .blocks = s.table .blocks := by
  obtain ⟨rawAddr, u, parsed, h⟩ := StoreM.bind_ok h
  obtain ⟨stake, w, read, h⟩ := StoreM.bind_ok h
  obtain ⟨-, rfl⟩ := StoreM.ofResult_ok parsed
  obtain ⟨-, rfl⟩ := StoreM.ofResult_ok read
  cases h
  exact s.table_put_of_ne _ _ (by decide)

/-- After a successful load the genesis block is the only block. -/
theorem loadGenesis_blocks [Blake3] [SerdeJson] {file : Except String String} {s t : Storage}
    (h : loadGenesis file s = (.ok (), t)) :
    ∃ chainId, t.table .blocks =
      (s.table .blocks).insert (heightKey 0) (Codec.block.encode (genesisBlock chainId)) := by
  unfold loadGenesis at h
  obtain ⟨storage, u, read, h⟩ := StoreM.bind_ok h
  cases read
  split at h
  next => cases h
  next =>
    obtain ⟨json, u, opened, h⟩ := StoreM.bind_ok h
    obtain ⟨-, rfl⟩ := StoreM.ofResult_ok opened
    obtain ⟨config, u, parsed, h⟩ := StoreM.bind_ok h
    obtain ⟨-, rfl⟩ := StoreM.ofResult_ok parsed
    obtain ⟨_, u, chain, h⟩ := StoreM.bind_ok h
    obtain ⟨_, v, accounts, h⟩ := StoreM.bind_ok h
    obtain ⟨_, w, validators, h⟩ := StoreM.bind_ok h
    obtain ⟨_, x, hash, h⟩ := StoreM.bind_ok h
    obtain ⟨_, y, block, h⟩ := StoreM.bind_ok h
    cases chain
    cases hash
    cases block
    cases h
    refine ⟨config.chainId, ?_⟩
    have first := StoreM.forEach_invariant (P := fun u => u.table .blocks = s.table .blocks)
      (fun _ _ _ _ same loaded => (loadAccount_blocks loaded).trans same)
      (s.table_put_of_ne _ _ (by decide)) accounts
    have second := StoreM.forEach_invariant (P := fun u => u.table .blocks = s.table .blocks)
      (fun _ _ _ _ same loaded => (loadValidator_blocks loaded).trans same) first validators
    change (((w.put .metadata genesisHashKey _).put .blocks (heightKey 0) _).put .metadata
      genesisLoadedKey _).table .blocks = _
    rw [Storage.table_put_of_ne _ _ _ (by decide), Storage.table_put_self,
      Storage.table_put_of_ne _ _ _ (by decide), second]

end Mononium
