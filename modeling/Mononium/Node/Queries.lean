import Mononium.Node.GenesisLedger
import Mononium.Node.Lookup
import Mononium.Node.Submission
import Mononium.Node.Wallet

/-! What can be asked of a node. The REST server reads the database and the machine of the slot loop.
The RPC server reads the same database, but a machine and an engine that nothing changes after the
start. -/
namespace Mononium

open Rust Scale

def ValidatorStatus.debug : ValidatorStatus → String
  | .registered => "Registered"
  | .staked stake => "Staked \x7b stake: " ++ toString stake.toNat ++ " \x7d"
  | .active => "Active"
  | .unstaking releaseEra amount => "Unstaking \x7b release_era: " ++ toString releaseEra.toNat ++
      ", amount: " ++ toString amount.toNat ++ " \x7d"
  | .frozen frozenUntil => "Frozen \x7b frozen_until: " ++ toString frozenUntil.toNat ++ " \x7d"
  | .thawed => "Thawed"

structure HealthResponse where
  status : String
  height : U64
  deriving DecidableEq, Repr

structure HeightResponse where
  height : U64
  deriving DecidableEq, Repr

structure EraResponse where
  era : U64
  deriving DecidableEq, Repr

structure GenesisResponse where
  genesisHash : String
  deriving DecidableEq, Repr

structure NonceResponse where
  nonce : U64
  deriving DecidableEq, Repr

structure ValidatorResponse where
  address : String
  exists_ : Bool
  status : String
  stake : String
  deriving DecidableEq, Repr

/-- The highest block, or the height at the start if the database fails. -/
def shownHeight (storage : Storage) (currentHeight : U64) (fault : Option LibError) : Exec U64 :=
  match fault with
  | some _ => return currentHeight
  | none => loadLatestHeight storage

def healthHandler (storage : Storage) (currentHeight : U64) (fault : Option LibError) :
    Exec HealthResponse := do
  return ⟨"ok", ← shownHeight storage currentHeight fault⟩

def heightHandler (storage : Storage) (currentHeight : U64) (fault : Option LibError) :
    Exec HeightResponse := do
  return ⟨← shownHeight storage currentHeight fault⟩

def eraHandler (storage : Storage) (currentHeight : U64) (fault : Option LibError) :
    Exec EraResponse := do
  return ⟨eraAtHeight (← shownHeight storage currentHeight fault)⟩

/-- The codec's own message about a block that does not decode is left out. -/
def loadBlockJson (storage : Storage) (height : U64) (fault : Option LibError) : Except String Block :=
  match fault with
  | some e => .error e.display
  | none =>
    match storage.get .blocks (heightKey height) with
    | none => .error ("block not found: " ++ toString height.toNat)
    | some raw =>
      match Codec.block.decode raw with
      | some (block, _) => .ok block
      | none => .error "serialization error: block decode"

def blockLatestHandler (storage : Storage) (currentHeight : U64) (keysFault fault : Option LibError) :
    Exec (Except ErrResponse Block) := do
  let height ← shownHeight storage currentHeight keysFault
  if height = 0 then
    return .error ⟨404, "no blocks yet"⟩
  match loadBlockJson storage height fault with
  | .ok block => return .ok block
  | .error e => return .error ⟨500, e⟩

def blockByHeightHandler (height : U64) (storage : Storage) (fault : Option LibError) :
    Except ErrResponse Block :=
  match loadBlockJson storage height fault with
  | .ok block => .ok block
  | .error _ => .error ⟨404, "block " ++ toString height.toNat ++ " not found"⟩

def validatorHandler [Blake3] (state : StateMachine) (addressStr : String) :
    Except ErrResponse ValidatorResponse :=
  match parseRawAddress addressStr with
  | .error _ => .error ⟨400, "invalid address: " ++ addressStr⟩
  | .ok addr =>
    match state.getValidator addr with
    | some v => .ok ⟨addressStr, true, v.status.debug, toString v.stake.toNat⟩
    | none => .ok ⟨addressStr, false, "unknown", "0"⟩

section

variable [Blake3]

/-- Without a genesis block that decodes the hash is empty. -/
def genesisHandler (storage : Storage) (fault : Option LibError) : GenesisResponse :=
  match fault with
  | some _ => ⟨""⟩
  | none =>
    match blockAt storage 0 with
    | some block => ⟨hexEncode (headerHash block.header).bytes⟩
    | none => ⟨""⟩

def nonceHandler (state : StateMachine) (addressStr : String) :
    Exec (Except ErrResponse NonceResponse) :=
  match parseRawAddress addressStr with
  | .error _ => return .error ⟨400, "invalid address: " ++ addressStr⟩
  | .ok addr => do return .ok ⟨((← state.getAccount addr).map (·.nonce)).getD 0⟩

end

structure RpcApp where
  storage : Storage
  stateMachine : StateMachine
  currentHeight : U64

namespace RpcApp

def chainGetHeight (app : RpcApp) : U64 := app.currentHeight

def eraCurrent (app : RpcApp) : U64 := eraAtHeight app.currentHeight

/-- The stakes are without a mark in front. -/
def validatorSet [Blake3] (app : RpcApp) : List ValidatorInfo :=
  app.stateMachine.activeSet.map fun addr =>
    ⟨hexEncode addr.asBytes, String.ofList (Nat.toDigits 16
      (((app.stateMachine.getValidator addr).map fun v => v.stake.toNat).getD 0))⟩

def blockLatest (app : RpcApp) : Option Block := blockAt app.storage app.currentHeight

section

variable [Blake3]

def stateGetBalance (app : RpcApp) (addrStr : String) : Exec (Except ErrorObject String) :=
  match rpcParseAddress addrStr with
  | .error e => return .error e
  | .ok addr => do return .ok (lowerHex (((← app.stateMachine.getAccount addr).map (·.balance)).getD 0))

def stateGetNonce (app : RpcApp) (addrStr : String) : Exec (Except ErrorObject U64) :=
  match rpcParseAddress addrStr with
  | .error e => return .error e
  | .ok addr => do return .ok (((← app.stateMachine.getAccount addr).map (·.nonce)).getD 0)

def validatorStake (app : RpcApp) (addrStr : String) : Except ErrorObject String :=
  match rpcParseAddress addrStr with
  | .error e => .error e
  | .ok addr => .ok (lowerHex (((app.stateMachine.getValidator addr).map (·.stake)).getD 0))

def blockHeader (app : RpcApp) (raw : BlockId) : Except ErrorObject BlockHeader :=
  (blockGet raw app.storage app.currentHeight).map (·.header)

end

end RpcApp

/-- The wiring of `run_node`: the database is shared, the machine is an empty one, and the height is
that of the start. -/
def Node.rpcApp [Blake3] (node : Node) (storage : Storage) : RpcApp :=
  ⟨storage, StateMachine.new [], node.engine.currentHeight⟩

end Mononium
