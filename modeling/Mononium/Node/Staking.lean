import Mononium.Node.Turns
import Mononium.Node.Wallet

/-! The staking commands of the wallet. Each asks a node for the nonce of its own key, signs, and
posts what it has signed with a second request. In between the node goes on. -/
namespace Mononium

open Rust Scale StateMachine

structure KeyFile where
  publicKey : String
  privateKey : String
  seed : String
  address : String
  deriving DecidableEq, Repr

class FalconKeygen extends FalconKeys where
  generate : Bytes → Except String KeyPair
  privateKeyBytes : KeyPair → Bytes

namespace Wallet

section

variable [Blake3]

def keygen [FalconKeygen] (seed : FixedBytes 48) : Except String KeyFile :=
  match FalconKeygen.generate seed.bytes with
  | .error _ => .error "failed to generate Falcon-512 key pair"
  | .ok kp =>
    let pkBytes := FalconKeys.publicKeyBytes kp
    .ok {
      publicKey := "0x" ++ hexEncode pkBytes.bytes
      privateKey := "0x" ++ hexEncode (FalconKeygen.privateKeyBytes kp)
      seed := "0x" ++ hexEncode seed.bytes
      address := formatAddress (deriveAddress pkBytes) }

/-- `submit_tx` up to the second request: what it signs, with the nonce that the node answers. -/
def submitTxDraft [FalconKeys] (keyFile : KeyFile) (body : TxBody) (state : StateMachine) :
    Exec (Except String Transaction) :=
  match hexDecode (stripHexPrefix keyFile.privateKey) with
  | .error e => return .error ("invalid private key hex: " ++ e)
  | .ok skBytes =>
    match FalconKeys.fromPrivateKey skBytes with
    | .error e => return .error ("failed to restore key pair: " ++ e)
    | .ok kp => do
      let sender := deriveAddress (FalconKeys.publicKeyBytes kp)
      let answer ← balanceHandler state (markedDigits sender)
      let tx : Transaction := {
        chainId := 0
        nonce := answeredNonce answer
        sender
        fee := defaultFlatFee
        body
        signature := FixedBytes.replicate 809 0 }
      match FalconKeys.sign kp (Codec.transaction.encode tx) with
      | .error e => return .error ("failed to sign transaction: " ++ e)
      | .ok sig => return .ok { tx with signature := sig }

section

variable [FalconKeys]

def registerValidator (keyFile : KeyFile) (state : StateMachine) : Exec (Except String Transaction) :=
  match hexDecode (stripHexPrefix keyFile.publicKey) with
  | .error e => return .error ("invalid public key hex: " ++ e)
  | .ok pkBytes =>
    if length : pkBytes.length = 897 then
      submitTxDraft keyFile (.registerValidator ⟨pkBytes, length⟩) state
    else
      return .error ("public key must be 897 bytes, got " ++ toString pkBytes.length)

def withValidator (body : Address → U256 → TxBody) (validatorAddr amountMonex : String)
    (keyFile : KeyFile) (state : StateMachine) : Exec (Except String Transaction) :=
  match validatorAddress validatorAddr with
  | .error e => return .error e
  | .ok validator =>
    match parseMonexAmount amountMonex with
    | .error e => return .error e
    | .ok amount => submitTxDraft keyFile (body validator amount) state

def stake (validatorAddr amountMonex : String) (keyFile : KeyFile) (state : StateMachine) :
    Exec (Except String Transaction) :=
  withValidator .stake validatorAddr amountMonex keyFile state

def unstake (validatorAddr amountMonex : String) (keyFile : KeyFile) (state : StateMachine) :
    Exec (Except String Transaction) :=
  withValidator .unstake validatorAddr amountMonex keyFile state

/-- The validator is the address of the key file, and the sender that of its private key. -/
def registerAndStake (amountMonex : String) (keyFile : KeyFile) (state : StateMachine) :
    Exec (Except String Transaction) := do
  match ← ownAddress keyFile.address with
  | .error e => return .error e
  | .ok validator =>
    match parseMonexAmount amountMonex with
    | .error e => return .error e
    | .ok amount => submitTxDraft keyFile (.registerAndStake validator amount) state

end

end

inductive Command where
  | registerValidator
  | stake (validatorAddr amountMonex : String)
  | registerAndStake (amountMonex : String)
  | unstake (validatorAddr amountMonex : String)
  deriving DecidableEq, Repr

section

variable [Blake3]

def Command.draft [FalconKeys] (command : Command) (keyFile : KeyFile) (state : StateMachine) :
    Exec (Except String Transaction) :=
  match command with
  | .registerValidator => Wallet.registerValidator keyFile state
  | .stake validatorAddr amountMonex => Wallet.stake validatorAddr amountMonex keyFile state
  | .registerAndStake amountMonex => Wallet.registerAndStake amountMonex keyFile state
  | .unstake validatorAddr amountMonex => Wallet.unstake validatorAddr amountMonex keyFile state

variable {A : Finset Address} {s : StateMachine} {tx : Transaction} {keyFile : KeyFile}
  {posted next : Servers} {now : Nat} {hash : String}

/-- No file that `keygen` has written will do for `register_and_stake`: what it holds as the address
has a checksum at the end. -/
theorem registerAndStake_keygen [FalconKeygen] {seed : FixedBytes 48} (written : keygen seed = .ok keyFile)
    (amountMonex : String) (s : StateMachine) :
    registerAndStake amountMonex keyFile s = .error (.expect
      "copy_from_slice: source slice length does not match destination slice length") := by
  unfold keygen at written
  split at written
  next => cases written
  next kp _ =>
    cases written
    have panics := read_formatAddress (deriveAddress (FalconKeys.publicKeyBytes kp)) .registerAndStake
    rw [AddressReader.read] at panics
    rw [registerAndStake]
    dsimp only
    cases read : ownAddress (formatAddress (deriveAddress (FalconKeys.publicKeyBytes kp))) with
    | error panic =>
      rw [read] at panics
      cases panics
      rfl
    | ok address =>
      rw [read] at panics
      cases panics

/-- A draft is for the chain with id 0, pays the flat fee and has the nonce of its sender. -/
structure Drafted (s : StateMachine) (tx : Transaction) : Prop where
  chain : tx.chainId = 0
  fee : tx.fee = defaultFlatFee
  nonce : tx.nonce.toNat = s.nonce tx.sender

theorem submitTxDraft_drafted [FalconKeys] {body : TxBody} (sound : Sound A s) (within : tx.Within A)
    (drafted : submitTxDraft keyFile body s = .ok (.ok tx)) : Drafted s tx := by
  unfold submitTxDraft at drafted
  split at drafted
  next => cases drafted
  next =>
    split at drafted
    next => cases drafted
    next kp _ =>
      obtain ⟨answer, answered, drafted⟩ := bind_eq_ok.mp drafted
      dsimp only at drafted
      split at drafted
      next => cases drafted
      next sig _ =>
        cases drafted
        exact ⟨rfl, rfl, answeredNonce_of_ok sound within.1 answered⟩

theorem withValidator_drafted [FalconKeys] {body : Address → U256 → TxBody}
    {validatorAddr amountMonex : String} (sound : Sound A s) (within : tx.Within A)
    (drafted : withValidator body validatorAddr amountMonex keyFile s = .ok (.ok tx)) : Drafted s tx := by
  unfold withValidator at drafted
  split at drafted
  next => cases drafted
  next =>
    split at drafted
    next => cases drafted
    next => exact submitTxDraft_drafted sound within drafted

theorem registerValidator_drafted [FalconKeys] (sound : Sound A s) (within : tx.Within A)
    (drafted : registerValidator keyFile s = .ok (.ok tx)) : Drafted s tx := by
  unfold registerValidator at drafted
  split at drafted
  next => cases drafted
  next =>
    split at drafted
    next => exact submitTxDraft_drafted sound within drafted
    next => cases drafted

theorem Command.drafted [FalconKeys] {command : Command} (sound : Sound A s) (within : tx.Within A)
    (drafted : command.draft keyFile s = .ok (.ok tx)) : Drafted s tx := by
  cases command with
  | registerValidator => exact registerValidator_drafted sound within drafted
  | stake validatorAddr amountMonex => exact withValidator_drafted sound within drafted
  | unstake validatorAddr amountMonex => exact withValidator_drafted sound within drafted
  | registerAndStake amountMonex =>
    obtain ⟨read, -, drafted⟩ := bind_eq_ok.mp drafted
    split at drafted
    next => cases drafted
    next =>
      split at drafted
      next => cases drafted
      next => exact submitTxDraft_drafted sound within drafted

end

section

variable [Blake3] [FalconKeys] {A : Finset Address} {node : Node} {asked posted next : Servers}
  {later : Tasks} {command : Command} {keyFile : KeyFile} {tx : Transaction} {now : Nat} {hash : String}

end

section Sample

attribute [local instance] prefixBlake3 oneKey

set_option maxRecDepth 8192

end Sample

end Wallet

end Mononium
