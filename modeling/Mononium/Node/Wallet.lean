import Mononium.Node.Addresses
import Mononium.Core.Transfers

/-! The transfer of the wallet. It asks a node for a balance, takes the nonce from the answer, and
signs a transaction for the chain with id 0. What the node answers is about the recipient. -/
namespace Mononium

open Rust Scale

/-- Key pairs come from a library. Nothing is assumed about them. -/
class FalconKeys where
  KeyPair : Type
  fromPrivateKey : Bytes → Except String KeyPair
  publicKeyBytes : KeyPair → FixedBytes 897
  sign : KeyPair → Bytes → Except String Falcon512Signature

/-- The limbs of the source, least significant first. -/
def defaultFlatFee : U256 := BitVec.ofNat 256 (7223210852348854272 + 36158142452 * 2 ^ 64)

structure BalanceResponse where
  address : String
  balance : String
  nonce : U64
  deriving DecidableEq, Repr

section

variable [Blake3]

/-- An unknown account is answered for like an empty one. -/
def balanceHandler (state : StateMachine) (addressStr : String) :
    Exec (Except ErrResponse BalanceResponse) :=
  match parseRawAddress addressStr with
  | .error _ => return .error ⟨400, "invalid address: " ++ addressStr⟩
  | .ok addr => do
    match ← state.getAccount addr with
    | some acct => return .ok ⟨addressStr, toString acct.balance.toNat, acct.nonce⟩
    | none => return .ok ⟨addressStr, "0", 0⟩

def deriveAddress (pubkey : FixedBytes 897) : Address := ⟨blake3 pubkey.bytes⟩

/-- At most 32 decimal places, which are filled up and read as one number with the rest. -/
def parseMonexAmount (s : String) : Except String U256 := do
  let (integerStr, fractionalStr) ← match s.toList.splitOn '.' with
    | [integerStr] => .ok (integerStr, [])
    | [integerStr, fractionalStr] => .ok (integerStr, fractionalStr)
    | _ => .error ("invalid amount format: " ++ s)
  let places := (utf8 (String.ofList fractionalStr)).length
  if 32 < places then
    throw ("too many decimal places (max 32): " ++ s)
  let combined := integerStr ++ fractionalStr ++ List.replicate (32 - places) '0'
  match (utf8 (String.ofList combined)).foldlM pushDigit 0 with
  | .ok value => return value
  | .error _ => throw ("invalid amount: " ++ s)

def answeredNonce (answer : Except ErrResponse BalanceResponse) : U64 :=
  match answer with
  | .ok response => response.nonce
  | .error _ => 0

/-- The signed transaction that `wallet::transfer` submits to the node whose state this is. The
private key is that of the key file. -/
def transfer [FalconKeys] (recipient amountMonex privateKey : String) (state : StateMachine) :
    Exec (Except String Transaction) :=
  match hexDecode (stripHexPrefix privateKey) with
  | .error e => return .error ("invalid private key hex: " ++ e)
  | .ok skBytes =>
    match FalconKeys.fromPrivateKey skBytes with
    | .error e => return .error ("failed to restore key pair: " ++ e)
    | .ok kp =>
      match recipientAddress recipient with
      | .error e => return .error e
      | .ok recipient =>
        match parseMonexAmount amountMonex with
        | .error e => return .error e
        | .ok amountMoxx => do
          let answer ← balanceHandler state (markedDigits recipient)
          let tx : Transaction := {
            chainId := 0
            nonce := answeredNonce answer
            sender := deriveAddress (FalconKeys.publicKeyBytes kp)
            fee := defaultFlatFee
            body := .transfer recipient amountMoxx
            signature := FixedBytes.replicate 809 0 }
          match FalconKeys.sign kp (Codec.transaction.encode tx) with
          | .error e => return .error ("failed to sign transaction: " ++ e)
          | .ok sig => return .ok { tx with signature := sig }

end

section

open StateMachine

variable [Blake3] {A : Finset Address} {s : StateMachine} {tx : Transaction} {chainId : U64}

theorem answeredNonce_of_ok {a : Address} {answer : Except ErrResponse BalanceResponse}
    (sound : Sound A s) (ha : a ∈ A)
    (answered : balanceHandler s (markedDigits a) = .ok answer) :
    (answeredNonce answer).toNat = s.nonce a := by
  rw [balanceHandler, parseRawAddress, decodeAddress_markedDigits] at answered
  dsimp only at answered
  rw [sound.getAccount ha, ok_bind] at answered
  rw [StateMachine.nonce]
  cases found : s.account a with
  | none =>
    rw [found] at answered
    cases answered
    rfl
  | some acct =>
    rw [found] at answered
    cases answered
    rfl

/-- What the wallet puts together: a transfer with the nonce of its recipient. -/
theorem transfer_eq_ok [FalconKeys] {recipient amountMonex privateKey : String} (sound : Sound A s)
    (within : tx.Within A) (built : transfer recipient amountMonex privateKey s = .ok (.ok tx)) :
    ∃ to_ amount, recipientAddress recipient = .ok to_ ∧ parseMonexAmount amountMonex = .ok amount ∧
      tx.body = .transfer to_ amount ∧ tx.chainId = 0 ∧ tx.fee = defaultFlatFee ∧
      tx.nonce.toNat = s.nonce to_ := by
  unfold transfer at built
  split at built
  next => cases built
  next =>
    split at built
    next => cases built
    next kp _ =>
      split at built
      next => cases built
      next recipient read =>
        split at built
        next => cases built
        next amount parsed =>
          obtain ⟨answer, answered, built⟩ := bind_eq_ok.mp built
          dsimp only at built
          split at built
          next => cases built
          next sig _ =>
            cases built
            refine ⟨recipient, amount, read, parsed, rfl, rfl, rfl, ?_⟩
            have inside : recipient ∈ A := within.recipient rfl
            exact answeredNonce_of_ok sound inside answered

/-- A block of one transfer that its sender can pay. -/
theorem applyBlock_single_iff {block : Block} {recipient : Address} {amount : U256} (sound : Sound A s)
    (within : tx.Within A) (body : tx.body = .transfer recipient amount)
    (third : recipient ≠ tx.sender) (known : s.account tx.sender ≠ none)
    (rich : tx.debit ≤ s.balance tx.sender) (alone : block.body.transactions = [tx])
    (chain : tx.chainId = block.header.chainId) :
    (∃ receipt t, s.applyBlock block = .ok (receipt, t) ∧ receipt.failedCount = 0) ↔
      tx.nonce.toNat = s.nonce tx.sender ∧ tx.nonce.toNat + 1 < 2 ^ 64 ∧
      s.balance recipient + amount.toNat < 2 ^ 256 ∧
      ∀ a ∈ s.activeSet, (feeAsU128 tx.fee).toNat * s.stake a < 2 ^ 256 := by
  have only {P : Transaction → Prop} (holds : P tx) : ∀ other ∈ block.body.transactions, P other := by
    rw [alone]
    simpa using holds
  have spent : spentBy block.body.transactions tx.sender = tx.debit := by simp [alone, spentBy]
  have fees : pooledFees block.body.transactions = (feeAsU128 tx.fee).toNat := by
    simp [alone, pooledFees]
  have payment : tx.body.payment = some (recipient, amount) := by rw [body]; rfl
  rw [applyBlock_transfers_iff sound (only within) (only ⟨recipient, amount, body, third⟩) (only chain)
    (only known) (only (spent.trans_le rich)), fees, alone, ← and_assoc, ← and_assoc]
  refine and_congr ?_ Iff.rfl
  constructor
  · intro ready
    have first := ready [] tx [] rfl
    have nonce := first.nonce
    have credit := first.credit recipient amount payment
    rw [sentBy_nil, Nat.add_zero] at nonce
    rw [paidTo_nil, spentBy_nil, Nat.add_zero, Nat.add_zero] at credit
    exact ⟨⟨nonce, first.next⟩, credit⟩
  · rintro ⟨⟨nonce, next⟩, credit⟩ pre other post split
    obtain ⟨rfl, same⟩ := List.append_eq_singleton_iff.mp split.symm |>.resolve_right (by simp)
    cases same
    refine ⟨?_, next, ?_, ?_, by decide⟩
    · rw [sentBy_nil, Nat.add_zero]
      exact nonce
    · intro r value paid
      cases payment.symm.trans paid
      rw [paidTo_nil, spentBy_nil, Nat.add_zero, Nat.add_zero]
      exact credit
    · rw [pooledFees_nil, Nat.zero_add]
      exact (feeAsU128 tx.fee).isLt

/-- The wallet's transfer executes exactly on the chain with id 0, from an account whose nonce is
that of the recipient, and where nothing overflows. -/
theorem transfer_executes_iff [FalconKeys] {accounts : List (Address × Account)}
    {to_ amountMonex privateKey : String} {recipient : Address} {amount : U256}
    (reachable : Reachable A accounts s) (within : tx.Within A)
    (built : transfer to_ amountMonex privateKey s = .ok (.ok tx))
    (body : tx.body = .transfer recipient amount) (third : recipient ≠ tx.sender)
    (known : s.account tx.sender ≠ none)
    (rich : amount.toNat + defaultFlatFee.toNat ≤ s.balance tx.sender) :
    (tx.chainId = chainId ∧ tx.nonce.toNat = s.nonce tx.sender ∧
      ∀ block : Block, block.header.chainId = chainId → block.body.transactions = [tx] →
        ∃ receipt t, s.applyBlock block = .ok (receipt, t) ∧ receipt.failedCount = 0) ↔
    chainId = 0 ∧ s.nonce recipient = s.nonce tx.sender ∧ s.nonce tx.sender + 1 < 2 ^ 64 ∧
      s.balance recipient + amount.toNat < 2 ^ 256 ∧
      ∀ a ∈ s.activeSet, defaultFlatFee.toNat * s.stake a < 2 ^ 256 := by
  have sound := reachable.sound
  obtain ⟨r, value, -, -, same, zero, fee, nonce⟩ := transfer_eq_ok sound within built
  cases body.symm.trans same
  have debit : tx.debit ≤ s.balance tx.sender := by
    rw [Transaction.debit, body, fee, Nat.add_comm]
    exact rich
  have pooled : (feeAsU128 tx.fee).toNat = defaultFlatFee.toNat := by
    rw [fee]
    decide
  have single (block : Block) (alone : block.body.transactions = [tx])
      (chain : tx.chainId = block.header.chainId) :=
    applyBlock_single_iff sound within body third known debit alone chain
  rw [pooled] at single
  constructor
  · rintro ⟨chain, current, executes⟩
    let block : Block := ⟨{ (testBlock []).header with chainId }, ⟨[tx]⟩⟩
    obtain ⟨_, next, credit, shares⟩ := (single block rfl chain).mp (executes block rfl rfl)
    exact ⟨chain.symm.trans zero, nonce.symm.trans current, current ▸ next, credit, shares⟩
  · rintro ⟨rfl, equal, next, credit, shares⟩
    have current := nonce.trans equal
    refine ⟨zero, current, fun block chain alone => ?_⟩
    exact (single block alone (zero.trans chain.symm)).mpr ⟨current, current ▸ next, credit, shares⟩

end

section Sample

open StateMachine

attribute [local instance] prefixBlake3

set_option maxRecDepth 8192

abbrev oneKey : FalconKeys where
  KeyPair := Unit
  fromPrivateKey bytes := if bytes.length = 1281 then .ok () else .error "invalid private key"
  publicKeyBytes _ := FixedBytes.replicate 897 0xAA
  sign _ _ := .ok dummySig

attribute [local instance] oneKey

def aliceKey : String := "0x" ++ hexEncode (List.replicate 1281 0xAA)

def aliceTransfer (nonce : U64) : Transaction :=
  ⟨0, nonce, alice, defaultFlatFee, .transfer bob (10 ^ 32), dummySig⟩

def walletAccounts (nonce : U64) : List (Address × Account) :=
  [(alice, Account.new (10 ^ 33)), (bob, { Account.new 0 with nonce })]

theorem alice_transfers {nonce : U64} (sound : Sound {alice, bob} (.new (walletAccounts nonce)))
    (account : (StateMachine.new (walletAccounts nonce)).account bob = some { Account.new 0 with nonce }) :
    transfer (markedDigits bob) "1" aliceKey (.new (walletAccounts nonce)) =
      .ok (.ok (aliceTransfer nonce)) := by
  have amount : parseMonexAmount "1" = .ok (10 ^ 32) := by decide
  have sender : deriveAddress (FixedBytes.replicate 897 0xAA) = alice := by decide
  have known : (StateMachine.new (walletAccounts nonce)).getAccount bob = _ :=
    sound.getAccount (by decide)
  rw [account] at known
  have restored : FalconKeys.fromPrivateKey (List.replicate 1281 0xAA) = .ok () :=
    if_pos List.length_replicate
  obtain ⟨balance, answered⟩ : ∃ balance, balanceHandler (.new (walletAccounts nonce))
      (markedDigits bob) = .ok (.ok ⟨markedDigits bob, balance, nonce⟩) := by
    rw [balanceHandler, parseRawAddress, decodeAddress_markedDigits]
    dsimp only
    rw [known]
    exact ⟨_, rfl⟩
  rw [transfer, aliceKey, stripHexPrefix_marked, hexDecode_hexEncode]
  dsimp only
  rw [restored]
  dsimp only
  rw [recipientAddress, decodeAddress_markedDigits]
  dsimp only
  rw [amount]
  dsimp only
  rw [answered, ok_bind]
  rfl

theorem wallet_reachable (nonce : U64) (genesis : ∀ p ∈ walletAccounts nonce, p.1 ∈ ({alice, bob} : Finset Address)) :
    Reachable {alice, bob} (walletAccounts nonce) (.new (walletAccounts nonce)) :=
  new_reachable (by decide) genesis

theorem freshTransfer_executes :
    transfer (markedDigits bob) "1" aliceKey (.new (walletAccounts 0)) = .ok (.ok (aliceTransfer 0)) ∧
    ∀ block : Block, block.header.chainId = 0 → block.body.transactions = [aliceTransfer 0] →
      ∃ receipt t, (StateMachine.new (walletAccounts 0)).applyBlock block = .ok (receipt, t) ∧
        receipt.failedCount = 0 := by
  have reachable := wallet_reachable 0 (by decide)
  have built := alice_transfers reachable.sound (by decide)
  have executes := (transfer_executes_iff reachable (by decide) built rfl (by decide) (by decide)
    (by decide)).mpr ⟨rfl, by decide, by decide, by decide, fun _ active => by cases active⟩
  exact ⟨built, executes.2.2⟩

/-- Bob has sent a transaction before, and Alice's first transfer to him carries his nonce. -/
theorem usedTransfer_not_execute :
    Reachable {alice, bob} (walletAccounts 1) (.new (walletAccounts 1)) ∧
    (StateMachine.new (walletAccounts 1)).account alice = some (Account.new (10 ^ 33)) ∧
    (10 ^ 32 : U256).toNat + defaultFlatFee.toNat ≤ (Account.new (10 ^ 33)).balance.toNat ∧
    transfer (markedDigits bob) "1" aliceKey (.new (walletAccounts 1)) = .ok (.ok (aliceTransfer 1)) ∧
    ∀ block : Block, block.header.chainId = 0 → block.body.transactions = [aliceTransfer 1] →
      ¬∃ receipt t, (StateMachine.new (walletAccounts 1)).applyBlock block = .ok (receipt, t) ∧
        receipt.failedCount = 0 := by
  have reachable := wallet_reachable 1 (by decide)
  refine ⟨reachable, by decide, by decide, alice_transfers reachable.sound (by decide), ?_⟩
  intro block chain alone executes
  have single := (applyBlock_single_iff reachable.sound (by decide) rfl (by decide) (by decide)
    (by decide) alone chain.symm).mp executes
  exact absurd single.1 (by decide)

end Sample

end Mononium
