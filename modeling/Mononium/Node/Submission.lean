import Mononium.Mempool.Contents
import Mononium.Network.Gossip
import Mononium.Node.Addresses
import Mononium.Node.Tasks

/-! The two ways to submit a transaction to a node. The REST server inserts into the pool of the
slot loop and passes a refusal on. The RPC server was given a pool of its own, and drops the result
of the insertion. -/
namespace Mononium

open Rust Scale

def LibError.display : LibError → String
  | .insufficientBalance have_ need =>
    "insufficient balance: have " ++ toString have_.toNat ++ ", need " ++ toString need.toNat
  | .invalidNonce expected got =>
    "invalid nonce: expected " ++ toString expected.toNat ++ ", got " ++ toString got.toNat
  | .accountNotFound address => "account not found: 0x" ++ hexEncode address.bytes
  | .validatorNotFound address => "validator not found: 0x" ++ hexEncode address.bytes
  | .proposalNotFound => "proposal not found"
  | .governanceRejected reason => "governance action rejected: " ++ reason
  | .consensus reason => "consensus error: " ++ reason
  | .storage reason => "storage error: " ++ reason
  | .invalidAddress text => "invalid address: " ++ text
  | .alreadyFrozen => "validator is already frozen"
  | .equivocationHeightMismatch a b =>
    "equivocation: header height mismatch (a=" ++ toString a.toNat ++ ", b=" ++ toString b.toNat ++ ")"
  | .equivocationParentMismatch => "equivocation: parent hash mismatch"
  | .equivocationIdenticalBlocks => "equivocation: headers are identical"
  | .equivocationSigAInvalid => "equivocation: signature A is invalid"
  | .equivocationSigBInvalid => "equivocation: signature B is invalid"

structure TxSubmitResponse where
  txHash : String
  status : String
  deriving DecidableEq, Repr

/-- A node with its servers. The REST server shares the pool of the tasks. -/
structure Servers where
  tasks : Tasks
  rpcMempool : Mempool

/-- The wiring of `run_node`: both pools are made from one configuration. -/
def Tasks.serve (tasks : Tasks) : Servers := ⟨tasks, nodeMempool⟩

inductive Submission where
  | rpc (hexTx : String)
  | rest (tx : Transaction)

namespace Servers

variable [Blake3]

def txSubmitHandler (self : Servers) (tx : Transaction) (now : Nat) :
    Exec (Except ErrResponse TxSubmitResponse × Servers) := do
  let txHash := hexEncode ((blake3 (Codec.transaction.encode tx)).bytes.take 8)
  let (result, mempool) ← self.tasks.mempool.insert tx now
  let next := { self with tasks := { self.tasks with mempool } }
  match result with
  | .ok () => return (.ok ⟨txHash, "in_mempool"⟩, next)
  | .error e => return (.error ⟨400, "tx rejected: " ++ e.display⟩, next)

def rpcTxSubmit (self : Servers) (hexTx : String) (now : Nat) :
    Exec (Except SubmitError String × Servers) :=
  match txSubmit hexTx with
  | .error e => return (.error e, self)
  | .ok (tx, txHash) => do
    let (_, rpcMempool) ← self.rpcMempool.insert tx now
    return (.ok ("0x" ++ hexEncode txHash.bytes), { self with rpcMempool })

def submit (self : Servers) (now : Nat) : Submission → Exec (Option String × Servers)
  | .rpc hexTx => do
    let (reply, next) ← self.rpcTxSubmit hexTx now
    return (reply.toOption, next)
  | .rest tx => do
    let (reply, next) ← self.txSubmitHandler tx now
    return (reply.toOption.map TxSubmitResponse.txHash, next)

end Servers

def Submission.transaction [Blake3] : Submission → Option Transaction
  | .rpc hexTx => (txSubmit hexTx).toOption.map Prod.fst
  | .rest tx => some tx

def Mempool.Holds (self : Mempool) (tx : Transaction) : Prop := tx ∈ self.all.map PoolTx.tx

instance (self : Mempool) (tx : Transaction) : Decidable (self.Holds tx) :=
  inferInstanceAs (Decidable (tx ∈ _))

namespace Mempool

variable {self next : Mempool} {tx : Transaction} {now : Nat}

theorem holds_of_insert (inserted : self.insert tx now = .ok (.ok (), next)) : next.Holds tx := by
  obtain ⟨-, -, -, -, added⟩ := insert_accepted inserted
  exact List.mem_map.mpr ⟨⟨tx, now⟩, added.mem_iff.mpr List.mem_cons_self, rfl⟩

end Mempool

namespace Servers

variable [Blake3] {self next : Servers} {now : Nat} {tx : Transaction} {hash : String}

/-- The handler of the REST server does to the tasks what they call a submission. -/
theorem txSubmitHandler_step {reply : Except ErrResponse TxSubmitResponse}
    (ran : self.txSubmitHandler tx now = .ok (reply, next)) :
    self.tasks.step (.submit tx now) = .ok (.none, next.tasks) ∧ next.rpcMempool = self.rpcMempool := by
  obtain ⟨⟨result, mempool⟩, inserted, ran⟩ := bind_eq_ok.mp ran
  rw [Tasks.step, inserted, ok_bind]
  cases result with
  | ok =>
    cases ran
    exact ⟨rfl, rfl⟩
  | error e =>
    cases ran
    exact ⟨rfl, rfl⟩

/-- What the REST server reports as submitted is in the pool of the slot loop. -/
theorem holds_of_rest (ran : self.submit now (.rest tx) = .ok (some hash, next)) :
    next.tasks.mempool.Holds tx := by
  obtain ⟨⟨reply, after⟩, handled, ran⟩ := bind_eq_ok.mp ran
  obtain ⟨⟨result, mempool⟩, inserted, handled⟩ := bind_eq_ok.mp handled
  cases result with
  | ok =>
    cases handled
    cases ran
    exact Mempool.holds_of_insert inserted
  | error e =>
    cases handled
    cases ran

/-- Whatever the RPC server replies, the pool of the slot loop is what it was. -/
theorem tasks_of_rpc {hexTx : String} {reply : Option String}
    (ran : self.submit now (.rpc hexTx) = .ok (reply, next)) : next.tasks = self.tasks := by
  obtain ⟨⟨answer, after⟩, handled, ran⟩ := bind_eq_ok.mp ran
  cases ran
  unfold rpcTxSubmit at handled
  split at handled
  next =>
    cases handled
    rfl
  next =>
    obtain ⟨_, -, handled⟩ := bind_eq_ok.mp handled
    cases handled
    rfl

theorem rpc_reports {hexTx : String} (self : Servers) (now : Nat)
    (read : (Submission.rpc hexTx).transaction = some tx) :
    ∃ hash next, self.submit now (.rpc hexTx) = .ok (some hash, next) := by
  cases submitted : txSubmit hexTx with
  | error e =>
    rw [Submission.transaction, submitted] at read
    cases read
  | ok value =>
    obtain ⟨⟨_, rpcMempool⟩, inserted⟩ := self.rpcMempool.insert_returns value.1 now
    refine ⟨"0x" ++ hexEncode value.2.bytes, { self with rpcMempool }, ?_⟩
    simp only [submit, rpcTxSubmit, submitted, inserted, ok_bind]
    rfl

/-- A reported transaction is in the pool of the slot loop exactly if it came through the REST
server or was there before. -/
theorem submission_kept_iff (self : Servers) (now : Nat) (submission : Submission) :
    (∀ hash next tx, self.submit now submission = .ok (some hash, next) →
      submission.transaction = some tx → next.tasks.mempool.Holds tx) ↔
    (∃ tx, submission = .rest tx) ∨
      ∀ tx, submission.transaction = some tx → self.tasks.mempool.Holds tx := by
  cases submission with
  | rest tx =>
    refine iff_of_true (fun hash next other ran read => ?_) (.inl ⟨tx, rfl⟩)
    cases read
    exact holds_of_rest ran
  | rpc hexTx =>
    constructor
    · intro kept
      refine .inr fun tx read => ?_
      obtain ⟨hash, next, ran⟩ := self.rpc_reports now read
      have holds := kept hash next tx ran read
      rwa [tasks_of_rpc ran] at holds
    · rintro (⟨_, other⟩ | there)
      · cases other
      · intro hash next tx ran read
        rw [tasks_of_rpc ran]
        exact there tx read

end Servers

section Sample

open StateMachine

attribute [local instance] peakBlake3 soloSerdeJson

/-- A node answers the RPC call with a hash, and its slots never see the vote. -/
theorem Servers.rpcVote_lost :
    startNode none soloStorage = .ok (.ok soloNode) ∧
    ∃ hexTx hash next, soloNode.launch.serve.submit 1 (.rpc hexTx) = .ok (some hash, next) ∧
      (Submission.rpc hexTx).transaction = some freshVote ∧ ¬next.tasks.mempool.Holds freshVote := by
  have fits : Codec.transaction.fits freshVote = true := by decide
  have read : (Submission.rpc ("0x" ++ hexEncode (Codec.transaction.encode freshVote))).transaction =
      some freshVote := by
    rw [Submission.transaction, txSubmit, trimHexMarks_marked, String.ofList_toList,
      hexDecode_hexEncode]
    dsimp only
    rw [submitted, Codec.decode_encode_nil _ fits]
    rfl
  obtain ⟨hash, next, ran⟩ := soloNode.launch.serve.rpc_reports 1 read
  refine ⟨solo_started, _, hash, next, ran, read, ?_⟩
  rw [Servers.tasks_of_rpc ran]
  exact List.not_mem_nil

end Sample

end Mononium
