import Mononium.Network.Messages
import Mononium.Network.PeerScore
import Mononium.Storage.Genesis

/-! Where messages enter a node: the gossip handler of `network` and `tx_submit` of the
RPC server. Both read a value from the front of the bytes and ignore what follows. -/
namespace Mononium

open Rust Scale

inductive P2pEvent (PeerId : Type) where
  | txReceived (source : PeerId) (txs : List Transaction)
  | blockReceived (source : PeerId) (block : Block)
  | voteReceived (source : PeerId) (vote : CommitVote)
  | evidenceReceived (source : PeerId) (evidence : Network.EquivocationEvidence)

def gossiped (data : Bytes) : Option GossipMessage := (Codec.gossipMessage.decode data).map Prod.fst

/-- Evidence leaves the score of its sender alone. -/
def handleGossip (source : PeerId) (data : Bytes) : Option ScoreEvent × Option (P2pEvent PeerId) :=
  match gossiped data with
  | some (.txs txs) => (some .validBlockPropagated, some (.txReceived source txs))
  | some (.block block) => (some .validBlockPropagated, some (.blockReceived source block))
  | some (.vote vote) => (some .validVotePropagated, some (.voteReceived source vote))
  | some (.evidence evidence) => (none, some (.evidenceReceived source evidence))
  | none => (some .invalidBlockGossiped, none)

/-- The id that gossipsub recognises a message by: a hash of the whole payload. -/
def messageId [Blake3] (data : Bytes) : Bytes := (blake3 data).bytes.take 20

inductive SubmitError where
  | invalidTxHex (reason : String)
  | invalidTxData
  deriving DecidableEq, Repr

def submitted (raw : Bytes) : Option Transaction := (Codec.transaction.decode raw).map Prod.fst

def txSubmit [Blake3] (hexTx : String) : Except SubmitError (Transaction × Digest) :=
  match hexDecode (String.ofList (trimHexMarks hexTx.toList)) with
  | .error e => .error (.invalidTxHex e)
  | .ok raw =>
    match submitted raw with
    | none => .error .invalidTxData
    | some tx => .ok (tx, blake3 (Codec.transaction.encode tx))

theorem front_same_iff (c : Codec α) {x y : Bytes} {a b : α}
    (left : (c.decode x).map Prod.fst = some a) (right : (c.decode y).map Prod.fst = some b) :
    a = b ↔ c.StartAlike x y := by
  obtain ⟨⟨_, r⟩, first, rfl⟩ := Option.map_eq_some_iff.mp left
  obtain ⟨⟨_, t⟩, second, rfl⟩ := Option.map_eq_some_iff.mp right
  exact c.same_iff_startAlike first second

theorem whole_same_iff (c : Codec α) {x y : Bytes} {a b : α} (left : c.decode x = some (a, []))
    (right : c.decode y = some (b, [])) : a = b ↔ x = y := by
  constructor
  · rintro rfl
    exact (c.encode_decode left).2.trans (c.encode_decode right).2.symm
  · rintro rfl
    exact (Prod.mk.inj (Option.some.inj (left.symm.trans right))).1

/-- Accepted payloads with one id carry one message, unless their hashes collide. -/
theorem same_of_messageId [Blake3] {a b : Bytes} {m n : GossipMessage} (left : gossiped a = some m)
    (right : gossiped b = some n) (ids : messageId a = messageId b) :
    m = n ∨ a ≠ b ∧ (blake3 a).bytes.take 20 = (blake3 b).bytes.take 20 := by
  by_cases same : a = b
  · subst same
    exact .inl (Option.some.inj (left.symm.trans right))
  · exact .inr ⟨same, ids⟩

/-- The handler delivers the same event exactly when it reads the same message. -/
theorem handleGossip_same {a b : Bytes} {m n : GossipMessage} (left : gossiped a = some m)
    (right : gossiped b = some n) (source : PeerId) :
    handleGossip source a = handleGossip source b ↔ m = n := by
  rw [handleGossip, handleGossip, left, right]
  constructor
  · intro same
    cases m <;> cases n <;> simp_all
  · rintro rfl
    rfl

/-- Accepted inputs carry the same message, and cause the same event, exactly when one
complete encoding starts both. Inputs that end with their message are equal exactly when
the messages are, and the id of a payload still identifies its message. -/
theorem accepted_same_iff [Blake3] :
    (∀ a b m n, gossiped a = some m → gossiped b = some n →
      (m = n ↔ Codec.gossipMessage.StartAlike a b) ∧
      (∀ (PeerId : Type) (source : PeerId),
        handleGossip source a = handleGossip source b ↔ Codec.gossipMessage.StartAlike a b) ∧
      (messageId a = messageId b →
        m = n ∨ a ≠ b ∧ (blake3 a).bytes.take 20 = (blake3 b).bytes.take 20)) ∧
    (∀ a b t u, submitted a = some t → submitted b = some u →
      (t = u ↔ Codec.transaction.StartAlike a b)) ∧
    (∀ a b m n, Codec.gossipMessage.decode a = some (m, []) →
      Codec.gossipMessage.decode b = some (n, []) → (m = n ↔ a = b)) ∧
    (∀ a b t u, Codec.transaction.decode a = some (t, []) →
      Codec.transaction.decode b = some (u, []) → (t = u ↔ a = b)) := by
  refine ⟨fun a b m n left right => ?_, fun a b t u left right => front_same_iff _ left right,
    fun a b m n left right => whole_same_iff _ left right,
    fun a b t u left right => whole_same_iff _ left right⟩
  have same := front_same_iff Codec.gossipMessage left right
  exact ⟨same, fun PeerId source => (handleGossip_same left right source).trans same,
    same_of_messageId left right⟩

/-- A byte after the message changes neither what is gossiped nor what is submitted. -/
theorem appended_byte_accepted :
    ([0, 0] : Bytes) ≠ [0, 0, 0] ∧
    gossiped [0, 0] = some (.txs []) ∧ gossiped [0, 0, 0] = some (.txs []) ∧
    submitted (Codec.transaction.encode (transferTx alice bob 1 0)) =
      some (transferTx alice bob 1 0) ∧
    submitted (Codec.transaction.encode (transferTx alice bob 1 0) ++ [0]) =
      some (transferTx alice bob 1 0) := by
  have fits : Codec.transaction.fits (transferTx alice bob 1 0) = true := rfl
  refine ⟨by decide, by decide, by decide, ?_, ?_⟩
  · rw [submitted, Codec.decode_encode_nil _ fits]
    rfl
  · rw [submitted, Codec.decode_encode _ fits]
    rfl

end Mononium
