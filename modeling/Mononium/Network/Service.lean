import Mononium.Network.SyncProtocol
import Mononium.Node.Publishing

/-! The event loop of `network::P2pService`. It takes commands of the handle and events of the
swarm one at a time; what it hands to the swarm and to its subscribers is its output. A loop that
was shut down or has panicked takes nothing any more. -/
namespace Mononium

open Rust Scale

inductive P2pCommand (PeerId Multiaddr : Type) where
  | dial (addr : Multiaddr)
  | publishTx (txs : List Transaction)
  | publishBlock (block : Block)
  | publishVote (vote : CommitVote)
  | publishEvidence (evidence : Network.EquivocationEvidence)
  | sendSyncRequest (peer : PeerId) (request : SyncRequest)
  | getPeers
  | shutdown

/-- The events that the handler tells apart. It does not look at the topic of a message. A request
comes with the reads of the database that fail for it. -/
inductive SwarmEvent (PeerId : Type) where
  | gossipsub (propagationSource : PeerId) (topic : String) (data : Bytes)
  | syncRequest (peer : PeerId) (request : SyncRequest) (faults : ReadFaults)
  | syncResponse (peer : PeerId) (response : SyncResponse)
  | connectionEstablished (peer : PeerId)
  | connectionClosed (peer : PeerId)
  | other
  deriving DecidableEq

/-- What the loop does to the outside. `event` and `syncResponse` go to the subscribers. -/
inductive P2pOutput (PeerId Multiaddr : Type) where
  | dial (addr : Multiaddr)
  | publish (topic : String) (data : Bytes)
  | event (event : P2pEvent PeerId)
  | syncResponse (peer : PeerId) (response : SyncResponse)
  | sendRequest (peer : PeerId) (request : SyncRequest)
  | sendResponse (peer : PeerId) (response : SyncResponse)
  | peers (peers : Finset PeerId)

structure P2pService (PeerId : Type) where
  chainId : U64
  peerScores : PeerScoreRepo PeerId
  storage : Option Storage
  genesisHash : Digest
  highestKnownHeight : U64
  connectedPeers : Finset PeerId

/-- What the loop is given: a command, an event, or new contents of the database that it shares. -/
inductive P2pInput (PeerId Multiaddr : Type) where
  | command (cmd : P2pCommand PeerId Multiaddr)
  | swarm (event : SwarmEvent PeerId)
  | database (contents : Storage)

def GossipMessage.topicIndex : GossipMessage → Fin 4
  | .txs _ => 0
  | .block _ => 1
  | .vote _ => 2
  | .evidence _ => 3

namespace P2pService

variable {PeerId Multiaddr : Type} [DecidableEq PeerId]

def new (chainId : U64) : P2pService PeerId :=
  ⟨chainId, .new, none, FixedBytes.replicate 32 0, 0, ∅⟩

def withStorage (self : P2pService PeerId) (storage : Storage) (genesisHash : Digest) :
    P2pService PeerId :=
  { self with storage := some storage, genesisHash }

def subscriptions (self : P2pService PeerId) : List String :=
  (TopicConfig.standardTopics self.chainId).toList.map (·.name)

/-- A message that is too large for its topic is only logged. -/
def publish (self : P2pService PeerId) (index : Fin 4) (msg : GossipMessage) :
    Exec (List (P2pOutput PeerId Multiaddr)) := do
  let topic := (TopicConfig.standardTopics self.chainId).get index
  match ← prepareGossipMessage msg topic with
  | .ok data => return [.publish topic.name data]
  | .error _ => return []

def handleCommand (self : P2pService PeerId) (cmd : P2pCommand PeerId Multiaddr) :
    Exec (Option (P2pService PeerId) × List (P2pOutput PeerId Multiaddr)) :=
  match cmd with
  | .dial addr => return (self, [.dial addr])
  | .publishTx txs => return (self, ← self.publish 0 (.txs txs))
  | .publishBlock block => return (self, ← self.publish 1 (.block block))
  | .publishVote vote => return (self, ← self.publish 2 (.vote vote))
  | .publishEvidence evidence => return (self, ← self.publish 3 (.evidence evidence))
  | .sendSyncRequest peer request => return (self, [.sendRequest peer request])
  | .getPeers => return (self, [.peers self.connectedPeers])
  | .shutdown => return (none, [])

def score (self : P2pService PeerId) (peer : PeerId) : Option ScoreEvent → Exec (P2pService PeerId)
  | some event => do return { self with peerScores := ← self.peerScores.applyEvent peer event }
  | none => return self

section

variable [Blake3]

def serve (self : P2pService PeerId) (request : SyncRequest) (faults : ReadFaults) :
    Exec (Option SyncResponse) :=
  match self.storage with
  | some storage => serveSyncRequest request storage faults self.genesisHash self.highestKnownHeight
  | none => return none

def handleEvent (self : P2pService PeerId) (event : SwarmEvent PeerId) :
    Exec (P2pService PeerId × List (P2pOutput PeerId Multiaddr)) :=
  match event with
  | .gossipsub source _ data => do
    let (scored, delivered) := handleGossip source data
    return (← self.score source scored, (delivered.map P2pOutput.event).toList)
  | .syncRequest peer request faults => do
    return (self, ((← self.serve request faults).map (P2pOutput.sendResponse peer)).toList)
  | .syncResponse peer response => return (self, [.syncResponse peer response])
  | .connectionEstablished peer =>
    return ({ self with connectedPeers := insert peer self.connectedPeers }, [])
  | .connectionClosed peer =>
    return ({ self with connectedPeers := self.connectedPeers.erase peer }, [])
  | .other => return (self, [])

def turn (self : Option (P2pService PeerId)) (input : P2pInput PeerId Multiaddr) :
    Option (P2pService PeerId) × List (P2pOutput PeerId Multiaddr) :=
  match self with
  | none => (none, [])
  | some service =>
    match input with
    | .command cmd =>
      match service.handleCommand cmd with
      | .ok done => done
      | .error _ => (none, [])
    | .swarm event =>
      match service.handleEvent event with
      | .ok (after, outputs) => (some after, outputs)
      | .error _ => (none, [])
    | .database contents => (some { service with storage := service.storage.map fun _ => contents }, [])

end

end P2pService

end Mononium
