import Mononium.Lib.Swarm
import Mononium.Network.Service
import Mathlib.Tactic.FinCases

/-! Many services on one network. What gossipsub and the request channel carry are packets; a
gossiped packet may reach any node that subscribes to its topic, from any peer, any number of
times and in any order. -/
namespace Mononium

open Rust Scale

inductive P2pPacket (PeerId : Type) where
  | gossip (topic : String) (data : Bytes)
  | request (sender receiver : PeerId) (request : SyncRequest)
  | response (sender receiver : PeerId) (response : SyncResponse)

def P2pCommand.message {PeerId Multiaddr : Type} : P2pCommand PeerId Multiaddr → Option GossipMessage
  | .publishTx txs => some (.txs txs)
  | .publishBlock block => some (.block block)
  | .publishVote vote => some (.vote vote)
  | .publishEvidence evidence => some (.evidence evidence)
  | _ => none

namespace GossipMessage

variable {PeerId Multiaddr : Type}

def command : GossipMessage → P2pCommand PeerId Multiaddr
  | .txs transactions => .publishTx transactions
  | .block payload => .publishBlock payload
  | .vote ballot => .publishVote ballot
  | .evidence proof => .publishEvidence proof

def event (source : PeerId) : GossipMessage → P2pEvent PeerId
  | .txs transactions => .txReceived source transactions
  | .block payload => .blockReceived source payload
  | .vote ballot => .voteReceived source ballot
  | .evidence proof => .evidenceReceived source proof

def topic (message : GossipMessage) (chainId : U64) : TopicConfig :=
  (TopicConfig.standardTopics chainId).get message.topicIndex

def Fits (message : GossipMessage) : Prop :=
  message.Encodable ∧
    (Codec.gossipMessage.encode message).length ≤ (message.topic 0).maxMessageSize

theorem message_eq_some {cmd : P2pCommand PeerId Multiaddr} {message : GossipMessage} :
    cmd.message = some message ↔ cmd = message.command := by
  cases message <;> cases cmd <;> simp [P2pCommand.message, command]

end GossipMessage

theorem toDigits_injective {n m : Nat} (same : Nat.toDigits 10 n = Nat.toDigits 10 m) : n = m := by
  calc n = Nat.ofDigitChars 10 (Nat.toDigits 10 n) 0 := Nat.ofDigitChars_ten_toDigits.symm
    _ = Nat.ofDigitChars 10 (Nat.toDigits 10 m) 0 := by rw [same]
    _ = m := Nat.ofDigitChars_ten_toDigits

/-- The name of a topic tells its kind and its chain. -/
theorem topic_name_inj {first second : U64} {i j : Fin 4}
    (same : ((TopicConfig.standardTopics first).get i).name = ((TopicConfig.standardTopics second).get j).name) :
    i = j ∧ first = second := by
  have lists := congrArg String.toList same
  fin_cases i <;> fin_cases j <;> simp [TopicConfig.standardTopics, Vector.get] at lists ⊢
  all_goals exact BitVec.eq_of_toNat_eq (toDigits_injective lists)

theorem GossipMessage.topic_limit (message : GossipMessage) (chainId : U64) :
    (message.topic chainId).maxMessageSize = (message.topic 0).maxMessageSize := by
  cases message <;> rfl

/-- A prepared message is its encoding, and fits. -/
theorem prepareGossipMessage_ok {message : GossipMessage} {chainId : U64} {data : Bytes} :
    prepareGossipMessage message (message.topic chainId) = .ok (.ok data) ↔
      message.Fits ∧ data = Codec.gossipMessage.encode message := by
  have limit := message.topic_limit chainId
  rw [GossipMessage.Fits, ← gossipMessage_fits]
  unfold prepareGossipMessage
  constructor
  · intro h
    obtain ⟨written, write, h⟩ := bind_eq_ok.mp h
    obtain ⟨fits, rfl⟩ := Codec.write_eq_ok.mp write
    split at h
    next => cases h
    next small =>
      cases h
      rw [TopicConfig.validateSize, limit] at small
      exact ⟨⟨fits, by simpa using small⟩, rfl⟩
  · rintro ⟨⟨fits, small⟩, rfl⟩
    rw [Codec.write_of_fits fits, ok_bind, TopicConfig.validateSize, limit, if_neg (by simpa using small)]
    rfl

theorem gossiped_encode {message : GossipMessage} (fits : message.Fits) :
    gossiped (Codec.gossipMessage.encode message) = some message := by
  rw [gossiped, Codec.decode_encode_nil _ ((gossipMessage_fits message).mpr fits.1)]
  rfl

namespace P2pService

variable {PeerId Multiaddr : Type}

def emits (i : PeerId) : P2pOutput PeerId Multiaddr → List (P2pPacket PeerId)
  | .publish topic data => [.gossip topic data]
  | .sendRequest peer request => [.request i peer request]
  | .sendResponse peer response => [.response i peer response]
  | _ => []

def own : P2pInput PeerId Multiaddr → Prop
  | .swarm (.gossipsub _ _ _) | .swarm (.syncRequest _ _ _) | .swarm (.syncResponse _ _) => False
  | _ => True

/-- Whoever passes a gossiped packet on is its source. Any reads may fail for a request. -/
def arrives (i : PeerId) (self : Option (P2pService PeerId)) (packet : P2pPacket PeerId)
    (input : P2pInput PeerId Multiaddr) : Prop :=
  match packet with
  | .gossip topic data => ∃ service source, self = some service ∧ topic ∈ service.subscriptions ∧
      input = .swarm (.gossipsub source topic data)
  | .request sender receiver request =>
    receiver = i ∧ ∃ faults, input = .swarm (.syncRequest sender request faults)
  | .response sender receiver response => receiver = i ∧ input = .swarm (.syncResponse sender response)

theorem handleGossip_eq {source : PeerId} {data : Bytes} : (handleGossip source data).2 =
    (gossiped data).map (GossipMessage.event source) := by
  unfold handleGossip
  cases gossiped data with
  | none => rfl
  | some message => cases message <;> rfl

theorem publish_eq (self : P2pService PeerId) (message : GossipMessage) :
    self.handleCommand (message.command : P2pCommand PeerId Multiaddr) =
      (fun outputs => (some self, outputs)) <$> self.publish message.topicIndex message := by
  cases message <;> rfl

theorem mem_publish {self : P2pService PeerId} {message : GossipMessage}
    {outputs : List (P2pOutput PeerId Multiaddr)} {output : P2pOutput PeerId Multiaddr}
    (done : self.publish message.topicIndex message = .ok outputs) :
    output ∈ outputs ↔ message.Fits ∧ output = .publish (message.topic self.chainId).name
      (Codec.gossipMessage.encode message) := by
  obtain ⟨prepared, ready, done⟩ := bind_eq_ok.mp done
  change prepareGossipMessage message (message.topic self.chainId) = .ok prepared at ready
  cases prepared with
  | error reason =>
    cases done
    simp only [List.not_mem_nil, false_iff]
    rintro ⟨fits, -⟩
    cases ready.symm.trans (prepareGossipMessage_ok.mpr ⟨fits, rfl⟩)
  | ok data =>
    cases done
    obtain ⟨fits, rfl⟩ := prepareGossipMessage_ok.mp ready
    rw [List.mem_singleton]
    exact (and_iff_right fits).symm

theorem handleCommand_some {self after : P2pService PeerId} {cmd : P2pCommand PeerId Multiaddr}
    {outputs : List (P2pOutput PeerId Multiaddr)}
    (ran : self.handleCommand cmd = .ok (some after, outputs)) : after = self := by
  cases published : cmd.message with
  | some message =>
    obtain rfl := GossipMessage.message_eq_some.mp published
    rw [publish_eq] at ran
    obtain ⟨_, -, same⟩ := map_eq_ok.mp ran
    cases same
    rfl
  | none =>
    cases cmd with
    | publishTx | publishBlock | publishVote | publishEvidence => cases published
    | shutdown => cases ran
    | _ =>
      cases ran
      rfl

variable [DecidableEq PeerId]

theorem score_returns (self : P2pService PeerId) (peer : PeerId) (event : Option ScoreEvent) :
    ∃ after, self.score peer event = .ok after := by
  cases event with
  | none => exact ⟨self, rfl⟩
  | some event =>
    obtain ⟨adjusted, same, -⟩ :=
      PeerScore.adjust_event ((self.peerScores.scores.lookup peer).getD .new) event
    exact ⟨_, by rw [score, PeerScoreRepo.applyEvent, same]; rfl⟩

theorem score_keeps {self after : P2pService PeerId} {peer : PeerId} {event : Option ScoreEvent}
    (ran : self.score peer event = .ok after) :
    after = { self with peerScores := after.peerScores } := by
  cases event with
  | none =>
    cases ran
    rfl
  | some event =>
    obtain ⟨scores, -, done⟩ := bind_eq_ok.mp ran
    cases done
    rfl

variable [Blake3]

/-- What a turn puts out, and why. -/
inductive Causes (service : P2pService PeerId) :
    P2pInput PeerId Multiaddr → P2pOutput PeerId Multiaddr → Prop
  | dial (addr : Multiaddr) : Causes service (.command (.dial addr)) (.dial addr)
  | publish {message : GossipMessage} (fits : message.Fits) :
      Causes service (.command message.command)
        (.publish (message.topic service.chainId).name (Codec.gossipMessage.encode message))
  | request (peer : PeerId) (request : SyncRequest) :
      Causes service (.command (.sendSyncRequest peer request)) (.sendRequest peer request)
  | peers : Causes service (.command .getPeers) (.peers service.connectedPeers)
  | event {source : PeerId} {topic : String} {data : Bytes} {message : GossipMessage}
      (read : gossiped data = some message) :
      Causes service (.swarm (.gossipsub source topic data)) (.event (message.event source))
  | response {peer : PeerId} {request : SyncRequest} {faults : ReadFaults} {response : SyncResponse}
      (served : service.serve request faults = .ok (some response)) :
      Causes service (.swarm (.syncRequest peer request faults)) (.sendResponse peer response)
  | answered (peer : PeerId) (response : SyncResponse) :
      Causes service (.swarm (.syncResponse peer response)) (.syncResponse peer response)

theorem turn_command {service : P2pService PeerId} {message : GossipMessage}
    {output : P2pOutput PeerId Multiaddr} :
    output ∈ (turn (some service) (.command message.command)).2 ↔ message.Fits ∧
      output = .publish (message.topic service.chainId).name (Codec.gossipMessage.encode message) := by
  simp only [turn, publish_eq]
  cases done : service.publish message.topicIndex message with
  | ok outputs => exact mem_publish done
  | error reason =>
    refine iff_of_false (by simp [Functor.map, Except.map]) ?_
    rintro ⟨fits, -⟩
    have ready : prepareGossipMessage message (message.topic service.chainId) = .ok (.ok _) :=
      prepareGossipMessage_ok.mpr ⟨fits, rfl⟩
    change prepareGossipMessage message (message.topic service.chainId) >>= _ = _ at done
    rw [ready] at done
    cases done

theorem mem_turn_iff {service : P2pService PeerId} {input : P2pInput PeerId Multiaddr}
    {output : P2pOutput PeerId Multiaddr} :
    output ∈ (turn (some service) input).2 ↔ Causes service input output := by
  constructor
  · intro member
    cases input with
    | command cmd =>
      cases published : cmd.message with
      | some message =>
        obtain rfl := GossipMessage.message_eq_some.mp published
        obtain ⟨fits, rfl⟩ := turn_command.mp member
        exact .publish fits
      | none =>
        cases cmd with
        | dial addr => exact List.mem_singleton.mp member ▸ .dial addr
        | sendSyncRequest peer request => exact List.mem_singleton.mp member ▸ .request peer request
        | getPeers => exact List.mem_singleton.mp member ▸ .peers
        | shutdown => cases member
        | _ => cases published
    | database contents => cases member
    | swarm event =>
      cases event with
      | gossipsub source topic data =>
        obtain ⟨after, scored⟩ := service.score_returns source (handleGossip source data).1
        simp only [turn, handleEvent, scored, ok_bind] at member
        change output ∈ ((handleGossip source data).2.map P2pOutput.event).toList at member
        rw [handleGossip_eq, Option.map_map, Option.mem_toList, Option.map_eq_some_iff] at member
        obtain ⟨message, read, rfl⟩ := member
        exact .event read
      | syncRequest peer request faults =>
        cases served : service.serve request faults with
        | error reason => simp [turn, handleEvent, served] at member
        | ok response =>
          simp only [turn, handleEvent, served, ok_bind] at member
          change output ∈ (response.map (P2pOutput.sendResponse peer)).toList at member
          rw [Option.mem_toList, Option.map_eq_some_iff] at member
          obtain ⟨response, rfl, rfl⟩ := member
          exact .response served
      | syncResponse peer response => exact List.mem_singleton.mp member ▸ .answered peer response
      | _ => cases member
  · intro causes
    cases causes with
    | publish fits => exact turn_command.mpr ⟨fits, rfl⟩
    | @event source topic data message read =>
      obtain ⟨after, scored⟩ := service.score_returns source (handleGossip source data).1
      simp only [turn, handleEvent, scored, ok_bind]
      change _ ∈ ((handleGossip source data).2.map P2pOutput.event).toList
      rw [handleGossip_eq, read]
      exact List.mem_singleton.mpr rfl
    | response served =>
      simp only [turn, handleEvent, served, ok_bind]
      exact List.mem_singleton.mpr rfl
    | _ => exact List.mem_singleton.mpr rfl

/-- What a turn leaves of a service that goes on. -/
inductive Leaves (service : P2pService PeerId) :
    P2pInput PeerId Multiaddr → P2pService PeerId → Prop
  | command (cmd : P2pCommand PeerId Multiaddr) : Leaves service (.command cmd) service
  | database (contents : Storage) : Leaves service (.database contents)
      { service with storage := service.storage.map fun _ => contents }
  | gossip {source : PeerId} {topic : String} {data : Bytes} {after : P2pService PeerId}
      (scored : service.score source (handleGossip source data).1 = .ok after) :
      Leaves service (.swarm (.gossipsub source topic data)) after
  | request (peer : PeerId) (request : SyncRequest) (faults : ReadFaults) :
      Leaves service (.swarm (.syncRequest peer request faults)) service
  | response (peer : PeerId) (response : SyncResponse) :
      Leaves service (.swarm (.syncResponse peer response)) service
  | established (peer : PeerId) : Leaves service (.swarm (.connectionEstablished peer))
      { service with connectedPeers := insert peer service.connectedPeers }
  | closed (peer : PeerId) : Leaves service (.swarm (.connectionClosed peer))
      { service with connectedPeers := service.connectedPeers.erase peer }
  | other : Leaves service (.swarm .other) service

theorem turn_leaves {service after : P2pService PeerId} {input : P2pInput PeerId Multiaddr}
    (ran : (turn (some service) input).1 = some after) : Leaves service input after := by
  cases input with
  | command cmd =>
    rw [turn] at ran
    cases handled : service.handleCommand cmd with
    | error reason =>
      rw [handled] at ran
      cases ran
    | ok done =>
      rw [handled] at ran
      obtain ⟨left, outputs⟩ := done
      obtain rfl : left = some after := ran
      cases handleCommand_some handled
      exact .command cmd
  | database contents =>
    cases ran
    exact .database contents
  | swarm event =>
    cases event with
    | gossipsub source topic data =>
      obtain ⟨scored, done⟩ := service.score_returns source (handleGossip source data).1
      simp only [turn, handleEvent, done, ok_bind] at ran
      cases ran
      exact .gossip done
    | syncRequest peer request faults =>
      simp only [turn, handleEvent] at ran
      cases served : service.serve request faults with
      | error reason => simp [served] at ran
      | ok response =>
        simp only [served, ok_bind] at ran
        cases ran
        exact .request peer request faults
    | syncResponse peer response =>
      cases ran
      exact .response peer response
    | connectionEstablished peer =>
      cases ran
      exact .established peer
    | connectionClosed peer =>
      cases ran
      exact .closed peer
    | other =>
      cases ran
      exact .other

abbrev protocol (PeerId Multiaddr : Type) [DecidableEq PeerId] :
    Swarm.Protocol PeerId (Option (P2pService PeerId)) (P2pInput PeerId Multiaddr)
      (P2pOutput PeerId Multiaddr) (P2pPacket PeerId) where
  handle _ := turn
  emits := emits
  own := own
  arrives := arrives

abbrev Net (PeerId Multiaddr : Type) := Swarm.Net PeerId (Option (P2pService PeerId))
  (P2pInput PeerId Multiaddr) (P2pOutput PeerId Multiaddr)

end P2pService

end Mononium
