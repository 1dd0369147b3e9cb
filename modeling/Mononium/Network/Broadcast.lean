import Mononium.Network.Delivery

/-! What gossip delivers on a network of services. A service delivers what a service of its own
chain was told to publish and could, or what an outsider has put on one of its topics; nothing
else, and every part of it at any time. -/
namespace Mononium

open Rust Scale

namespace GossipMessage

variable {PeerId Multiaddr : Type}

theorem event_inj {source other : PeerId} {first second : GossipMessage}
    (same : first.event source = second.event other) : first = second ∧ source = other := by
  cases first <;> cases second <;> cases same <;> exact ⟨rfl, rfl⟩

/-- A service of the chain was told to publish the message. -/
def Told (history : List (Swarm.Entry PeerId (Option (P2pService PeerId))
    (P2pInput PeerId Multiaddr) (P2pOutput PeerId Multiaddr))) (chainId : U64)
    (message : GossipMessage) : Prop :=
  ∃ e ∈ history, ∃ sender, e.before = some sender ∧ sender.chainId = chainId ∧
    e.input = .command message.command

/-- An outsider has put bytes that start with the message on a topic of the chain. -/
def Offered (outsiders : Set (P2pPacket PeerId)) (chainId : U64) (message : GossipMessage) : Prop :=
  ∃ (i : Fin 4) (data : Bytes),
    .gossip ((TopicConfig.standardTopics chainId).get i).name data ∈ outsiders ∧ gossiped data = some message

end GossipMessage

namespace P2pService

variable {PeerId Multiaddr : Type}

theorem mem_subscriptions {self : P2pService PeerId} {topic : String} :
    topic ∈ self.subscriptions ↔
      ∃ i : Fin 4, topic = ((TopicConfig.standardTopics self.chainId).get i).name := by
  rw [subscriptions, List.mem_map]
  constructor
  · rintro ⟨config, member, rfl⟩
    obtain ⟨i, bound, rfl⟩ := List.mem_iff_getElem.mp member
    exact ⟨⟨i, bound⟩, rfl⟩
  · rintro ⟨i, rfl⟩
    exact ⟨_, Vector.mem_toList_iff.mpr (Vector.getElem_mem i.isLt), rfl⟩

theorem arrives_gossip {i source : PeerId} {self : Option (P2pService PeerId)}
    {packet : P2pPacket PeerId} {topic : String} {data : Bytes}
    (arrives : P2pService.arrives i self packet
      (.swarm (.gossipsub source topic data) : P2pInput PeerId Multiaddr)) :
    ∃ service, self = some service ∧ topic ∈ service.subscriptions ∧ packet = .gossip topic data := by
  cases packet with
  | gossip sent bytes =>
    obtain ⟨service, _, running, subscribed, same⟩ := arrives
    cases same
    exact ⟨service, running, subscribed, rfl⟩
  | request =>
    obtain ⟨-, _, impossible⟩ := arrives
    cases impossible
  | response => cases arrives.2

section

variable [DecidableEq PeerId] [Blake3] {outsiders : Set (P2pPacket PeerId)}
  {start : PeerId → Option (P2pService PeerId)} {net : Net PeerId Multiaddr}
  {history : List (Swarm.Entry PeerId (Option (P2pService PeerId))
    (P2pInput PeerId Multiaddr) (P2pOutput PeerId Multiaddr))}

theorem not_mem_turn_none {input : P2pInput PeerId Multiaddr} {output : P2pOutput PeerId Multiaddr} :
    output ∉ (turn none input).2 :=
  List.not_mem_nil

theorem emitted_gossip {e : Swarm.Entry PeerId (Option (P2pService PeerId))
      (P2pInput PeerId Multiaddr) (P2pOutput PeerId Multiaddr)} {topic : String} {data : Bytes}
    (ran : e.outputs = (turn e.before e.input).2) :
    (protocol PeerId Multiaddr).Emitted e (.gossip topic data) ↔ ∃ sender message,
      e.before = some sender ∧ e.input = .command message.command ∧ message.Fits ∧
        topic = (message.topic sender.chainId).name ∧ data = Codec.gossipMessage.encode message := by
  constructor
  · rintro ⟨output, member, emitted⟩
    rw [ran] at member
    cases before : e.before with
    | none =>
      rw [before] at member
      exact absurd member not_mem_turn_none
    | some sender =>
      rw [before] at member
      have causes := mem_turn_iff.mp member
      generalize taken : e.input = input at causes
      cases causes with
      | publish fits =>
        cases List.mem_singleton.mp emitted
        exact ⟨sender, _, rfl, rfl, fits, rfl, rfl⟩
      | request | response => cases List.mem_singleton.mp emitted
      | _ => cases emitted
  · rintro ⟨sender, message, before, input, fits, rfl, rfl⟩
    refine ⟨.publish _ _, ?_, List.mem_singleton.mpr rfl⟩
    rw [ran, before, input]
    exact turn_command.mpr ⟨fits, rfl⟩

/-- What the network carries on the topics of a chain. -/
theorem carried_gossip_iff (ran : ∀ e ∈ history, e.outputs = (turn e.before e.input).2)
    {chainId : U64} {message : GossipMessage} :
    (∃ (i : Fin 4) (data : Bytes), (protocol PeerId Multiaddr).Carried outsiders history
        (.gossip ((TopicConfig.standardTopics chainId).get i).name data) ∧
        gossiped data = some message) ↔
      message.Fits ∧ message.Told history chainId ∨ message.Offered outsiders chainId := by
  constructor
  · rintro ⟨i, data, stranger | ⟨e, member, emitted⟩, read⟩
    · exact .inr ⟨i, data, stranger, read⟩
    · obtain ⟨sender, published, before, input, fits, topic, rfl⟩ :=
        (emitted_gossip (ran e member)).mp emitted
      obtain rfl : published = message :=
        Option.some.inj ((gossiped_encode fits).symm.trans read)
      obtain ⟨-, chain⟩ := topic_name_inj topic
      exact .inl ⟨fits, e, member, sender, before, chain.symm, input⟩
  · rintro (⟨fits, e, member, sender, before, rfl, input⟩ | ⟨i, data, stranger, read⟩)
    · refine ⟨message.topicIndex, _, .inr ⟨e, member, ?_⟩, gossiped_encode fits⟩
      exact (emitted_gossip (ran e member)).mpr ⟨sender, message, before, input, fits, rfl, rfl⟩
    · exact ⟨i, data, .inl stranger, read⟩

theorem mem_turn_event {service : P2pService PeerId} {input : P2pInput PeerId Multiaddr}
    {source : PeerId} {message : GossipMessage} :
    .event (message.event source) ∈ (turn (some service) input).2 ↔
      ∃ topic data, input = .swarm (.gossipsub source topic data) ∧ gossiped data = some message := by
  rw [mem_turn_iff]
  constructor
  · intro causes
    generalize event : P2pOutput.event (message.event source) = output at causes
    cases causes with
    | event read =>
      obtain ⟨rfl, rfl⟩ := GossipMessage.event_inj (P2pOutput.event.inj event)
      exact ⟨_, _, rfl, read⟩
    | _ => cases event
  · rintro ⟨topic, data, rfl, read⟩
    exact .event read

/-- In every run, whatever the outsiders send: the message that a service delivers was before
published on its chain or offered by an outsider on one of its topics. The gossip network is free to
lose, repeat and reorder packets, so that each such message may be delivered next, to every service
of the chain and with every peer as its source, and no other may. -/
theorem gossip_delivers_iff (reached : (protocol PeerId Multiaddr).Reachable outsiders start net) :
    (∀ earlier e later, net.history = earlier ++ e :: later →
      ∀ source (message : GossipMessage), .event (message.event source) ∈ e.outputs →
      ∃ service, e.before = some service ∧ (message.Fits ∧ message.Told earlier service.chainId ∨
          message.Offered outsiders service.chainId)) ∧
    ∀ i service, net.locals i = some service → ∀ source (message : GossipMessage),
      (∃ input, (protocol PeerId Multiaddr).Enabled outsiders net i input ∧
        .event (message.event source) ∈ (turn (some service) input).2) ↔
      message.Fits ∧ message.Told net.history service.chainId ∨
        message.Offered outsiders service.chainId := by
  have ran : ∀ e ∈ net.history, e.outputs = (turn e.before e.input).2 := fun e member =>
    reached.outputs_eq member
  refine ⟨fun earlier e later split source message delivered => ?_,
    fun i service running source message => ?_⟩
  · have here : e ∈ net.history := by simp [split]
    have before : ∀ e' ∈ earlier, e'.outputs = (turn e'.before e'.input).2 := fun e' member =>
      ran e' (by simp [split, member])
    rw [ran e here] at delivered
    cases running : e.before with
    | none =>
      rw [running] at delivered
      exact absurd delivered not_mem_turn_none
    | some service =>
      rw [running] at delivered
      obtain ⟨topic, data, input, read⟩ := mem_turn_event.mp delivered
      refine ⟨service, rfl, (carried_gossip_iff before).mp ?_⟩
      rcases reached.origin split with own | ⟨packet, carried, arrives⟩
      · rw [input] at own
        exact own.elim
      · rw [input] at arrives
        obtain ⟨_, same, subscribed, rfl⟩ := arrives_gossip arrives
        cases running.symm.trans same
        obtain ⟨index, rfl⟩ := mem_subscriptions.mp subscribed
        exact ⟨index, data, carried, read⟩
  · rw [← carried_gossip_iff ran]
    constructor
    · rintro ⟨input, enabled, delivered⟩
      obtain ⟨topic, data, rfl, read⟩ := mem_turn_event.mp delivered
      rcases enabled with own | ⟨packet, carried, arrives⟩
      · exact own.elim
      · obtain ⟨_, same, subscribed, rfl⟩ := arrives_gossip arrives
        cases running.symm.trans same
        obtain ⟨index, rfl⟩ := mem_subscriptions.mp subscribed
        exact ⟨index, data, carried, read⟩
    · rintro ⟨index, data, carried, read⟩
      refine ⟨.swarm (.gossipsub source _ data), .inr ⟨_, carried, service, source, running,
        mem_subscriptions.mpr ⟨index, rfl⟩, rfl⟩, ?_⟩
      exact mem_turn_event.mpr ⟨_, data, rfl, read⟩

end

section Sample

attribute [local instance] prefixBlake3

def toldNet : Net Nat Unit :=
  (protocol Nat Unit).take ⟨fun _ => some (.new 0), []⟩ 0 (.command (.publishTx []))

theorem toldNet_reachable : (protocol Nat Unit).Reachable ∅ (fun _ => some (.new 0)) toldNet :=
  .step .start (.inl trivial)

/-- What node 0 was told to publish, its neighbour may deliver. -/
theorem toldNet_delivers : ∃ input, (protocol Nat Unit).Enabled ∅ toldNet 1 input ∧
    .event (.txReceived 0 []) ∈ (turn (some (.new 0)) input).2 := by
  refine ((gossip_delivers_iff toldNet_reachable).2 1 (.new 0) rfl 0 (.txs [])).mpr (.inl ⟨?_, ?_⟩)
  · exact ⟨⟨Nat.two_pow_pos 32, by simp⟩, by decide⟩
  · exact ⟨_, List.mem_singleton.mpr rfl, .new 0, rfl, rfl, rfl⟩

end Sample

end P2pService

end Mononium
