import Mononium.Network.Broadcast
import Mononium.Network.Sync

/-! Sync requests and their answers on a network of services. Every answer goes back to a request
and to the database of the one who was asked. Services that were started without a database leave
every request open, and whoever waits for the tip from one of them waits for ever. -/
namespace Mononium

open Rust Scale

namespace P2pService

variable {PeerId Multiaddr : Type}

/-- What comes as a request, or as a response, is the packet of its sender. -/
theorem arrives_request {i sender : PeerId} {self : Option (P2pService PeerId)}
    {packet : P2pPacket PeerId} {request : SyncRequest} {faults : ReadFaults}
    (arrived : arrives i self packet
      (.swarm (.syncRequest sender request faults) : P2pInput PeerId Multiaddr)) :
    packet = .request sender i request := by
  cases packet with
  | gossip topic data =>
    obtain ⟨_, _, -, -, impossible⟩ := arrived
    cases impossible
  | request =>
    obtain ⟨rfl, _, same⟩ := arrived
    cases same
    rfl
  | response => cases arrived.2

theorem arrives_response {i sender : PeerId} {self : Option (P2pService PeerId)}
    {packet : P2pPacket PeerId} {response : SyncResponse}
    (arrived : arrives i self packet (.swarm (.syncResponse sender response) : P2pInput PeerId Multiaddr)) :
    packet = .response sender i response := by
  cases packet with
  | gossip topic data =>
    obtain ⟨_, _, -, -, impossible⟩ := arrived
    cases impossible
  | request =>
    obtain ⟨-, _, impossible⟩ := arrived
    cases impossible
  | response =>
    obtain ⟨rfl, same⟩ := arrived
    cases same
    rfl

section

variable [DecidableEq PeerId] [Blake3] {outsiders : Set (P2pPacket PeerId)}
  {start : PeerId → Option (P2pService PeerId)} {net : Net PeerId Multiaddr}
  {e : Swarm.Entry PeerId (Option (P2pService PeerId)) (P2pInput PeerId Multiaddr)
    (P2pOutput PeerId Multiaddr)}
  {earlier later : List (Swarm.Entry PeerId (Option (P2pService PeerId))
    (P2pInput PeerId Multiaddr) (P2pOutput PeerId Multiaddr))}

theorem outputs_cause (ran : e.outputs = (turn e.before e.input).2)
    {output : P2pOutput PeerId Multiaddr} (member : output ∈ e.outputs) :
    ∃ service, e.before = some service ∧ Causes service e.input output := by
  rw [ran] at member
  cases running : e.before with
  | none =>
    rw [running] at member
    exact absurd member not_mem_turn_none
  | some service =>
    rw [running] at member
    exact ⟨service, rfl, mem_turn_iff.mp member⟩

theorem emitted_request {sender receiver : PeerId} {request : SyncRequest}
    (ran : e.outputs = (turn e.before e.input).2)
    (emitted : (protocol PeerId Multiaddr).Emitted e (.request sender receiver request)) :
    e.node = sender ∧ e.before.isSome ∧ e.input = .command (.sendSyncRequest receiver request) := by
  obtain ⟨output, member, there⟩ := emitted
  obtain ⟨service, running, causes⟩ := outputs_cause ran member
  generalize e.input = input at causes ⊢
  cases causes with
  | request peer asked =>
    cases List.mem_singleton.mp there
    exact ⟨rfl, by rw [running]; rfl, rfl⟩
  | publish | response => cases List.mem_singleton.mp there
  | _ => cases there

theorem emitted_response {sender receiver : PeerId} {response : SyncResponse}
    (ran : e.outputs = (turn e.before e.input).2)
    (emitted : (protocol PeerId Multiaddr).Emitted e (.response sender receiver response)) :
    e.node = sender ∧ ∃ service request faults, e.before = some service ∧
      e.input = .swarm (.syncRequest receiver request faults) ∧
      service.serve request faults = .ok (some response) := by
  obtain ⟨output, member, there⟩ := emitted
  obtain ⟨service, running, causes⟩ := outputs_cause ran member
  generalize e.input = input at causes ⊢
  cases causes with
  | response served =>
    cases List.mem_singleton.mp there
    exact ⟨rfl, service, _, _, running, rfl, served⟩
  | publish | request => cases List.mem_singleton.mp there
  | _ => cases there

/-- An answer that arrives was given by the peer named, unless an outsider goes under its name. -/
theorem response_given (reached : (protocol PeerId Multiaddr).Reachable outsiders start net)
    (split : net.history = earlier ++ e :: later) {peer : PeerId} {response : SyncResponse}
    (input : e.input = .swarm (.syncResponse peer response))
    (genuine : ∀ response, .response peer e.node response ∉ outsiders) :
    ∃ before given between, earlier = before ++ given :: between ∧ given.node = peer ∧
      ∃ server request faults, given.before = some server ∧
        given.input = .swarm (.syncRequest e.node request faults) ∧
        server.serve request faults = .ok (some response) := by
  rcases reached.origin split with own | ⟨packet, carried, arrived⟩
  · rw [input] at own
    exact own.elim
  · rw [input] at arrived
    obtain rfl := arrives_response arrived
    rcases carried with stranger | ⟨given, member, emitted⟩
    · exact absurd stranger (genuine response)
    · have ran : given.outputs = (turn given.before given.input).2 :=
        reached.outputs_eq (by simp [split, member])
      obtain ⟨before, between, rfl⟩ := List.append_of_mem member
      obtain ⟨node, served⟩ := emitted_response ran emitted
      exact ⟨before, given, between, rfl, node, served⟩

/-- In every run: an answer that a service takes from a peer was asked for. Before it the service
was told to send the peer a request, which then reached the peer, and the answer is what the peer
served from the database that it had at that time. -/
theorem response_traced (reached : (protocol PeerId Multiaddr).Reachable outsiders start net)
    (split : net.history = earlier ++ e :: later) {peer : PeerId} {response : SyncResponse}
    (input : e.input = .swarm (.syncResponse peer response))
    (genuine : ∀ response, .response peer e.node response ∉ outsiders)
    (named : ∀ request, .request e.node peer request ∉ outsiders) :
    ∃ before given between, earlier = before ++ given :: between ∧ given.node = peer ∧
      ∃ server request faults, given.before = some server ∧
        given.input = .swarm (.syncRequest e.node request faults) ∧
        server.serve request faults = .ok (some response) ∧
        ∃ asked ∈ before, asked.node = e.node ∧ asked.before.isSome ∧
          asked.input = .command (.sendSyncRequest peer request) := by
  obtain ⟨before, given, between, rfl, node, server, request, faults, running, taken, served⟩ :=
    response_given reached split input genuine
  refine ⟨before, given, between, rfl, node, server, request, faults, running, taken, served, ?_⟩
  rw [List.append_assoc, List.cons_append] at split
  rcases reached.origin split with own | ⟨packet, carried, arrived⟩
  · rw [taken] at own
    exact own.elim
  · rw [taken] at arrived
    obtain rfl := arrives_request arrived
    rw [node] at carried
    rcases carried with stranger | ⟨asked, member, emitted⟩
    · exact absurd stranger (named request)
    · have ran : asked.outputs = (turn asked.before asked.input).2 :=
        reached.outputs_eq (by simp [split, member])
      exact ⟨asked, member, emitted_request ran emitted⟩

/-- The service has no database to serve from. -/
def Bare (self : Option (P2pService PeerId)) : Prop :=
  ∀ service, self = some service → service.storage = none

theorem Bare.turn {self : Option (P2pService PeerId)} (bare : Bare self)
    (input : P2pInput PeerId Multiaddr) : Bare (P2pService.turn self input).1 := by
  intro after ran
  cases self with
  | none => cases ran
  | some service =>
    have empty := bare service rfl
    cases turn_leaves ran with
    | gossip scored => exact (congrArg P2pService.storage (score_keeps scored)).trans empty
    | database => simp [empty]
    | _ => exact empty

/-- Nodes without a database, as they are started, never answer. -/
theorem never_answered (reached : (protocol PeerId Multiaddr).Reachable outsiders start net)
    (bare : ∀ i, Bare (start i)) (member : e ∈ net.history) {peer : PeerId}
    (genuine : ∀ response, .response peer e.node response ∉ outsiders) (response : SyncResponse) :
    e.input ≠ .swarm (.syncResponse peer response) := by
  intro input
  obtain ⟨earlier, later, split⟩ := List.append_of_mem member
  obtain ⟨before, given, between, rfl, -, server, request, faults, running, -, served⟩ :=
    response_given reached split input genuine
  have kept := (reached.invariant (I := fun _ => Bare) bare fun _ _ input bare => bare.turn input).2
    given (by simp [split])
  rw [serve, kept server running] at served
  cases served

/-- A node that catches up from services without a database stays where it is, however long it
runs and whoever else gossips: the first peer never reports a tip, so the loop neither advances nor
reports that it is done. -/
theorem never_caught_up (reached : (protocol PeerId Multiaddr).Reachable outsiders start net)
    (bare : ∀ i, Bare (start i)) {i : PeerId} {peers : List PeerId}
    (genuine : ∀ peer ∈ peers, ∀ response, .response peer i response ∉ outsiders)
    {cursor : SyncCursor} {storage : Storage} {eraLength : U64} {tip : Answer} {turns : List Turn}
    {run : SyncRun PeerId}
    (heard : ∀ response, tip = .response response → ∃ first others, peers = first :: others ∧
      ∃ e ∈ net.history, e.node = i ∧ .syncResponse first response ∈ e.outputs)
    (ran : runSyncLoop peers cursor storage eraLength tip turns = .ok run) :
    run.cursor = cursor ∧ run.storage = storage ∧ run.ending ≠ some (.ok ()) := by
  have silent : ∀ response, tip ≠ .response response := by
    rintro response rfl
    obtain ⟨first, others, rfl, e, member, rfl, delivered⟩ := heard response rfl
    obtain ⟨service, -, causes⟩ := outputs_cause (reached.outputs_eq member) delivered
    generalize taken : e.input = input at causes
    cases causes with
    | answered =>
      exact never_answered reached bare member (genuine first List.mem_cons_self) response taken
  unfold runSyncLoop at ran
  cases peers with
  | nil =>
    cases ran
    exact ⟨rfl, rfl, by simp [SyncRun.stop]⟩
  | cons first others =>
    cases tip with
    | response response => exact absurd rfl (silent response)
    | _ =>
      cases ran
      exact ⟨rfl, rfl, by simp [SyncRun.stop]⟩

end

section Sample

attribute [local instance] prefixBlake3

def blankHash : Digest := FixedBytes.replicate 32 0

def askedNet (node : P2pService Nat) : Net Nat Unit :=
  (protocol Nat Unit).take ((protocol Nat Unit).take ⟨fun _ => some node, []⟩ 1
    (.command (.sendSyncRequest 0 tipRequest))) 0 (.swarm (.syncRequest 1 tipRequest .none))

theorem askedNet_reachable (node : P2pService Nat) :
    (protocol Nat Unit).Reachable ∅ (fun _ => some node) (askedNet node) :=
  .step (.step .start (.inl trivial)) (.inr ⟨.request 1 0 tipRequest, .inr ⟨_, List.mem_singleton.mpr rfl,
    _, List.mem_singleton.mpr rfl, List.mem_singleton.mpr rfl⟩, rfl, _, rfl⟩)

/-- As the nodes are started there is no answer, and node 1 stays at the genesis. -/
theorem askedNet_silent : ∃ run : SyncRun Nat,
    runSyncLoop [0] (SyncCursor.new blankHash) .empty 720 .timeout [] = .ok run ∧
    run.cursor = SyncCursor.new blankHash ∧ run.storage = .empty ∧ run.ending ≠ some (.ok ()) := by
  obtain ⟨run, ran⟩ : Returns (runSyncLoop [0] (SyncCursor.new blankHash) .empty 720 .timeout []) :=
    ⟨_, rfl⟩
  refine ⟨run, ran, never_caught_up (i := 1) (askedNet_reachable (.new 0)) ?_ ?_ ?_ ran⟩
  · intro i service same
    cases same
    rfl
  · exact fun _ _ _ impossible => impossible.elim
  · exact fun _ impossible => by cases impossible

def emptyNode : P2pService Nat := (P2pService.new 0).withStorage .empty blankHash

def answeredNet : Net Nat Unit := (protocol Nat Unit).take (askedNet emptyNode) 1
  (.swarm (.syncResponse 0 (.blockSync ⟨[], 0, blankHash⟩)))

theorem answeredNet_reachable :
    (protocol Nat Unit).Reachable ∅ (fun _ => some emptyNode) answeredNet := by
  refine .step (askedNet_reachable emptyNode) (.inr ⟨.response 0 1 (.blockSync ⟨[], 0, blankHash⟩),
    .inr ⟨_, List.mem_cons_of_mem _ (List.mem_singleton.mpr rfl), .sendResponse 1 _, ?_,
      List.mem_singleton.mpr rfl⟩, rfl, rfl⟩)
  exact mem_turn_iff.mpr (.response rfl)

theorem answeredNet_traced : ∃ given ∈ answeredNet.history, given.node = 0 ∧
    ∃ asked ∈ answeredNet.history, asked.node = 1 := by
  have here : answeredNet.history = (askedNet emptyNode).history ++ [_] := rfl
  obtain ⟨before, given, between, split, node, -, request, -, -, -, -, asked, member, from1, -⟩ :=
    response_traced answeredNet_reachable here rfl (fun _ impossible => impossible.elim)
      (fun _ impossible => impossible.elim)
  refine ⟨given, ?_, node, asked, ?_, from1⟩ <;> rw [here, split] <;> simp [member]

end Sample

end P2pService

end Mononium
