import Mononium.Network.Broadcast

/-! Peer scores inside the service. They follow the gossip that peers pass on; the loop never bans
anybody, and nothing that it does depends on them. -/
namespace Mononium

open Rust Scale

namespace PeerScoreRepo

variable {PeerId : Type} [DecidableEq PeerId]

theorem history_unbanned {calls : List (Call PeerId)} (peer : PeerId)
    (scored : ∀ call ∈ calls, ∃ other event, call = .applyEvent other event) :
    (history peer calls).2 = [] := by
  induction calls using List.reverseRecOn with
  | nil => rfl
  | append_singleton calls last ih =>
    obtain ⟨other, event, rfl⟩ := scored last (by simp)
    rw [history_append, observe_applyEvent_snd]
    exact ih fun call member => scored call (by simp [member])

theorem not_isBanned {calls : List (Call PeerId)} {repo : PeerScoreRepo PeerId}
    (ran : after calls = .ok repo)
    (scored : ∀ call ∈ calls, ∃ other event, call = .applyEvent other event)
    (peer : PeerId) (height : U64) : repo.isBanned peer height = .ok false := by
  obtain ⟨_, same, records⟩ := after_records calls
  cases ran.symm.trans same
  have here := records peer
  unfold isBanned
  cases found : repo.scores.lookup peer with
  | none => rfl
  | some score =>
    rw [found] at here
    have never : score.bannedAtHeight = none := by
      rw [here.2, history_unbanned peer scored]
      rfl
    simp [PeerScore.isBanned, never]

theorem score_eq {calls : List (Call PeerId)} {repo : PeerScoreRepo PeerId}
    (ran : after calls = .ok repo) (peer : PeerId) :
    (repo.score peer).getD 0 = (history peer calls).1 := by
  obtain ⟨_, same, records⟩ := after_records calls
  cases ran.symm.trans same
  have here := records peer
  unfold score
  cases found : repo.scores.lookup peer with
  | none =>
    rw [found] at here
    rw [here]
    rfl
  | some score =>
    rw [found] at here
    exact here.1

end PeerScoreRepo

namespace P2pService

variable {PeerId Multiaddr : Type}

/-- The call on the scores that an input leads to. -/
def scoring : P2pInput PeerId Multiaddr → Option (PeerScoreRepo.Call PeerId)
  | .swarm (.gossipsub source _ data) => (handleGossip source data).1.map (.applyEvent source)
  | _ => none

def credits [DecidableEq PeerId] (peer : PeerId) : P2pInput PeerId Multiaddr → Bool
  | .swarm (.gossipsub source _ data) => decide (source = peer) && match gossiped data with
    | some (.evidence _) | none => false
    | some _ => true
  | _ => false

def unscored (self : P2pService PeerId) : P2pService PeerId := { self with peerScores := .new }

theorem scoring_scores {input : P2pInput PeerId Multiaddr} {call : PeerScoreRepo.Call PeerId}
    (scored : scoring input = some call) : ∃ peer event, call = .applyEvent peer event := by
  unfold scoring at scored
  split at scored
  next source _ data =>
    obtain ⟨event, -, rfl⟩ := Option.map_eq_some_iff.mp scored
    exact ⟨source, event, rfl⟩
  next => cases scored

theorem handleCommand_unscored (self : P2pService PeerId) (cmd : P2pCommand PeerId Multiaddr) :
    self.unscored.handleCommand cmd =
      (fun done => (done.1.map unscored, done.2)) <$> self.handleCommand cmd := by
  cases published : cmd.message with
  | some message =>
    obtain rfl := GossipMessage.message_eq_some.mp published
    rw [publish_eq, publish_eq]
    change _ <$> self.publish message.topicIndex message = _
    generalize self.publish message.topicIndex message = done
    cases done <;> rfl
  | none =>
    cases cmd with
    | publishTx | publishBlock | publishVote | publishEvidence => cases published
    | _ => rfl

theorem filterMap_scoring_scores (inputs : List (P2pInput PeerId Multiaddr)) :
    ∀ call ∈ inputs.filterMap scoring, ∃ peer event, call = .applyEvent peer event := by
  intro call member
  obtain ⟨input, -, scored⟩ := List.mem_filterMap.mp member
  exact scoring_scores scored

/-- What arrives does not depend on the scores either. -/
theorem arrives_alike {i : PeerId} {s t : Option (P2pService PeerId)} {packet : P2pPacket PeerId}
    {input : P2pInput PeerId Multiaddr} (same : s.map unscored = t.map unscored)
    (arrived : arrives i s packet input) : arrives i t packet input := by
  cases packet with
  | gossip topic data =>
    obtain ⟨service, source, rfl, subscribed, input⟩ := arrived
    obtain ⟨other, rfl, alike⟩ := Option.map_eq_some_iff.mp same.symm
    have chain : other.unscored.chainId = service.unscored.chainId := by rw [alike]
    refine ⟨other, source, rfl, ?_, input⟩
    rw [subscriptions] at subscribed ⊢
    exact chain.symm ▸ subscribed
  | request | response => exact arrived

variable [DecidableEq PeerId]

/-- An input that can be read never lowers a score. -/
theorem observe_scoring {input : P2pInput PeerId Multiaddr} (peer : PeerId)
    (readable : ∀ source topic data, input = .swarm (.gossipsub source topic data) →
      (gossiped data).isSome) (seen : Int × List U64) :
    ((scoring input).toList.foldl (PeerScoreRepo.observe peer) seen).1 =
      if credits peer input then clampScore (seen.1 + 1) else seen.1 := by
  unfold scoring credits
  split
  next source topic data =>
    obtain ⟨message, read⟩ := Option.isSome_iff_exists.mp (readable source topic data rfl)
    cases message <;>
      simp [handleGossip, read, PeerScoreRepo.observe, ScoreEvent.delta, eq_comm] <;> split <;> rfl
  next => rfl

theorem history_scoring {inputs : List (P2pInput PeerId Multiaddr)} (peer : PeerId)
    (readable : ∀ source topic data, .swarm (.gossipsub source topic data) ∈ inputs →
      (gossiped data).isSome) :
    (PeerScoreRepo.history peer (inputs.filterMap scoring)).1 =
      (min 100 (inputs.countP (credits peer)) : Nat) := by
  induction inputs using List.reverseRecOn with
  | nil => rfl
  | append_singleton inputs last ih =>
    have before := ih fun source topic data member => readable source topic data (by simp [member])
    have single : [last].filterMap scoring = (scoring last).toList := by
      cases called : scoring last <;> simp [called]
    rw [List.filterMap_append, PeerScoreRepo.history, List.foldl_append, ← PeerScoreRepo.history,
      single, observe_scoring peer fun source topic data same =>
        readable source topic data (by simp [same]), before, List.countP_append, List.countP_singleton]
    cases credits peer last with
    | false => simp
    | true =>
      simp only [if_pos, clampScore, minScore, maxScore]
      omega

section

variable [Blake3]

/-- The scores after an input are those after its call. -/
theorem turn_scores {service after : P2pService PeerId} {input : P2pInput PeerId Multiaddr}
    (ran : (turn (some service) input).1 = some after) :
    (scoring input).toList.foldlM PeerScoreRepo.call service.peerScores = .ok after.peerScores := by
  cases turn_leaves ran with
  | @gossip source topic data _ scored =>
    rw [scoring]
    cases called : (handleGossip source data).1 with
    | none =>
      rw [called] at scored
      cases scored
      rfl
    | some event =>
      rw [called] at scored
      obtain ⟨scores, applied, done⟩ := bind_eq_ok.mp scored
      cases done
      simpa [PeerScoreRepo.call] using applied
  | _ => rfl

theorem turns_scores {service after : P2pService PeerId} {inputs : List (P2pInput PeerId Multiaddr)}
    (ran : inputs.foldl (fun s input => (turn s input).1) (some service) = some after) :
    (inputs.filterMap scoring).foldlM PeerScoreRepo.call service.peerScores = .ok after.peerScores := by
  induction inputs using List.reverseRecOn generalizing after with
  | nil =>
    cases ran
    rfl
  | append_singleton inputs last ih =>
    rw [List.foldl_append] at ran
    cases before : inputs.foldl (fun s input => (turn s input).1) (some service) with
    | none =>
      rw [before] at ran
      cases ran
    | some middle =>
      rw [before] at ran
      have one := turn_scores ran
      have single : [last].filterMap scoring = (scoring last).toList := by
        cases called : scoring last <;> simp [called]
      rw [List.filterMap_append, List.foldlM_append, ih before, ok_bind, single]
      exact one

variable {outsiders : Set (P2pPacket PeerId)} {start : PeerId → Option (P2pService PeerId)}
  {net : Net PeerId Multiaddr} {i : PeerId} {service : P2pService PeerId}

theorem turns_none (inputs : List (P2pInput PeerId Multiaddr)) :
    inputs.foldl (fun s input => (turn s input).1) none = none := by
  induction inputs with
  | nil => rfl
  | cons input inputs ih => exact ih

theorem peerScores_eq (reached : (protocol PeerId Multiaddr).Reachable outsiders start net)
    (fresh : ∀ i service, start i = some service → service.peerScores = .new)
    (running : net.locals i = some service) :
    PeerScoreRepo.after ((net.inputs i).filterMap scoring) = .ok service.peerScores := by
  have ran : net.locals i = (net.inputs i).foldl (fun s input => (turn s input).1) (start i) :=
    reached.locals_eq i
  rw [running] at ran
  cases begun : start i with
  | none =>
    rw [begun, turns_none] at ran
    cases ran
  | some first =>
    rw [begun] at ran
    have scores := turns_scores ran.symm
    rwa [fresh i first begun] at scores

/-- What arrives by gossip can be read, if it can be read where outsiders sent it. -/
theorem inputs_readable (reached : (protocol PeerId Multiaddr).Reachable outsiders start net)
    (readable : ∀ topic data, .gossip topic data ∈ outsiders → (gossiped data).isSome)
    {source : PeerId} {topic : String} {data : Bytes}
    (member : .swarm (.gossipsub source topic data) ∈ net.inputs i) : (gossiped data).isSome := by
  obtain ⟨e, taken, input⟩ := List.mem_map.mp member
  have here := (List.mem_filter.mp taken).1
  obtain ⟨earlier, later, split⟩ := List.append_of_mem here
  rcases reached.origin split with own | ⟨packet, carried, arrives⟩
  · rw [input] at own
    exact own.elim
  · rw [input] at arrives
    obtain ⟨_, -, -, rfl⟩ := arrives_gossip arrives
    rcases carried with stranger | ⟨e', before, emitted⟩
    · exact readable topic data stranger
    · have ran : e'.outputs = (turn e'.before e'.input).2 :=
        reached.outputs_eq (by simp [split, before])
      obtain ⟨_, message, -, -, fits, -, rfl⟩ := (emitted_gossip ran).mp emitted
      rw [gossiped_encode fits]
      rfl

/-- As long as outsiders gossip only what can be read, no score ever falls: a peer has a point for
each transaction batch, block and vote that it passed on, a hundred at most. -/
theorem readable_gossip_scores
    (reached : (protocol PeerId Multiaddr).Reachable outsiders start net)
    (fresh : ∀ i service, start i = some service → service.peerScores = .new)
    (readable : ∀ topic data, .gossip topic data ∈ outsiders → (gossiped data).isSome)
    (running : net.locals i = some service) (peer : PeerId) :
    (service.peerScores.score peer).getD 0 = (min 100 ((net.inputs i).countP (credits peer)) : Nat) := by
  rw [PeerScoreRepo.score_eq (peerScores_eq reached fresh running)]
  exact history_scoring peer fun _ _ _ => inputs_readable reached readable

/-- A turn does the same whatever the scores. -/
theorem turn_unscored (self : Option (P2pService PeerId)) (input : P2pInput PeerId Multiaddr) :
    ((turn self input).1.map unscored, (turn self input).2) =
      ((turn (self.map unscored) input).1.map unscored, (turn (self.map unscored) input).2) := by
  cases self with
  | none => rfl
  | some service =>
    cases input with
    | command cmd =>
      simp only [turn, Option.map_some, handleCommand_unscored]
      cases service.handleCommand cmd with
      | error reason => rfl
      | ok done =>
        obtain ⟨left, outputs⟩ := done
        cases left <;> rfl
    | database contents => rfl
    | swarm event =>
      cases event with
      | gossipsub source topic data =>
        obtain ⟨after, scored⟩ := service.score_returns source (handleGossip source data).1
        obtain ⟨other, blank⟩ := service.unscored.score_returns source (handleGossip source data).1
        have same : after.unscored = other.unscored :=
          (congrArg unscored (score_keeps scored)).trans (congrArg unscored (score_keeps blank)).symm
        simp only [turn, Option.map_some, handleEvent, scored, blank, ok_bind]
        exact Prod.ext (congrArg some same) rfl
      | syncRequest peer request faults =>
        have served : service.unscored.serve request faults = service.serve request faults := rfl
        simp only [turn, Option.map_some, handleEvent, served]
        cases service.serve request faults <;> rfl
      | _ => rfl

theorem turn_alike {s t : Option (P2pService PeerId)} {input : P2pInput PeerId Multiaddr}
    (same : s.map unscored = t.map unscored) :
    (turn s input).1.map unscored = (turn t input).1.map unscored ∧
      (turn t input).2 = (turn s input).2 := by
  have left := turn_unscored s input
  rw [same, ← turn_unscored t input] at left
  exact ⟨(Prod.mk.inj left).1, (Prod.mk.inj left).2.symm⟩

/-- Peer scores have no effect. Whatever the outsiders send, no service that began without bans
ever bans anybody; and services that begin with other scores have the same runs to show. -/
theorem scores_inert (reached : (protocol PeerId Multiaddr).Reachable outsiders start net) :
    ((∀ i service, start i = some service → service.peerScores = .new) →
      ∀ i service, net.locals i = some service → ∀ peer height,
        service.peerScores.isBanned peer height = .ok false) ∧
    ∀ start' : PeerId → Option (P2pService PeerId),
      (∀ i, (start i).map unscored = (start' i).map unscored) →
      ∃ net', (protocol PeerId Multiaddr).Reachable outsiders start' net' ∧
        net'.history.map Swarm.Entry.shown = net.history.map Swarm.Entry.shown := by
  refine ⟨fun fresh i service running peer height => ?_, fun start' alike => ?_⟩
  · exact PeerScoreRepo.not_isBanned (peerScores_eq reached fresh running)
      (filterMap_scoring_scores _) peer height
  · obtain ⟨net', there, -, shown⟩ := reached.unseen
      (R := fun _ s t => s.map unscored = t.map unscored) alike
      (fun _ _ _ _ => turn_alike) (fun _ _ _ _ _ => arrives_alike)
    exact ⟨net', there, shown⟩

end

section Sample

attribute [local instance] prefixBlake3

def passedNet : Net Nat Unit :=
  (protocol Nat Unit).take toldNet 1 (.swarm (.gossipsub 0 ((GossipMessage.txs []).topic 0).name
    (Codec.gossipMessage.encode (.txs []))))

theorem passedNet_reachable : (protocol Nat Unit).Reachable ∅ (fun _ => some (.new 0)) passedNet :=
  toldNet_reachable.step (.inr ⟨.gossip _ _, .inr ⟨_, List.mem_singleton.mpr rfl, _,
    List.mem_singleton.mpr rfl, List.mem_singleton.mpr rfl⟩, .new 0, 0, rfl, by decide, rfl⟩)

theorem publisher_scores : ∃ service, passedNet.locals 1 = some service ∧
    (service.peerScores.score 0).getD 0 = 1 := by
  refine ⟨_, rfl, (readable_gossip_scores (i := 1) passedNet_reachable ?_ ?_ rfl 0).trans rfl⟩
  · intro i service begun
    cases begun
    rfl
  · exact fun _ _ impossible => impossible.elim

def biased : P2pService Nat := { P2pService.new 0 with
  peerScores := ⟨PeerScoreRepo.new.scores.insert 0 ⟨-100, some 5, by decide⟩⟩ }

/-- Had the nodes begun with node 0 banned, this run would have looked the same. -/
theorem passedNet_inert : ∃ net', (protocol Nat Unit).Reachable ∅ (fun _ => some biased) net' ∧
    net'.history.map Swarm.Entry.shown = passedNet.history.map Swarm.Entry.shown :=
  (scores_inert passedNet_reachable).2 _ fun _ => rfl

end Sample

end P2pService

end Mononium
