import Mathlib.Data.Set.Basic
import Mathlib.Logic.Function.Basic

/-! Nodes that take inputs one at a time, and a network between them that may delay, repeat,
reorder and drop whatever it carries. Packets of outsiders are a parameter. The rules say what
each node keeps, where its inputs come from, and what no run shows. -/
namespace Swarm

/-- A program for the nodes. An input comes from the node's own side, or a packet arrives as it. -/
structure Protocol (ι σ Input Output Packet : Type) where
  handle : ι → σ → Input → σ × List Output
  emits : ι → Output → List Packet
  own : Input → Prop
  arrives : ι → σ → Packet → Input → Prop

structure Entry (ι σ Input Output : Type) where
  node : ι
  before : σ
  input : Input
  outputs : List Output

structure Net (ι σ Input Output : Type) where
  locals : ι → σ
  history : List (Entry ι σ Input Output)

variable {ι σ Input Output Packet : Type}

def Entry.shown (e : Entry ι σ Input Output) : ι × Input × List Output := (e.node, e.input, e.outputs)

namespace Protocol

variable (P : Protocol ι σ Input Output Packet)

/-- The entry put the packet on the network. -/
def Emitted (e : Entry ι σ Input Output) (packet : Packet) : Prop :=
  ∃ output ∈ e.outputs, packet ∈ P.emits e.node output

/-- The packet is on the network: a node has emitted it, or it is an outsider's. -/
def Carried (outsiders : Set Packet) (history : List (Entry ι σ Input Output)) (packet : Packet) : Prop :=
  packet ∈ outsiders ∨ ∃ e ∈ history, P.Emitted e packet

theorem carried_of_shown {outsiders : Set Packet} {earlier later : List (Entry ι σ Input Output)}
    {packet : Packet} (same : later.map Entry.shown = earlier.map Entry.shown)
    (carried : P.Carried outsiders earlier packet) : P.Carried outsiders later packet := by
  rcases carried with stranger | ⟨e, member, output, listed, there⟩
  · exact .inl stranger
  · have seen : e.shown ∈ later.map Entry.shown := same ▸ List.mem_map_of_mem member
    obtain ⟨twin, here, shown⟩ := List.mem_map.mp seen
    obtain ⟨node, rest⟩ := Prod.mk.inj shown
    obtain ⟨-, outputs⟩ := Prod.mk.inj rest
    exact .inr ⟨twin, here, output, outputs ▸ listed, node ▸ there⟩

/-- The node may take the input next. -/
def Enabled (outsiders : Set Packet) (net : Net ι σ Input Output) (i : ι) (input : Input) : Prop :=
  P.own input ∨ ∃ packet, P.Carried outsiders net.history packet ∧ P.arrives i (net.locals i) packet input

variable [DecidableEq ι]

def take (net : Net ι σ Input Output) (i : ι) (input : Input) : Net ι σ Input Output where
  locals := Function.update net.locals i (P.handle i (net.locals i) input).1
  history := net.history ++ [⟨i, net.locals i, input, (P.handle i (net.locals i) input).2⟩]

inductive Reachable (outsiders : Set Packet) (start : ι → σ) : Net ι σ Input Output → Prop
  | start : Reachable outsiders start ⟨start, []⟩
  | step {net : Net ι σ Input Output} {i : ι} {input : Input}
      (before : Reachable outsiders start net) (enabled : P.Enabled outsiders net i input) :
      Reachable outsiders start (P.take net i input)

end Protocol

variable [DecidableEq ι]

def Net.inputs (net : Net ι σ Input Output) (i : ι) : List Input :=
  (net.history.filter fun e => e.node = i).map (·.input)

namespace Protocol.Reachable

variable {P : Protocol ι σ Input Output Packet} {outsiders : Set Packet} {start : ι → σ}
  {net : Net ι σ Input Output} {e : Entry ι σ Input Output}

/-- What the nodes keep whatever input they take. -/
theorem invariant {I : ι → σ → Prop} (reached : P.Reachable outsiders start net)
    (begin_ : ∀ i, I i (start i)) (kept : ∀ i s input, I i s → I i (P.handle i s input).1) :
    (∀ i, I i (net.locals i)) ∧ ∀ e ∈ net.history, I e.node e.before := by
  induction reached with
  | start => exact ⟨begin_, by simp⟩
  | @step net i input _ _ ih =>
    obtain ⟨locals, entries⟩ := ih
    refine ⟨fun j => ?_, fun e member => ?_⟩
    · by_cases same : j = i
      · subst same
        simpa [take] using kept j _ input (locals j)
      · simpa [take, same] using locals j
    · rcases List.mem_append.mp member with earlier | last
      · exact entries e earlier
      · cases List.mem_singleton.mp last
        exact locals i

theorem outputs_eq (reached : P.Reachable outsiders start net) (member : e ∈ net.history) :
    e.outputs = (P.handle e.node e.before e.input).2 := by
  induction reached with
  | start => cases member
  | step _ _ ih =>
    rcases List.mem_append.mp member with earlier | last
    · exact ih earlier
    · cases List.mem_singleton.mp last
      rfl

/-- The input of an entry came from the node's own side or from a packet that was carried before. -/
theorem origin (reached : P.Reachable outsiders start net) {earlier later : List (Entry ι σ Input Output)}
    (split : net.history = earlier ++ e :: later) :
    P.own e.input ∨ ∃ packet, P.Carried outsiders earlier packet ∧
      P.arrives e.node e.before packet e.input := by
  induction reached generalizing later with
  | start => simp at split
  | step _ enabled ih =>
    rcases List.eq_nil_or_concat later with rfl | ⟨rest, last, rfl⟩
    · obtain ⟨same, ends⟩ := List.append_inj' (split : _ ++ [_] = earlier ++ [e]) rfl
      cases ends
      rw [← same]
      exact enabled
    · rw [List.concat_eq_append, ← List.cons_append, ← List.append_assoc] at split
      exact ih (List.append_inj' (split : _ ++ [_] = _) rfl).1

/-- A node in the network is the node alone, with the inputs that it has taken. -/
theorem locals_eq (reached : P.Reachable outsiders start net) (i : ι) :
    net.locals i = (net.inputs i).foldl (fun s input => (P.handle i s input).1) (start i) := by
  induction reached with
  | start => rfl
  | @step net j input _ _ ih =>
    by_cases same : j = i
    · subst same
      simp [take, Net.inputs, ih]
    · simpa [take, Net.inputs, same, Ne.symm same] using ih

/-- What no output depends on does not interfere: nodes that start alike up to it have the same
runs to show. -/
theorem unseen {start' : ι → σ} {R : ι → σ → σ → Prop} (reached : P.Reachable outsiders start net)
    (begin_ : ∀ i, R i (start i) (start' i))
    (same : ∀ i s t input, R i s t → R i (P.handle i s input).1 (P.handle i t input).1 ∧
      (P.handle i t input).2 = (P.handle i s input).2)
    (arrive : ∀ i s t packet input, R i s t → P.arrives i s packet input → P.arrives i t packet input) :
    ∃ net', P.Reachable outsiders start' net' ∧ (∀ i, R i (net.locals i) (net'.locals i)) ∧
      net'.history.map Entry.shown = net.history.map Entry.shown := by
  induction reached with
  | start => exact ⟨⟨start', []⟩, .start, begin_, rfl⟩
  | @step net i input _ enabled ih =>
    obtain ⟨twin, there, locals, shown⟩ := ih
    obtain ⟨after, outputs⟩ := same i _ _ input (locals i)
    have allowed : P.Enabled outsiders twin i input := by
      rcases enabled with own | ⟨packet, carried, arrives⟩
      · exact .inl own
      · exact .inr ⟨packet, P.carried_of_shown shown carried,
          arrive i _ _ packet input (locals i) arrives⟩
    refine ⟨P.take twin i input, there.step allowed, fun j => ?_, ?_⟩
    · by_cases this : j = i
      · subst this
        simpa [take] using after
      · simpa [take, this] using locals j
    · simp [take, shown, Entry.shown, outputs]

end Protocol.Reachable

end Swarm
