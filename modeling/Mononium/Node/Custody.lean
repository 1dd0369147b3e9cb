import Mononium.Mempool.Custody
import Mononium.Node.Publishing
import Mononium.Node.Submission

/-! Where submitted transactions go. The slots of a node carry what the REST server has put into
the pool, each transaction into one block; what the RPC server has put into its own pool stays
there. -/
namespace Mononium

open Rust Scale

inductive ServerMove where
  | task (move : TaskMove)
  | submit (submission : Submission) (now : Nat)

/-- What a move does with transactions. A slot stores a block of them, or has applied a block and
then fails to store it. -/
inductive Parcel where
  | accepted (tx : Transaction)
  | shelved (tx : Transaction)
  | stored (block : Block)
  | unstored (txs : List Transaction)

namespace Parcel

def arrivals : Parcel → List Transaction
  | accepted tx => [tx]
  | _ => []

def shelf : Parcel → List Transaction
  | shelved tx => [tx]
  | _ => []

def carried : Parcel → List Transaction
  | stored block => block.body.transactions
  | unstored txs => txs
  | _ => []

def lost : Parcel → List Transaction
  | unstored txs => txs
  | _ => []

end Parcel

def Mempool.admitted (self : Mempool) (tx : Transaction) (now : Nat) : Option Transaction :=
  match self.insert tx now with
  | .ok (.ok (), _) => some tx
  | _ => none

theorem Mempool.WellFormed.insert_conserves {self next : Mempool} {tx : Transaction} {now : Nat}
    {result : Result Unit} (wellFormed : self.WellFormed) (ran : self.insert tx now = .ok (result, next)) :
    next.WellFormed ∧ (self.pending ++ (self.admitted tx now).toList).Perm next.pending := by
  refine ⟨wellFormed.insert ran, ?_⟩
  rw [admitted, ran]
  cases result with
  | ok =>
    obtain ⟨-, -, -, -, added⟩ := insert_accepted ran
    exact List.perm_append_comm.trans (added.map PoolTx.tx).symm
  | error e =>
    obtain ⟨-, -, kept⟩ := insert_refused ran
    simpa [pending] using (kept.map PoolTx.tx).symm

theorem Mempool.WellFormed.select_conserves {self next : Mempool} {order : SenderOrder} {maxCount : Nat}
    {txs : List Transaction} (wellFormed : self.WellFormed)
    (ran : self.select order maxCount = .ok (txs, next)) :
    next.WellFormed ∧ self.pending.Perm (next.pending ++ txs) := by
  have called : self.call (.select order maxCount) = .ok next := by
    rw [Mempool.call, ran]
    rfl
  obtain ⟨kept, moved⟩ := wellFormed.call_conserves called
  rw [transit, ran] at moved
  exact ⟨kept, by simpa [Transit.arrivals, Transit.departures] using moved⟩

namespace Servers

section Pools

variable {self : Servers} {now : Nat}

structure Sorted (s : Servers) : Prop where
  tasks : s.tasks.mempool.WellFormed
  rpc : s.rpcMempool.WellFormed

/-- A move neither loses nor doubles a transaction. -/
structure Conserves (s t : Servers) (parcels : List Parcel) : Prop where
  sorted : t.Sorted
  slots : (s.tasks.mempool.pending ++ parcels.flatMap Parcel.arrivals).Perm
    (t.tasks.mempool.pending ++ parcels.flatMap Parcel.carried)
  shelf : (s.rpcMempool.pending ++ parcels.flatMap Parcel.shelf).Perm t.rpcMempool.pending

theorem Conserves.idle {tasks : Tasks} (sorted : self.Sorted) (same : tasks.mempool = self.tasks.mempool) :
    self.Conserves { self with tasks } [] := by
  refine ⟨⟨?_, sorted.rpc⟩, ?_, ?_⟩
  · rw [same]
    exact sorted.tasks
  · simp [same]
  · simp

theorem Conserves.accepts {tx : Transaction} {tasks : Tasks} {result : Result Unit} (sorted : self.Sorted)
    (inserted : self.tasks.mempool.insert tx now = .ok (result, tasks.mempool)) :
    self.Conserves { self with tasks }
      (((self.tasks.mempool.admitted tx now).map Parcel.accepted).toList) := by
  obtain ⟨kept, moved⟩ := sorted.tasks.insert_conserves inserted
  refine ⟨⟨kept, sorted.rpc⟩, ?_, ?_⟩
  · cases admitted : self.tasks.mempool.admitted tx now with
    | none => simpa [admitted] using moved
    | some tx => simpa [admitted, Parcel.arrivals, Parcel.carried] using moved
  · cases self.tasks.mempool.admitted tx now <;> simp [Parcel.shelf]

end Pools

section

variable [Blake3] {self next : Servers} {now : Nat}

def act (self : Servers) : ServerMove → Exec Servers
  | .task move => do
    let (_, tasks) ← self.tasks.step move
    return { self with tasks }
  | .submit submission now => do
    let (_, servers) ← self.submit now submission
    return servers

theorem act_task {tasks after : Tasks} {move : TaskMove} {slotEnd : SlotEnd} (rpcMempool : Mempool)
    (stepped : tasks.step move = .ok (slotEnd, after)) :
    act ⟨tasks, rpcMempool⟩ (.task move) = .ok ⟨after, rpcMempool⟩ := by
  rw [act, stepped]
  rfl

def actAll (self : Servers) (moves : List ServerMove) : Exec Servers := moves.foldlM act self

def finished (self : Servers) (order : SenderOrder) : Exec (SlotEnd × Tasks) → Option Parcel
  | .ok (.stored, next) => (blockAt next.storage next.engine.currentHeight).map .stored
  | .ok (.unstored, _) =>
    match self.tasks.mempool.select order 500 with
    | .ok (txs, _) => some (.unstored txs)
    | .error _ => none
  | _ => none

def parcel (self : Servers) : ServerMove → Option Parcel
  | .task (.submit tx now) => (self.tasks.mempool.admitted tx now).map .accepted
  | .task (.finish now order fault) =>
    self.finished order (self.tasks.step (.finish now order fault))
  | .task (.start _ _) | .task (.store _) => none
  | .submit (.rest tx) now => (self.tasks.mempool.admitted tx now).map .accepted
  | .submit (.rpc hexTx) now =>
    ((Submission.rpc hexTx).transaction.bind fun tx => self.rpcMempool.admitted tx now).map .shelved

theorem Conserves.finishes {production : Production} {time : U64} {order : SenderOrder} {fault : Bool}
    {slotEnd : SlotEnd} {tasks : Tasks} (sorted : self.Sorted)
    (ran : self.tasks.finishSlot production time order fault = .ok (slotEnd, tasks)) :
    self.Conserves { self with tasks } (self.finished order (.ok (slotEnd, tasks))).toList := by
  obtain ⟨txs, proposer, block, u, receipt, selected, built, -, fits, height, -, ended⟩ :=
    Tasks.finish_cases ran
  obtain ⟨kept, moved⟩ := sorted.tasks.select_conserves selected
  have whole (parcel : Parcel) (none : parcel.arrivals = []) (shelf : parcel.shelf = [])
      (taken : parcel.carried = txs) : self.Conserves { self with tasks } [parcel] := by
    refine ⟨⟨kept, sorted.rpc⟩, ?_, ?_⟩
    · simpa [none, taken] using moved
    · simp [shelf]
  cases fault with
  | true =>
    have last : slotEnd = .unstored := by
      obtain ⟨_, -, ran⟩ := bind_eq_ok.mp ran
      obtain ⟨_, -, ran⟩ := bind_eq_ok.mp ran
      obtain ⟨_, -, ran⟩ := bind_eq_ok.mp ran
      obtain ⟨_, -, ran⟩ := bind_eq_ok.mp ran
      obtain ⟨_, -, ran⟩ := bind_eq_ok.mp ran
      cases ran
      rfl
    rw [last, finished, selected]
    exact whole (.unstored txs) rfl rfl rfl
  | false =>
    rcases ended with ⟨impossible, -⟩ | ⟨rfl, stored⟩
    · cases impossible
    · have found : blockAt tasks.storage tasks.engine.currentHeight = some block := by
        rw [stored, height, blockAt_put fits, if_pos rfl]
      rw [finished, found]
      exact whole (.stored block) rfl rfl (SameContents.buildBlock built).1

theorem act_conserves {move : ServerMove} (sorted : self.Sorted) (ran : self.act move = .ok next) :
    self.Conserves next (self.parcel move).toList := by
  cases move with
  | task move =>
    obtain ⟨⟨slotEnd, tasks⟩, stepped, ran⟩ := bind_eq_ok.mp ran
    cases ran
    cases Tasks.step_cases stepped with
    | busy | store => exact .idle sorted rfl
    | start _ ran =>
      refine .idle sorted ?_
      obtain ⟨height, engine, -, -, ⟨-, rfl⟩ | ⟨-, ⟨_, _, -, -, rfl⟩ | ⟨-, -, rfl⟩⟩⟩ :=
        Tasks.start_cases ran
      · rfl
      · rfl
      · rfl
    | idle =>
      rw [parcel, stepped]
      exact .idle sorted rfl
    | finish _ ran =>
      rw [parcel, stepped]
      exact .finishes sorted ran
    | submit inserted => exact .accepts sorted inserted
  | submit submission now =>
    obtain ⟨⟨reply, servers⟩, submitted, ran⟩ := bind_eq_ok.mp ran
    cases ran
    cases submission with
    | rest tx =>
      obtain ⟨⟨answer, after⟩, handled, submitted⟩ := bind_eq_ok.mp submitted
      cases submitted
      obtain ⟨⟨result, mempool⟩, inserted, handled⟩ := bind_eq_ok.mp handled
      have moved : self.Conserves { self with tasks := { self.tasks with mempool } } _ :=
        .accepts sorted inserted
      cases result with
      | ok =>
        cases handled
        exact moved
      | error e =>
        cases handled
        exact moved
    | rpc hexTx =>
      obtain ⟨⟨answer, after⟩, handled, submitted⟩ := bind_eq_ok.mp submitted
      cases submitted
      rw [parcel, Submission.transaction]
      rw [rpcTxSubmit] at handled
      cases read : txSubmit hexTx with
      | error e =>
        rw [read] at handled
        cases handled
        exact .idle sorted rfl
      | ok value =>
        obtain ⟨tx, hash⟩ := value
        rw [read] at handled
        obtain ⟨⟨result, mempool⟩, inserted, handled⟩ := bind_eq_ok.mp handled
        cases handled
        obtain ⟨kept, moved⟩ := sorted.rpc.insert_conserves inserted
        refine ⟨⟨sorted.tasks, kept⟩, ?_, ?_⟩
        · cases admitted : self.rpcMempool.admitted tx now <;>
            simp [Except.toOption, admitted, Parcel.arrivals, Parcel.carried]
        · cases admitted : self.rpcMempool.admitted tx now with
          | none => simpa [Except.toOption, admitted] using moved
          | some tx => simpa [Except.toOption, admitted, Parcel.shelf] using moved

/-- A slot that meets no fault loses nothing. -/
theorem lost_of_fault {parcel : Parcel} {move : ServerMove} (made : self.parcel move = some parcel)
    (lost : parcel.lost ≠ []) : ∃ now order, move = .task (.finish now order true) := by
  cases move with
  | task move =>
    cases move with
    | finish now order fault =>
      cases fault with
      | true => exact ⟨now, order, rfl⟩
      | false =>
        rw [Servers.parcel, Tasks.step] at made
        cases going : self.tasks.production with
        | none =>
          rw [going] at made
          cases made
        | some production =>
          rw [going] at made
          cases ran : self.tasks.finishSlot production now order false with
          | error reason =>
            simp only [ran] at made
            cases made
          | ok result =>
            obtain ⟨slotEnd, tasks⟩ := result
            obtain rfl := Tasks.finish_stored ran
            simp only [ran, finished] at made
            obtain ⟨block, -, rfl⟩ := Option.map_eq_some_iff.mp made
            exact absurd rfl lost
    | submit tx now =>
      obtain ⟨_, -, rfl⟩ := Option.map_eq_some_iff.mp made
      exact absurd rfl lost
    | start _ _ | store _ => cases made
  | submit submission now =>
    cases submission with
    | rest tx | rpc hexTx =>
      obtain ⟨_, -, rfl⟩ := Option.map_eq_some_iff.mp made
      exact absurd rfl lost

theorem mem_emissions {parcel : Parcel} {moves : List ServerMove}
    (member : parcel ∈ emissions act Servers.parcel self moves) :
    ∃ move ∈ moves, ∃ at_ : Servers, at_.parcel move = some parcel := by
  induction moves generalizing self with
  | nil => cases member
  | cons move moves ih =>
    rw [emissions] at member
    rcases List.mem_append.mp member with here | later
    · exact ⟨move, List.mem_cons_self, self, by simpa using here⟩
    · split at later
      next =>
        obtain ⟨other, listed, at_, made⟩ := ih later
        exact ⟨other, List.mem_cons_of_mem _ listed, at_, made⟩
      next => cases later

/-- In every run of a node with its servers, what the pool of the slot loop has accepted is pending,
or in one block that a slot has stored, or in one that was applied and then not stored, which
takes a failure of the database; and all that the RPC server has accepted is in its own pool for
ever. -/
theorem custody {node : Node} {moves : List ServerMove} (ran : node.launch.serve.actAll moves = .ok next) :
    ((emissions act parcel node.launch.serve moves).flatMap Parcel.arrivals).Perm
      (next.tasks.mempool.pending ++
        (emissions act parcel node.launch.serve moves).flatMap Parcel.carried) ∧
    ((emissions act parcel node.launch.serve moves).flatMap Parcel.shelf).Perm next.rpcMempool.pending ∧
    ((∀ now order, .task (.finish now order true) ∉ moves) →
      (emissions act parcel node.launch.serve moves).flatMap Parcel.lost = []) := by
  have sorted : node.launch.serve.Sorted :=
    ⟨Mempool.wellFormed_new _, Mempool.wellFormed_new _⟩
  refine ⟨?_, ?_, fun faultless => ?_⟩
  · refine foldlM_conserves parcel (fun s => s.tasks.mempool.pending) Parcel.arrivals Parcel.carried Sorted ?_
      sorted rfl ran
    intro s move _ t before stepped
    have conserves := act_conserves before stepped
    exact ⟨conserves.sorted, conserves.slots⟩
  · have shelf := foldlM_conserves parcel (fun s => s.rpcMempool.pending) Parcel.shelf (fun _ => []) Sorted
      (fun s move _ t before stepped => ?_) sorted rfl ran
    · rwa [List.flatMap_eq_nil_iff.mpr fun _ _ => rfl, List.append_nil] at shelf
    · have conserves := act_conserves before stepped
      have none : (s.parcel move).toList.flatMap (fun _ => ([] : List Transaction)) = [] :=
        List.flatMap_eq_nil_iff.mpr fun _ _ => rfl
      rw [none, List.append_nil]
      exact ⟨conserves.sorted, conserves.shelf⟩
  · rw [List.flatMap_eq_nil_iff]
    intro made member
    obtain ⟨move, listed, at_, emitted⟩ := mem_emissions member
    by_contra lost
    obtain ⟨now, order, rfl⟩ := lost_of_fault emitted lost
    exact faultless now order listed

end

section Sample

open StateMachine

attribute [local instance] peakBlake3 soloSerdeJson

def voteMoves : List ServerMove :=
  [.submit (.rest freshVote) 1, .task (.start [] false), .task (.finish 1700000001 .plain false)]

def votedServers : Servers := ⟨{ soloNode.launch with mempool := Tasks.alonePool freshVote }, nodeMempool⟩

theorem vote_acts (now : U64) (fault : Bool) :
    soloNode.launch.serve.act (.submit (.rest freshVote) 1) = .ok votedServers ∧
      ∃ started next, votedServers.act (.task (.start [] false)) = .ok started ∧
        started.act (.task (.finish now .plain fault)) = .ok next := by
  constructor
  · have inserted : soloNode.launch.mempool.insert freshVote 1 = .ok (.ok (), _) :=
      Tasks.alone_inserted freshVote
    rw [act, submit, txSubmitHandler, Tasks.serve]
    dsimp only
    rw [inserted]
    rfl
  · have genesis : votedServers.tasks.storage = soloStorage := by
      rw [votedServers, Node.launch, soloNode]
    obtain ⟨middle, started, going, pool, machine, -⟩ := Tasks.vote_started rfl rfl rfl genesis
    obtain ⟨mempool, selected⟩ := Tasks.alone_selected freshVote
    obtain ⟨block, u, receipt, t, built, applied, -⟩ := solo_built freshVote (genesisBlock 0) (repeated 0)
      now (FixedBytes.replicate 809 0xCD) (returns_ok _) rfl (by decide) (by decide)
    have fits : Codec.block.fits block = true := by
      change Codec.blockBody.fits ⟨block.body.transactions⟩ = true
      rw [(SameContents.buildBlock built).1]
      decide
    have named : Tasks.voteProduction.schedule.proposerForHeight Tasks.voteProduction.height =
        .ok (repeated 0) := by decide
    rw [← machine] at built
    rw [← show middle.mempool = Tasks.alonePool freshVote from pool] at selected
    have finished := Tasks.finishSlot_eq fault selected named built applied fits
    rw [← Tasks.step_finish going] at finished
    exact ⟨_, _, act_task nodeMempool started, act_task nodeMempool finished⟩

theorem voteMoves_ran : ∃ next, soloNode.launch.serve.actAll voteMoves = .ok next := by
  obtain ⟨submitted, started, next, first, last⟩ := vote_acts 1700000001 false
  refine ⟨next, ?_⟩
  rw [actAll, voteMoves, List.foldlM_cons, submitted, ok_bind, List.foldlM_cons, first, ok_bind,
    List.foldlM_cons, last]
  rfl

theorem voteMoves_custody : ∃ next, soloNode.launch.serve.actAll voteMoves = .ok next ∧
    ((emissions act parcel soloNode.launch.serve voteMoves).flatMap Parcel.arrivals).Perm
      (next.tasks.mempool.pending ++
        (emissions act parcel soloNode.launch.serve voteMoves).flatMap Parcel.carried) ∧
    (emissions act parcel soloNode.launch.serve voteMoves).flatMap Parcel.lost = [] := by
  obtain ⟨next, ran⟩ := voteMoves_ran
  obtain ⟨slots, -, lost⟩ := custody ran
  exact ⟨next, ran, slots, lost (by simp [voteMoves])⟩

end Sample

end Servers

end Mononium
