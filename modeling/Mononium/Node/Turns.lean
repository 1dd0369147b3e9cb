import Mononium.Ledger.Chain
import Mononium.Node.Custody

/-! When a pending transaction has its turn. The pool looks at no nonce of the ledger. But what comes
into it with the nonce that its sender is at finds that nonce unused when a slot comes to it, as no
other transaction with it gets into the pool. -/
namespace Mononium

open Rust Scale StateMachine

def Transaction.Apart (x y : Transaction) : Prop := x.sender = y.sender → x.nonce ≠ y.nonce

theorem Transaction.Apart.symm {x y : Transaction} (apart : x.Apart y) : y.Apart x :=
  fun sender nonce => apart sender.symm nonce.symm

namespace StateMachine

section

variable [Blake3] {A : Finset Address} {chainId : U64} {p q r : Progress} {tx : Transaction}
  {txs : List Transaction} {a : Address}

/-- A nonce is used up by a transaction of its sender that has it, and by nothing else. -/
theorem Outcome.nonce_eq (outcome : Outcome chainId p tx q) (sound : Sound A p.machine)
    (within : tx.Within A) (ha : a ∈ A)
    (other : tx.sender = a → tx.nonce.toNat ≠ p.machine.nonce a) :
    q.machine.nonce a = p.machine.nonce a := by
  cases outcome with
  | skipped _ _ | unpaid _ _ _ _ _ _ | spoiledUnpaid _ _ _ _ _ => rfl
  | executed _ known accepts _ effect _ _ =>
    rw [nonce_setAccount sound.apart within.1 ha]
    split
    next same =>
      refine absurd ?_ (other same.symm)
      rw [same, nonce_of_known known, accepts.affords.1]
    next => exact effect.nonce sound within ha
  | rejected _ known _ _ _ _ _ =>
    rw [nonce_setAccount sound.apart within.1 ha]
    split
    next same => rw [same, nonce_of_known known]
    next => rfl
  | spoiled _ known spoils _ _ _ _ =>
    rw [nonce_setAccount sound.apart within.1 ha]
    split
    next same =>
      refine absurd ?_ (other same.symm)
      rw [same, nonce_of_known known, spoils.affords.1]
    next => rfl

/-- Where the loop comes to a transaction, the others have left its nonce as it was. -/
theorem ComesTo.nonce_eq (comes : ComesTo chainId p txs r tx) (sound : Sound A p.machine)
    (within : ∀ tx ∈ txs, tx.Within A) (apart : txs.Pairwise Transaction.Apart)
    (current : p.machine.nonce tx.sender = tx.nonce.toNat) :
    r.machine.nonce tx.sender = tx.nonce.toNat := by
  induction comes with
  | head => exact current
  | tail first later ih =>
    obtain ⟨others, apart⟩ := List.pairwise_cons.mp apart
    have here := within _ List.mem_cons_self
    have rest := fun tx member => within tx (List.mem_cons_of_mem _ member)
    have outcome := applyTx_outcome first
    have kept := outcome.nonce_eq sound here (rest _ later.mem).1 fun sender nonce =>
      others _ later.mem sender (BitVec.eq_of_toNat_eq (nonce.trans current))
    exact ih (outcome.sound sound here) rest apart (kept.trans current)

theorem ComesTo.nonce_le (comes : ComesTo chainId p txs r tx) (sound : Sound A p.machine)
    (within : ∀ tx ∈ txs, tx.Within A) (ha : a ∈ A) : p.machine.nonce a ≤ r.machine.nonce a := by
  induction comes with
  | head => exact Nat.le_refl _
  | tail first _ ih =>
    have here := within _ List.mem_cons_self
    have outcome := applyTx_outcome first
    exact (outcome.nonce_le sound here ha).trans
      (ih (outcome.sound sound here) fun tx member => within tx (List.mem_cons_of_mem _ member))

theorem applyTxs_nonce_eq (sound : Sound A p.machine) (within : ∀ tx ∈ txs, tx.Within A) (ha : a ∈ A)
    (others : ∀ tx ∈ txs, tx.sender = a → tx.nonce.toNat ≠ p.machine.nonce a)
    (ran : applyTxs chainId p txs = .ok q) : q.machine.nonce a = p.machine.nonce a := by
  refine (foldlM_invariant (P := fun q => Sound A q.machine ∧ q.machine.nonce a = p.machine.nonce a)
    ?_ ⟨sound, rfl⟩ ran).2
  intro q tx member r ⟨sound, same⟩ stepped
  have outcome := applyTx_outcome stepped
  refine ⟨outcome.sound sound (within tx member), (outcome.nonce_eq sound (within tx member) ha ?_).trans same⟩
  rw [same]
  exact others tx member

end

end StateMachine

namespace Mempool

variable {self next : Mempool} {tx other : Transaction} {now : Nat} {order : SenderOrder} {maxCount : Nat}
  {txs : List Transaction}

theorem WellFormed.pending_apart (wellFormed : self.WellFormed) : self.pending.Pairwise Transaction.Apart := by
  have perm := listed_perm self .plain
  rw [pending, List.pairwise_map]
  have distinct : self.all.Nodup := perm.nodup_iff.mp (wellFormed.listed_nodup .plain)
  refine distinct.imp_of_mem fun {d e} hd he different sender nonce => different ?_
  exact wellFormed.eq_of_key (perm.mem_iff.mpr hd) (perm.mem_iff.mpr he) sender nonce

theorem WellFormed.select_apart (wellFormed : self.WellFormed)
    (selected : self.select order maxCount = .ok (txs, next)) : txs.Pairwise Transaction.Apart := by
  have moved := (wellFormed.select_conserves selected).2
  have apart := (moved.pairwise_iff fun {x y} apart => apart.symm).mp wellFormed.pending_apart
  exact (List.pairwise_append.mp apart).2.1

end Mempool

namespace Tasks

/-- The validators are listed as they are in the state, and transactions keep within `A`. -/
def Allows (A : Finset Address) (tasks : Tasks) : TaskMove → Prop
  | .start listing _ => Lists listing tasks.state
  | .submit tx _ => tx.Within A
  | .finish _ _ _ | .store _ => True

section

variable [Blake3]

inductive Reaches (A : Finset Address) (start : Tasks) : Tasks → Prop
  | refl : Reaches A start start
  | move {tasks next : Tasks} {move : TaskMove} {slotEnd : SlotEnd} (reaches : Reaches A start tasks)
    (allowed : tasks.Allows A move) (ran : tasks.step move = .ok (slotEnd, next)) : Reaches A start next

/-- What they lead to while `tx` is pending all the time. -/
inductive Awaits (A : Finset Address) (tx : Transaction) (start : Tasks) : Tasks → Prop
  | refl (pending : tx ∈ start.mempool.pending) : Awaits A tx start start
  | move {tasks next : Tasks} {move : TaskMove} {slotEnd : SlotEnd} (awaits : Awaits A tx start tasks)
    (allowed : tasks.Allows A move) (ran : tasks.step move = .ok (slotEnd, next))
    (pending : tx ∈ next.mempool.pending) : Awaits A tx start next

/-- The block with which the slot ends comes to `tx`, on the chain with this id. -/
def ComesTo (tasks : Tasks) (now : U64) (order : SenderOrder) (chainId : U64) (p : Progress)
    (tx : Transaction) : Prop :=
  ∃ production txs mempool proposer block u, tasks.production = some production ∧
    tasks.mempool.select order 500 = .ok (txs, mempool) ∧
    production.schedule.proposerForHeight production.height = .ok proposer ∧
    buildBlock tasks.state txs production.parent proposer now (FixedBytes.replicate 809 0xCD) =
      .ok (block, u) ∧
    block.header.chainId = chainId ∧
    StateMachine.ComesTo chainId ⟨u, 0, 0, 0⟩ block.body.transactions p tx

/-- What the tasks keep in all their moves. -/
structure Tended (A : Finset Address) (tasks : Tasks) : Prop where
  sound : Sound A tasks.state
  pool : tasks.mempool.WellFormed
  within : ∀ tx ∈ tasks.mempool.pending, tx.Within A

variable {A : Finset Address} {tasks next : Tasks} {listing : List Address} {fault : Bool}
  {slotEnd : SlotEnd} {production : Production} {now : U64} {order : SenderOrder} {tx : Transaction}
  {a : Address} {chainId : U64} {p : Progress}

theorem start_spec (ran : tasks.startSlot listing fault = .ok (slotEnd, next)) :
    next.mempool = tasks.mempool ∧ ∃ height,
      next.state = (enterEra tasks.engine tasks.state listing height).2 := by
  obtain ⟨height, engine, -, -, ⟨-, rfl⟩ | ⟨-, ⟨_, _, -, -, rfl⟩ | ⟨-, -, rfl⟩⟩⟩ := start_cases ran
  · exact ⟨rfl, height, rfl⟩
  · exact ⟨rfl, height, rfl⟩
  · exact ⟨rfl, height, rfl⟩

namespace Tended

theorem enter (tended : tasks.Tended A) (lists : Lists listing tasks.state) (height : U64)
    (state : next.state = (enterEra tasks.engine tasks.state listing height).2)
    (mempool : next.mempool = tasks.mempool) :
    next.Tended A ∧ ∀ a ∈ A, next.state.nonce a = tasks.state.nonce a := by
  obtain ⟨sound, accounts⟩ :=
    enterEra_accounts tasks.engine height tended.sound (lists.within tended.sound)
  refine ⟨⟨state ▸ sound, mempool ▸ tended.pool, mempool ▸ tended.within⟩, fun a ha => ?_⟩
  rw [state]
  exact nonce_congr (accounts a ha)

/-- What a slot takes, and what the rest of it does to nonces. -/
theorem finish (tended : tasks.Tended A)
    (ran : tasks.finishSlot production now order fault = .ok (slotEnd, next)) :
    next.Tended A ∧ ∃ txs, tasks.mempool.select order 500 = .ok (txs, next.mempool) ∧
      (∀ a ∈ A, tasks.state.nonce a ≤ next.state.nonce a) ∧
      ∀ a ∈ A, (∀ tx ∈ txs, tx.sender = a → tx.nonce.toNat ≠ tasks.state.nonce a) →
        next.state.nonce a = tasks.state.nonce a := by
  obtain ⟨txs, proposer, block, u, receipt, selected, built, applied, -, -, -, -⟩ := finish_cases ran
  obtain ⟨kept, moved⟩ := tended.pool.select_conserves selected
  obtain ⟨-, -, body, -, sound, start⟩ := buildBlock_spec tended.sound built
  have within (tx : Transaction) (member : tx ∈ next.mempool.pending ++ txs) : tx.Within A :=
    tended.within tx (moved.mem_iff.mpr member)
  have inside : ∀ tx ∈ block.body.transactions, tx.Within A := by
    rw [body]
    exact fun tx member => within tx (List.mem_append_right _ member)
  obtain ⟨p, looped, -, -, credited, -⟩ := applyBlock_spec sound inside applied
  refine ⟨⟨credited.sound, kept, fun tx member => within tx (List.mem_append_left _ member)⟩, txs, selected,
    fun a ha => ?_, fun a ha others => ?_⟩
  · rw [← start.nonce ha]
    exact applyBlock_nonce_le sound inside applied ha
  · rw [← start.nonce ha] at others ⊢
    rw [← body] at others
    rw [credited.nonce ha]
    exact applyTxs_nonce_eq sound inside ha others looped

theorem submit {at_ : Nat} {result : Result Unit} {mempool : Mempool} (tended : tasks.Tended A)
    (within : tx.Within A) (inserted : tasks.mempool.insert tx at_ = .ok (result, mempool)) :
    Tended A { tasks with mempool } := by
  obtain ⟨kept, moved⟩ := tended.pool.insert_conserves inserted
  refine ⟨tended.sound, kept, fun other member => ?_⟩
  rcases List.mem_append.mp (moved.mem_iff.mpr member) with before | admitted
  · exact tended.within other before
  · rw [Option.mem_toList, Mempool.admitted] at admitted
    split at admitted
    next =>
      cases admitted
      exact within
    next => cases admitted

/-- One move. A nonce goes up only at the end of a slot that has taken a transaction with it. -/
theorem step {move : TaskMove} (tended : tasks.Tended A) (allowed : tasks.Allows A move)
    (ran : tasks.step move = .ok (slotEnd, next)) :
    next.Tended A ∧ (∀ a ∈ A, tasks.state.nonce a ≤ next.state.nonce a) ∧
      ((∀ tx ∈ tasks.mempool.pending, tx ∈ next.mempool.pending) ∧
        (∀ a ∈ A, next.state.nonce a = tasks.state.nonce a) ∨
      ∃ now order fault txs, move = .finish now order fault ∧ tasks.production.isSome ∧
        tasks.mempool.select order 500 = .ok (txs, next.mempool) ∧
        ∀ a ∈ A, (∀ tx ∈ txs, tx.sender = a → tx.nonce.toNat ≠ tasks.state.nonce a) →
          next.state.nonce a = tasks.state.nonce a) := by
  cases step_cases ran with
  | busy | idle =>
    exact ⟨tended, fun _ _ => Nat.le_refl _, .inl ⟨fun _ member => member, fun _ _ => rfl⟩⟩
  | start _ ran =>
    obtain ⟨mempool, height, state⟩ := start_spec ran
    obtain ⟨kept, same⟩ := tended.enter allowed height state mempool
    exact ⟨kept, fun a ha => (same a ha).ge, .inl ⟨fun tx member => mempool ▸ member, same⟩⟩
  | finish going ran =>
    obtain ⟨kept, txs, selected, up, same⟩ := tended.finish ran
    exact ⟨kept, up, .inr ⟨_, _, _, txs, rfl, by rw [going]; rfl, selected, same⟩⟩
  | store =>
    exact ⟨⟨tended.sound, tended.pool, tended.within⟩, fun _ _ => Nat.le_refl _,
      .inl ⟨fun _ member => member, fun _ _ => rfl⟩⟩
  | submit inserted =>
    obtain ⟨-, moved⟩ := tended.pool.insert_conserves inserted
    exact ⟨tended.submit allowed inserted, fun _ _ => Nat.le_refl _,
      .inl ⟨fun other member => moved.mem_iff.mp (List.mem_append_left _ member), fun _ _ => rfl⟩⟩

/-- A transaction that stays pending stays current. -/
theorem current_step {move : TaskMove} (tended : tasks.Tended A) (allowed : tasks.Allows A move)
    (ran : tasks.step move = .ok (slotEnd, next)) (pending : tx ∈ tasks.mempool.pending)
    (still : tx ∈ next.mempool.pending) (current : tasks.state.nonce tx.sender = tx.nonce.toNat) :
    next.state.nonce tx.sender = tx.nonce.toNat := by
  have member := (tended.within tx pending).1
  obtain ⟨-, -, ⟨-, same⟩ | ⟨now, order, fault, txs, rfl, -, selected, same⟩⟩ := tended.step allowed ran
  · exact (same _ member).trans current
  · -- what the slot takes is apart from what it leaves
    have moved := (tended.pool.select_conserves selected).2
    have apart := (moved.pairwise_iff fun {x y} apart => apart.symm).mp tended.pool.pending_apart
    refine (same _ member fun other taken sender nonce => ?_).trans current
    refine (List.pairwise_append.mp apart).2.2 tx still other taken sender.symm ?_
    exact BitVec.eq_of_toNat_eq (nonce.trans current).symm

/-- When a slot comes to a pending transaction, the nonce is what it was before the slot, or was no
longer the transaction's then. -/
theorem comes (tended : tasks.Tended A) (member : tx.sender ∈ A)
    (comes : tasks.ComesTo now order chainId p tx) :
    tasks.state.nonce tx.sender ≤ p.machine.nonce tx.sender ∧
      (tasks.state.nonce tx.sender = tx.nonce.toNat → p.machine.nonce tx.sender = tx.nonce.toNat) := by
  obtain ⟨production, txs, mempool, proposer, block, u, -, selected, -, built, -, comes⟩ := comes
  obtain ⟨-, moved⟩ := tended.pool.select_conserves selected
  obtain ⟨-, -, body, -, sound, start⟩ := buildBlock_spec tended.sound built
  rw [body] at comes
  have within : ∀ tx ∈ txs, tx.Within A := fun tx taken =>
    tended.within tx (moved.mem_iff.mpr (List.mem_append_right _ taken))
  rw [← start.nonce member]
  exact ⟨comes.nonce_le sound within member,
    comes.nonce_eq sound within (tended.pool.select_apart selected)⟩

end Tended

theorem Reaches.tended {start : Tasks} (reaches : Reaches A start tasks) (tended : start.Tended A) :
    tasks.Tended A ∧ ∀ a ∈ A, start.state.nonce a ≤ tasks.state.nonce a := by
  induction reaches with
  | refl => exact ⟨tended, fun _ _ => Nat.le_refl _⟩
  | move _ allowed ran ih =>
    obtain ⟨before, first⟩ := ih
    obtain ⟨after, second, -⟩ := before.step allowed ran
    exact ⟨after, fun a ha => (first a ha).trans (second a ha)⟩

theorem Awaits.reaches {start : Tasks} (awaits : Awaits A tx start tasks) :
    Reaches A start tasks ∧ tx ∈ tasks.mempool.pending := by
  induction awaits with
  | refl pending => exact ⟨.refl, pending⟩
  | move _ allowed ran pending ih => exact ⟨.move ih.1 allowed ran, pending⟩

theorem Awaits.current {start : Tasks} (awaits : Awaits A tx start tasks) (tended : start.Tended A)
    (current : start.state.nonce tx.sender = tx.nonce.toNat) :
    tasks.state.nonce tx.sender = tx.nonce.toNat := by
  induction awaits with
  | refl => exact current
  | move awaits allowed ran pending ih =>
    obtain ⟨reaches, before⟩ := awaits.reaches
    exact (reaches.tended tended).1.current_step allowed ran before pending ih

theorem launch_tended {node : Node} (sound : Sound A node.state) : node.launch.Tended A where
  sound := sound
  pool := Mempool.wellFormed_new _
  within := by simp [Node.launch, nodeMempool, Mempool.pending, Mempool.new, Mempool.all]

end

end Tasks

end Mononium
