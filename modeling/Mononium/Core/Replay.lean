import Mononium.Core.Refusal

/-! Replays. A round that executes a transaction uses up the sender's nonce, and no other
write of a run brings an old nonce back: what executes once never executes again. A
transaction that is only refused keeps its nonce, and can be included again for its fee. -/
namespace Mononium

open Rust Scale

namespace Transaction

/-- The transaction neither comes from `a` nor pays it. -/
def Spares (tx : Transaction) (a : Address) : Prop :=
  tx.sender ≠ a ∧ ∀ recipient amount, tx.body.payment = some (recipient, amount) → recipient ≠ a

/-- How often `t` comes up in a loop for its own chain. -/
def appearancesIn (t : Transaction) (chainId : U64) (txs : List Transaction) : Nat :=
  if t.chainId = chainId then txs.count t else 0

def appearances (t : Transaction) (blocks : List Block) : Nat :=
  (blocks.map fun b => t.appearancesIn b.header.chainId b.body.transactions).sum

theorem appearancesIn_cons_self (t : Transaction) (chainId : U64) (txs : List Transaction) :
    t.appearancesIn chainId (t :: txs) =
      (if t.chainId = chainId then 1 else 0) + t.appearancesIn chainId txs := by
  by_cases chain : t.chainId = chainId
  · simp [appearancesIn, chain, Nat.add_comm]
  · simp [appearancesIn, chain]

theorem appearancesIn_cons_of_ne {t tx : Transaction} (different : tx ≠ t) (chainId : U64)
    (txs : List Transaction) : t.appearancesIn chainId (tx :: txs) = t.appearancesIn chainId txs := by
  rw [appearancesIn, appearancesIn, List.count_cons_of_ne different]

end Transaction

namespace StateMachine

section

variable [Blake3] {A : Finset Address}

section Nonces

variable {s t : StateMachine} {op : Op} {a : Address}

theorem nonce_congr (same : t.account a = s.account a) : t.nonce a = s.nonce a := by
  rw [nonce, nonce, same]

theorem nonce_creditTo (apart : KeysApart A) {b : Address} (hb : b ∈ A) (ha : a ∈ A) (amount : Nat) :
    (s.creditTo b amount).nonce a = s.nonce a := by
  rw [creditTo, nonce_setAccount apart hb ha]
  split
  next same =>
    rw [same]
    rfl
  next => rfl

theorem applySlash_nonce {proposer reporter : Address} {era : U64} {result : Result SlashResult}
    (sound : Sound A s) (hp : proposer ∈ A) (hr : reporter ∈ A) (hb : burnAddress ∈ A)
    (h : s.applySlash proposer reporter era = .ok (result, t)) (ha : a ∈ A) :
    t.nonce a = s.nonce a := by
  rcases applySlash_cases sound hr hb h with
    ⟨rfl, -⟩ | ⟨e, amounts, frozenUntil, -, -, -, -, -, rfl⟩
  · rfl
  · rw [slashed, nonce_congr (account_setValidator sound.apart hp ha _), nonce_creditTo sound.apart hr ha,
      nonce_creditTo sound.apart hb ha]

theorem step_nonce_le (sound : Sound A s) (within : op.Within A) (h : s.step op = .ok t)
    (ha : a ∈ A) : s.nonce a ≤ t.nonce a := by
  cases step_cases h with
  | block applied => exact applyBlock_nonce_le sound within applied ha
  | slash applied => exact (applySlash_nonce sound within.1 within.2.1 within.2.2 applied ha).ge
  | cooldown applied =>
    exact (nonce_congr ((processUnstakingCooldown_adjusted sound within applied).account a ha)).ge
  | thaw v era => exact (nonce_congr ((processThaw_adjusted v era sound within).account a ha)).ge
  | thawAll addrs era => exact (nonce_congr ((thawAll_adjusted addrs era sound within).account a ha)).ge
  | election candidates max era =>
    obtain ⟨adjusted, -⟩ := runElection_adjusted candidates max era sound within
    exact (nonce_congr (adjusted.account a ha)).ge
  | setActiveSet set => exact Nat.le_refl _
  | stateRoot read => exact (nonce_congr ((sound.rooted read).2.1.account a ha).symm).ge

theorem run_nonce_le {ops : List Op} (sound : Sound A s) (within : ∀ op ∈ ops, op.Within A)
    (h : s.run ops = .ok t) (ha : a ∈ A) : s.nonce a ≤ t.nonce a := by
  refine (foldlM_invariant (P := fun t => Sound A t ∧ s.nonce a ≤ t.nonce a) ?_
    ⟨sound, Nat.le_refl _⟩ h).2
  intro t op member u ⟨sound, le⟩ stepped
  exact ⟨step_sound sound (within op member) stepped,
    le.trans (step_nonce_le sound (within op member) stepped ha)⟩

end Nonces

/-- The transactions of the loop that execute, in order: the rounds that raise `tx_count`. -/
def executedTxs (chainId : U64) : Progress → List Transaction → List Transaction
  | _, [] => []
  | p, tx :: txs =>
    match applyTx chainId p tx with
    | .error _ => []
    | .ok q =>
      if q.txCount = p.txCount then executedTxs chainId q txs else tx :: executedTxs chainId q txs

def executed (s : StateMachine) : Op → List Transaction
  | .block block => executedTxs block.header.chainId ⟨s, 0, 0, 0⟩ block.body.transactions
  | _ => []

def history (s : StateMachine) : List Op → List Transaction
  | [] => []
  | op :: ops =>
    match s.step op with
    | .error _ => executed s op
    | .ok t => executed s op ++ history t ops

theorem executedTxs_cons {chainId : U64} {p q : Progress} {tx : Transaction} {txs : List Transaction}
    (stepped : applyTx chainId p tx = .ok q) : executedTxs chainId p (tx :: txs) =
      if q.txCount = p.txCount then executedTxs chainId q txs else tx :: executedTxs chainId q txs := by
  rw [executedTxs, stepped]

theorem executedTxs_subset {chainId : U64} {p : Progress} {txs : List Transaction} {tx : Transaction}
    (member : tx ∈ executedTxs chainId p txs) : tx ∈ txs := by
  induction txs generalizing p with
  | nil => cases member
  | cons first txs ih =>
    rw [executedTxs] at member
    split at member
    next => cases member
    next =>
      split at member
      next => exact List.mem_cons_of_mem _ (ih member)
      next =>
        rcases List.mem_cons.mp member with rfl | later
        · exact List.mem_cons_self
        · exact List.mem_cons_of_mem _ (ih later)

theorem history_cons {s t : StateMachine} {op : Op} {ops : List Op} (stepped : s.step op = .ok t) :
    history s (op :: ops) = executed s op ++ history t ops := by
  rw [history, stepped]

section Rounds

variable {chainId : U64} {p q : Progress} {tx : Transaction} {txs : List Transaction}

/-- A round counts its transaction as executed only if it used up the nonce that the
sender was at. -/
theorem Outcome.uses_nonce (outcome : Outcome chainId p tx q) (sound : Sound A p.machine)
    (within : tx.Within A) :
    q.txCount = p.txCount ∨ q.txCount ≠ p.txCount ∧ p.machine.nonce tx.sender = tx.nonce.toNat ∧
      q.machine.nonce tx.sender = tx.nonce.toNat + 1 := by
  cases outcome with
  | executed _ known accepts charged _ _ counted =>
    refine .inr ⟨?_, ?_, ?_⟩
    · intro same
      rw [← same] at counted
      dsimp only at counted
      omega
    · rw [nonce_of_known known, accepts.affords.1]
    · rw [nonce_setAccount sound.apart within.1 within.1, if_pos rfl, charged.nonce,
        accepts.affords.1]
  | _ => exact .inl rfl

theorem applyTxs_counts (sound : Sound A p.machine) (within : ∀ tx ∈ txs, tx.Within A)
    (h : applyTxs chainId p txs = .ok q) :
    q.txCount.toNat + q.failedCount.toNat =
      p.txCount.toNat + p.failedCount.toNat + txs.length := by
  induction txs generalizing p with
  | nil =>
    cases h
    rfl
  | cons tx txs ih =>
    rw [applyTxs_cons] at h
    obtain ⟨r, stepped, h⟩ := bind_eq_ok.mp h
    have here := within tx List.mem_cons_self
    have outcome := applyTx_outcome stepped
    have first := outcome.counts
    have rest := ih (outcome.sound sound here)
      (fun tx member => within tx (List.mem_cons_of_mem _ member)) h
    rw [List.length_cons]
    omega

/-- Of two transactions of one sender the later one has the higher nonce. -/
def Ascends (x y : Transaction) : Prop := x.sender = y.sender → x.nonce < y.nonce

/-- What was executed on the way from `s` to `t`: in ascending order, with nonces that `s`
had not used up and `t` has. -/
structure Spends (A : Finset Address) (s : StateMachine) (log : List Transaction)
    (t : StateMachine) : Prop where
  ascending : log.Pairwise Ascends
  within : ∀ tx ∈ log, tx.sender ∈ A
  unused : ∀ tx ∈ log, s.nonce tx.sender ≤ tx.nonce.toNat
  used : ∀ tx ∈ log, tx.nonce.toNat < t.nonce tx.sender

namespace Spends

variable {s t u : StateMachine} {first second : List Transaction}

theorem nil (A : Finset Address) (s t : StateMachine) : Spends A s [] t :=
  ⟨.nil, by simp, by simp, by simp⟩

theorem append (before : Spends A s first t) (after : Spends A t second u)
    (lower : ∀ a ∈ A, s.nonce a ≤ t.nonce a) (upper : ∀ a ∈ A, t.nonce a ≤ u.nonce a) :
    Spends A s (first ++ second) u := by
  refine ⟨List.pairwise_append.mpr ⟨before.ascending, after.ascending, ?_⟩, ?_, ?_, ?_⟩
  · intro x hx y hy same
    have low := before.used x hx
    have high := after.unused y hy
    rw [same] at low
    exact BitVec.lt_def.mpr (Nat.lt_of_lt_of_le low high)
  all_goals
    intro tx member
    rcases List.mem_append.mp member with early | late
  · exact before.within tx early
  · exact after.within tx late
  · exact before.unused tx early
  · exact (lower _ (after.within tx late)).trans (after.unused tx late)
  · exact Nat.lt_of_lt_of_le (before.used tx early) (upper _ (before.within tx early))
  · exact after.used tx late

end Spends

theorem Outcome.spends (outcome : Outcome chainId p tx q) (sound : Sound A p.machine)
    (within : tx.Within A) :
    Spends A p.machine (if q.txCount = p.txCount then [] else [tx]) q.machine := by
  rcases outcome.uses_nonce sound within with same | ⟨different, before, after⟩
  · rw [if_pos same]
    exact .nil A _ _
  · rw [if_neg different]
    refine ⟨List.pairwise_singleton _ _, ?_, ?_, ?_⟩
    all_goals
      intro other member
      cases List.mem_singleton.mp member
    · exact within.1
    · exact before.le
    · omega

theorem applyTxs_spends (sound : Sound A p.machine) (within : ∀ tx ∈ txs, tx.Within A)
    (h : applyTxs chainId p txs = .ok q) :
    Spends A p.machine (executedTxs chainId p txs) q.machine := by
  induction txs generalizing p with
  | nil => exact .nil A _ _
  | cons tx txs ih =>
    rw [applyTxs_cons] at h
    obtain ⟨r, stepped, h⟩ := bind_eq_ok.mp h
    have here := within tx List.mem_cons_self
    have later : ∀ tx ∈ txs, tx.Within A := fun tx member => within tx (List.mem_cons_of_mem _ member)
    have outcome := applyTx_outcome stepped
    have soundR := outcome.sound sound here
    have whole := (outcome.spends sound here).append (ih soundR later h)
      (fun a ha => outcome.nonce_le sound here ha) (fun a ha => applyTxs_nonce_le soundR later h ha)
    rw [executedTxs_cons stepped]
    split at whole
    next same => rwa [if_pos same]
    next different => rwa [if_neg different]

end Rounds

section Runs

variable {s t : StateMachine} {op : Op} {ops : List Op}

theorem step_spends (sound : Sound A s) (within : op.Within A) (h : s.step op = .ok t) :
    Spends A s (executed s op) t := by
  cases step_cases h with
  | block applied =>
    obtain ⟨p, looped, -, -, credited, -⟩ := applyBlock_spec sound within applied
    have spends := applyTxs_spends sound within looped
    exact ⟨spends.ascending, spends.within, spends.unused, fun tx member => by
      rw [credited.nonce (spends.within tx member)]
      exact spends.used tx member⟩
  | _ => exact .nil A _ _

theorem run_spends (sound : Sound A s) (within : ∀ op ∈ ops, op.Within A) (h : s.run ops = .ok t) :
    Spends A s (history s ops) t := by
  induction ops generalizing s with
  | nil => exact .nil A _ _
  | cons op ops ih =>
    rw [run, List.foldlM_cons] at h
    obtain ⟨u, stepped, h⟩ := bind_eq_ok.mp h
    have here := within op List.mem_cons_self
    have later : ∀ op ∈ ops, op.Within A := fun op member => within op (List.mem_cons_of_mem _ member)
    have soundU := step_sound sound here stepped
    rw [history_cons stepped]
    exact (step_spends sound here stepped).append (ih soundU later h)
      (fun a ha => step_nonce_le sound here stepped ha) (fun a ha => run_nonce_le soundU later h ha)

theorem Spends.nodup {log : List Transaction} (spends : Spends A s log t) :
    (log.map fun tx => (tx.sender, tx.nonce)).Nodup := by
  refine List.pairwise_map.mpr (spends.ascending.imp ?_)
  intro x y ascends same
  obtain ⟨sender, nonce⟩ := Prod.mk.inj same
  have less := ascends sender
  rw [nonce] at less
  exact absurd less (BitVec.lt_irrefl _)

theorem run_split {before after : List Op} {m : StateMachine} (h : s.run (before ++ after) = .ok t)
    (early : s.run before = .ok m) : m.run after = .ok t := by
  rw [run, List.foldlM_append, ← run, early] at h
  exact h

/-- Over a run from the initial accounts no nonce goes down, the executed transactions of
a sender have ascending nonces, no nonce is executed twice, and every receipt counts every
transaction of its block. -/
theorem run_never_replays {accounts : List (Address × Account)} (apart : KeysApart A)
    (genesis : ∀ p ∈ accounts, p.1 ∈ A) (within : ∀ op ∈ ops, op.Within A)
    (ran : run (new accounts) ops = .ok t) :
    (∀ before after m, ops = before ++ after → run (new accounts) before = .ok m →
      ∀ a ∈ A, m.nonce a ≤ t.nonce a) ∧
    (history (new accounts) ops).Pairwise (fun x y => x.sender = y.sender → x.nonce < y.nonce) ∧
    ((history (new accounts) ops).map fun tx => (tx.sender, tx.nonce)).Nodup ∧
    ∀ before block after m receipt u, ops = before ++ .block block :: after →
      run (new accounts) before = .ok m → m.applyBlock block = .ok (receipt, u) →
      receipt.txCount.toNat + receipt.failedCount.toNat = block.body.transactions.length := by
  have sound := (new_sound apart genesis).1
  have spends := run_spends sound within ran
  refine ⟨?_, spends.ascending, spends.nodup, ?_⟩
  · rintro before after m rfl early a ha
    have soundM := run_sound sound (fun op h => within op (List.mem_append_left _ h)) early
    exact run_nonce_le soundM (fun op h => within op (List.mem_append_right _ h))
      (run_split ran early) ha
  · rintro before block after m receipt u rfl early applied
    have soundM := run_sound sound (fun op h => within op (List.mem_append_left _ h)) early
    have closed : ∀ tx ∈ block.body.transactions, tx.Within A := within (.block block) (by simp)
    obtain ⟨p, looped, -, -, -, rfl⟩ := applyBlock_spec soundM closed applied
    have counts := applyTxs_counts soundM closed looped
    dsimp only at counts ⊢
    rw [counts]
    simp

end Runs

section Charges

variable {s u : StateMachine} {chainId : U64} {p q : Progress} {t tx : Transaction}
  {txs : List Transaction} {blocks : List Block}

theorem Effect.account_of_spares {m : StateMachine} (effect : Effect s tx m) (sound : Sound A s)
    (within : tx.Within A) {a : Address} (ha : a ∈ A) (spares : tx.Spares a) :
    m.account a = s.account a := by
  cases effect with
  | pays body _ =>
    rw [account_setAccount sound.apart (within.recipient body) ha, if_neg (spares.2 _ _ body).symm]
  | registers _ _ => exact account_setValidator sound.apart within.1 ha _
  | stakes body _ _ => exact account_setValidator sound.apart (within.validator (.inl body)) ha _
  | founds _ _ => exact account_setValidator sound.apart within.1 ha _
  | unstakes body _ _ _ => exact account_setValidator sound.apart (within.validator (.inr body)) ha _
  | charges _ => rfl

theorem Outcome.account_of_spares (outcome : Outcome chainId p tx q) (sound : Sound A p.machine)
    (within : tx.Within A) {a : Address} (ha : a ∈ A) (spares : tx.Spares a) :
    q.machine.account a = p.machine.account a := by
  have other : a ≠ tx.sender := spares.1.symm
  cases outcome with
  | skipped _ _ | unpaid _ _ _ _ _ _ | spoiledUnpaid _ _ _ _ _ => rfl
  | executed _ _ _ _ effect _ _ =>
    rw [account_setAccount sound.apart within.1 ha, if_neg other]
    exact effect.account_of_spares sound within ha spares
  | rejected _ _ _ _ _ _ _ | spoiled _ _ _ _ _ _ _ =>
    rw [account_setAccount sound.apart within.1 ha, if_neg other]

/-- The sender has lost at most `executions` debits and a fee for each other appearance. -/
structure Costs (t : Transaction) (s u : StateMachine) (executions appearances : Nat) : Prop where
  counted : executions ≤ appearances
  lost : s.balance t.sender + executions * t.fee.toNat ≤
    u.balance t.sender + executions * t.debit + appearances * t.fee.toNat

theorem Costs.append {m : StateMachine} {e f k l : Nat} (first : Costs t s m e k)
    (second : Costs t m u f l) : Costs t s u (e + f) (k + l) := by
  have := first.lost
  have := second.lost
  refine ⟨Nat.add_le_add first.counted second.counted, ?_⟩
  simp only [Nat.add_mul]
  omega

theorem Costs.refl (t : Transaction) (same : u.account t.sender = s.account t.sender) :
    Costs t s u 0 0 := by
  refine ⟨Nat.le_refl _, ?_⟩
  rw [balance, balance, same]
  omega

/-- One appearance of `t` that does not spoil. -/
theorem Outcome.costs (outcome : Outcome chainId p t q) (sound : Sound A p.machine)
    (within : t.Within A)
    (unspoiled : ∀ sender ∈ p.machine.account t.sender, ¬Spoils p.machine sender t) :
    Costs t p.machine q.machine (if q.txCount = p.txCount then 0 else 1)
      (if t.chainId = chainId then 1 else 0) := by
  have free {failedCount : U32} : Costs t p.machine ({ p with failedCount } : Progress).machine 0
      (if t.chainId = chainId then 1 else 0) := ⟨Nat.zero_le _, by dsimp only; omega⟩
  cases outcome with
  | skipped _ _ | unpaid _ _ _ _ _ _ =>
    rw [if_pos rfl]
    exact free
  | spoiledUnpaid _ known spoils _ _ | spoiled _ known spoils _ _ _ _ =>
    exact absurd spoils (unspoiled _ known)
  | executed chain known _ charged _ _ counted =>
    rw [if_neg (fun same => by rw [← same] at counted; dsimp only at counted; omega), if_pos chain]
    have paid := charged.balance
    refine ⟨Nat.le_refl _, ?_⟩
    rw [balance, balance, known, account_setAccount sound.apart within.1 within.1, if_pos rfl]
    simp only [Option.getD_some]
    omega
  | rejected chain known _ _ paid _ _ =>
    rw [if_pos rfl, if_pos chain]
    refine ⟨Nat.zero_le _, ?_⟩
    rw [balance, balance, known, account_setAccount sound.apart within.1 within.1, if_pos rfl]
    simp only [Option.getD_some]
    omega

/-- Every other transaction leaves the sender of `t` alone. -/
def Alone (t : Transaction) (txs : List Transaction) : Prop :=
  ∀ tx ∈ txs, tx = t ∨ tx.Spares t.sender

theorem applyTxs_costs (sound : Sound A p.machine) (within : ∀ tx ∈ txs, tx.Within A)
    (member : t.sender ∈ A) (alone : Alone t txs)
    (unspoiled : ∀ r, ComesTo chainId p txs r t →
      ∀ sender ∈ r.machine.account t.sender, ¬Spoils r.machine sender t)
    (h : applyTxs chainId p txs = .ok q) :
    Costs t p.machine q.machine ((executedTxs chainId p txs).count t) (t.appearancesIn chainId txs) := by
  induction txs generalizing p with
  | nil =>
    cases h
    rw [Transaction.appearancesIn, List.count_nil, ite_self]
    exact .refl t rfl
  | cons tx txs ih =>
    rw [applyTxs_cons] at h
    obtain ⟨r, stepped, h⟩ := bind_eq_ok.mp h
    have here := within tx List.mem_cons_self
    have later : ∀ tx ∈ txs, tx.Within A := fun tx member => within tx (List.mem_cons_of_mem _ member)
    have outcome := applyTx_outcome stepped
    have rest := ih (outcome.sound sound here) later
      (fun tx member => alone tx (List.mem_cons_of_mem _ member))
      (fun r comes => unspoiled r (.tail stepped comes)) h
    rw [executedTxs_cons stepped]
    rcases eq_or_ne tx t with rfl | different
    · have whole := (outcome.costs sound here (unspoiled p .head)).append rest
      rw [Transaction.appearancesIn_cons_self]
      split at whole
      next same =>
        rw [if_pos same]
        rwa [Nat.zero_add] at whole
      next changed =>
        rw [if_neg changed, List.count_cons_self, Nat.add_comm _ 1]
        exact whole
    · have spared := (alone tx List.mem_cons_self).resolve_left different
      have whole := (Costs.refl t (outcome.account_of_spares sound here member spared)).append rest
      rw [Nat.zero_add, Nat.zero_add] at whole
      rw [Transaction.appearancesIn_cons_of_ne different]
      split
      next => exact whole
      next => rwa [List.count_cons_of_ne different]

/-- In a sequence of blocks from `s` on, `t` is the only transaction of its sender, no
other one pays the sender, and no fee share comes to it. -/
structure Unaided (s : StateMachine) (blocks : List Block) (t : Transaction) : Prop where
  alone : ∀ b ∈ blocks, Alone t b.body.transactions
  unshared : ∀ before block after m p, blocks = before ++ block :: after →
    s.run (before.map .block) = .ok m →
    applyTxs block.header.chainId ⟨m, 0, 0, 0⟩ block.body.transactions = .ok p →
    p.machine.feeShare p.blockFees t.sender = 0

/-- Wherever `t` comes up, its handler does not fail after charging its copy of the account. -/
def Unspoiled (s : StateMachine) (blocks : List Block) (t : Transaction) : Prop :=
  ∀ before block after m r, blocks = before ++ block :: after →
    s.run (before.map .block) = .ok m →
    ComesTo block.header.chainId ⟨m, 0, 0, 0⟩ block.body.transactions r t →
    ∀ sender ∈ r.machine.account t.sender, ¬Spoils r.machine sender t

theorem run_costs (sound : Sound A s) (member : t.sender ∈ A)
    (within : ∀ b ∈ blocks, ∀ tx ∈ b.body.transactions, tx.Within A) (unaided : Unaided s blocks t)
    (unspoiled : Unspoiled s blocks t) (ran : s.run (blocks.map .block) = .ok u) :
    Costs t s u ((history s (blocks.map .block)).count t) (t.appearances blocks) := by
  induction blocks generalizing s with
  | nil =>
    cases ran
    exact .refl t rfl
  | cons b blocks ih =>
    rw [List.map_cons, run, List.foldlM_cons] at ran
    obtain ⟨m, stepped, ran⟩ := bind_eq_ok.mp ran
    have here : (Op.block b).Within A := within b List.mem_cons_self
    have resume {before : List Block} {v : StateMachine} (h : m.run (before.map .block) = .ok v) :
        s.run ((b :: before).map .block) = .ok v := by
      rw [List.map_cons, run, List.foldlM_cons, stepped]
      exact h
    have rest : Costs t m u ((history m (blocks.map .block)).count t) (t.appearances blocks) := by
      refine ih (step_sound sound here stepped)
        (fun b member => within b (List.mem_cons_of_mem _ member)) ⟨?_, ?_⟩ ?_ ran
      · exact fun b member => unaided.alone b (List.mem_cons_of_mem _ member)
      · rintro before block after v p rfl early
        exact unaided.unshared (b :: before) block after v p rfl (resume early)
      · rintro before block after v r rfl early
        exact unspoiled (b :: before) block after v r rfl (resume early)
    have first : Costs t s m ((executed s (.block b)).count t)
        (t.appearancesIn b.header.chainId b.body.transactions) := by
      obtain ⟨⟨receipt, after⟩, applied, same⟩ := bind_eq_ok.mp stepped
      cases same
      obtain ⟨p, looped, -, -, credited, -⟩ := applyBlock_spec sound here applied
      have costs := applyTxs_costs sound here member (unaided.alone b List.mem_cons_self)
        (fun r comes => unspoiled [] b blocks s r rfl rfl comes) looped
      have kept : m.account t.sender = p.machine.account t.sender := by
        rw [credited.account _ member, if_pos (unaided.unshared [] b blocks s p rfl rfl looped)]
      exact costs.append (.refl t kept)
    rw [List.map_cons, history_cons stepped, List.count_append]
    exact first.append rest

/-- However often a transaction is included, it executes at most once, and every other
inclusion costs its sender at most the fee. -/
theorem replay_costs_fees {accounts : List (Address × Account)} (reachable : Reachable A accounts s)
    (member : t.sender ∈ A) (within : ∀ b ∈ blocks, ∀ tx ∈ b.body.transactions, tx.Within A)
    (unaided : Unaided s blocks t) (unspoiled : Unspoiled s blocks t)
    (ran : s.run (blocks.map .block) = .ok u) :
    ∃ executions ≤ 1, executions = (history s (blocks.map .block)).count t ∧
      executions ≤ t.appearances blocks ∧
      s.balance t.sender ≤ u.balance t.sender + executions * t.debit +
        (t.appearances blocks - executions) * t.fee.toNat := by
  have costs := run_costs reachable.sound member within unaided unspoiled ran
  have closed : ∀ op ∈ blocks.map Op.block, op.Within A := by
    intro op here
    obtain ⟨b, inside, rfl⟩ := List.mem_map.mp here
    exact within b inside
  have once : (history s (blocks.map .block)).Nodup :=
    .of_map _ (run_spends reachable.sound closed ran).nodup
  refine ⟨_, List.nodup_iff_count_le_one.mp once t, rfl, costs.counted, ?_⟩
  have lost := costs.lost
  have split : (t.appearances blocks - (history s (blocks.map .block)).count t) * t.fee.toNat +
      (history s (blocks.map .block)).count t * t.fee.toNat = t.appearances blocks * t.fee.toNat := by
    rw [← Nat.add_mul, Nat.sub_add_cancel costs.counted]
  omega

end Charges

end

section Sample

attribute [local instance] prefixBlake3

def purse : List (Address × Account) := [(alice, Account.new 1000)]

def payment : Transaction := transferTx alice bob 10 0

def paymentLoop (copies : Nat) : Progress :=
  valueD (applyTxs 0 ⟨new purse, 0, 0, 0⟩ (List.replicate copies payment)) ⟨new [], 0, 0, 0⟩

def paymentBlock (copies : Nat) : Block := testBlock (List.replicate copies payment)

theorem purse_apart : KeysApart {alice, bob} := by decide

theorem purse_reachable : Reachable {alice, bob} purse (new purse) :=
  new_reachable purse_apart (by decide)

theorem paymentBlock_within (copies : Nat) :
    ∀ tx ∈ (paymentBlock copies).body.transactions, tx.Within {alice, bob} := by
  intro tx member
  rw [List.eq_of_mem_replicate member]
  decide

theorem paymentBlock_run {copies : Nat}
    (returns : Returns (applyTxs 0 ⟨new purse, 0, 0, 0⟩ (List.replicate copies payment))) :
    ∃ u, (new purse).run ([paymentBlock copies].map .block) = .ok u ∧
      u.account alice = (paymentLoop copies).machine.account alice := by
  have sound := purse_reachable.sound
  have within := paymentBlock_within copies
  have looped := returns.eq_ok ⟨new [], 0, 0, 0⟩
  obtain ⟨⟨receipt, u⟩, applied⟩ : Returns ((new purse).applyBlock (paymentBlock copies)) :=
    applyBlock_returns_idle sound within rfl looped
  obtain ⟨p, same, -, active, credited, -⟩ := applyBlock_spec sound within applied
  cases looped.symm.trans same
  refine ⟨u, ?_, ?_⟩
  · rw [List.map_singleton, run, List.foldlM_cons, step, applied]
    rfl
  · rw [credited.account alice (by decide), if_pos (feeShare_eq_zero (.inr (.inl active)) alice)]
    rfl

theorem paymentBlock_unaided (copies : Nat) : Unaided (new purse) [paymentBlock copies] payment where
  alone b member tx here := by
    cases List.mem_singleton.mp member
    exact .inl (List.eq_of_mem_replicate here)
  unshared before block after m p split early looped := by
    obtain ⟨rfl, rfl, rfl⟩ : before = [] ∧ block = paymentBlock copies ∧ after = [] := by
      cases before with
      | nil =>
        cases split
        exact ⟨rfl, rfl, rfl⟩
      | cons first rest =>
        have := congrArg List.length split
        simp at this
    cases early
    have active := (applyTxs_sound purse_reachable.sound (paymentBlock_within copies) looped).2
    exact feeShare_eq_zero (.inr (.inl active)) alice

theorem payment_never_replays : ∃ u, (new purse).run [.block (paymentBlock 2)] = .ok u ∧
    ∀ before after m, [.block (paymentBlock 2)] = before ++ after → run (new purse) before = .ok m →
      ∀ a ∈ ({alice, bob} : Finset Address), m.nonce a ≤ u.nonce a := by
  obtain ⟨u, ran, -⟩ := paymentBlock_run (show Returns (applyTxs 0 ⟨new purse, 0, 0, 0⟩
    (List.replicate 2 payment)) by decide)
  refine ⟨u, ran, (run_never_replays purse_apart (by decide) ?_ ran).1⟩
  intro op member
  cases List.mem_singleton.mp member
  exact paymentBlock_within 2

/-- A payment that is included twice costs its debit and one more fee. -/
theorem payment_costs_fees : ∃ u, (new purse).run ([paymentBlock 2].map .block) = .ok u ∧
    ∃ executions ≤ 1, executions = (history (new purse) ([paymentBlock 2].map .block)).count payment ∧
      executions ≤ payment.appearances [paymentBlock 2] ∧
      (new purse).balance alice ≤ u.balance alice + executions * payment.debit +
        (payment.appearances [paymentBlock 2] - executions) * payment.fee.toNat := by
  obtain ⟨u, ran, -⟩ := paymentBlock_run (show Returns (applyTxs 0 ⟨new purse, 0, 0, 0⟩
    (List.replicate 2 payment)) by decide)
  refine ⟨u, ran, replay_costs_fees (t := payment) purse_reachable (by decide) ?_
    (paymentBlock_unaided 2) ?_ ran⟩
  · intro b member
    cases List.mem_singleton.mp member
    exact paymentBlock_within 2
  · intro before block after m r _ _ _ sender _ spoils
    exact spoils

/-- Included twice, it takes more from its sender than one execution does. -/
theorem payment_charged_twice : Reachable {alice, bob} purse (new purse) ∧
    Unaided (new purse) [paymentBlock 2] payment ∧
    ∃ u, (new purse).run ([paymentBlock 2].map .block) = .ok u ∧
      ¬(new purse).balance payment.sender ≤ u.balance payment.sender + payment.debit := by
  obtain ⟨u, ran, account⟩ := paymentBlock_run (show Returns (applyTxs 0 ⟨new purse, 0, 0, 0⟩
    (List.replicate 2 payment)) by decide)
  refine ⟨purse_reachable, paymentBlock_unaided 2, u, ran, ?_⟩
  have before : (new purse).balance alice = 1000 := by decide
  have after : u.balance alice = 790 := by
    rw [balance, account]
    decide
  rw [show payment.sender = alice from rfl, before, after]
  decide

end Sample

end StateMachine

end Mononium
