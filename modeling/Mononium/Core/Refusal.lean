import Mononium.Core.Runs

/-! Blocks that execute nothing. Nonces never go down and every execution raises one, so
a ledger that comes back to what it was has seen refused transactions only. What these
take is told from the state before the block: each one can cost its sender the fee. -/
namespace Mononium

open Rust Scale

def Account.less (x : Account) (amount : Nat) : Account :=
  { x with balance := BitVec.ofNat 256 (x.balance.toNat - amount) }

theorem Account.less_balance (x : Account) (amount : Nat) :
    (x.less amount).balance.toNat = x.balance.toNat - amount := by
  have bound := x.balance.isLt
  rw [less, BitVec.toNat_ofNat, Nat.mod_eq_of_lt (by omega)]

@[simp] theorem Account.less_zero (x : Account) : x.less 0 = x := by
  rw [less, Nat.sub_zero, BitVec.ofNat_toNat, BitVec.setWidth_eq]

theorem Account.less_less (x : Account) (first second : Nat) :
    (x.less first).less second = x.less (first + second) := by
  conv_lhs => rw [less, less_balance, Nat.sub_sub]
  rfl

theorem Account.less_eq_of_paid {x : Account} {balance : U256} {amount : Nat}
    (paid : balance.toNat + amount = x.balance.toNat) : { x with balance } = x.less amount := by
  have same : balance = (x.less amount).balance := by
    apply BitVec.eq_of_toNat_eq
    rw [less_balance]
    omega
  rw [same]
  rfl

/-- An account that pays and is paid ends where it started exactly with this balance. -/
theorem Account.credit_less_eq_iff (x : Account) (paid share : Nat) : (x.less paid).credit share = x ↔
    min (x.balance.toNat - paid + share) (2 ^ 256 - 1) = x.balance.toNat := by
  rw [← x.less_balance paid, ← Account.credit_balance]
  constructor
  · intro same
    rw [same]
  · intro same
    have balance : ((x.less paid).credit share).balance = x.balance := BitVec.eq_of_toNat_eq same
    exact congrArg (fun balance => { x with balance }) balance

namespace StateMachine

variable [Blake3] {A : Finset Address}

/-- An account that does not exist counts as one with nonce 0. -/
def nonce (s : StateMachine) (a : Address) : Nat :=
  ((s.account a).getD (Account.new 0)).nonce.toNat

section Nonces

variable {s t : StateMachine} {tx : Transaction} {chainId : U64} {p q : Progress} {a : Address}

theorem nonce_setAccount (apart : KeysApart A) {b : Address} (ha : a ∈ A) (hb : b ∈ A) (x : Account) :
    (s.setAccount a x).nonce b = if b = a then x.nonce.toNat else s.nonce b := by
  rw [nonce, account_setAccount apart ha hb]
  split
  next => rfl
  next => rfl

theorem Effect.nonce (effect : Effect s tx t) (sound : Sound A s) (within : tx.Within A) (ha : a ∈ A) :
    t.nonce a = s.nonce a := by
  cases effect with
  | pays body _ =>
    rw [nonce_setAccount sound.apart (within.recipient body) ha]
    split
    next same => rw [same]; rfl
    next => rfl
  | registers _ _ => rw [StateMachine.nonce, account_setValidator sound.apart within.1 ha]; rfl
  | stakes body _ _ =>
    rw [StateMachine.nonce, account_setValidator sound.apart (within.validator (.inl body)) ha]; rfl
  | founds _ _ => rw [StateMachine.nonce, account_setValidator sound.apart within.1 ha]; rfl
  | unstakes body _ _ _ =>
    rw [StateMachine.nonce, account_setValidator sound.apart (within.validator (.inr body)) ha]; rfl
  | charges _ => rfl

theorem nonce_of_known {x : Account} (known : s.account a = some x) : s.nonce a = x.nonce.toNat := by
  rw [nonce, known, Option.getD_some]

theorem Outcome.nonce_le (outcome : Outcome chainId p tx q) (sound : Sound A p.machine)
    (within : tx.Within A) (ha : a ∈ A) : p.machine.nonce a ≤ q.machine.nonce a := by
  cases outcome with
  | skipped _ _ | unpaid _ _ _ _ _ _ | spoiledUnpaid _ _ _ _ _ => exact Nat.le_refl _
  | executed _ known _ charged effect _ _ =>
    have raised := charged.nonce
    rw [nonce_setAccount sound.apart within.1 ha]
    split
    next same => rw [same, nonce_of_known known]; omega
    next => rw [effect.nonce sound within ha]
  | rejected _ known _ _ _ _ _ =>
    rw [nonce_setAccount sound.apart within.1 ha]
    split
    next same => rw [same, nonce_of_known known]
    next => exact Nat.le_refl _
  | spoiled _ known _ charged _ _ _ =>
    have raised := charged.nonce
    rw [nonce_setAccount sound.apart within.1 ha]
    split
    next same =>
      rw [same, nonce_of_known known]
      exact raised ▸ Nat.le_succ _
    next => exact Nat.le_refl _

theorem applyTxs_nonce_le {txs : List Transaction} (sound : Sound A p.machine)
    (within : ∀ tx ∈ txs, tx.Within A) (h : applyTxs chainId p txs = .ok q) (ha : a ∈ A) :
    p.machine.nonce a ≤ q.machine.nonce a := by
  refine (foldlM_invariant (P := fun q => Sound A q.machine ∧ p.machine.nonce a ≤ q.machine.nonce a)
    ?_ ⟨sound, Nat.le_refl _⟩ h).2
  intro q tx member r ⟨sound, le⟩ stepped
  have outcome := applyTx_outcome stepped
  exact ⟨outcome.sound sound (within tx member),
    le.trans (outcome.nonce_le sound (within tx member) ha)⟩

theorem Credited.nonce {grants : Address → Nat} (credited : Credited A s t grants) (ha : a ∈ A) :
    t.nonce a = s.nonce a := by
  rw [StateMachine.nonce, credited.account a ha]
  split
  next => rfl
  next => rfl

end Nonces

/-- The machine `t` is `s` with `paid` taken out of the accounts. -/
structure Lessened (A : Finset Address) (s t : StateMachine) (paid : Address → Nat) : Prop where
  account : ∀ a ∈ A, t.account a = (s.account a).map (·.less (paid a))
  covered : ∀ a ∈ A, paid a ≤ s.balance a
  entry : ∀ a ∈ A, t.getValidator a = s.getValidator a
  index : t.validators = s.validators
  active : t.activeSet = s.activeSet

namespace Lessened

variable {s t u : StateMachine} {paid more : Address → Nat}

theorem refl (A : Finset Address) (s : StateMachine) : Lessened A s s fun _ => 0 :=
  ⟨fun a _ => by simp, fun _ _ => Nat.zero_le _, fun _ _ => rfl, rfl, rfl⟩

theorem balance (lessened : Lessened A s t paid) {a : Address} (ha : a ∈ A) :
    t.balance a = s.balance a - paid a := by
  rw [StateMachine.balance, StateMachine.balance, lessened.account a ha]
  cases s.account a with
  | none => simp [Account.new]
  | some x => exact x.less_balance (paid a)

theorem nonce (lessened : Lessened A s t paid) {a : Address} (ha : a ∈ A) : t.nonce a = s.nonce a := by
  rw [StateMachine.nonce, StateMachine.nonce, lessened.account a ha]
  cases s.account a with
  | none => rfl
  | some x => rfl

theorem trans (first : Lessened A s t paid) (second : Lessened A t u more) :
    Lessened A s u fun a => paid a + more a where
  account a ha := by
    rw [second.account a ha, first.account a ha, Option.map_map]
    congr 1
    funext x
    exact x.less_less _ _
  covered a ha := by
    have left := first.balance ha
    have := first.covered a ha
    have := second.covered a ha
    omega
  entry a ha := (second.entry a ha).trans (first.entry a ha)
  index := second.index.trans first.index
  active := second.active.trans first.active

theorem charge (lessened : Lessened A s t paid) (sound : Sound A t) {a : Address} (ha : a ∈ A)
    {x : Account} {balance : U256} {fee : Nat} (known : t.account a = some x)
    (left : balance.toNat + fee = x.balance.toNat) :
    Lessened A s (t.setAccount a { x with balance }) (Function.update paid a (paid a + fee)) := by
  have taken : Lessened A t (t.setAccount a { x with balance }) (Function.update (fun _ => 0) a fee) := by
    refine ⟨fun b hb => ?_, fun b hb => ?_, fun b hb => getValidator_setAccount sound.apart ha hb _,
      rfl, rfl⟩
    · rw [account_setAccount sound.apart ha hb]
      by_cases same : b = a
      · rw [if_pos same, same, known, Account.less_eq_of_paid left]
        simp
      · simp [same]
    · by_cases same : b = a
      · rw [same, Function.update_self, StateMachine.balance, known, Option.getD_some]
        omega
      · simp [same]
  have both := lessened.trans taken
  have sum : (fun b => paid b + Function.update (fun _ => 0) a fee b) =
      Function.update paid a (paid a + fee) := by
    funext b
    by_cases same : b = a
    · simp [same]
    · simp [same]
  rwa [sum] at both

end Lessened

section Decide

def decidableOfFound {o : Option α} {P : α → Prop} [DecidablePred P] (found : ∀ e, P e → o = some e) :
    Decidable (∃ e, P e) :=
  match o, found with
  | none, found => isFalse fun ⟨e, holds⟩ => by cases found e holds
  | some e, found => decidable_of_iff (P e)
    ⟨fun holds => ⟨e, holds⟩, fun ⟨_, holds⟩ => Option.some.inj (found _ holds) ▸ holds⟩

variable (s : StateMachine) (sender : Account) (v : Address) (amount fee : U256) (nonce : U64)

instance (e : ValidatorEntry) : Decidable (StakesOn s sender v amount fee nonce e) :=
  decidable_of_iff (s.getValidator v = some e ∧ e.status.isFrozenOrUnstaking = false ∧ amount ≠ 0 ∧
    Affords sender (fee.toNat + amount.toNat) nonce)
    ⟨fun ⟨found, isOpen, positive, affords⟩ => ⟨found, isOpen, positive, affords⟩,
      fun on => ⟨on.found, on.open_, on.positive, on.affords⟩⟩

instance (e : ValidatorEntry) : Decidable (UnstakesFrom s sender v amount fee nonce e) :=
  decidable_of_iff (s.getValidator v = some e ∧ e.status.isFrozen = false ∧ amount ≠ 0 ∧
    amount.toNat ≤ e.stake.toNat ∧ Affords sender fee.toNat nonce)
    ⟨fun ⟨found, unfrozen, positive, covered, affords⟩ => ⟨found, unfrozen, positive, covered, affords⟩,
      fun on => ⟨on.found, on.unfrozen, on.positive, on.covered, on.affords⟩⟩

instance (senderAddr : Address) : Decidable (Founds s sender senderAddr v amount fee nonce) :=
  decidable_of_iff (v = senderAddr ∧ s.getValidator senderAddr = none ∧ amount ≠ 0 ∧
    Affords sender (fee.toNat + antiSpamDeposit.toNat + amount.toNat) nonce)
    ⟨fun ⟨self, unknown, positive, affords⟩ => ⟨self, unknown, positive, affords⟩,
      fun founds => ⟨founds.self, founds.unknown, founds.positive, founds.affords⟩⟩

instance (tx : Transaction) : Decidable (Accepts s sender tx) :=
  match tx with
  | ⟨_, _, _, _, .registerValidator _, _⟩ => inferInstanceAs (Decidable (_ ∧ _))
  | ⟨_, _, _, _, .stake _ _, _⟩ => decidableOfFound fun _ holds => holds.1.found
  | ⟨_, _, _, _, .registerAndStake _ _, _⟩ => inferInstanceAs (Decidable (Founds _ _ _ _ _ _ _))
  | ⟨_, _, _, _, .unstake _ _, _⟩ => decidableOfFound fun _ holds => holds.1.found
  | ⟨_, _, _, _, .transfer _ _, _⟩ | ⟨_, _, _, _, .burn _ _, _⟩ | ⟨_, _, _, _, .propose _ _ _ _, _⟩
  | ⟨_, _, _, _, .vote _ _, _⟩ | ⟨_, _, _, _, .cancelProposal _, _⟩ =>
    inferInstanceAs (Decidable (Affords _ _ _))

instance (tx : Transaction) : Decidable (Spoils s sender tx) :=
  match tx with
  | ⟨_, _, _, _, .stake _ _, _⟩ => decidableOfFound fun _ holds => holds.1.found
  | ⟨_, _, _, _, .unstake _ _, _⟩ => decidableOfFound fun _ holds => holds.1.found
  | ⟨_, _, _, _, .registerValidator _, _⟩ | ⟨_, _, _, _, .registerAndStake _ _, _⟩
  | ⟨_, _, _, _, .transfer _ _, _⟩ | ⟨_, _, _, _, .burn _ _, _⟩ | ⟨_, _, _, _, .propose _ _ _ _, _⟩
  | ⟨_, _, _, _, .vote _ _, _⟩ | ⟨_, _, _, _, .cancelProposal _, _⟩ => inferInstanceAs (Decidable False)

end Decide

/-- What each sender has paid for refused transactions, and what of it was pooled. -/
structure Toll where
  paid : Address → Nat
  pool : Nat

def noToll : Toll := ⟨fun _ => 0, 0⟩

/-- The transaction neither executes nor charges its sender for a failed handler, in `s`
with the toll taken out. -/
def Refused (s : StateMachine) (chainId : U64) (toll : Toll) (tx : Transaction) : Prop :=
  tx.chainId = chainId → ∀ sender ∈ s.account tx.sender,
    ¬Accepts s (sender.less (toll.paid tx.sender)) tx ∧
    (Spoils s (sender.less (toll.paid tx.sender)) tx →
      sender.balance.toNat < toll.paid tx.sender + tx.debit + tx.fee.toNat)

/-- A refused transaction costs its sender the fee, if the sender has it left. -/
def Pays (s : StateMachine) (chainId : U64) (toll : Toll) (tx : Transaction) : Prop :=
  tx.chainId = chainId ∧ ∃ sender ∈ s.account tx.sender,
    ¬Spoils s (sender.less (toll.paid tx.sender)) tx ∧
    toll.paid tx.sender + tx.fee.toNat ≤ sender.balance.toNat

instance (s : StateMachine) (chainId : U64) (toll : Toll) (tx : Transaction) :
    Decidable (Refused s chainId toll tx) := inferInstanceAs (Decidable (_ → _))

instance (s : StateMachine) (chainId : U64) (toll : Toll) (tx : Transaction) :
    Decidable (Pays s chainId toll tx) := inferInstanceAs (Decidable (_ ∧ _))

def charge (s : StateMachine) (chainId : U64) (toll : Toll) (tx : Transaction) : Toll :=
  if Pays s chainId toll tx then
    ⟨Function.update toll.paid tx.sender (toll.paid tx.sender + tx.fee.toNat),
      toll.pool + (feeAsU128 tx.fee).toNat⟩
  else toll

def AllRefused (s : StateMachine) (chainId : U64) : Toll → List Transaction → Prop
  | _, [] => True
  | toll, tx :: txs => Refused s chainId toll tx ∧ AllRefused s chainId (charge s chainId toll tx) txs

instance decidableAllRefused (s : StateMachine) (chainId : U64) :
    (toll : Toll) → (txs : List Transaction) → Decidable (AllRefused s chainId toll txs)
  | _, [] => inferInstanceAs (Decidable True)
  | toll, tx :: txs =>
    have := decidableAllRefused s chainId (charge s chainId toll tx) txs
    inferInstanceAs (Decidable (_ ∧ _))

def tollOf (s : StateMachine) (chainId : U64) (toll : Toll) (txs : List Transaction) : Toll :=
  txs.foldl (charge s chainId) toll

section Refusal

variable {s : StateMachine} {chainId : U64} {toll : Toll} {tx : Transaction} {p q : Progress}

theorem stakesOn_congr {t : StateMachine} {sender : Account} {v : Address} {amount fee : U256}
    {nonce : U64} {e : ValidatorEntry} (same : t.getValidator v = s.getValidator v) :
    StakesOn t sender v amount fee nonce e ↔ StakesOn s sender v amount fee nonce e :=
  ⟨fun on => ⟨same ▸ on.found, on.open_, on.positive, on.affords⟩,
    fun on => ⟨same ▸ on.found, on.open_, on.positive, on.affords⟩⟩

theorem unstakesFrom_congr {t : StateMachine} {sender : Account} {v : Address} {amount fee : U256}
    {nonce : U64} {e : ValidatorEntry} (same : t.getValidator v = s.getValidator v) :
    UnstakesFrom t sender v amount fee nonce e ↔ UnstakesFrom s sender v amount fee nonce e :=
  ⟨fun on => ⟨same ▸ on.found, on.unfrozen, on.positive, on.covered, on.affords⟩,
    fun on => ⟨same ▸ on.found, on.unfrozen, on.positive, on.covered, on.affords⟩⟩

/-- Whether a handler accepts depends on the machine through the entries alone. -/
theorem accepts_congr {t : StateMachine} (entry : ∀ a ∈ A, t.getValidator a = s.getValidator a)
    (within : tx.Within A) (sender : Account) : Accepts t sender tx ↔ Accepts s sender tx := by
  have self := entry tx.sender within.1
  cases body : tx.body with
  | registerValidator publicKey => simp only [Accepts, body, self]
  | stake v amount =>
    simp only [Accepts, body, stakesOn_congr (entry v (within.validator (.inl body)))]
  | registerAndStake v amount =>
    simp only [Accepts, body]
    exact ⟨fun founds => ⟨founds.self, self ▸ founds.unknown, founds.positive, founds.affords⟩,
      fun founds => ⟨founds.self, self ▸ founds.unknown, founds.positive, founds.affords⟩⟩
  | unstake v amount =>
    simp only [Accepts, body, unstakesFrom_congr (entry v (within.validator (.inr body)))]
  | _ => simp only [Accepts, body]

theorem spoils_congr {t : StateMachine} (entry : ∀ a ∈ A, t.getValidator a = s.getValidator a)
    (within : tx.Within A) (sender : Account) : Spoils t sender tx ↔ Spoils s sender tx := by
  cases body : tx.body with
  | stake v amount =>
    simp only [Spoils, body, stakesOn_congr (entry v (within.validator (.inl body)))]
  | unstake v amount =>
    simp only [Spoils, body, unstakesFrom_congr (entry v (within.validator (.inr body)))]
  | _ => simp only [Spoils, body]

/-- The loop has come this far with refused transactions only. -/
structure Tolled (A : Finset Address) (s : StateMachine) (toll : Toll) (p : Progress) : Prop where
  lessened : Lessened A s p.machine toll.paid
  pooled : p.blockFees.toNat = toll.pool

/-- A round either refuses the transaction and takes the toll, or raises a nonce. -/
theorem Outcome.refused_or_raised (outcome : Outcome chainId p tx q) (sound : Sound A p.machine)
    (within : tx.Within A) (tolled : Tolled A s toll p) :
    (Refused s chainId toll tx ∧ Tolled A s (charge s chainId toll tx) q) ∨
    (¬Refused s chainId toll tx ∧ p.machine.nonce tx.sender < q.machine.nonce tx.sender) := by
  have accepts := accepts_congr tolled.lessened.entry within
  have spoils := spoils_congr tolled.lessened.entry within
  have before {sender : Account} (known : p.machine.account tx.sender = some sender) :
      ∃ x, s.account tx.sender = some x ∧ x.less (toll.paid tx.sender) = sender := by
    rw [tolled.lessened.account _ within.1] at known
    exact Option.map_eq_some_iff.mp known
  have covered := tolled.lessened.covered tx.sender within.1
  have free (idle : ¬Pays s chainId toll tx) {failedCount : U32} :
      Tolled A s (charge s chainId toll tx) { p with failedCount } := by
    rw [charge, if_neg idle]
    exact ⟨tolled.lessened, tolled.pooled⟩
  have refused {x : Account} (found : s.account tx.sender = some x)
      (refuses : ¬Accepts p.machine (x.less (toll.paid tx.sender)) tx)
      (unspoiled : ¬Spoils p.machine (x.less (toll.paid tx.sender)) tx) :
      Refused s chainId toll tx := by
    intro _ y known
    cases found.symm.trans known
    exact ⟨fun accepted => refuses ((accepts _).mpr accepted),
      fun spoiled => absurd ((spoils _).mpr spoiled) unspoiled⟩
  have raised {sender : Account} (known : p.machine.account tx.sender = some sender)
      (machine : StateMachine) (after : Account) (used : after.nonce.toNat = sender.nonce.toNat + 1) :
      p.machine.nonce tx.sender < (machine.setAccount tx.sender after).nonce tx.sender := by
    rw [nonce_setAccount sound.apart within.1 within.1, if_pos rfl, nonce_of_known known, used]
    exact Nat.lt_succ_self _
  cases outcome with
  | skipped foreign _ =>
    have stranger (chain : tx.chainId = chainId) : s.account tx.sender = none := by
      have unknown := foreign.resolve_left (not_not_intro chain)
      rw [tolled.lessened.account _ within.1] at unknown
      exact Option.map_eq_none_iff.mp unknown
    refine .inl ⟨fun chain sender known => ?_, free ?_⟩
    · rw [stranger chain] at known
      cases known
    · rintro ⟨chain, sender, known, _⟩
      rw [stranger chain] at known
      cases known
  | executed chain known accepted charged effect _ _ =>
    obtain ⟨x, found, rfl⟩ := before known
    exact .inr ⟨fun refused => (refused chain x found).1 ((accepts _).mp accepted),
      raised known _ _ charged.nonce⟩
  | rejected chain known refuses unspoiled paid pooled _ =>
    obtain ⟨x, found, rfl⟩ := before known
    have left := x.less_balance (toll.paid tx.sender)
    rw [StateMachine.balance, found, Option.getD_some] at covered
    have pays : Pays s chainId toll tx :=
      ⟨chain, x, found, fun spoiled => unspoiled ((spoils _).mpr spoiled), by omega⟩
    refine .inl ⟨refused found refuses unspoiled, ?_⟩
    rw [charge, if_pos pays]
    exact ⟨tolled.lessened.charge sound within.1 known paid, by rw [← tolled.pooled]; exact pooled⟩
  | unpaid chain known refuses unspoiled poor _ =>
    obtain ⟨x, found, rfl⟩ := before known
    have left := x.less_balance (toll.paid tx.sender)
    refine .inl ⟨refused found refuses unspoiled, free ?_⟩
    rintro ⟨_, y, known, _, rich⟩
    cases found.symm.trans known
    omega
  | spoiled chain known spoiled charged paid _ _ =>
    obtain ⟨x, found, rfl⟩ := before known
    have left := x.less_balance (toll.paid tx.sender)
    have debited := charged.balance
    rw [StateMachine.balance, found, Option.getD_some] at covered
    refine .inr ⟨fun refused => ?_, raised known _ _ charged.nonce⟩
    have poor := (refused chain x found).2 ((spoils _).mp spoiled)
    omega
  | spoiledUnpaid chain known spoiled poor _ =>
    obtain ⟨x, found, rfl⟩ := before known
    have left := x.less_balance (toll.paid tx.sender)
    have spoiled' := (spoils _).mp spoiled
    refine .inl ⟨?_, free ?_⟩
    · intro _ y known
      cases found.symm.trans known
      exact ⟨spoiled'.not_accepts, fun _ => by omega⟩
    · rintro ⟨_, y, known, unspoiled, _⟩
      cases found.symm.trans known
      exact unspoiled spoiled'

/-- A loop either refuses all its transactions and takes the toll, or raises a nonce. -/
theorem applyTxs_refused_or_raised {txs : List Transaction} (sound : Sound A p.machine)
    (within : ∀ tx ∈ txs, tx.Within A) (tolled : Tolled A s toll p)
    (h : applyTxs chainId p txs = .ok q) :
    (AllRefused s chainId toll txs ∧ Tolled A s (tollOf s chainId toll txs) q) ∨
    (¬AllRefused s chainId toll txs ∧ ∃ a ∈ A, p.machine.nonce a < q.machine.nonce a) := by
  induction txs generalizing p toll with
  | nil =>
    cases h
    exact .inl ⟨trivial, tolled⟩
  | cons tx txs ih =>
    rw [applyTxs_cons] at h
    obtain ⟨r, stepped, h⟩ := bind_eq_ok.mp h
    have here := within tx List.mem_cons_self
    have later : ∀ tx ∈ txs, tx.Within A := fun tx member => within tx (List.mem_cons_of_mem _ member)
    have outcome := applyTx_outcome stepped
    have soundR := outcome.sound sound here
    rcases outcome.refused_or_raised sound here tolled with ⟨refused, tolledR⟩ | ⟨taken, raised⟩
    · rcases ih soundR later tolledR h with ⟨all, tolledQ⟩ | ⟨notAll, a, ha, raised⟩
      · exact .inl ⟨⟨refused, all⟩, tolledQ⟩
      · refine .inr ⟨fun all => notAll all.2, a, ha, ?_⟩
        exact Nat.lt_of_le_of_lt (outcome.nonce_le sound here ha) raised
    · refine .inr ⟨fun all => taken all.1, tx.sender, here.1, ?_⟩
      exact Nat.lt_of_lt_of_le raised (applyTxs_nonce_le soundR later h here.1)

/-- A block on a machine without an active set either refuses everything and burns the
toll, or raises a nonce. -/
theorem applyBlock_lessened_or_raised {t u : StateMachine} {block : Block} {receipt : BlockReceipt}
    (sound : Sound A u) (start : Lessened A s u fun _ => 0) (idle : u.activeSet = [])
    (within : ∀ tx ∈ block.body.transactions, tx.Within A)
    (applied : u.applyBlock block = .ok (receipt, t)) :
    (AllRefused s block.header.chainId noToll block.body.transactions ∧
      Lessened A s t (tollOf s block.header.chainId noToll block.body.transactions).paid) ∨
    (¬AllRefused s block.header.chainId noToll block.body.transactions ∧
      ∃ a ∈ A, u.nonce a < t.nonce a) := by
  obtain ⟨p, looped, -, active, credited, -⟩ := applyBlock_spec sound within applied
  have none (a : Address) : p.machine.feeShare p.blockFees a = 0 :=
    feeShare_eq_zero (.inr (.inl (active.trans idle))) a
  have tolled : Tolled A s noToll ⟨u, 0, 0, 0⟩ := ⟨start, rfl⟩
  rcases applyTxs_refused_or_raised sound within tolled looped with
    ⟨all, tolledP⟩ | ⟨notAll, a, ha, raised⟩
  · refine .inl ⟨all, ?_, tolledP.lessened.covered, ?_, ?_, ?_⟩
    · intro a ha
      rw [credited.account a ha, if_pos (none a), tolledP.lessened.account a ha]
    · intro a ha
      rw [credited.entry a ha, tolledP.lessened.entry a ha]
    · rw [credited.index, tolledP.lessened.index]
    · rw [credited.active, tolledP.lessened.active]
  · exact .inr ⟨notAll, a, ha, by rw [credited.nonce ha]; exact raised⟩

theorem applyBlock_nonce_le {t u : StateMachine} {block : Block} {receipt : BlockReceipt} {a : Address}
    (sound : Sound A u) (within : ∀ tx ∈ block.body.transactions, tx.Within A)
    (applied : u.applyBlock block = .ok (receipt, t)) (ha : a ∈ A) : u.nonce a ≤ t.nonce a := by
  obtain ⟨p, looped, -, -, credited, -⟩ := applyBlock_spec sound within applied
  rw [credited.nonce ha]
  exact applyTxs_nonce_le sound within looped ha

/-- The transaction is refused in `s` at no cost. -/
def Inert (s : StateMachine) (chainId : U64) (tx : Transaction) : Prop :=
  tx.chainId = chainId → ∀ sender ∈ s.account tx.sender,
    ¬Accepts s sender tx ∧ (tx.fee = 0 ∨ sender.balance < tx.fee)

instance (s : StateMachine) (chainId : U64) (tx : Transaction) : Decidable (Inert s chainId tx) :=
  inferInstanceAs (Decidable (_ → _))

theorem not_spoils_of_bare (bare : ∀ a ∈ A, s.getValidator a = none) (within : tx.Within A)
    (sender : Account) : ¬Spoils s sender tx := by
  cases body : tx.body with
  | stake v amount =>
    rw [Spoils, body]
    rintro ⟨e, on, _⟩
    cases (bare v (within.validator (.inl body))).symm.trans on.found
  | unstake v amount =>
    rw [Spoils, body]
    rintro ⟨e, on, _⟩
    cases (bare v (within.validator (.inr body))).symm.trans on.found
  | _ => simp [Spoils, body]

theorem charge_paid_self (s : StateMachine) (chainId : U64) (toll : Toll) (tx : Transaction) :
    (charge s chainId toll tx).paid tx.sender =
      if Pays s chainId toll tx then toll.paid tx.sender + tx.fee.toNat else toll.paid tx.sender := by
  by_cases pays : Pays s chainId toll tx
  · simp [charge, pays]
  · simp [charge, pays]

theorem charge_paid_of_ne (s : StateMachine) (chainId : U64) (toll : Toll) {tx : Transaction}
    {a : Address} (other : a ≠ tx.sender) : (charge s chainId toll tx).paid a = toll.paid a := by
  by_cases pays : Pays s chainId toll tx
  · simp [charge, pays, other]
  · simp [charge, pays]

/-- Without validators a transaction that meets an untouched sender is inert exactly when
it is refused and takes nothing. -/
theorem inert_iff (bare : ∀ a ∈ A, s.getValidator a = none) (within : tx.Within A)
    (untouched : toll.paid tx.sender = 0) : Inert s chainId tx ↔
      Refused s chainId toll tx ∧ (charge s chainId toll tx).paid tx.sender = 0 := by
  have unspoiled := not_spoils_of_bare bare within
  have refused : Refused s chainId toll tx ↔
      (tx.chainId = chainId → ∀ sender ∈ s.account tx.sender, ¬Accepts s sender tx) := by
    simp only [Refused, untouched, Account.less_zero]
    exact forall_congr' fun _ => forall₂_congr fun sender _ =>
      and_iff_left fun spoiled => absurd spoiled (unspoiled sender)
  have free : (charge s chainId toll tx).paid tx.sender = 0 ↔
      (tx.chainId = chainId → ∀ sender ∈ s.account tx.sender, tx.fee = 0 ∨ sender.balance < tx.fee) := by
    rw [charge_paid_self, untouched]
    simp only [Pays, untouched, Account.less_zero, unspoiled, not_false_eq_true, true_and, zero_add]
    rw [ite_eq_right_iff]
    constructor
    · intro free chain sender known
      by_cases rich : tx.fee.toNat ≤ sender.balance.toNat
      · exact .inl (BitVec.eq_of_toNat_eq (free ⟨chain, sender, known, rich⟩))
      · exact .inr (BitVec.lt_def.mpr (Nat.lt_of_not_le rich))
    · rintro free ⟨chain, sender, known, rich⟩
      rcases free chain sender known with none | poor
      · rw [none]; rfl
      · exact absurd rich (Nat.not_le_of_lt (BitVec.lt_def.mp poor))
  rw [refused, free]
  constructor
  · intro inert
    exact ⟨fun chain sender known => (inert chain sender known).1,
      fun chain sender known => (inert chain sender known).2⟩
  · rintro ⟨refuses, costless⟩ chain sender known
    exact ⟨refuses chain sender known, costless chain sender known⟩

theorem charge_paid_le (s : StateMachine) (chainId : U64) (toll : Toll) (tx : Transaction)
    (a : Address) : toll.paid a ≤ (charge s chainId toll tx).paid a := by
  by_cases same : a = tx.sender
  · rw [same, charge_paid_self]
    split
    next => exact Nat.le_add_right _ _
    next => exact Nat.le_refl _
  · rw [charge_paid_of_ne s chainId toll same]

theorem tollOf_paid_le (s : StateMachine) (chainId : U64) (toll : Toll) (txs : List Transaction)
    (a : Address) : toll.paid a ≤ (tollOf s chainId toll txs).paid a := by
  induction txs generalizing toll with
  | nil => exact Nat.le_refl _
  | cons tx txs ih => exact (charge_paid_le s chainId toll tx a).trans (ih (charge s chainId toll tx))

theorem forall_inert_iff (bare : ∀ a ∈ A, s.getValidator a = none) {txs : List Transaction}
    (within : ∀ tx ∈ txs, tx.Within A) (untouched : ∀ a ∈ A, toll.paid a = 0) :
    (∀ tx ∈ txs, Inert s chainId tx) ↔
      AllRefused s chainId toll txs ∧ ∀ a ∈ A, (tollOf s chainId toll txs).paid a = 0 := by
  induction txs generalizing toll with
  | nil => exact iff_of_true (by simp) ⟨trivial, untouched⟩
  | cons tx txs ih =>
    have here := within tx List.mem_cons_self
    have later : ∀ tx ∈ txs, tx.Within A := fun tx member => within tx (List.mem_cons_of_mem _ member)
    have first : Inert s chainId tx ↔ _ := inert_iff bare here (untouched tx.sender here.1)
    have next (free : (charge s chainId toll tx).paid tx.sender = 0) :
        ∀ a ∈ A, (charge s chainId toll tx).paid a = 0 := by
      intro a ha
      by_cases same : a = tx.sender
      · rw [same, free]
      · rw [charge_paid_of_ne s chainId toll same, untouched a ha]
    rw [List.forall_mem_cons]
    constructor
    · rintro ⟨inert, rest⟩
      obtain ⟨refused, free⟩ := first.mp inert
      obtain ⟨all, none⟩ := (ih later (next free)).mp rest
      exact ⟨⟨refused, all⟩, none⟩
    · rintro ⟨⟨refused, all⟩, none⟩
      -- what is never taken back was not taken by the first transaction either
      have free : (charge s chainId toll tx).paid tx.sender = 0 :=
        Nat.eq_zero_of_le_zero (none tx.sender here.1 ▸ tollOf_paid_le s chainId _ txs tx.sender)
      exact ⟨first.mpr ⟨refused, free⟩, (ih later (next free)).mpr ⟨all, none⟩⟩

end Refusal

end StateMachine

end Mononium
