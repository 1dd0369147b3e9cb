import Mononium.Core.Runs

/-! The ledger as its users understand it: purses, bonds and the active set, in numbers
without a bound. Every operation is total, and there are neither words nor trees. -/
namespace Mononium

open Rust Scale

structure Purse where
  balance : Nat
  nonce : Nat
  codeHash : Option Digest

inductive Standing where
  | registered
  | staked (stake : Nat)
  | active
  | unstaking (releaseEra amount : Nat)
  | frozen (frozenUntil : Nat)
  | thawed
  deriving DecidableEq

structure Bond where
  owner : Address
  publicKey : FixedBytes 897
  stake : Nat
  standing : Standing
  registrationEra : Nat

@[ext] structure Book where
  purse : Address → Option Purse
  bond : Address → Option Bond
  active : List Address

namespace Purse

def Affords (p : Purse) (debit nonce : Nat) : Prop := p.nonce = nonce ∧ debit ≤ p.balance

instance (p : Purse) (debit nonce : Nat) : Decidable (p.Affords debit nonce) :=
  inferInstanceAs (Decidable (_ ∧ _))

def pay (p : Purse) (debit : Nat) : Purse := { p with balance := p.balance - debit }

/-- Payment for a request that uses up its nonce. -/
def spend (p : Purse) (debit : Nat) : Purse := { p.pay debit with nonce := p.nonce + 1 }

theorem pay_spend (p : Purse) (debit fee : Nat) : (p.spend debit).pay fee = p.spend (fee + debit) := by
  simp only [pay, spend, Purse.mk.injEq, and_true]
  omega

def receive (p : Purse) (amount : Nat) : Purse := { p with balance := p.balance + amount }

end Purse

namespace Bond

def pending (bond : Bond) : Nat :=
  match bond.standing with
  | .unstaking _ amount => amount
  | _ => 0

/-- Requests in blocks count from era 0. -/
def releasedIn (bond : Bond) : Nat :=
  match bond.standing with
  | .unstaking releaseEra _ => releaseEra
  | _ => unstakingCooldownEras.toNat

def isFrozen (bond : Bond) : Bool :=
  match bond.standing with
  | .frozen _ => true
  | _ => false

/-- Neither frozen nor being withdrawn. -/
def isOpen (bond : Bond) : Bool :=
  match bond.standing with
  | .frozen _ | .unstaking _ _ => false
  | _ => true

def raise (bond : Bond) (amount : Nat) : Bond :=
  { bond with
    stake := bond.stake + amount
    standing := if bond.standing = .registered then .staked (bond.stake + amount) else bond.standing }

def withdraw (bond : Bond) (amount : Nat) : Bond :=
  { bond with standing := .unstaking bond.releasedIn (bond.pending + amount) }

/-- What is withdrawn leaves the bond once its era has come, and goes nowhere. -/
def release (bond : Bond) (era : Nat) : Bond :=
  match bond.standing with
  | .unstaking releaseEra amount =>
    if era < releaseEra then bond
    else if bond.stake ≤ amount then { bond with stake := 0, standing := .registered }
    else { bond with
      stake := bond.stake - amount
      standing := if minStake.toNat ≤ bond.stake - amount then .staked (bond.stake - amount)
        else .registered }
  | _ => bond

def thaw (bond : Bond) (era : Nat) : Bond :=
  match bond.standing with
  | .frozen frozenUntil =>
    if era < frozenUntil then bond
    else { bond with standing := if minStake.toNat ≤ bond.stake then .thawed else .registered }
  | _ => bond

def activate (bond : Bond) : Bond :=
  match bond.standing with
  | .registered | .staked _ | .thawed => { bond with standing := .active }
  | _ => bond

def penalty (bond : Bond) : Nat := bond.stake * 90 / 100

def freeze (bond : Bond) (era : Nat) : Bond :=
  { bond with stake := bond.stake - bond.penalty, standing := .frozen (era + 72) }

def Before (x y : Bond) : Prop :=
  y.stake < x.stake ∨ x.stake = y.stake ∧ x.registrationEra ≤ y.registrationEra

instance : DecidableRel Before := fun _ _ => inferInstanceAs (Decidable (_ ∨ _ ∧ _))

end Bond

def ClaimsBefore (p q : Address × Nat) : Prop :=
  q.2 < p.2 ∨ p.2 = q.2 ∧ beValue p.1.asBytes ≤ beValue q.1.asBytes

instance : DecidableRel ClaimsBefore := fun _ _ => inferInstanceAs (Decidable (_ ∨ _ ∧ _))

/-- How a request ends. One that is late fails after its sender has been charged. -/
inductive Verdict where
  | done (after : Book)
  | refused
  | late

namespace Book

def setPurse (b : Book) (a : Address) (p : Purse) : Book :=
  { b with purse := Function.update b.purse a (some p) }

def setBond (b : Book) (a : Address) (bond : Bond) : Book :=
  { b with bond := Function.update b.bond a (some bond) }

def empty : Book := ⟨fun _ => none, fun _ => none, []⟩

/-- The book that begins with these purses, later ones replacing earlier ones. -/
def opening (purses : List (Address × Purse)) : Book :=
  purses.foldl (fun b p => b.setPurse p.1 p.2) empty

def held (b : Book) (a : Address) : Purse := (b.purse a).getD ⟨0, 0, none⟩

def credit (b : Book) (a : Address) (amount : Nat) : Book := b.setPurse a ((b.held a).receive amount)

def perform (b : Book) (tx : Transaction) : Verdict :=
  match tx.body with
  | .transfer recipient amount => .done (b.credit recipient amount.toNat)
  | .burn target amount => .done (b.credit (burnDestination target) amount.toNat)
  | .registerValidator publicKey =>
    match b.bond tx.sender with
    | some _ => .refused
    | none => .done (b.setBond tx.sender ⟨tx.sender, publicKey, 0, .registered, 0⟩)
  | .stake v amount =>
    match b.bond v with
    | none => .refused
    | some bond =>
      if bond.isOpen ∧ 0 < amount.toNat then .done (b.setBond v (bond.raise amount.toNat))
      else .refused
  | .registerAndStake v amount =>
    match b.bond tx.sender with
    | some _ => .refused
    | none =>
      if v = tx.sender ∧ 0 < amount.toNat then
        .done (b.setBond tx.sender ⟨tx.sender, FixedBytes.replicate 897 0, amount.toNat,
          .staked amount.toNat, 0⟩)
      else .refused
  | .unstake v amount =>
    match b.bond v with
    | none => .refused
    | some bond =>
      if bond.isFrozen ∨ amount.toNat = 0 ∨ bond.stake < amount.toNat then .refused
      else if bond.stake < bond.pending + amount.toNat then .late
      else .done (b.setBond v (bond.withdraw amount.toNat))
  | .propose _ _ _ _ | .vote _ _ | .cancelProposal _ => .done b

def verdict (b : Book) (p : Purse) (tx : Transaction) : Verdict :=
  if p.Affords tx.debit tx.nonce.toNat then b.perform tx else .refused

/-- One request, with the pool of the fees so far. The sender is charged after its request
has been performed, so what it pays to itself is lost. -/
def serve (chainId : U64) (acc : Book × Nat) (tx : Transaction) : Book × Nat :=
  if tx.chainId ≠ chainId then acc
  else
    match acc.1.purse tx.sender with
    | none => acc
    | some p =>
      let pool := acc.2 + min tx.fee.toNat (2 ^ 128 - 1)
      match acc.1.verdict p tx with
      | .done after => (after.setPurse tx.sender (p.spend tx.debit), pool)
      | .refused =>
        if tx.fee.toNat ≤ p.balance then (acc.1.setPurse tx.sender (p.pay tx.fee.toNat), pool) else acc
      | .late =>
        if tx.debit + tx.fee.toNat ≤ p.balance then
          (acc.1.setPurse tx.sender (p.spend (tx.debit + tx.fee.toNat)), pool)
        else acc

def claims (b : Book) : List (Address × Nat) :=
  (b.active.filterMap fun a => (b.bond a).map fun bond => (a, bond.stake)).insertionSort ClaimsBefore

def payouts (b : Book) (fees : Nat) : List (Address × Nat) :=
  if ProRata.amount b.claims = 0 then []
  else ProRata.payouts fees (ProRata.amount b.claims) b.claims

def distribute (b : Book) (fees : Nat) : Book :=
  { b with purse := fun a =>
      if ProRata.received (b.payouts fees) a = 0 then b.purse a
      else some ((b.held a).receive (ProRata.received (b.payouts fees) a)) }

def block (b : Book) (block : Block) : Book :=
  let (served, pool) := block.body.transactions.foldl (serve block.header.chainId) (b, 0)
  served.distribute pool

/-- Nine tenths of the penalty are burned, one tenth rewards the reporter. -/
def slash (b : Book) (proposer reporter : Address) (era : Nat) : Book :=
  match b.bond proposer with
  | none => b
  | some bond =>
    if bond.isFrozen then b
    else ((b.credit burnAddress (bond.penalty * 90 / 100)).credit reporter
      (bond.penalty * 10 / 100)).setBond proposer (bond.freeze era)

def updateBond (b : Book) (a : Address) (f : Bond → Bond) : Book :=
  { b with bond := Function.update b.bond a ((b.bond a).map f) }

def elected (b : Book) (candidates : List Address) (max era : Nat) : List Bond :=
  let eligible := candidates.filterMap fun a => (b.bond a).filter Bond.isOpen
  if era = 0 then eligible.take max
  else ((eligible.insertionSort Bond.Before).filter fun bond => minStake.toNat ≤ bond.stake).take max

def elect (b : Book) (candidates : List Address) (max era : Nat) : Book :=
  let elected := b.elected candidates max era
  { elected.foldl (fun b bond => b.setBond bond.owner bond.activate) b with
    active := elected.map (·.owner) }

def step (b : Book) : Op → Book
  | .block block => b.block block
  | .slash proposer reporter era => b.slash proposer reporter era.toNat
  | .cooldown validator era => b.updateBond validator fun bond => bond.release era.toNat
  | .thaw validator era => b.updateBond validator fun bond => bond.thaw era.toNat
  | .thawAll addrs era =>
    addrs.foldl (fun b a => b.updateBond a fun bond => bond.thaw era.toNat) b
  | .election candidates max era => b.elect candidates max era.toNat
  | .setActiveSet active => { b with active }
  | .stateRoot => b

def run (b : Book) (ops : List Op) : Book := ops.foldl step b

end Book

end Mononium
