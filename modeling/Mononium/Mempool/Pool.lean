import Mononium.Core.Types
import Mononium.Lib.HashMap

/-! The transaction pool of `mempool`. Instants of the monotonic clock are numbers, and a `usize`
has 64 bits. The order in which a selection iterates over the senders is an input of it. -/
namespace Mononium

open Rust

structure PoolTx where
  tx : Transaction
  receivedAt : Nat

namespace PoolTx

def sender (self : PoolTx) : Address := self.tx.sender

def nonce (self : PoolTx) : U64 := self.tx.nonce

def fee (self : PoolTx) : U256 := self.tx.fee

end PoolTx

/-- Fee descending, then arrival ascending, then nonce ascending. -/
def cmpPriority (a b : PoolTx) : Ordering :=
  ((compare b.fee.toNat a.fee.toNat).then (compare a.receivedAt b.receivedAt)).then
    (compare a.nonce.toNat b.nonce.toNat)

structure MempoolConfig where
  maxSize : U64
  ttl : Nat
  minFee : U256
  perSenderCap : U64

/-- Sender, then nonce. -/
abbrev Pending := HashMap Address (BTreeMap U64 PoolTx)

structure Mempool where
  config : MempoolConfig
  txs : Pending
  count : U64

/-- The order in which one selection happens to iterate over the senders. -/
structure SenderOrder where
  entries : Pending → List ((_ : Address) × BTreeMap U64 PoolTx)
  perm : ∀ txs, (entries txs).Perm txs.entries

def SenderOrder.plain : SenderOrder := ⟨fun txs => txs.entries, fun _ => .refl _⟩

namespace Mempool

def new (config : MempoolConfig) : Mempool := ⟨config, ∅, 0⟩

def isEmpty (self : Mempool) : Bool := self.count = 0

/-- The entry of the sender is created before the last two checks, also when one of them
refuses the transaction. -/
def insert (self : Mempool) (tx : Transaction) (now : Nat) : Exec (Result Unit × Mempool) := do
  if tx.fee < self.config.minFee then
    return (.error (.consensus "fee too low"), self)
  if self.config.maxSize ≤ self.count then
    return (.error (.consensus "mempool full"), self)
  let senderTxs := (self.txs.lookup tx.sender).getD ∅
  let opened := { self with txs := self.txs.insert tx.sender senderTxs }
  if (senderTxs.lookup tx.nonce).isSome then
    return (.error (.invalidNonce tx.nonce tx.nonce), opened)
  if self.config.perSenderCap.toNat ≤ senderTxs.entries.length then
    return (.error (.consensus "sender at cap"), opened)
  let poolTx : PoolTx := ⟨tx, now⟩
  let count ← add self.count 1
  return (.ok (), { self with
    txs := self.txs.insert tx.sender (senderTxs.insert poolTx.nonce poolTx), count })

/-- The flag tells whether the transaction was there. A sender without transactions goes. -/
def remove (self : Mempool) (sender : Address) (nonce : U64) : Exec (Bool × Mempool) := do
  let some senderTxs := self.txs.lookup sender | return (false, self)
  if (senderTxs.lookup nonce).isNone then
    return (false, self)
  let senderTxs := senderTxs.erase nonce
  let count ← sub self.count 1
  let txs := if senderTxs.entries.isEmpty then self.txs.erase sender
    else self.txs.insert sender senderTxs
  return (true, { self with txs, count })

/-- The loop of the selection; `taken` counts what each sender has in `result`. -/
def take (perSenderCap maxCount : Nat) :
    List PoolTx → HashMap Address Nat → List Transaction → List Transaction
  | [], _, result => result
  | pt :: rest, taken, result =>
    let senderCount := (taken.lookup pt.sender).getD 0
    if perSenderCap ≤ senderCount then
      take perSenderCap maxCount rest taken result
    else
      let result := result ++ [pt.tx]
      if maxCount ≤ result.length then result
      else take perSenderCap maxCount rest (taken.insert pt.sender (senderCount + 1)) result

/-- All entries in the order of their priority. The sort is stable, so ties keep the order of
the iteration. -/
def sorted (self : Mempool) (order : SenderOrder) : List PoolTx :=
  ((order.entries self.txs).flatMap fun e => e.2.values).insertionSort
    fun a b => (cmpPriority a b).isLE

def select (self : Mempool) (order : SenderOrder) (maxCount : Nat) :
    Exec (List Transaction × Mempool) := do
  if maxCount = 0 ∨ self.count = 0 then
    return ([], self)
  let result := take self.config.perSenderCap.toNat maxCount (self.sorted order) ∅ []
  let pool ← result.foldlM (fun pool tx => Prod.snd <$> pool.remove tx.sender tx.nonce) self
  return (result, pool)

end Mempool

end Mononium
