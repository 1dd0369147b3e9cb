import Mononium.Lib.Emissions
import Mononium.Mempool.Ranking

/-! The custody of transactions. What a pool accepts it holds until it hands it out, removes it or
evicts it, and it does so once: nothing is lost, nothing is handed out twice, and nothing comes out
that was not put in. -/
namespace Mononium

open Rust

/-- What a call does with transactions. -/
inductive Transit where
  | accepted (tx : Transaction)
  | removed (tx : Transaction)
  | selected (txs : List Transaction)
  | evicted (txs : List Transaction)

namespace Transit

def arrivals : Transit → List Transaction
  | accepted tx => [tx]
  | _ => []

def departures : Transit → List Transaction
  | accepted _ => []
  | removed tx => [tx]
  | selected txs | evicted txs => txs

end Transit

namespace Mempool

variable {self next : Mempool} {sender : Address} {nonce : U64} {now : Nat} {pt : PoolTx}

theorem values_retain (senderTxs : BTreeMap U64 PoolTx) (keep : PoolTx → Bool) :
    (BTreeMap.values (HashMap.retain senderTxs keep)).Perm (senderTxs.values.filter keep) := by
  refine (values_perm _).trans ?_
  have filtered : (HashMap.retain senderTxs keep).entries.map Sigma.snd =
      (senderTxs.entries.map Sigma.snd).filter keep := by
    rw [List.filter_map]
    rfl
  rw [filtered]
  exact ((values_perm senderTxs).filter keep).symm

def pending (self : Mempool) : List Transaction := self.all.map PoolTx.tx

def find (self : Mempool) (sender : Address) (nonce : U64) : Option PoolTx :=
  (self.txs.lookup sender).bind fun senderTxs => senderTxs.lookup nonce

theorem WellFormed.find_eq_some (wellFormed : self.WellFormed) :
    self.find sender nonce = some pt ↔ pt ∈ self.all ∧ pt.sender = sender ∧ pt.nonce = nonce := by
  constructor
  · intro found
    obtain ⟨senderTxs, entry, there⟩ := Option.bind_eq_some_iff.mp found
    have listed := HashMap.mem_entries_iff.mpr entry
    have inside := HashMap.mem_entries_iff.mpr there
    have own := wellFormed.filed _ listed
    exact ⟨List.mem_flatMap.mpr ⟨_, listed, mem_values.mpr ⟨_, inside, rfl⟩⟩, own.sender _ inside,
      own.nonce _ inside⟩
  · rintro ⟨member, rfl, rfl⟩
    obtain ⟨senderTxs, entry, there⟩ := wellFormed.stored member
    rw [find, entry]
    exact there

def transit (self : Mempool) : Call → Option Transit
  | .insert tx now =>
    match self.insert tx now with
    | .ok (.ok (), _) => some (.accepted tx)
    | _ => none
  | .remove sender nonce =>
    match self.remove sender nonce with
    | .ok (true, _) => (self.find sender nonce).map fun pt => .removed pt.tx
    | _ => none
  | .select order maxCount =>
    match self.select order maxCount with
    | .ok (txs, _) => some (.selected txs)
    | _ => none
  | .evictExpired now => some (.evicted ((self.all.filter (self.expired now)).map PoolTx.tx))

theorem remove_flag {there : Bool} (ran : self.remove sender nonce = .ok (there, next)) :
    there = (self.find sender nonce).isSome := by
  unfold remove at ran
  rw [find]
  cases found : self.txs.lookup sender with
  | none =>
    simp only [found] at ran
    cases ran
    rfl
  | some senderTxs =>
    simp only [found] at ran
    rw [Option.bind_some]
    split at ran
    next absent =>
      cases ran
      simpa using absent
    next present =>
      obtain ⟨count, -, ran⟩ := bind_eq_ok.mp ran
      cases ran
      simpa [Option.isSome_iff_ne_none] using present

theorem WellFormed.remove_perm (wellFormed : self.WellFormed) (sender : Address) (nonce : U64) :
    ∃ next, self.remove sender nonce = .ok ((self.find sender nonce).isSome, next) ∧
      next.WellFormed ∧ self.all.Perm ((self.find sender nonce).toList ++ next.all) := by
  obtain ⟨there, next, ran, kept, -, ⟨absent, same⟩ | ⟨pt, own, number, taken⟩⟩ :=
    wellFormed.remove sender nonce
  · have none : self.find sender nonce = none := by
      rw [Option.eq_none_iff_forall_ne_some]
      intro pt found
      obtain ⟨member, key⟩ := wellFormed.find_eq_some.mp found
      exact absent pt member key
    refine ⟨next, remove_flag ran ▸ ran, kept, ?_⟩
    rw [none, same]
    exact .refl _
  · have found : self.find sender nonce = some pt :=
      wellFormed.find_eq_some.mpr ⟨taken.mem_iff.mpr List.mem_cons_self, own, number⟩
    refine ⟨next, remove_flag ran ▸ ran, kept, ?_⟩
    rw [found]
    exact taken

theorem WellFormed.evict_perm (wellFormed : self.WellFormed) (now : Nat) :
    ∃ evicted next, self.evictExpired now = .ok (evicted, next) ∧ next.WellFormed ∧
      next.config = self.config ∧ evicted.toNat = (self.all.filter (self.expired now)).length ∧
      next.all.Perm (self.all.filter fun pt => !self.expired now pt) := by
  obtain ⟨evicted, next, ran, kept, shrinks⟩ := wellFormed.evictExpired now
  have left : next.all.Perm (self.all.filter fun pt => !self.expired now pt) := by
    obtain ⟨count, -, same⟩ := bind_eq_ok.mp ran
    cases same
    have nonempty (entries : List ((_ : Address) × BTreeMap U64 PoolTx)) :
        (entries.filter fun e => !e.2.entries.isEmpty).flatMap (fun e => e.2.values) =
          entries.flatMap fun e => e.2.values := by
      induction entries with
      | nil => rfl
      | cons e entries ih =>
        rw [List.filter_cons, List.flatMap_cons]
        split
        next => rw [List.flatMap_cons, ih]
        next empty =>
          have none : e.2.entries = [] := by simpa using empty
          rw [ih, BTreeMap.values, none]
          rfl
    rw [all, all, List.filter_flatMap]
    refine (List.Perm.of_eq (nonempty _)).trans ?_
    rw [HashMap.mapValues, List.flatMap_map]
    exact List.Perm.flatMap_left _ fun e _ => values_retain e.2 _
  refine ⟨evicted, next, ran, kept, shrinks.configured, ?_, left⟩
  obtain ⟨count, less, same⟩ := bind_eq_ok.mp ran
  cases same
  have sizes := left.length_eq
  have parts := List.length_eq_length_filter_add (l := self.all) (self.expired now)
  have before := wellFormed.counted
  have after := kept.counted
  rw [← all_length] at before after
  have difference := sub_eq_ok.mp less
  dsimp only at after
  omega

/-- One call: what was pending and what arrives is what is pending then and what departs. -/
theorem WellFormed.call_conserves (wellFormed : self.WellFormed) {c : Call}
    (ran : self.call c = .ok next) : next.WellFormed ∧
      (self.pending ++ (self.transit c).toList.flatMap Transit.arrivals).Perm
        (next.pending ++ (self.transit c).toList.flatMap Transit.departures) := by
  cases c with
  | insert tx now =>
    obtain ⟨⟨result, after⟩, inserted⟩ := self.insert_returns tx now
    have same : after = next := by
      rw [Mempool.call, inserted] at ran
      exact Except.ok.inj ran
    subst same
    refine ⟨wellFormed.insert inserted, ?_⟩
    rw [transit, inserted]
    cases result with
    | ok =>
      obtain ⟨-, -, -, -, added⟩ := insert_accepted inserted
      simp only [Option.toList_some, List.flatMap_singleton, Transit.arrivals, Transit.departures,
        List.append_nil]
      exact List.perm_append_comm.trans (added.map PoolTx.tx).symm
    | error e =>
      obtain ⟨-, -, kept⟩ := insert_refused inserted
      simpa [pending] using (kept.map PoolTx.tx).symm
  | remove sender nonce =>
    obtain ⟨after, removed, kept, parts⟩ := wellFormed.remove_perm sender nonce
    have same : after = next := by
      rw [Mempool.call, removed] at ran
      exact Except.ok.inj ran
    subst same
    refine ⟨kept, ?_⟩
    rw [transit, removed]
    have moved := parts.map PoolTx.tx
    cases found : self.find sender nonce with
    | none => simpa [pending, found] using moved
    | some pt =>
      rw [found, Option.toList_some, List.singleton_append, List.map_cons] at moved
      simp only [Option.isSome_some, Option.map_some, Option.toList_some, List.flatMap_singleton,
        Transit.arrivals, Transit.departures, List.append_nil]
      exact moved.trans (List.perm_append_singleton _ _).symm
  | select order maxCount =>
    obtain ⟨chosen, after, selected, selection⟩ := wellFormed.selection order maxCount
    obtain ⟨other, again, kept, -⟩ := wellFormed.select_eq order maxCount
    obtain rfl : other = after := (Prod.mk.inj (Except.ok.inj (again.symm.trans selected))).2
    have same : other = next := by
      rw [Mempool.call, selected] at ran
      exact Except.ok.inj ran
    subst same
    refine ⟨kept, ?_⟩
    have moved := selection.parted.map PoolTx.tx
    rw [List.map_append] at moved
    rw [transit, selected]
    simp only [Option.toList_some, List.flatMap_singleton, Transit.arrivals, Transit.departures,
      List.append_nil]
    exact moved.trans List.perm_append_comm
  | evictExpired now =>
    obtain ⟨evicted, after, gone, kept, -, -, left⟩ := wellFormed.evict_perm now
    have same : after = next := by
      rw [Mempool.call, gone] at ran
      exact Except.ok.inj ran
    subst same
    refine ⟨kept, ?_⟩
    have parts := (List.filter_append_perm (self.expired now) self.all).map PoolTx.tx
    rw [List.map_append] at parts
    simp only [transit, Option.toList_some, List.flatMap_singleton, Transit.arrivals,
      Transit.departures, List.append_nil]
    exact (parts.symm.trans List.perm_append_comm).trans ((left.map PoolTx.tx).symm.append_right _)

/-- After any calls, what was accepted is what is pending together with what was removed, selected
and evicted, each as many times; and an eviction leaves what is not expired. -/
theorem calls_conserve (config : MempoolConfig) (calls : List Call) :
    ∃ pool, calls.foldlM call (new config) = .ok pool ∧
      ((emissions call transit (new config) calls).flatMap Transit.arrivals).Perm
        (pool.pending ++ (emissions call transit (new config) calls).flatMap Transit.departures) ∧
      ∀ now, ∃ evicted next, pool.evictExpired now = .ok (evicted, next) ∧
        evicted.toNat = (pool.all.filter (pool.expired now)).length ∧
        next.all.Perm (pool.all.filter fun pt => !pool.expired now pt) := by
  obtain ⟨pool, ran, wellFormed, -⟩ := calls_returns config calls
  refine ⟨pool, ran, ?_, fun now => ?_⟩
  · exact foldlM_conserves transit pending Transit.arrivals Transit.departures WellFormed
      (fun pool c _ next before stepped => before.call_conserves stepped) (wellFormed_new config) rfl ran
  · obtain ⟨evicted, next, gone, -, -, counted, left⟩ := wellFormed.evict_perm now
    exact ⟨evicted, next, gone, counted, left⟩

end Mempool

end Mononium
