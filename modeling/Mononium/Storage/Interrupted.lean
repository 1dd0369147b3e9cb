import Mononium.Storage.Spellings

/-! Loads that stop in the middle. What was written before stays, nothing marks it, and the next load
writes over it without taking it away. -/
namespace Mononium

open Rust Scale

section

variable {steps : List (Result Put)} {s t : Storage} {ps : List Put} {e : LibError}

/-- A run that stops has made the writes before the one that it stops at. -/
theorem runPuts_eq_error : runPuts steps s = (.error e, t) ↔
    ∃ done rest, steps = done.map .ok ++ .error e :: rest ∧ t = s.applyAll done := by
  constructor
  · intro ran
    induction steps generalizing s with
    | nil => cases ran
    | cons step steps ih =>
      cases step with
      | error _ =>
        cases ran
        exact ⟨[], steps, rfl, rfl⟩
      | ok p =>
        obtain ⟨done, rest, rfl, rfl⟩ := ih ran
        exact ⟨p :: done, rest, rfl, rfl⟩
  · rintro ⟨done, rest, rfl, rfl⟩
    rw [runPuts_append, runPuts_ok]
    rfl

theorem Storage.get_applyAll_isSome {p : Put} (member : p ∈ ps) :
    ((s.applyAll ps).get p.table p.key).isSome := by
  induction ps using List.reverseRecOn with
  | nil => cases member
  | append_singleton ps q ih =>
    rw [get_applyAll_concat]
    split
    next => rfl
    next other =>
      rcases List.mem_append.mp member with before | last
      · exact ih before
      · cases List.mem_singleton.mp last
        exact absurd ⟨rfl, rfl⟩ other

theorem Storage.applyAll_ne_empty {p : Put} (member : p ∈ ps) : s.applyAll ps ≠ .empty := by
  intro same
  have present := get_applyAll_isSome (s := s) member
  rw [same] at present
  cases present

theorem attempt_eq_ok {fault : Option LibError} {put : Result Put} {p : Put} :
    attempt fault put = .ok p ↔ fault = none ∧ put = .ok p := by
  cases put <;> cases fault <;> simp [attempt]

/-- After the first write nothing stops the load: all texts parse, and every write commits. -/
structure Faults.Unstopped (faults : Faults) (config : GenesisConfig) : Prop where
  accounts : ∀ e i, (e, i) ∈ config.initialAccounts.entries.zipIdx → faults.account i = .none ∧
    (∃ rawAddr, parseHexAddr e.1 = .ok rawAddr) ∧ ∃ balance, parseU256 e.2 = .ok balance
  validators : ∀ v i, (v, i) ∈ config.initialValidators.zipIdx → faults.validator i = .none ∧
    (∃ rawAddr, parseHexAddr v.address = .ok rawAddr) ∧ ∃ stake, parseU256 v.stake = .ok stake
  genesisHash : faults.genesisHash = .none
  block : faults.block = .none
  marker : faults.marker = .none

theorem unstopped_iff [Blake3] {faults : Faults} {json : String} {config : GenesisConfig} :
    (∃ ps : List Put, faultyPuts faults json config = ps.map .ok) ↔
      faults.chainId = none ∧ faults.Unstopped config := by
  simp only [exists_puts_iff, faultyPuts, closingPuts, List.zipWith_cons_cons, List.zipWith_nil_left,
    List.forall_mem_append, List.forall_mem_cons, List.forall_mem_map, attempt_eq_ok,
    exists_and_left, exists_accountPut_iff, exists_validatorPut_iff]
  constructor
  · rintro ⟨⟨⟨⟨chain, _⟩, accounts⟩, validators⟩, ⟨hash, _⟩, ⟨block, _⟩, ⟨marker, _⟩, _⟩
    exact ⟨chain, fun e i member => accounts (e, i) member, fun v i member => validators (v, i) member,
      hash, block, marker⟩
  · rintro ⟨chain, unstopped⟩
    exact ⟨⟨⟨⟨chain, _, rfl⟩, fun e member => unstopped.accounts e.1 e.2 member⟩,
      fun v member => unstopped.validators v.1 v.2 member⟩, ⟨unstopped.genesisHash, _, rfl⟩,
      ⟨unstopped.block, _, rfl⟩, ⟨unstopped.marker, _, rfl⟩, by simp⟩

end

section

variable [Blake3] [SerdeJson]

/-- A load that fails on an empty storage leaves it empty, so that the next load that succeeds leaves
what it would have left alone. -/
def LoadsAtomically (faults : Faults) (file : Except String String) : Prop :=
  ∀ e s, loadGenesisWith faults file .empty = (.error e, s) →
    s = .empty ∧ ∀ again other t, loadGenesisWith again other s = (.ok (), t) →
      loadGenesisWith again other .empty = (.ok (), t)

section

variable {faults : Faults} {json : String} {config : GenesisConfig} {s : Storage} {e : LibError}

theorem loadGenesisWith_of_parsed (faults : Faults) (parsed : SerdeJson.genesisConfig json = .ok config) :
    loadGenesisWith faults (.ok json) .empty = runPuts (faultyPuts faults json config) .empty := by
  rw [loadGenesisWith_eq, readGenesis_eq_ok.mpr ⟨rfl, rfl, parsed⟩]

theorem ne_empty_of_stopped (parsed : SerdeJson.genesisConfig json = .ok config)
    (chain : faults.chainId = none) (failed : loadGenesisWith faults (.ok json) .empty = (.error e, s)) :
    s ≠ .empty := by
  rw [loadGenesisWith_of_parsed faults parsed] at failed
  obtain ⟨done, rest, steps, rfl⟩ := runPuts_eq_error.mp failed
  cases done with
  | nil =>
    rw [faultyPuts, chain] at steps
    cases steps
  | cons p done => exact Storage.applyAll_ne_empty List.mem_cons_self

/-- A load that nothing can stop after its first write has made none when it fails. -/
theorem eq_empty_of_unstopped {file : Except String String}
    (unstopped : ∀ json config, file = .ok json → SerdeJson.genesisConfig json = .ok config →
      faults.chainId = none → faults.Unstopped config)
    (failed : loadGenesisWith faults file .empty = (.error e, s)) : s = .empty := by
  rw [loadGenesisWith_eq] at failed
  cases opened : readGenesis file .empty with
  | error reason =>
    rw [opened] at failed
    cases failed
    rfl
  | ok value =>
    obtain ⟨json, config⟩ := value
    rw [opened] at failed
    dsimp only at failed
    obtain ⟨-, content, parsed⟩ := readGenesis_eq_ok.mp opened
    cases chain : faults.chainId with
    | none =>
      obtain ⟨ps, steps⟩ : ∃ ps : List Put, faultyPuts faults json config = ps.map .ok :=
        unstopped_iff.mpr ⟨chain, unstopped json config content parsed chain⟩
      rw [steps, runPuts_ok] at failed
      cases failed
    | some refused =>
      rw [faultyPuts, chain] at failed
      cases failed
      rfl

end

/-- Loads are atomic exactly as far as nothing can stop them once the chain id is written. -/
theorem loadsAtomically_iff (faults : Faults) (file : Except String String) :
    LoadsAtomically faults file ↔ ∀ json config, file = .ok json →
      SerdeJson.genesisConfig json = .ok config → faults.chainId = none → faults.Unstopped config := by
  constructor
  · rintro atomic json config rfl parsed chain
    generalize ran : loadGenesisWith faults (.ok json) .empty = outcome
    obtain ⟨_ | ⟨⟩, s⟩ := outcome
    · next e => exact absurd (atomic e s ran).1 (ne_empty_of_stopped parsed chain ran)
    · rw [loadGenesisWith_of_parsed faults parsed] at ran
      obtain ⟨ps, steps, -⟩ := runPuts_eq_ok.mp ran
      exact (unstopped_iff.mp ⟨ps, steps⟩).2
  · intro unstopped e s failed
    cases eq_empty_of_unstopped unstopped failed
    exact ⟨rfl, fun _ _ _ => id⟩

end

section Sample

attribute [local instance] prefixBlake3

def invalidGenesis : String :=
  "\x7b\"chain_id\": 0, \"genesis_time\": \"\", \"initial_accounts\": \x7b\"0x" ++
    hexEncode alice.asBytes ++ "\": \"1\"\x7d, " ++
    "\"initial_validators\": [\x7b\"address\": \"zz\", \"stake\": \"1000\"\x7d]\x7d"

def bareGenesis : String :=
  "\x7b\"chain_id\": 0, \"genesis_time\": \"\", \"initial_accounts\": \x7b\x7d\x7d"

def invalidConfig : GenesisConfig :=
  ⟨0, AList.singleton ("0x" ++ hexEncode alice.asBytes) "1", [⟨"zz", "1000"⟩]⟩

def bareConfig : GenesisConfig := ⟨0, ∅, []⟩

abbrev retriedSerdeJson : SerdeJson :=
  ⟨fun json => if json = bareGenesis then .ok bareConfig else .ok invalidConfig⟩

attribute [local instance] retriedSerdeJson

set_option maxRecDepth 4000 in
theorem invalidGenesis_ne_bareGenesis : invalidGenesis ≠ bareGenesis := by decide

/-- The corrected file names no accounts, but the one that was written first is still there. -/
theorem invalidGenesis_not_atomic :
    ∃ e s t, loadGenesis (.ok invalidGenesis) .empty = (.error e, s) ∧ s ≠ .empty ∧
      loadGenesis (.ok bareGenesis) s = (.ok (), t) ∧
      t.get .accounts alice.asBytes = some (Codec.account.encode (Account.new 1)) ∧
      ∃ u, loadGenesis (.ok bareGenesis) .empty = (.ok (), u) ∧ u.get .accounts alice.asBytes = none := by
  have first : accountPut ("0x" ++ hexEncode alice.asBytes) "1" = .ok (alicePut 1) :=
    alice_parses (.inl rfl) (by decide)
  obtain ⟨e, second⟩ : ∃ e, validatorPut ⟨"zz", "1000"⟩ = .error e := ⟨_, rfl⟩
  have invalid : readGenesis (.ok invalidGenesis) .empty = .ok (invalidGenesis, invalidConfig) :=
    readGenesis_eq_ok.mpr ⟨rfl, rfl, if_neg invalidGenesis_ne_bareGenesis⟩
  have bare : SerdeJson.genesisConfig bareGenesis = .ok bareConfig := if_pos rfl
  have steps : genesisPuts bareGenesis bareConfig =
      (chainIdPut bareConfig :: closingPuts bareGenesis bareConfig).map .ok := rfl
  have stopped : loadGenesis (.ok invalidGenesis) .empty =
      (.error e, Storage.empty.applyAll [chainIdPut invalidConfig, alicePut 1]) := by
    rw [loadGenesis_eq, invalid]
    refine runPuts_eq_error.mpr ⟨_, (closingPuts invalidGenesis invalidConfig).map .ok, ?_, rfl⟩
    simp only [genesisPuts, invalidConfig, AList.singleton_entries, List.map_cons, List.map_nil, first, second,
      List.cons_append, List.nil_append]
  have untouched : ∀ p ∈ chainIdPut bareConfig :: closingPuts bareGenesis bareConfig,
      ¬(Table.accounts = p.table ∧ alice.asBytes = p.key) := by
    simp [chainIdPut, closingPuts]
  refine ⟨e, _, _, stopped, Storage.applyAll_ne_empty List.mem_cons_self,
    (loadGenesis_iff_of_parsed bare).mpr ⟨by decide, _, steps, rfl⟩, ?_,
    _, (loadGenesis_iff_of_parsed bare).mpr ⟨rfl, _, steps, rfl⟩, ?_⟩
  · rw [Storage.get_applyAll_of_other untouched]
    exact (Storage.get_applyAll_concat .empty [chainIdPut invalidConfig] (alicePut 1) _ _).trans
      (if_pos ⟨rfl, rfl⟩)
  · rw [Storage.get_applyAll_of_other untouched]
    rfl

end Sample

end Mononium
