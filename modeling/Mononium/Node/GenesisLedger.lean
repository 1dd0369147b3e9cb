import Mononium.Core.Registry
import Mononium.Node.Recovery
import Mononium.Storage.Spellings

/-! What of a genesis file arrives in the machine that a node starts with. The accounts arrive where
their spellings agree. The validators are written in a layout that their readers do not decode, and
the machine is not built from their table. -/
namespace Mononium

open Rust Scale

structure ValidatorInfo where
  address : String
  stake : String

/-- `format!("\x7b:#x\x7d", stake)`. -/
def lowerHex (stake : U256) : String := "0x" ++ String.ofList (Nat.toDigits 16 stake.toNat)

def validatorsHandler (storage : Storage) : List ValidatorInfo :=
  (storage.listKeys .validators).filterMap fun key =>
    if key.length ≠ 32 then none
    else
      (storage.get .validators key).bind fun raw =>
        (Codec.validatorEntry.decode raw).map fun entry => ⟨hexEncode key, lowerHex entry.1.stake⟩

/-- The machine that is built from `storage` has what the file configures. -/
structure GenesisReaches [Blake3] (A : Finset Address) (config : GenesisConfig) (storage : Storage) :
    Prop where
  accounts : ∀ a ∈ A, ∀ x, (loadStateFromStorage storage).account a = some x ↔
    ∃ e ∈ config.initialAccounts.entries, parseHexAddr e.1 = .ok a.raw ∧
      ∃ balance, parseU256 e.2 = .ok balance ∧ x = Account.new balance
  validators : ∀ v ∈ config.initialValidators, ∃ a stake entry, parseHexAddr v.address = .ok a.raw ∧
    parseU256 v.stake = .ok stake ∧ (loadStateFromStorage storage).getValidator a = some entry ∧
    entry.address = a ∧ entry.stake = stake ∧ a ∈ (loadStateFromStorage storage).validators
  table : ∀ key raw, storage.get .validators key = some raw →
    (Codec.validatorEntry.decode raw).isSome

theorem mem_loadAccounts {storage : Storage} {a : Address} {x : Account} :
    (a, x) ∈ loadAccounts storage ↔
      ∃ raw rest, storage.get .accounts a.asBytes = some raw ∧ Codec.account.decode raw = some (x, rest) := by
  simp only [loadAccounts, List.mem_filterMap, Storage.listKeys, List.mem_insertionSort]
  constructor
  · rintro ⟨key, -, found⟩
    split at found
    next length =>
      obtain ⟨raw, stored, found⟩ := Option.bind_eq_some_iff.mp found
      obtain ⟨⟨y, rest⟩, decoded, same⟩ := Option.map_eq_some_iff.mp found
      cases same
      exact ⟨raw, rest, stored, decoded⟩
    next => cases found
  · rintro ⟨raw, rest, stored, decoded⟩
    refine ⟨a.asBytes, AList.lookup_isSome.mp (Option.isSome_of_eq_some stored), ?_⟩
    rw [dif_pos a.asBytes_length, stored]
    simp [decoded, Address.asBytes]

/-- The layout of a genesis validator is too short for an entry. -/
theorem validatorPut_not_decoded {v : GenesisValidator} {p : Put} (parsed : validatorPut v = .ok p) :
    Codec.validatorEntry.decode p.value = none := by
  obtain ⟨rawAddr, stake, -, -, rfl⟩ := validatorPut_eq_ok.mp parsed
  by_contra found
  obtain ⟨⟨entry, rest⟩, decoded⟩ := Option.ne_none_iff_exists'.mp found
  have split := congrArg List.length (Codec.validatorEntry.encode_decode decoded).2
  have long := validatorEntry_encode_length entry
  rw [List.length_append, List.length_append, rawAddr.length, leBytes_length] at split
  omega

namespace StateMachine

variable [Blake3] {A : Finset Address} {accounts : List (Address × Account)} {a : Address} {x : Account}

theorem new_concat (accounts : List (Address × Account)) (p : Address × Account) :
    new (accounts ++ [p]) = (new accounts).setAccount p.1 p.2 := by
  rw [new_eq, new_eq accounts, List.foldl_append]
  rfl

theorem mem_of_account_new (apart : KeysApart A) (within : ∀ p ∈ accounts, p.1 ∈ A) (ha : a ∈ A)
    (found : (new accounts).account a = some x) : (a, x) ∈ accounts := by
  induction accounts using List.reverseRecOn with
  | nil => cases found
  | append_singleton accounts p ih =>
    rw [new_concat, account_setAccount apart (within p (by simp)) ha] at found
    split at found
    next same =>
      cases found
      simp [same]
    next => exact List.mem_append_left _ (ih (fun q member => within q (List.mem_append_left _ member)) found)

theorem account_new_isSome (apart : KeysApart A) (within : ∀ p ∈ accounts, p.1 ∈ A) (ha : a ∈ A)
    (member : (a, x) ∈ accounts) : ((new accounts).account a).isSome := by
  induction accounts using List.reverseRecOn with
  | nil => cases member
  | append_singleton accounts p ih =>
    rw [new_concat, account_setAccount apart (within p (by simp)) ha]
    split
    next => rfl
    next other =>
      rcases List.mem_append.mp member with before | last
      · exact ih (fun q member => within q (List.mem_append_left _ member)) before
      · cases List.mem_singleton.mp last
        exact absurd rfl other

end StateMachine

section

variable [Blake3] {json : String} {config : GenesisConfig} {ps : List Put} {key raw : Bytes}
  {A : Finset Address} {a : Address} {x : Account}

/-- A row of the validators table is that of a configured validator. -/
theorem validator_of_loads (steps : genesisPuts json config = ps.map .ok)
    (stored : (Storage.empty.applyAll ps).get .validators key = some raw) :
    ∃ v ∈ config.initialValidators, validatorPut v = .ok ⟨.validators, key, raw⟩ := by
  rcases Storage.get_applyAll_eq_some stored with written | old
  · rcases mem_genesisPuts ((mem_puts_iff steps).mp written) with chain | ⟨e, _, parsed⟩ | found | closing
    · cases chain
    · obtain ⟨_, _, _, _, same⟩ := accountPut_eq_ok.mp parsed
      cases same
    · exact found
    · simp [closingPuts] at closing
  · cases old

/-- No reader of the validators table finds an entry after a load. -/
theorem validatorsHandler_of_loads (steps : genesisPuts json config = ps.map .ok) :
    validatorsHandler (Storage.empty.applyAll ps) = [] := by
  simp only [validatorsHandler, List.filterMap_eq_nil_iff]
  intro key _
  split
  next => rfl
  next =>
    cases stored : (Storage.empty.applyAll ps).get .validators key with
    | none => rfl
    | some raw =>
      obtain ⟨v, -, parsed⟩ := validator_of_loads steps stored
      simp [validatorPut_not_decoded parsed]

theorem account_of_loads (steps : genesisPuts json config = ps.map .ok)
    (member : (a, x) ∈ loadAccounts (Storage.empty.applyAll ps)) :
    ∃ e ∈ config.initialAccounts.entries, parseHexAddr e.1 = .ok a.raw ∧
      ∃ balance, parseU256 e.2 = .ok balance ∧ x = Account.new balance := by
  obtain ⟨raw, rest, stored, decoded⟩ := mem_loadAccounts.mp member
  rcases Storage.get_applyAll_eq_some stored with written | old
  · obtain ⟨e, there, parsed⟩ := account_mem_genesisPuts.mp ⟨(mem_puts_iff steps).mp written, rfl⟩
    obtain ⟨rawAddr, balance, spelled, read, same⟩ := accountPut_eq_ok.mp parsed
    simp only [Put.mk.injEq, true_and] at same
    obtain ⟨key, rfl⟩ := same
    rw [Codec.decode_encode_nil _ (account_fits _)] at decoded
    cases decoded
    exact ⟨e, there, FixedBytes.ext key ▸ spelled, balance, read, rfl⟩
  · cases old

/-- A configured account is loaded where its spellings agree. -/
theorem mem_loadAccounts_of_agree (agree : config.SpellingsAgree)
    (steps : genesisPuts json config = ps.map .ok) {e : (_ : String) × String} {balance : U256}
    (member : e ∈ config.initialAccounts.entries) (spelled : parseHexAddr e.1 = .ok a.raw)
    (read : parseU256 e.2 = .ok balance) :
    (a, Account.new balance) ∈ loadAccounts (Storage.empty.applyAll ps) := by
  have stored := get_account_of_agree (s := .empty) agree steps member
    (accountPut_eq_ok.mpr ⟨_, _, spelled, read, rfl⟩)
  exact mem_loadAccounts.mpr ⟨_, [], stored, Codec.decode_encode_nil _ (account_fits _)⟩

theorem GenesisReaches.no_validators {storage : Storage} (reaches : GenesisReaches A config storage) :
    config.initialValidators = [] := by
  rw [List.eq_nil_iff_forall_not_mem]
  intro v member
  obtain ⟨a, _, _, _, _, _, _, _, listed⟩ := reaches.validators v member
  have bare : (loadStateFromStorage storage).validators = ∅ := rfl
  simp [bare] at listed

/-- An account has one balance, so all spellings of its address come with it. -/
theorem GenesisReaches.spellingsAgree {storage : Storage} (reaches : GenesisReaches A config storage)
    (within : ∀ e ∈ config.initialAccounts.entries, ∀ rawAddr, parseHexAddr e.1 = .ok rawAddr → ⟨rawAddr⟩ ∈ A)
    (steps : genesisPuts json config = ps.map .ok) : config.SpellingsAgree := by
  intro e he f hf rawAddr spelled spelled'
  obtain ⟨-, x, balance⟩ := exists_accountPut_iff.mp (account_parses steps he)
  obtain ⟨-, y, balance'⟩ := exists_accountPut_iff.mp (account_parses steps hf)
  have first := (reaches.accounts _ (within e he _ spelled) _).mpr ⟨e, he, spelled, x, balance, rfl⟩
  have second := (reaches.accounts _ (within f hf _ spelled') _).mpr ⟨f, hf, spelled', y, balance', rfl⟩
  cases first.symm.trans second
  rw [balance, balance']

theorem account_reaches (apart : KeysApart A) (agree : config.SpellingsAgree)
    (within : ∀ p ∈ loadAccounts (Storage.empty.applyAll ps), p.1 ∈ A)
    (steps : genesisPuts json config = ps.map .ok) (ha : a ∈ A) :
    (loadStateFromStorage (Storage.empty.applyAll ps)).account a = some x ↔
      ∃ e ∈ config.initialAccounts.entries, parseHexAddr e.1 = .ok a.raw ∧
        ∃ balance, parseU256 e.2 = .ok balance ∧ x = Account.new balance := by
  constructor
  · intro found
    exact account_of_loads steps (StateMachine.mem_of_account_new apart within ha found)
  · rintro ⟨e, member, spelled, balance, read, rfl⟩
    have there := mem_loadAccounts_of_agree agree steps member spelled read
    obtain ⟨y, found⟩ := Option.isSome_iff_exists.mp
      (StateMachine.account_new_isSome apart within ha there)
    obtain ⟨f, other, spelled', balance', read', rfl⟩ :=
      account_of_loads steps (StateMachine.mem_of_account_new apart within ha found)
    have same := agree e member f other _ spelled spelled'
    rw [read, read'] at same
    cases same
    exact found

/-- The genesis file reaches the machine exactly if it names no validators and the spellings of an
address agree on its balance. -/
theorem genesis_reaches_iff [SerdeJson] {t : Storage} (apart : KeysApart A)
    (parsed : SerdeJson.genesisConfig json = .ok config)
    (within : ∀ e ∈ config.initialAccounts.entries, ∀ rawAddr, parseHexAddr e.1 = .ok rawAddr → ⟨rawAddr⟩ ∈ A)
    (loaded : loadGenesis (.ok json) .empty = (.ok (), t)) :
    GenesisReaches A config t ↔ config.initialValidators = [] ∧ config.SpellingsAgree := by
  obtain ⟨-, ps, steps, rfl⟩ := (loadGenesis_iff_of_parsed parsed).mp loaded
  have inside : ∀ p ∈ loadAccounts (Storage.empty.applyAll ps), p.1 ∈ A := by
    rintro ⟨a, x⟩ member
    obtain ⟨e, there, spelled, -⟩ := account_of_loads steps member
    exact within e there _ spelled
  constructor
  · intro reaches
    exact ⟨reaches.no_validators, reaches.spellingsAgree within steps⟩
  · rintro ⟨none, agree⟩
    refine ⟨fun a ha x => account_reaches apart agree inside steps ha, ?_, ?_⟩
    · intro v member
      simp [none] at member
    · intro key raw stored
      obtain ⟨v, member, -⟩ := validator_of_loads steps stored
      simp [none] at member

end

section Sample

attribute [local instance] peakBlake3 soloSerdeJson

theorem soloGenesis_reaches :
    GenesisReaches {alice} ⟨0, AList.singleton ("0x" ++ hexEncode alice.asBytes)
      "1000000000000000000000000000000000", []⟩ soloStorage := by
  refine (genesis_reaches_iff (by decide) (if_pos rfl) ?_ solo_loaded).mpr ⟨rfl, ?_⟩
  · intro e member rawAddr spelled
    cases List.mem_singleton.mp member
    rw [parseHexAddr, stripHexPrefix_marked, hexDecode_hexEncode] at spelled
    cases spelled.symm.trans (dif_pos alice.asBytes_length)
    exact Finset.mem_singleton_self _
  · intro e he f hf _ _ _
    cases List.mem_singleton.mp he
    cases List.mem_singleton.mp hf
    rfl

def validatorGenesis : String :=
  "\x7b\"chain_id\": 7, \"genesis_time\": \"2025-06-01T00:00:00Z\", \"initial_accounts\": \x7b\x7d, " ++
    "\"initial_validators\": [\x7b\"address\": \"" ++ hexEncode alice.asBytes ++
    "\", \"stake\": \"50000000000000000000000000000000000\"\x7d]\x7d"

def validatorConfig : GenesisConfig :=
  ⟨7, ∅, [⟨hexEncode alice.asBytes, "50000000000000000000000000000000000"⟩]⟩

/-- The chain starts without its validator. -/
theorem validatorGenesis_not_reaches :
    ∃ t, @loadGenesis _ ⟨fun _ => .ok validatorConfig⟩ (.ok validatorGenesis) .empty = (.ok (), t) ∧
      (loadStateFromStorage t).getValidator alice = none ∧
      alice ∉ (loadStateFromStorage t).validators ∧
      ∃ raw, t.get .validators alice.asBytes = some raw ∧ Codec.validatorEntry.decode raw = none := by
  have parsed : validatorPut ⟨hexEncode alice.asBytes, "50000000000000000000000000000000000"⟩ =
      .ok ⟨.validators, alice.asBytes, alice.asBytes ++ leBytes 32 (5 * 10 ^ 34)⟩ := by
    refine validatorPut_eq_ok.mpr ⟨alice.raw, BitVec.ofNat 256 (5 * 10 ^ 34), ?_, by decide, by decide⟩
    rw [parseHexAddr, stripHexPrefix_hexEncode, hexDecode_hexEncode]
    exact dif_pos alice.asBytes_length
  have steps : genesisPuts validatorGenesis validatorConfig =
      (chainIdPut validatorConfig ::
        ⟨.validators, alice.asBytes, alice.asBytes ++ leBytes 32 (5 * 10 ^ 34)⟩ ::
        closingPuts validatorGenesis validatorConfig).map .ok := by
    simp [genesisPuts, validatorConfig, parsed]
  refine ⟨_, (@loadGenesis_iff_of_parsed _ _ _ ⟨_⟩ _ _ rfl).mpr ⟨rfl, _, steps, rfl⟩, ?_, ?_, ?_⟩
  · refine StateMachine.getValidator_new (show KeysApart {alice} by decide) ?_ (Finset.mem_singleton_self _)
    rintro ⟨a, x⟩ member
    obtain ⟨e, there, -⟩ := account_of_loads steps member
    cases there
  · exact Finset.notMem_empty _
  · refine ⟨_, Storage.get_applyAll_of_agree
      ⟨⟨.validators, alice.asBytes, alice.asBytes ++ leBytes 32 (5 * 10 ^ 34)⟩, by simp, rfl, rfl⟩ ?_,
      validatorPut_not_decoded parsed⟩
    intro p member table _
    simp only [closingPuts, List.mem_cons, List.not_mem_nil, or_false] at member
    rcases member with rfl | rfl | rfl | rfl | rfl
    · cases table
    · rfl
    · cases table
    · cases table
    · cases table

end Sample

end Mononium
