import Mononium.Storage.Loading

/-! The accounts of a genesis file are keyed by texts, and an address has several spellings. Each
process iterates over the map in an order of its own, and of the writes to one key the last stays. -/
namespace Mononium

open Rust Scale

namespace GenesisConfig

structure SameFile (config again : GenesisConfig) : Prop where
  chainId : again.chainId = config.chainId
  accounts : again.initialAccounts.entries.Perm config.initialAccounts.entries
  validators : again.initialValidators = config.initialValidators

/-- Spellings of one address come with one balance. -/
def SpellingsAgree (config : GenesisConfig) : Prop :=
  ∀ e ∈ config.initialAccounts.entries, ∀ f ∈ config.initialAccounts.entries, ∀ rawAddr,
    parseHexAddr e.1 = .ok rawAddr → parseHexAddr f.1 = .ok rawAddr → parseU256 e.2 = parseU256 f.2

def endingWith (config : GenesisConfig) {e : (_ : String) × String}
    (member : e ∈ config.initialAccounts.entries) : GenesisConfig where
  chainId := config.chainId
  initialAccounts := ⟨config.initialAccounts.entries.erase e ++ [e],
    (List.perm_nodupKeys ((List.perm_append_singleton _ _).trans (List.perm_cons_erase member).symm)).mpr
      config.initialAccounts.nodupKeys⟩
  initialValidators := config.initialValidators

variable {config again : GenesisConfig} {e f : (_ : String) × String}

theorem sameFile_endingWith (member : e ∈ config.initialAccounts.entries) :
    config.SameFile (config.endingWith member) where
  chainId := rfl
  accounts := (List.perm_append_singleton _ _).trans (List.perm_cons_erase member).symm
  validators := rfl

theorem SpellingsAgree.value_eq (agree : config.SpellingsAgree)
    (he : e ∈ config.initialAccounts.entries) (hf : f ∈ config.initialAccounts.entries) {p q : Put}
    (first : accountPut e.1 e.2 = .ok p) (second : accountPut f.1 f.2 = .ok q) (same : p.key = q.key) :
    p.value = q.value := by
  obtain ⟨a, x, spelled, balance, rfl⟩ := accountPut_eq_ok.mp first
  obtain ⟨b, y, spelled', balance', rfl⟩ := accountPut_eq_ok.mp second
  cases FixedBytes.ext same
  have equal := agree e he f hf a spelled spelled'
  rw [balance, balance'] at equal
  cases equal
  rfl

end GenesisConfig

open GenesisConfig

section

variable [Blake3] {json : String} {config again : GenesisConfig} {ps qs : List Put} {s : Storage}
  {e : (_ : String) × String} {p : Put} {key : Bytes}

theorem mem_puts_iff (steps : genesisPuts json config = ps.map .ok) :
    p ∈ ps ↔ .ok p ∈ genesisPuts json config := by
  simp [steps]

theorem account_parses (steps : genesisPuts json config = ps.map .ok)
    (member : e ∈ config.initialAccounts.entries) : ∃ p, accountPut e.1 e.2 = .ok p := by
  refine exists_puts_iff.mp ⟨ps, steps⟩ _ ?_
  simp only [genesisPuts, List.mem_append, List.mem_cons, List.mem_map]
  exact .inl (.inl (.inr ⟨e, member, rfl⟩))

theorem get_account_of_agree (agree : config.SpellingsAgree)
    (steps : genesisPuts json config = ps.map .ok) (member : e ∈ config.initialAccounts.entries)
    (parsed : accountPut e.1 e.2 = .ok p) : (s.applyAll ps).get .accounts p.key = some p.value := by
  have placed : .ok p ∈ genesisPuts json config ∧ p.table = .accounts :=
    account_mem_genesisPuts.mpr ⟨e, member, parsed⟩
  refine Storage.get_applyAll_of_agree ⟨p, (mem_puts_iff steps).mpr placed.1, placed.2.symm, rfl⟩ ?_
  intro q there sameTable sameKey
  obtain ⟨f, other, parsed'⟩ := account_mem_genesisPuts.mp ⟨(mem_puts_iff steps).mp there, sameTable.symm⟩
  exact (agree.value_eq member other parsed parsed' sameKey).symm

theorem get_account_of_absent (steps : genesisPuts json config = ps.map .ok)
    (absent : ∀ e ∈ config.initialAccounts.entries, ∀ p, accountPut e.1 e.2 = .ok p → p.key ≠ key) :
    (s.applyAll ps).get .accounts key = s.get .accounts key := by
  refine Storage.get_applyAll_of_other fun q there same => ?_
  obtain ⟨f, other, parsed⟩ := account_mem_genesisPuts.mp ⟨(mem_puts_iff steps).mp there, same.1.symm⟩
  exact absent f other q parsed same.2.symm

theorem get_account_last {before : List ((_ : String) × String)}
    (steps : genesisPuts json config = ps.map .ok)
    (order : config.initialAccounts.entries = before ++ [e]) (parsed : accountPut e.1 e.2 = .ok p) :
    (s.applyAll ps).get .accounts p.key = some p.value := by
  obtain ⟨a, x, -, -, rfl⟩ := accountPut_eq_ok.mp parsed
  rw [genesisPuts, order, List.map_append, List.map_singleton, parsed, ← List.cons_append,
    List.append_assoc] at steps
  obtain ⟨front, back, rfl, first, second⟩ := List.map_eq_append_iff.mp steps.symm
  obtain ⟨accounts, last, rfl, -, third⟩ := List.map_eq_append_iff.mp first
  obtain ⟨q, rfl, same⟩ := List.map_eq_singleton_iff.mp third
  cases same
  rw [Storage.applyAll_append, Storage.get, Storage.table_applyAll]
  · exact (Storage.get_applyAll_concat _ _ _ _ _).trans (if_pos ⟨rfl, rfl⟩)
  · intro q member table
    have there : .ok q ∈ config.initialValidators.map validatorPut ++ (closingPuts json config).map .ok :=
      second ▸ List.mem_map_of_mem member
    rcases List.mem_append.mp there with validator | closing
    · obtain ⟨v, -, parsed'⟩ := List.mem_map.mp validator
      obtain ⟨_, _, _, _, rfl⟩ := validatorPut_eq_ok.mp parsed'
      cases table
    · simp only [closingPuts, List.map_cons, List.map_nil, List.mem_cons, List.not_mem_nil,
        Except.ok.injEq, or_false] at closing
      rcases closing with rfl | rfl | rfl <;> cases table

namespace GenesisConfig.SameFile

omit [Blake3] in
theorem entry_iff (same : config.SameFile again) :
    e ∈ again.initialAccounts.entries ↔ e ∈ config.initialAccounts.entries := same.accounts.mem_iff

/-- What one process can load, every other can. -/
theorem puts (same : config.SameFile again) (steps : genesisPuts json config = ps.map .ok) :
    ∃ qs : List Put, genesisPuts json again = qs.map .ok := by
  have all := exists_puts_iff.mp ⟨ps, steps⟩
  refine exists_puts_iff.mpr fun step member => all step ?_
  simp only [genesisPuts, closingPuts, chainIdPut, same.chainId, same.validators, List.mem_append,
    List.mem_cons, List.mem_map, same.entry_iff] at member ⊢
  exact member

theorem accounts_eq (same : config.SameFile again) (agree : config.SpellingsAgree)
    (steps : genesisPuts json config = ps.map .ok) (steps' : genesisPuts json again = qs.map .ok) :
    (s.applyAll qs).get .accounts key = (s.applyAll ps).get .accounts key := by
  have again_agree : again.SpellingsAgree := fun e he f hf =>
    agree e (same.entry_iff.mp he) f (same.entry_iff.mp hf)
  by_cases written : ∃ e ∈ config.initialAccounts.entries, ∃ p, accountPut e.1 e.2 = .ok p ∧ p.key = key
  · obtain ⟨e, member, p, parsed, rfl⟩ := written
    rw [get_account_of_agree agree steps member parsed,
      get_account_of_agree again_agree steps' (same.entry_iff.mpr member) parsed]
  · have absent : ∀ e ∈ config.initialAccounts.entries, ∀ p, accountPut e.1 e.2 = .ok p → p.key ≠ key :=
      fun e member p parsed here => written ⟨e, member, p, parsed, here⟩
    rw [get_account_of_absent steps absent, get_account_of_absent steps' fun e member =>
      absent e (same.entry_iff.mp member)]

end GenesisConfig.SameFile

/-- All nodes that load a file get the same accounts, whatever the order in which each of them
iterates over the account map, exactly if the spellings of an address agree on its balance. -/
theorem genesis_accounts_agree_iff [SerdeJson] {t : Storage}
    (parsed : SerdeJson.genesisConfig json = .ok config)
    (loaded : loadGenesis (.ok json) s = (.ok (), t)) :
    (∀ (other : SerdeJson) (again : GenesisConfig), other.genesisConfig json = .ok again →
      config.SameFile again →
      ∃ u, @loadGenesis _ other (.ok json) s = (.ok (), u) ∧
        ∀ key, u.get .accounts key = t.get .accounts key) ↔ config.SpellingsAgree := by
  obtain ⟨fresh, ps, steps, rfl⟩ := (loadGenesis_iff_of_parsed parsed).mp loaded
  constructor
  · intro all e he f hf rawAddr spelled spelled'
    have value {e : (_ : String) × String} (member : e ∈ config.initialAccounts.entries)
        (spelled : parseHexAddr e.1 = .ok rawAddr) : ∃ balance, parseU256 e.2 = .ok balance ∧
          (s.applyAll ps).get .accounts rawAddr.bytes =
            some (Codec.account.encode (Account.new balance)) := by
      obtain ⟨p, parsed⟩ := account_parses steps member
      obtain ⟨a, balance, spelled', read, rfl⟩ := accountPut_eq_ok.mp parsed
      cases spelled.symm.trans spelled'
      obtain ⟨u, again, same⟩ := all ⟨fun _ => .ok (config.endingWith member)⟩ _ rfl
        (sameFile_endingWith member)
      obtain ⟨-, qs, steps', rfl⟩ := (@loadGenesis_iff_of_parsed _ _ _ ⟨_⟩ _ _ rfl).mp again
      exact ⟨balance, read, (same _).symm.trans (get_account_last steps' rfl parsed)⟩
    obtain ⟨x, balance, first⟩ := value he spelled
    obtain ⟨y, balance', second⟩ := value hf spelled'
    rw [first, Option.some.injEq] at second
    cases Codec.account.encode_injective (account_fits _) (account_fits _) second
    rw [balance, balance']
  · intro agree other again parsed' same
    obtain ⟨qs, steps'⟩ := same.puts steps
    exact ⟨_, (@loadGenesis_iff_of_parsed _ _ _ other _ _ parsed').mpr ⟨fresh, qs, steps', rfl⟩,
      fun key => same.accounts_eq agree steps steps'⟩

end

section Sample

attribute [local instance] prefixBlake3

def spelledGenesis (marked plain : String) : String :=
  "\x7b\"chain_id\": 0, \"genesis_time\": \"\", \"initial_accounts\": \x7b\"0x" ++
    hexEncode alice.asBytes ++ "\": \"" ++ marked ++ "\", \"" ++ hexEncode alice.asBytes ++ "\": \"" ++
    plain ++ "\"\x7d\x7d"

def spelledTwice (marked plain : String) : GenesisConfig where
  chainId := 0
  initialAccounts := ⟨[⟨"0x" ++ hexEncode alice.asBytes, marked⟩, ⟨hexEncode alice.asBytes, plain⟩], by
    simp [List.NodupKeys, List.keys]⟩
  initialValidators := []

theorem spelledTwice_entries (marked plain : String) :
    (spelledTwice marked plain).initialAccounts.entries =
      [⟨"0x" ++ hexEncode alice.asBytes, marked⟩] ++ [⟨hexEncode alice.asBytes, plain⟩] := rfl

abbrev orderedSerdeJson (config : GenesisConfig) : SerdeJson := ⟨fun _ => .ok config⟩

def alicePut (balance : U256) : Put :=
  ⟨.accounts, alice.asBytes, Codec.account.encode (Account.new balance)⟩

theorem alice_parses {spelling balanceStr : String} {balance : U256}
    (spelled : spelling = "0x" ++ hexEncode alice.asBytes ∨ spelling = hexEncode alice.asBytes)
    (read : parseU256 balanceStr = .ok balance) :
    accountPut spelling balanceStr = .ok (alicePut balance) := by
  refine accountPut_eq_ok.mpr ⟨alice.raw, balance, ?_, read, rfl⟩
  rcases spelled with rfl | rfl
  · rw [parseHexAddr, stripHexPrefix_marked, hexDecode_hexEncode]
    exact dif_pos alice.asBytes_length
  · rw [parseHexAddr, stripHexPrefix_hexEncode, hexDecode_hexEncode]
    exact dif_pos alice.asBytes_length

/-- Each process loads the file, and the spelling that it comes to last decides. -/
theorem spelledTwice_loaded {marked plain json : String} {x y balance : U256}
    {config : GenesisConfig} {before : List ((_ : String) × String)} {e : (_ : String) × String}
    (same : (spelledTwice marked plain).SameFile config)
    (first : parseU256 marked = .ok x) (second : parseU256 plain = .ok y)
    (order : config.initialAccounts.entries = before ++ [e])
    (last : accountPut e.1 e.2 = .ok (alicePut balance)) :
    ∃ t, @loadGenesis _ (orderedSerdeJson config) (.ok json) .empty = (.ok (), t) ∧
      t.get .accounts alice.asBytes = some (Codec.account.encode (Account.new balance)) := by
  have steps : genesisPuts json (spelledTwice marked plain) =
      (chainIdPut (spelledTwice marked plain) :: alicePut x :: alicePut y ::
        closingPuts json (spelledTwice marked plain)).map .ok := by
    simp only [genesisPuts, spelledTwice, List.map_cons, List.map_nil, alice_parses (.inl rfl) first,
      alice_parses (.inr rfl) second, List.cons_append, List.nil_append]
  obtain ⟨qs, steps'⟩ := same.puts steps
  exact ⟨_, (@loadGenesis_iff_of_parsed _ _ _ (orderedSerdeJson config) _ _ rfl).mpr
    ⟨rfl, qs, steps', rfl⟩, get_account_last steps' order last⟩

/-- With one balance under both spellings, every order gives Alice that balance. -/
theorem spelledTwice_agrees :
    (spelledTwice "1" "1").SpellingsAgree ∧ ∀ (other : SerdeJson) (again : GenesisConfig),
      other.genesisConfig (spelledGenesis "1" "1") = .ok again →
      (spelledTwice "1" "1").SameFile again →
      ∃ u, @loadGenesis _ other (.ok (spelledGenesis "1" "1")) .empty = (.ok (), u) ∧
        u.get .accounts alice.asBytes = some (Codec.account.encode (Account.new 1)) := by
  have one : parseU256 "1" = .ok 1 := by decide
  have loads : ∃ t, @loadGenesis _ (orderedSerdeJson (spelledTwice "1" "1"))
      (.ok (spelledGenesis "1" "1")) .empty = (.ok (), t) ∧
      t.get .accounts alice.asBytes = some (Codec.account.encode (Account.new 1)) :=
    spelledTwice_loaded ⟨rfl, .refl _, rfl⟩ one one (spelledTwice_entries "1" "1")
      (alice_parses (.inr rfl) one)
  obtain ⟨t, loaded, balance⟩ := loads
  have agree : (spelledTwice "1" "1").SpellingsAgree := by
    intro e he f hf _ _ _
    have all : ∀ e ∈ (spelledTwice "1" "1").initialAccounts.entries, e.2 = "1" := by
      simp [spelledTwice]
    rw [all e he, all f hf]
  refine ⟨agree, fun other again parsed same => ?_⟩
  obtain ⟨u, loaded', equal⟩ := (@genesis_accounts_agree_iff _ _ _ _ (orderedSerdeJson _) _ rfl
    loaded).mpr agree other again parsed same
  exact ⟨u, loaded', (equal _).trans balance⟩

/-- With a balance of its own under each spelling, Alice has what the process came to last. -/
theorem spelledTwice_disagrees :
    ∃ again, (spelledTwice "1" "2").SameFile again ∧
    (∃ t, @loadGenesis _ (orderedSerdeJson (spelledTwice "1" "2")) (.ok (spelledGenesis "1" "2")) .empty =
      (.ok (), t) ∧ t.get .accounts alice.asBytes = some (Codec.account.encode (Account.new 2))) ∧
    (∃ t, @loadGenesis _ (orderedSerdeJson again) (.ok (spelledGenesis "1" "2")) .empty = (.ok (), t) ∧
      t.get .accounts alice.asBytes = some (Codec.account.encode (Account.new 1))) ∧
    Codec.account.encode (Account.new 1) ≠ Codec.account.encode (Account.new 2) := by
  have one : parseU256 "1" = .ok 1 := by decide
  have two : parseU256 "2" = .ok 2 := by decide
  have member : (⟨"0x" ++ hexEncode alice.asBytes, "1"⟩ : (_ : String) × String) ∈
      (spelledTwice "1" "2").initialAccounts.entries := List.mem_cons_self
  exact ⟨_, sameFile_endingWith member,
    spelledTwice_loaded ⟨rfl, .refl _, rfl⟩ one two (spelledTwice_entries "1" "2")
      (alice_parses (.inr rfl) two),
    spelledTwice_loaded (sameFile_endingWith member) one two rfl (alice_parses (.inl rfl) one),
    by decide⟩

end Sample

end Mononium
