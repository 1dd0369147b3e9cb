import Mononium.Storage.Genesis
import Mathlib.Data.List.Induction

/-! A load of the genesis file as the sequence of its writes. Each write is committed alone, and the
texts of an account or a validator are parsed just before its write, so a load stops in the middle
where a text is malformed or the database refuses a write. -/
namespace Mononium

open Rust Scale

structure Put where
  table : Table
  key : Bytes
  value : Bytes
  deriving DecidableEq

def Storage.apply (self : Storage) (p : Put) : Storage := self.put p.table p.key p.value

def Storage.applyAll (self : Storage) (ps : List Put) : Storage := ps.foldl Storage.apply self

def runPuts : List (Result Put) → Storage → Except LibError Unit × Storage
  | [], storage => (.ok (), storage)
  | .error e :: _, storage => (.error e, storage)
  | .ok p :: rest, storage => runPuts rest (storage.apply p)

def accountPut (addrHex balanceStr : String) : Result Put := do
  let rawAddr ← parseHexAddr addrHex
  let balance ← parseU256 balanceStr
  return ⟨.accounts, rawAddr.bytes, Codec.account.encode (Account.new balance)⟩

def validatorPut (v : GenesisValidator) : Result Put := do
  let rawAddr ← parseHexAddr v.address
  let stake ← parseU256 v.stake
  return ⟨.validators, rawAddr.bytes, rawAddr.bytes ++ leBytes 32 stake.toNat⟩

def chainIdPut (config : GenesisConfig) : Put :=
  ⟨.metadata, chainIdKey, leBytes 8 config.chainId.toNat⟩

/-- What is written after the accounts and the validators. The marker is last. -/
def closingPuts [Blake3] (json : String) (config : GenesisConfig) : List Put :=
  [⟨.metadata, genesisHashKey, (blake3 (utf8 json)).bytes⟩,
    ⟨.blocks, heightKey 0, Codec.block.encode (genesisBlock config.chainId)⟩,
    ⟨.metadata, genesisLoadedKey, utf8 "1"⟩]

def genesisPuts [Blake3] (json : String) (config : GenesisConfig) : List (Result Put) :=
  .ok (chainIdPut config) :: (config.initialAccounts.entries.map fun e => accountPut e.1 e.2) ++
    config.initialValidators.map validatorPut ++ (closingPuts json config).map .ok

/-- What the database answers to each write of a load: nothing if it commits. -/
structure Faults where
  chainId : Option LibError
  account : Nat → Option LibError
  validator : Nat → Option LibError
  genesisHash : Option LibError
  block : Option LibError
  marker : Option LibError

def Faults.none : Faults := ⟨.none, fun _ => .none, fun _ => .none, .none, .none, .none⟩

def StoreM.tryPut (fault : Option LibError) (table : Table) (key value : Bytes) : StoreM Unit :=
  match fault with
  | some e => throw e
  | none => StoreM.put table key value

def loadAccountWith (fault : Option LibError) (addrHex balanceStr : String) : StoreM Unit := do
  let rawAddr ← StoreM.ofResult (parseHexAddr addrHex)
  let balance ← StoreM.ofResult (parseU256 balanceStr)
  StoreM.tryPut fault .accounts rawAddr.bytes (Codec.account.encode (Account.new balance))

def loadValidatorWith (fault : Option LibError) (v : GenesisValidator) : StoreM Unit := do
  let rawAddr ← StoreM.ofResult (parseHexAddr v.address)
  let stake ← StoreM.ofResult (parseU256 v.stake)
  StoreM.tryPut fault .validators rawAddr.bytes (rawAddr.bytes ++ leBytes 32 stake.toNat)

def loadGenesisWith [Blake3] [SerdeJson] (faults : Faults) (file : Except String String) :
    StoreM Unit := do
  if (← getThe Storage).contains .metadata genesisLoadedKey then
    throw (.storage "genesis already loaded")
  let json ← StoreM.ofResult (file.mapError fun e => .storage ("cannot read genesis file: " ++ e))
  let config ← StoreM.ofResult ((SerdeJson.genesisConfig json).mapError fun e =>
    .storage ("invalid genesis JSON: " ++ e))
  StoreM.tryPut faults.chainId .metadata chainIdKey (leBytes 8 config.chainId.toNat)
  StoreM.forEach config.initialAccounts.entries.zipIdx fun e =>
    loadAccountWith (faults.account e.2) e.1.1 e.1.2
  StoreM.forEach config.initialValidators.zipIdx fun v => loadValidatorWith (faults.validator v.2) v.1
  StoreM.tryPut faults.genesisHash .metadata genesisHashKey (blake3 (utf8 json)).bytes
  StoreM.tryPut faults.block .blocks (heightKey 0) (Codec.block.encode (genesisBlock config.chainId))
  StoreM.tryPut faults.marker .metadata genesisLoadedKey (utf8 "1")

def attempt (fault : Option LibError) (put : Result Put) : Result Put :=
  match put, fault with
  | .error e, _ => .error e
  | .ok _, some e => .error e
  | .ok p, none => .ok p

def faultyPuts [Blake3] (faults : Faults) (json : String) (config : GenesisConfig) : List (Result Put) :=
  attempt faults.chainId (.ok (chainIdPut config)) ::
      (config.initialAccounts.entries.zipIdx.map fun e =>
        attempt (faults.account e.2) (accountPut e.1.1 e.1.2)) ++
    (config.initialValidators.zipIdx.map fun v => attempt (faults.validator v.2) (validatorPut v.1)) ++
    List.zipWith (fun fault p => attempt fault (.ok p)) [faults.genesisHash, faults.block, faults.marker]
      (closingPuts json config)

def readGenesis [SerdeJson] (file : Except String String) (storage : Storage) :
    Result (String × GenesisConfig) :=
  if storage.contains .metadata genesisLoadedKey then .error (.storage "genesis already loaded")
  else
    match file with
    | .error e => .error (.storage ("cannot read genesis file: " ++ e))
    | .ok json =>
      match SerdeJson.genesisConfig json with
      | .error e => .error (.storage ("invalid genesis JSON: " ++ e))
      | .ok config => .ok (json, config)

section

variable {s t : Storage} {steps more : List (Result Put)} {ps : List Put}

theorem runPuts_ok (ps : List Put) (s : Storage) : runPuts (ps.map .ok) s = (.ok (), s.applyAll ps) := by
  induction ps generalizing s with
  | nil => rfl
  | cons p ps ih => exact ih _

theorem runPuts_append : runPuts (steps ++ more) s =
    match runPuts steps s with
    | (.ok (), t) => runPuts more t
    | (.error e, t) => (.error e, t) := by
  induction steps generalizing s with
  | nil => rfl
  | cons step steps ih =>
    cases step with
    | error e => rfl
    | ok p => exact ih

theorem runPuts_eq_ok : runPuts steps s = (.ok (), t) ↔ ∃ ps, steps = ps.map .ok ∧ t = s.applyAll ps := by
  constructor
  · intro ran
    induction steps generalizing s with
    | nil =>
      cases ran
      exact ⟨[], rfl, rfl⟩
    | cons step steps ih =>
      cases step with
      | error e => cases ran
      | ok p =>
        obtain ⟨ps, rfl, rfl⟩ := ih ran
        exact ⟨p :: ps, rfl, rfl⟩
  · rintro ⟨ps, rfl, rfl⟩
    exact runPuts_ok ps s

theorem StoreM.bind_apply (x : StoreM α) (f : α → StoreM β) (s : Storage) :
    (x >>= f) s =
      match x s with
      | (.ok a, t) => f a t
      | (.error e, t) => (.error e, t) := by
  change ExceptT.bindCont f (x s).1 (x s).2 = _
  cases x s with
  | mk outcome t => cases outcome <;> rfl

theorem StoreM.ofResult_apply (result : Result α) (s : Storage) :
    StoreM.ofResult result s = (result, s) := by
  cases result <;> rfl

theorem StoreM.get_apply (s : Storage) : (getThe Storage : StoreM Storage) s = (.ok s, s) := rfl

/-- A loop of the loader runs the writes of its rounds. -/
theorem forEach_eq {α : Type} {f : α → StoreM Unit} {put : α → Result Put}
    (round : ∀ x s, f x s = runPuts [put x] s) (xs : List α) (s : Storage) :
    StoreM.forEach xs f s = runPuts (xs.map put) s := by
  induction xs generalizing s with
  | nil => rfl
  | cons x xs ih =>
    rw [StoreM.forEach, List.foldlM_cons, StoreM.bind_apply, round x s]
    cases parsed : put x with
    | error e => simp only [List.map_cons, parsed, runPuts]
    | ok p =>
      simp only [List.map_cons, parsed, runPuts]
      exact ih _

theorem StoreM.tryPut_apply (fault : Option LibError) (table : Table) (key value : Bytes) (s : Storage) :
    StoreM.tryPut fault table key value s = runPuts [attempt fault (.ok ⟨table, key, value⟩)] s := by
  cases fault <;> rfl

theorem loadAccountWith_eq (fault : Option LibError) (addrHex balanceStr : String) (s : Storage) :
    loadAccountWith fault addrHex balanceStr s = runPuts [attempt fault (accountPut addrHex balanceStr)] s := by
  rw [loadAccountWith, accountPut, StoreM.bind_apply, StoreM.ofResult_apply]
  cases parseHexAddr addrHex with
  | error e => rfl
  | ok rawAddr =>
    dsimp only
    rw [StoreM.bind_apply, StoreM.ofResult_apply]
    cases parseU256 balanceStr with
    | error e => rfl
    | ok balance => exact StoreM.tryPut_apply _ _ _ _ _

theorem loadValidatorWith_eq (fault : Option LibError) (v : GenesisValidator) (s : Storage) :
    loadValidatorWith fault v s = runPuts [attempt fault (validatorPut v)] s := by
  rw [loadValidatorWith, validatorPut, StoreM.bind_apply, StoreM.ofResult_apply]
  cases parseHexAddr v.address with
  | error e => rfl
  | ok rawAddr =>
    dsimp only
    rw [StoreM.bind_apply, StoreM.ofResult_apply]
    cases parseU256 v.stake with
    | error e => rfl
    | ok stake => exact StoreM.tryPut_apply _ _ _ _ _

theorem loadAccountsWith_eq (fault : Nat → Option LibError) (accounts : HashMap String String) (s : Storage) :
    StoreM.forEach accounts.entries.zipIdx (fun e => loadAccountWith (fault e.2) e.1.1 e.1.2) s =
      runPuts (accounts.entries.zipIdx.map fun e => attempt (fault e.2) (accountPut e.1.1 e.1.2)) s :=
  forEach_eq (fun e s => loadAccountWith_eq (fault e.2) e.1.1 e.1.2 s) _ s

theorem loadValidatorsWith_eq (fault : Nat → Option LibError) (validators : List GenesisValidator)
    (s : Storage) :
    StoreM.forEach validators.zipIdx (fun v => loadValidatorWith (fault v.2) v.1) s =
      runPuts (validators.zipIdx.map fun v => attempt (fault v.2) (validatorPut v.1)) s :=
  forEach_eq (fun v s => loadValidatorWith_eq (fault v.2) v.1 s) _ s

/-- A computation that runs some writes, and goes on if they succeed. -/
theorem bind_runPuts {x : StoreM Unit} {f : Unit → StoreM Unit} (first : ∀ s, x s = runPuts steps s)
    (then_ : ∀ s, f () s = runPuts more s) (s : Storage) : (x >>= f) s = runPuts (steps ++ more) s := by
  rw [StoreM.bind_apply, runPuts_append, first]
  generalize runPuts steps s = outcome
  obtain ⟨_ | ⟨⟩, t⟩ := outcome
  · rfl
  · exact then_ t

/-- A load reads the file, and then runs its writes. -/
theorem loadGenesisWith_eq [Blake3] [SerdeJson] (faults : Faults) (file : Except String String)
    (s : Storage) :
    loadGenesisWith faults file s =
      match readGenesis file s with
      | .error e => (.error e, s)
      | .ok (json, config) => runPuts (faultyPuts faults json config) s := by
  unfold readGenesis
  rw [loadGenesisWith, StoreM.bind_apply, StoreM.get_apply]
  dsimp only
  split
  next => rfl
  next =>
    rw [StoreM.bind_apply, StoreM.ofResult_apply]
    cases file with
    | error e => rfl
    | ok json =>
      dsimp only [Except.mapError]
      rw [StoreM.bind_apply, StoreM.ofResult_apply]
      cases SerdeJson.genesisConfig json with
      | error e => rfl
      | ok config =>
        dsimp only [Except.mapError]
        have closing : List.zipWith (fun fault p => attempt fault (.ok p))
            [faults.genesisHash, faults.block, faults.marker] (closingPuts json config) =
            [attempt faults.genesisHash (.ok ⟨.metadata, genesisHashKey, (blake3 (utf8 json)).bytes⟩)] ++
            ([attempt faults.block
              (.ok ⟨.blocks, heightKey 0, Codec.block.encode (genesisBlock config.chainId)⟩)] ++
            [attempt faults.marker (.ok ⟨.metadata, genesisLoadedKey, utf8 "1"⟩)]) := rfl
        rw [faultyPuts, closing, ← List.singleton_append, List.append_assoc, List.append_assoc]
        refine bind_runPuts (StoreM.tryPut_apply _ _ _ _) ?_ s
        refine bind_runPuts (loadAccountsWith_eq faults.account config.initialAccounts) ?_
        refine bind_runPuts (loadValidatorsWith_eq faults.validator config.initialValidators) ?_
        refine bind_runPuts (StoreM.tryPut_apply _ _ _ _) ?_
        exact bind_runPuts (StoreM.tryPut_apply _ _ _ _) (StoreM.tryPut_apply _ _ _ _)

theorem forEach_zipIdx (xs : List α) (f : α → StoreM Unit) :
    StoreM.forEach xs.zipIdx (fun p => f p.1) = StoreM.forEach xs f := by
  rw [StoreM.forEach, StoreM.forEach]
  conv_rhs => rw [← List.zipIdx_map_fst 0 xs, List.foldlM_map]

/-- A database that fails no write runs the loader as it stands. -/
theorem loadGenesisWith_none [Blake3] [SerdeJson] (file : Except String String) :
    loadGenesisWith .none file = loadGenesis file := by
  have accounts (config : GenesisConfig) := forEach_zipIdx config.initialAccounts.entries
    fun e => loadAccount e.1 e.2
  have validators (config : GenesisConfig) := forEach_zipIdx config.initialValidators loadValidator
  simp only [loadGenesis, ← accounts, ← validators]
  rfl

theorem attempt_none (put : Result Put) : attempt .none put = put := by cases put <;> rfl

theorem faultyPuts_none [Blake3] (json : String) (config : GenesisConfig) :
    faultyPuts .none json config = genesisPuts json config := by
  have accounts := List.map_map (l := config.initialAccounts.entries.zipIdx) (f := Prod.fst)
    (g := fun e => accountPut e.1 e.2)
  have validators := List.map_map (l := config.initialValidators.zipIdx) (f := Prod.fst) (g := validatorPut)
  rw [List.zipIdx_map_fst] at accounts validators
  simp only [faultyPuts, genesisPuts, Faults.none, attempt_none, accounts, validators]
  rfl

/-- A load reads the file, and then runs its writes. -/
theorem loadGenesis_eq [Blake3] [SerdeJson] (file : Except String String) (s : Storage) :
    loadGenesis file s =
      match readGenesis file s with
      | .error e => (.error e, s)
      | .ok (json, config) => runPuts (genesisPuts json config) s := by
  rw [← loadGenesisWith_none, loadGenesisWith_eq]
  simp only [faultyPuts_none]

theorem readGenesis_eq_ok [SerdeJson] {file : Except String String} {json : String} {config : GenesisConfig} :
    readGenesis file s = .ok (json, config) ↔ s.contains .metadata genesisLoadedKey = false ∧
      file = .ok json ∧ SerdeJson.genesisConfig json = .ok config := by
  unfold readGenesis
  split
  next marked => exact iff_of_false (fun read => by cases read) (by simp [marked])
  next fresh =>
    rw [Bool.not_eq_true] at fresh
    cases file with
    | error e => exact iff_of_false (fun read => by cases read) (by simp)
    | ok text =>
      dsimp only
      cases parsed : SerdeJson.genesisConfig text with
      | error e =>
        refine iff_of_false (fun read => by cases read) ?_
        rintro ⟨-, ⟨⟩, other⟩
        cases parsed.symm.trans other
      | ok value =>
        constructor
        · rintro ⟨⟩
          exact ⟨fresh, rfl, parsed⟩
        · rintro ⟨-, ⟨⟩, other⟩
          cases parsed.symm.trans other
          rfl

theorem loadGenesis_eq_ok [Blake3] [SerdeJson] {file : Except String String} :
    loadGenesis file s = (.ok (), t) ↔ ∃ json config ps, readGenesis file s = .ok (json, config) ∧
      genesisPuts json config = ps.map .ok ∧ t = s.applyAll ps := by
  rw [loadGenesis_eq]
  cases readGenesis file s with
  | error e => exact iff_of_false (fun failed => by cases failed) (by simp)
  | ok value =>
    obtain ⟨json, config⟩ := value
    dsimp only
    rw [runPuts_eq_ok]
    constructor
    · rintro ⟨ps, steps, last⟩
      exact ⟨json, config, ps, rfl, steps, last⟩
    · rintro ⟨_, _, ps, ⟨⟩, steps, last⟩
      exact ⟨ps, steps, last⟩

/-- What loading a file that parses comes down to. -/
theorem loadGenesis_iff_of_parsed [Blake3] [SerdeJson] {json : String} {config : GenesisConfig}
    (parsed : SerdeJson.genesisConfig json = .ok config) :
    loadGenesis (.ok json) s = (.ok (), t) ↔ s.contains .metadata genesisLoadedKey = false ∧
      ∃ ps, genesisPuts json config = ps.map .ok ∧ t = s.applyAll ps := by
  rw [loadGenesis_eq_ok]
  constructor
  · rintro ⟨_, _, ps, read, written⟩
    obtain ⟨fresh, ⟨⟩, other⟩ := readGenesis_eq_ok.mp read
    cases parsed.symm.trans other
    exact ⟨fresh, ps, written⟩
  · rintro ⟨fresh, ps, written⟩
    exact ⟨json, config, ps, readGenesis_eq_ok.mpr ⟨fresh, rfl, parsed⟩, written⟩

theorem Storage.applyAll_cons (s : Storage) (p : Put) (ps : List Put) :
    s.applyAll (p :: ps) = (s.apply p).applyAll ps := rfl

theorem Storage.applyAll_append (s : Storage) (ps qs : List Put) :
    s.applyAll (ps ++ qs) = (s.applyAll ps).applyAll qs := List.foldl_append

theorem Storage.table_applyAll {table : Table} (other : ∀ p ∈ ps, p.table ≠ table) :
    (s.applyAll ps).table table = s.table table := by
  induction ps generalizing s with
  | nil => rfl
  | cons p ps ih =>
    rw [applyAll_cons, ih fun q member => other q (List.mem_cons_of_mem _ member)]
    exact s.table_put_of_ne _ _ (other p List.mem_cons_self).symm

/-- What a load writes. -/
theorem mem_genesisPuts [Blake3] {json : String} {config : GenesisConfig} {p : Put}
    (member : .ok p ∈ genesisPuts json config) :
    p = chainIdPut config ∨ (∃ e ∈ config.initialAccounts.entries, accountPut e.1 e.2 = .ok p) ∨
      (∃ v ∈ config.initialValidators, validatorPut v = .ok p) ∨ p ∈ closingPuts json config := by
  simpa [genesisPuts, or_assoc] using member

/-- The puts of accounts and of validators parse an address and an amount. -/
theorem parsedPut_eq_ok {addrHex amountStr : String} {put : FixedBytes 32 → U256 → Put} {p : Put} :
    (do
      let rawAddr ← parseHexAddr addrHex
      let amount ← parseU256 amountStr
      return put rawAddr amount : Result Put) = .ok p ↔
    ∃ rawAddr amount, parseHexAddr addrHex = .ok rawAddr ∧ parseU256 amountStr = .ok amount ∧
      p = put rawAddr amount := by
  cases parseHexAddr addrHex with
  | error e => simp [bind, Except.bind]
  | ok rawAddr =>
    cases parseU256 amountStr with
    | error e => simp [bind, Except.bind]
    | ok amount => simp [bind, Except.bind, pure, Except.pure, eq_comm]

theorem accountPut_eq_ok {addrHex balanceStr : String} {p : Put} :
    accountPut addrHex balanceStr = .ok p ↔ ∃ rawAddr balance, parseHexAddr addrHex = .ok rawAddr ∧
      parseU256 balanceStr = .ok balance ∧
      p = ⟨.accounts, rawAddr.bytes, Codec.account.encode (Account.new balance)⟩ := parsedPut_eq_ok

theorem validatorPut_eq_ok {v : GenesisValidator} {p : Put} :
    validatorPut v = .ok p ↔ ∃ rawAddr stake, parseHexAddr v.address = .ok rawAddr ∧
      parseU256 v.stake = .ok stake ∧
      p = ⟨.validators, rawAddr.bytes, rawAddr.bytes ++ leBytes 32 stake.toNat⟩ := parsedPut_eq_ok

theorem exists_parsedPut_iff {addrHex amountStr : String} {put : FixedBytes 32 → U256 → Put} :
    (∃ p, (do
      let rawAddr ← parseHexAddr addrHex
      let amount ← parseU256 amountStr
      return put rawAddr amount : Result Put) = .ok p) ↔
    (∃ rawAddr, parseHexAddr addrHex = .ok rawAddr) ∧ ∃ amount, parseU256 amountStr = .ok amount := by
  simp only [parsedPut_eq_ok]
  constructor
  · rintro ⟨_, rawAddr, amount, spelled, read, -⟩
    exact ⟨⟨rawAddr, spelled⟩, amount, read⟩
  · rintro ⟨⟨rawAddr, spelled⟩, amount, read⟩
    exact ⟨_, rawAddr, amount, spelled, read, rfl⟩

theorem exists_accountPut_iff {addrHex balanceStr : String} :
    (∃ p, accountPut addrHex balanceStr = .ok p) ↔
      (∃ rawAddr, parseHexAddr addrHex = .ok rawAddr) ∧ ∃ balance, parseU256 balanceStr = .ok balance :=
  exists_parsedPut_iff

theorem exists_validatorPut_iff {v : GenesisValidator} :
    (∃ p, validatorPut v = .ok p) ↔
      (∃ rawAddr, parseHexAddr v.address = .ok rawAddr) ∧ ∃ stake, parseU256 v.stake = .ok stake :=
  exists_parsedPut_iff

theorem table_of_genesisPuts [Blake3] {json : String} {config : GenesisConfig} {p : Put}
    (member : .ok p ∈ genesisPuts json config) :
    p.table = .metadata ∨ p.table = .accounts ∨ p.table = .validators ∨ p.table = .blocks := by
  rcases mem_genesisPuts member with rfl | ⟨e, _, parsed⟩ | ⟨v, _, parsed⟩ | closing
  · exact .inl rfl
  · obtain ⟨_, _, _, _, rfl⟩ := accountPut_eq_ok.mp parsed
    exact .inr (.inl rfl)
  · obtain ⟨_, _, _, _, rfl⟩ := validatorPut_eq_ok.mp parsed
    exact .inr (.inr (.inl rfl))
  · simp only [closingPuts, List.mem_cons, List.not_mem_nil, or_false] at closing
    rcases closing with rfl | rfl | rfl
    · exact .inl rfl
    · exact .inr (.inr (.inr rfl))
    · exact .inl rfl

theorem Storage.get_applyAll_concat (s : Storage) (ps : List Put) (p : Put) (table : Table) (key : Bytes) :
    (s.applyAll (ps ++ [p])).get table key =
      if table = p.table ∧ key = p.key then some p.value else (s.applyAll ps).get table key := by
  rw [applyAll_append]
  exact get_put _ _ _ _ _ _

/-- What is found was written, or is old. -/
theorem Storage.get_applyAll_eq_some {table : Table} {key value : Bytes}
    (found : (s.applyAll ps).get table key = some value) :
    ⟨table, key, value⟩ ∈ ps ∨ s.get table key = some value := by
  induction ps using List.reverseRecOn with
  | nil => exact .inr found
  | append_singleton ps p ih =>
    rw [get_applyAll_concat] at found
    split at found
    next here =>
      obtain ⟨rfl, rfl⟩ := here
      cases found
      exact .inl (by simp)
    next => exact (ih found).imp_left (List.mem_append_left _)

theorem Storage.get_applyAll_of_other {table : Table} {key : Bytes}
    (other : ∀ p ∈ ps, ¬(table = p.table ∧ key = p.key)) :
    (s.applyAll ps).get table key = s.get table key := by
  induction ps using List.reverseRecOn with
  | nil => rfl
  | append_singleton ps p ih =>
    rw [get_applyAll_concat, if_neg (other p (by simp))]
    exact ih fun q member => other q (List.mem_append_left _ member)

/-- Where the writes to a key agree, it holds what they write. -/
theorem Storage.get_applyAll_of_agree {table : Table} {key value : Bytes}
    (written : ∃ p ∈ ps, table = p.table ∧ key = p.key)
    (agree : ∀ p ∈ ps, table = p.table → key = p.key → p.value = value) :
    (s.applyAll ps).get table key = some value := by
  induction ps using List.reverseRecOn with
  | nil =>
    obtain ⟨p, member, -⟩ := written
    cases member
  | append_singleton ps p ih =>
    rw [get_applyAll_concat]
    split
    next here => rw [agree p (by simp) here.1 here.2]
    next other =>
      obtain ⟨q, member, here⟩ := written
      rcases List.mem_append.mp member with before | last
      · exact ih ⟨q, before, here⟩ fun q member => agree q (List.mem_append_left _ member)
      · cases List.mem_singleton.mp last
        exact absurd here other

theorem exists_puts_iff : (∃ ps : List Put, steps = ps.map .ok) ↔ ∀ step ∈ steps, ∃ p, step = .ok p := by
  constructor
  · rintro ⟨ps, rfl⟩ step member
    obtain ⟨p, -, rfl⟩ := List.mem_map.mp member
    exact ⟨p, rfl⟩
  · intro all
    induction steps with
    | nil => exact ⟨[], rfl⟩
    | cons step steps ih =>
      obtain ⟨p, rfl⟩ := all step List.mem_cons_self
      obtain ⟨ps, rfl⟩ := ih fun step member => all step (List.mem_cons_of_mem _ member)
      exact ⟨p :: ps, rfl⟩

theorem account_mem_genesisPuts [Blake3] {json : String} {config : GenesisConfig} {p : Put} :
    .ok p ∈ genesisPuts json config ∧ p.table = .accounts ↔
      ∃ e ∈ config.initialAccounts.entries, accountPut e.1 e.2 = .ok p := by
  constructor
  · rintro ⟨member, table⟩
    rcases mem_genesisPuts member with rfl | account | ⟨v, _, parsed⟩ | closing
    · cases table
    · exact account
    · obtain ⟨_, _, _, _, rfl⟩ := validatorPut_eq_ok.mp parsed
      cases table
    · simp only [closingPuts, List.mem_cons, List.not_mem_nil, or_false] at closing
      rcases closing with rfl | rfl | rfl <;> cases table
  · rintro ⟨e, member, parsed⟩
    constructor
    · simp only [genesisPuts, List.mem_append, List.mem_cons, List.mem_map]
      exact .inl (.inl (.inr ⟨e, member, parsed⟩))
    · obtain ⟨_, _, _, _, rfl⟩ := accountPut_eq_ok.mp parsed
      rfl

end

end Mononium
