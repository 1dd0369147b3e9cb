import Mononium.Node.Staking
import Mononium.Node.Standstill

/-! From the configuration to the slots of a node. A node knows itself only by a key file; one that
does not know itself takes every slot for its own. -/
namespace Mononium

open Rust Scale

structure NodeSection where
  dataDir : Option String
  unlockTimeout : Option U64
  deriving DecidableEq, Repr

structure NetworkSection where
  p2pPort : Option U16
  rpcPort : Option U16
  restPort : Option U16
  bootnodes : Option (List String)
  deriving DecidableEq, Repr

structure StorageSection where
  mode : Option String
  compactEras : Option U32
  fullNodeRpc : Option (List String)
  deriving DecidableEq, Repr

structure LogSection where
  level : Option String
  json : Option Bool
  deriving DecidableEq, Repr

structure NodeConfig where
  key : Option String
  keyFile : Option String
  observer : Bool
  genesis : Option String
  node : NodeSection
  network : NetworkSection
  storage : StorageSection
  log : LogSection
  deriving DecidableEq, Repr

structure CliOverrides where
  genesis : Option String
  key : Option String
  keyFile : Option String
  observer : Option Bool
  p2pPort : Option U16
  rpcPort : Option U16
  restPort : Option U16
  bootnodes : Option (List String)
  dataDir : Option String
  storageMode : Option String
  compactEras : Option U32
  fullNodeRpc : Option (List String)
  logLevel : Option String
  logJson : Option Bool
  unlockTimeout : Option U64
  deriving DecidableEq, Repr

/-- The flags of `mononium node`, but for the path of the configuration file. -/
structure NodeArgs where
  genesis : Option String
  key : Option String
  keyFile : Option String
  observer : Bool
  p2pPort : Option U16
  rpcPort : Option U16
  restPort : Option U16
  bootnode : List String
  dataDir : Option String
  storageMode : Option String
  logLevel : Option String
  logFormat : Option String
  unlockTimeout : Option U64
  deriving DecidableEq, Repr

def buildCliOverrides (args : NodeArgs) : CliOverrides where
  genesis := args.genesis
  key := args.key
  keyFile := args.keyFile
  observer := if args.observer then some true else none
  p2pPort := args.p2pPort
  rpcPort := args.rpcPort
  restPort := args.restPort
  bootnodes := if args.bootnode = [] then none else some args.bootnode
  dataDir := args.dataDir
  storageMode := args.storageMode
  compactEras := none
  fullNodeRpc := none
  logLevel := args.logLevel
  logJson := args.logFormat.map (· == "json")
  unlockTimeout := args.unlockTimeout

namespace NodeConfig

def default : NodeConfig where
  key := none
  keyFile := none
  observer := false
  genesis := none
  node := ⟨none, none⟩
  network := ⟨none, none, none, none⟩
  storage := ⟨none, none, none⟩
  log := ⟨none, none⟩

def mergeCli (self : NodeConfig) (cli : CliOverrides) : NodeConfig where
  key := cli.key <|> self.key
  keyFile := cli.keyFile <|> self.keyFile
  observer := cli.observer.getD self.observer
  genesis := cli.genesis <|> self.genesis
  node := ⟨cli.dataDir <|> self.node.dataDir, cli.unlockTimeout <|> self.node.unlockTimeout⟩
  network := ⟨cli.p2pPort <|> self.network.p2pPort, cli.rpcPort <|> self.network.rpcPort,
    cli.restPort <|> self.network.restPort, cli.bootnodes <|> self.network.bootnodes⟩
  storage := ⟨cli.storageMode <|> self.storage.mode, cli.compactEras <|> self.storage.compactEras,
    cli.fullNodeRpc <|> self.storage.fullNodeRpc⟩
  log := ⟨cli.logLevel <|> self.log.level, cli.logJson <|> self.log.json⟩

def p2pPort (self : NodeConfig) : U16 := self.network.p2pPort.getD 30333

def rpcPort (self : NodeConfig) : U16 := self.network.rpcPort.getD 9944

def restPort (self : NodeConfig) : U16 := self.network.restPort.getD 9933

def checkPorts (first second : String) (a b : U16) : Result Unit :=
  if a ≠ 0 ∧ a = b then
    .error (.storage (first ++ " (" ++ toString a.toNat ++ ") and " ++ second ++ " (" ++ toString b.toNat ++
      ") must differ"))
  else .ok ()

/-- At most one of a key, a key file and no identity at all, and at least one. -/
def checkRole (self : NodeConfig) : Result Unit :=
  match self.key, self.keyFile, self.observer with
  | none, none, false => .error (.storage "one of key, key_file, or observer must be set")
  | some _, some _, _ => .error (.storage "key and key_file are mutually exclusive")
  | some _, none, true | none, some _, true =>
    .error (.storage "observer cannot be combined with key or key_file")
  | _, _, _ => .ok ()

def checkGenesis (self : NodeConfig) : Result Unit :=
  if self.genesis.isNone then
    .error (.storage "genesis path must be configured (use --genesis or config file)")
  else .ok ()

def validate (self : NodeConfig) : Result Unit := do
  self.checkRole
  self.checkGenesis
  checkPorts "p2p_port" "rest_port" self.p2pPort self.restPort
  checkPorts "p2p_port" "rpc_port" self.p2pPort self.rpcPort
  checkPorts "rest_port" "rpc_port" self.restPort self.rpcPort

end NodeConfig

/-- The configuration with which `run_node` goes on. The file has been read, if there is one. -/
def nodeConfig (file : Option NodeConfig) (args : NodeArgs) : Result NodeConfig := do
  let config := (file.getD .default).mergeCli (buildCliOverrides args)
  config.validate
  return config

/-- `Path::join`. An absolute path replaces what it is joined to. -/
def joinPath (dir path : String) : String :=
  if path.toList.head? = some '/' then path
  else if dir = "" ∨ dir.toList.getLast? = some '/' then dir ++ path
  else dir ++ "/" ++ path

/-- The key files that can be read, by their paths, and the directory they are in by default. -/
structure KeyFiles where
  files : String → Option KeyFile
  keysDir : String

/-- `wallet::load_key`, without the texts of its errors. -/
def KeyFiles.loadKey (keys : KeyFiles) (name : String) : Option KeyFile :=
  keys.files (joinPath keys.keysDir (name ++ ".json"))

/-- The identity that `run_node` gives to its consensus engine. The name of a key is not looked at. -/
def NodeConfig.localValidator (self : NodeConfig) (keys : KeyFiles) : Option Address :=
  if self.observer then none
  else
    match self.keyFile with
    | none => none
    | some kfPath => (keys.loadKey kfPath).bind fun kf => localAddress kf.address

/-- What `validate` demands: one role, a genesis, and ports that differ. -/
structure NodeConfig.Valid (config : NodeConfig) : Prop where
  role : config.observer = true ∧ config.key = none ∧ config.keyFile = none ∨
    config.observer = false ∧ config.key.isSome ≠ config.keyFile.isSome
  genesis : config.genesis.isSome
  p2pRest : config.p2pPort ≠ 0 → config.p2pPort ≠ config.restPort
  p2pRpc : config.p2pPort ≠ 0 → config.p2pPort ≠ config.rpcPort
  restRpc : config.restPort ≠ 0 → config.restPort ≠ config.rpcPort

namespace NodeConfig

variable {config : NodeConfig} {file : Option NodeConfig} {args : NodeArgs} {keys : KeyFiles}

theorem checkPorts_eq_ok {first second : String} {a b : U16} :
    checkPorts first second a b = .ok () ↔ (a ≠ 0 → a ≠ b) := by
  unfold checkPorts
  split
  next clash => exact iff_of_false nofun fun apart => apart clash.1 clash.2
  next free => exact iff_of_true rfl fun used same => free ⟨used, same⟩

theorem seq_eq_ok {first second : Result Unit} :
    (first >>= fun _ => second) = .ok () ↔ first = .ok () ∧ second = .ok () := by
  cases first with
  | error e => simp [bind, Except.bind]
  | ok => simp [bind, Except.bind]

theorem checkRole_eq_ok : config.checkRole = .ok () ↔
    config.observer = true ∧ config.key = none ∧ config.keyFile = none ∨
      config.observer = false ∧ config.key.isSome ≠ config.keyFile.isSome := by
  unfold checkRole
  split
  next key keyFile observer => simp [key, keyFile, observer]
  next key keyFile => simp [key, keyFile]
  next key keyFile observer => simp [key, keyFile, observer]
  next key keyFile observer => simp [key, keyFile, observer]
  next neither both named filed =>
    cases key : config.key <;> cases keyFile : config.keyFile <;> cases observer : config.observer <;>
      simp_all

theorem checkGenesis_eq_ok : config.checkGenesis = .ok () ↔ config.genesis.isSome := by
  unfold checkGenesis
  cases config.genesis with
  | none => simp
  | some path => simp

theorem validate_eq_ok : config.validate = .ok () ↔ config.Valid := by
  rw [validate, seq_eq_ok, seq_eq_ok, seq_eq_ok, seq_eq_ok, checkRole_eq_ok, checkGenesis_eq_ok,
    checkPorts_eq_ok, checkPorts_eq_ok, checkPorts_eq_ok]
  exact ⟨fun ⟨role, genesis, a, b, c⟩ => ⟨role, genesis, a, b, c⟩,
    fun valid => ⟨valid.role, valid.genesis, valid.p2pRest, valid.p2pRpc, valid.restRpc⟩⟩

/-- The key file is there, and an address is in it. -/
def Identified (config : NodeConfig) (keys : KeyFiles) : Prop :=
  ∃ name kf, config.keyFile = some name ∧ keys.loadKey name = some kf ∧ localAddress kf.address ≠ none

theorem Valid.localValidator_eq_none (valid : config.Valid) :
    config.localValidator keys = none ↔ ¬config.Identified keys := by
  unfold localValidator Identified
  cases keyFile : config.keyFile with
  | none => simp
  | some name =>
    have validator : config.observer = false := by
      rcases valid.role with ⟨-, -, none⟩ | ⟨validator, -⟩
      · simp [keyFile] at none
      · exact validator
    rw [if_neg (by simp [validator])]
    cases loaded : keys.loadKey name with
    | none => simp [loaded]
    | some kf => simp [loaded]

theorem valid_of_configured (configured : nodeConfig file args = .ok config) :
    config.Valid ∧ config = (file.getD .default).mergeCli (buildCliOverrides args) := by
  unfold nodeConfig at configured
  dsimp only at configured
  cases ran : ((file.getD .default).mergeCli (buildCliOverrides args)).validate with
  | error e =>
    rw [ran] at configured
    cases configured
  | ok =>
    rw [ran] at configured
    cases configured
    exact ⟨validate_eq_ok.mp ran, rfl⟩

/-- What says that there is a key by name, or none, leaves no place for a key file. -/
theorem Valid.not_identified (valid : config.Valid) (other : config.observer = true ∨ config.key.isSome) :
    ¬config.Identified keys := by
  rintro ⟨name, kf, keyFile, -, -⟩
  rcases valid.role with ⟨-, -, none⟩ | ⟨validator, one⟩
  · simp [keyFile] at none
  · rcases other with observer | named
    · simp [validator] at observer
    · simp [keyFile, named] at one

end NodeConfig

namespace Tasks

variable [Blake3] {A : Finset Address} {start tasks next : Tasks}

/-- Nothing that a node does changes who it is. -/
theorem Reaches.key (reaches : Reaches A start tasks) :
    tasks.engine.localValidator = start.engine.localValidator := by
  induction reaches with
  | refl => rfl
  | @move middle next move slotEnd _ _ ran ih =>
    refine Eq.trans ?_ ih
    cases step_cases ran with
    | busy | idle | store | submit => rfl
    | start _ ran =>
      obtain ⟨height, ours, turn⟩ := start_turn ran
      exact turn.key
    | finish _ ran => rw [finish_engine ran]

/-- A slot is the node's own if it does not know itself, or is scheduled. -/
theorem start_proposes_iff {listing : List Address} {fault : Bool} {slotEnd : SlotEnd}
    (idle : tasks.production = none) (ran : tasks.step (.start listing fault) = .ok (slotEnd, next)) :
    ∃ schedule height, next.engine.schedule = some schedule ∧
      height.toNat = tasks.engine.currentHeight.toNat + 1 ∧
      (tasks.Proposes next ↔ ∀ v, tasks.engine.localValidator = some v →
        schedule.isScheduledProposer v height = .ok true) := by
  rw [step, idle] at ran
  obtain ⟨height, ours, turn⟩ := start_turn ran
  refine ⟨_, height, turn.schedule, turn.above, ?_⟩
  cases ours with
  | true =>
    refine iff_of_true ?_ turn.decided
    rcases turn.begins rfl with ⟨production, begun, -, -⟩ | ⟨-, reached⟩
    · exact .inl (by rw [begun]; rfl)
    · exact .inr (by rw [reached, turn.above])
  | false =>
    obtain ⟨same, kept⟩ := turn.waits rfl
    refine iff_of_false ?_ fun all => ?_
    · rintro (begun | reached)
      · simp [same, idle] at begun
      · rw [kept] at reached
        omega
    · cases own : tasks.engine.localValidator with
      | none => cases turn.stranger own
      | some v =>
        have decided := turn.decided v own
        rw [all v own] at decided
        cases decided

end Tasks

section

variable [Blake3] {A : Finset Address} {file : Option NodeConfig} {args : NodeArgs} {config : NodeConfig}
  {keys : KeyFiles} {storage : Storage} {node : Node} {tasks : Tasks}

/-- Of the nodes that accept their configuration, those find themselves in the schedules that have a
key file under its name with `.json` appended and an address in it. To all others, those with a key
by name and the observers among them, every slot is their own, whoever is elected. -/
theorem role_decides_slots (configured : nodeConfig file args = .ok config)
    (started : startNode (config.localValidator keys) storage = .ok (.ok node))
    (reached : Tasks.Reaches A node.launch tasks) :
    (args.observer = true ∨ args.key.isSome ∨
        (∃ given, file = some given ∧ (given.observer = true ∨ given.key.isSome)) →
      ¬config.Identified keys) ∧
    ∀ listing fault slotEnd next, tasks.production = none →
      tasks.step (.start listing fault) = .ok (slotEnd, next) →
      ∃ schedule height, next.engine.schedule = some schedule ∧
        height.toNat = tasks.engine.currentHeight.toNat + 1 ∧
        (tasks.Proposes next ↔ (config.Identified keys → ∃ v, config.localValidator keys = some v ∧
          schedule.isScheduledProposer v height = .ok true)) := by
  obtain ⟨valid, merged⟩ := NodeConfig.valid_of_configured configured
  have itself : tasks.engine.localValidator = config.localValidator keys := by
    obtain ⟨_, -, started⟩ := bind_eq_ok.mp started
    obtain ⟨⟨consistent, state⟩, -, started⟩ := bind_eq_ok.mp started
    dsimp only at started
    split at started
    next => cases started
    next =>
      cases started
      exact reached.key
  refine ⟨fun other => valid.not_identified ?_, fun listing fault slotEnd next idle ran => ?_⟩
  · rw [merged]
    rcases other with observer | named | ⟨given, rfl, observer | named⟩
    · simp [NodeConfig.mergeCli, buildCliOverrides, observer]
    · obtain ⟨name, named⟩ := Option.isSome_iff_exists.mp named
      simp [NodeConfig.mergeCli, buildCliOverrides, named]
    · cases flag : args.observer <;> simp [NodeConfig.mergeCli, buildCliOverrides, observer, flag]
    · obtain ⟨name, named⟩ := Option.isSome_iff_exists.mp named
      cases flag : args.key <;> simp [NodeConfig.mergeCli, buildCliOverrides, named, flag]
  · obtain ⟨schedule, height, scheduled, above, proposes⟩ := Tasks.start_proposes_iff idle ran
    refine ⟨schedule, height, scheduled, above, proposes.trans ?_⟩
    rw [itself]
    cases known : config.localValidator keys with
    | none =>
      have stranger := valid.localValidator_eq_none.mp known
      exact iff_of_true nofun fun identified => absurd identified stranger
    | some v =>
      have identified : config.Identified keys := by
        by_contra stranger
        rw [valid.localValidator_eq_none.mpr stranger] at known
        cases known
      constructor
      · exact fun all _ => ⟨v, rfl, all v rfl⟩
      · intro found other same
        obtain ⟨w, again, decided⟩ := found identified
        cases same.symm.trans again
        exact decided

end

section Sample

attribute [local instance] peakBlake3 soloSerdeJson

def keyFileArgs : NodeArgs where
  genesis := some "genesis.json"
  key := none
  keyFile := some "/keys/bob.json"
  observer := false
  p2pPort := none
  rpcPort := none
  restPort := none
  bootnode := []
  dataDir := none
  storageMode := none
  logLevel := none
  logFormat := none
  unlockTimeout := none

def bobKeys : KeyFiles where
  files path := if path = "/keys/bob.json" then some ⟨"", "", "", formatAddress bob⟩ else none
  keysDir := "/root/.mononium/keys"

/-- A node that is given the path of its key file looks for another file, does not know itself, and
takes its first slot for its own. -/
theorem keyFile_not_found : ∃ config next, nodeConfig none keyFileArgs = .ok config ∧
    bobKeys.files "/keys/bob.json" = some ⟨"", "", "", formatAddress bob⟩ ∧ ¬config.Identified bobKeys ∧
    startNode (config.localValidator bobKeys) soloStorage = .ok (.ok soloNode) ∧
    soloNode.launch.step (.start [] false) = .ok (.none, next) ∧ soloNode.launch.Proposes next := by
  let config := NodeConfig.default.mergeCli (buildCliOverrides keyFileArgs)
  have configured : nodeConfig none keyFileArgs = .ok config := by decide
  have there : bobKeys.files "/keys/bob.json" = some ⟨"", "", "", formatAddress bob⟩ := by
    simp only [bobKeys, ↓reduceIte]
  have unknown : config.localValidator bobKeys = none := by decide
  have stranger : ¬config.Identified bobKeys :=
    (NodeConfig.valid_of_configured configured).1.localValidator_eq_none.mp unknown
  have started : startNode (config.localValidator bobKeys) soloStorage = .ok (.ok soloNode) := by
    rw [unknown]
    exact solo_started
  have idle : soloNode.launch.production = none := rfl
  have genesis : soloNode.launch.storage = soloStorage := by rw [Node.launch, soloNode]
  obtain ⟨next, ran, -⟩ := Tasks.vote_started idle rfl rfl genesis
  have here : Tasks.Reaches {alice} soloNode.launch soloNode.launch := .refl
  obtain ⟨_, _, -, -, proposes⟩ := (role_decides_slots configured started here).2 [] false .none next idle ran
  exact ⟨config, next, configured, there, stranger, started, ran,
    proposes.mpr fun identified => absurd identified stranger⟩

end Sample

end Mononium
