import Mokv.Config.RoundTrip

/-!
# The local address

`LoadFromEnv` overrides settings of a loaded config, and `ConfigManager::LoadFromMokvConfig` of
`mokv/raft/config.hpp` takes the addresses of the Raft nodes from it.  `FindPeer` and
`SyncLocalPeer` mean the first peer with the local id, `ConfigManager` the last one.

* `synced_of_obtained`: the first is at the address of the config.
* `one_address_iff`: the manager takes the same address when the last one is there as well.
-/

namespace Mokv

open Lib

/-! ### The environment -/

/-- A variable that is set and that its parser accepts, and else the old value. -/
def envOr {α : Type} (getEnv : Bytes → Option Bytes) (name : Bytes) (parse : Bytes → Option α)
    (old : α) : α :=
  ((getEnv name).bind parse).getD old

/-- The peers of `MOKV_PEERS`. -/
def envPeers (value : Bytes) : List RaftPeer :=
  ((split value 59).filter fun item => !item.isEmpty).filterMap parsePeer

namespace MokvConfig

/-- The config with the values of the variables. -/
def overrideFromEnv (config : MokvConfig) (getEnv : Bytes → Option Bytes) : MokvConfig :=
  { config with
    host := envOr getEnv (text "MOKV_HOST") some config.host
    port := envOr getEnv (text "MOKV_PORT") parseUInt16 config.port
    dataDir := envOr getEnv (text "MOKV_DATA_DIR") some config.dataDir
    maxMemoryMb := envOr getEnv (text "MOKV_MAX_MEMORY") parseSize config.maxMemoryMb
    blockCacheSizeMb := envOr getEnv (text "MOKV_BLOCK_CACHE_MB") parseSize config.blockCacheSizeMb
    memtableSizeMb := envOr getEnv (text "MOKV_MEMTABLE_MB") parseSize config.memtableSizeMb
    nodeId := envOr getEnv (text "MOKV_NODE_ID") parseInt32 config.nodeId
    electionTimeoutMs :=
      envOr getEnv (text "MOKV_ELECTION_TIMEOUT_MS") parseInt32 config.electionTimeoutMs
    heartbeatIntervalMs :=
      envOr getEnv (text "MOKV_HEARTBEAT_INTERVAL_MS") parseInt32 config.heartbeatIntervalMs
    snapshotIntervalS :=
      envOr getEnv (text "MOKV_SNAPSHOT_INTERVAL_S") parseInt32 config.snapshotIntervalS
    enableCompaction :=
      envOr getEnv (text "MOKV_ENABLE_COMPACTION") parseBool config.enableCompaction
    verboseLogging := envOr getEnv (text "MOKV_VERBOSE_LOGGING") parseBool config.verboseLogging
    logLevel := envOr getEnv (text "MOKV_LOG_LEVEL") some config.logLevel
    peers := envOr getEnv (text "MOKV_PEERS") (fun value => some (envPeers value)) config.peers }

/-- `MokvConfig::LoadFromEnv`. -/
def loadFromEnv (config : MokvConfig) (getEnv : Bytes → Option Bytes) : MokvConfig :=
  let hostExplicit := (getEnv (text "MOKV_HOST")).isSome
  let portExplicit := ((getEnv (text "MOKV_PORT")).bind parseUInt16).isSome
  let config := config.overrideFromEnv getEnv
  if config.peers = [] then { config with peers := [config.localPeer] }
  else syncLocalPeer config hostExplicit portExplicit

/-- The last peer with an id. -/
def findLastPeer (config : MokvConfig) (id : Int32) : Option RaftPeer :=
  config.peers.reverse.find? fun peer => peer.id = id

end MokvConfig

/-! ### The manager -/

/-- The message `Address`. -/
structure Address where
  id : Int32 := 0
  ip : Bytes := []
  port : Int32 := 0
deriving DecidableEq

/-- The address of a peer. -/
def RaftPeer.address (peer : RaftPeer) : Address :=
  ⟨peer.id, peer.host, Int32.ofInt peer.port.toNat⟩

/-- `ConfigManager`. -/
structure ConfigManager where
  ready : Bool := false
  addresses : List Address := []
  localAddress : Address := {}

/-- `ConfigManager::LoadFromMokvConfig`: its result is whether the manager is ready. -/
def ConfigManager.loadFromMokvConfig (config : MokvConfig) : ConfigManager :=
  let addresses := config.peers.map RaftPeer.address
  let localAddress :=
    config.peers.foldl (fun a peer => if peer.id = config.nodeId then peer.address else a) {}
  if localAddress.ip = [] ∨ localAddress.port = 0 then
    let localAddress := config.localPeer.address
    ⟨0 < localAddress.port, addresses ++ [localAddress], localAddress⟩
  else ⟨0 < localAddress.port, addresses, localAddress⟩

/-! ### The config that the server runs with -/

/-- A config from a file, and perhaps from the environment after that. -/
inductive Obtained : MokvConfig → Prop
  | file {before config : MokvConfig} {content : Option Bytes}
      (h : before.loadFromFile content = (true, config)) : Obtained config
  | env {before config : MokvConfig} {content : Option Bytes} (getEnv : Bytes → Option Bytes)
      (h : before.loadFromFile content = (true, config)) : Obtained (config.loadFromEnv getEnv)

theorem loadFromEnv_eq (config : MokvConfig) (getEnv : Bytes → Option Bytes) :
    ∃ hostExplicit portExplicit, config.loadFromEnv getEnv =
      syncLocalPeer (config.overrideFromEnv getEnv) hostExplicit portExplicit := by
  refine ⟨(getEnv (text "MOKV_HOST")).isSome,
    ((getEnv (text "MOKV_PORT")).bind parseUInt16).isSome, ?_⟩
  rw [MokvConfig.loadFromEnv]
  split
  · rename_i hnil
    rw [syncLocalPeer, MokvConfig.findPeer, hnil]
    rfl
  · rfl

/-- **The first peer with the local id is at the address of the config.** -/
theorem synced_of_obtained {config : MokvConfig} (h : Obtained config) : config.Synced := by
  cases h with
  | file h => exact (plainConfig_of_loadFromFile h).2.1
  | env getEnv h =>
    obtain ⟨_, _, heq⟩ := loadFromEnv_eq _ getEnv
    rw [heq]
    exact synced_syncLocalPeer _ _ _

theorem address_of_mem_envPeers {value : Bytes} {peer : RaftPeer} (h : peer ∈ envPeers value) :
    peer.host ≠ [] ∧ peer.port ≠ 0 := by
  obtain ⟨item, -, hitem⟩ := List.mem_filterMap.mp h
  obtain ⟨id, port, -, -, hport, hhost⟩ := parsePeer_eq_some.mp hitem
  exact ⟨hhost, (parseUInt16_eq_some.mp hport).1⟩

theorem address_of_obtained {config : MokvConfig} (h : Obtained config) {peer : RaftPeer}
    (hpeer : peer ∈ config.peers) :
    peer = config.localPeer ∨ (peer.host ≠ [] ∧ peer.port ≠ 0) := by
  cases h with
  | file h =>
    obtain ⟨-, -, -, -, hall⟩ := MokvConfig.validate_iff.mp (plainConfig_of_loadFromFile h).2.2
    exact Or.inr (hall peer hpeer).2
  | @env before config content getEnv h =>
    obtain ⟨-, -, -, -, hall⟩ := MokvConfig.validate_iff.mp (plainConfig_of_loadFromFile h).2.2
    obtain ⟨_, _, heq⟩ := loadFromEnv_eq config getEnv
    rw [heq] at hpeer ⊢
    rcases mem_peers_syncLocalPeer _ _ _ hpeer with hpeer | hpeer
    · right
      have hmem : peer ∈ envOr getEnv (text "MOKV_PEERS") (fun value => some (envPeers value))
          config.peers := hpeer
      rw [envOr] at hmem
      cases hvalue : getEnv (text "MOKV_PEERS") with
      | none =>
        rw [hvalue] at hmem
        exact (hall peer hmem).2
      | some value =>
        rw [hvalue] at hmem
        exact address_of_mem_envPeers hmem
    · exact Or.inl hpeer

/-! ### The address that the manager takes -/

theorem toInt_ofInt_port (port : UInt16) : (Int32.ofInt port.toNat).toInt = port.toNat := by
  have hlt := port.toNat_lt
  exact Int32.toInt_ofInt_of_le (by omega) (by omega)

theorem address_injective : Function.Injective RaftPeer.address := by
  rintro ⟨id, host, port⟩ ⟨id', host', port'⟩ h
  obtain ⟨rfl, rfl, hport⟩ := Address.mk.inj h
  have hint : (port.toNat : Int) = port'.toNat :=
    (toInt_ofInt_port port).symm.trans ((congrArg Int32.toInt hport).trans (toInt_ofInt_port port'))
  rw [UInt16.toNat_inj.mp (Int.ofNat_inj.mp hint)]

theorem port_address_ne_zero {peer : RaftPeer} (h : peer.port ≠ 0) : peer.address.port ≠ 0 := by
  intro hzero
  have heq : peer.address = RaftPeer.address { peer with port := 0 } := by
    rw [RaftPeer.address, RaftPeer.address, Address.mk.injEq]
    exact ⟨rfl, rfl, hzero⟩
  exact h (congrArg RaftPeer.port (address_injective heq))

theorem localAddress_eq {config : MokvConfig} {last : RaftPeer}
    (hlast : config.findLastPeer config.nodeId = some last)
    (haddress : last = config.localPeer ∨ (last.host ≠ [] ∧ last.port ≠ 0)) :
    (ConfigManager.loadFromMokvConfig config).localAddress = last.address := by
  have hfold : config.peers.foldl
      (fun a peer => if peer.id = config.nodeId then peer.address else a) {} = last.address := by
    have hlast' := foldl_last (p := fun peer : RaftPeer => peer.id = config.nodeId)
      (g := RaftPeer.address) {} config.peers
    rw [MokvConfig.findLastPeer] at hlast
    rw [hlast] at hlast'
    simpa using hlast'
  rw [ConfigManager.loadFromMokvConfig, hfold]
  split
  · rename_i hmissing
    rcases haddress with rfl | ⟨hhost, hport⟩
    · rfl
    · rcases hmissing with hmissing | hmissing
      · exact absurd hmissing hhost
      · exact absurd hmissing (port_address_ne_zero hport)
  · rfl

/-- `FindPeer` and the manager both give the address of the config for the local id. -/
def OneLocalAddress (config : MokvConfig) : Prop :=
  (∃ peer, config.findPeer config.nodeId = some peer ∧ peer.host = config.host ∧
    peer.port = config.port) ∧
  (ConfigManager.loadFromMokvConfig config).localAddress =
    ⟨config.nodeId, config.host, Int32.ofInt config.port.toNat⟩

/-- **When the whole program has one local address.**  `FindPeer` gives the address of the
config, and the manager takes it exactly if the last peer with the local id is the first one or
has its address. -/
theorem one_address_iff {config : MokvConfig} (h : Obtained config) :
    OneLocalAddress config ↔
      config.findLastPeer config.nodeId = config.findPeer config.nodeId := by
  have hsynced := synced_of_obtained h
  have hexists : ∃ peer, config.findPeer config.nodeId = some peer ∧ peer.host = config.host ∧
      peer.port = config.port := ⟨config.localPeer, hsynced, rfl, rfl⟩
  obtain ⟨last, hlast⟩ : ∃ last, config.findLastPeer config.nodeId = some last := by
    rw [← Option.isSome_iff_exists, MokvConfig.findLastPeer, List.find?_isSome]
    exact ⟨config.localPeer, List.mem_reverse.mpr hsynced.mem, decide_eq_true rfl⟩
  have hmem : last ∈ config.peers := List.mem_reverse.mp (List.mem_of_find?_eq_some hlast)
  rw [OneLocalAddress, and_iff_right hexists,
    localAddress_eq hlast (address_of_obtained h hmem), hlast, hsynced, Option.some.injEq]
  exact address_injective.eq_iff' rfl

/-- A file that lists the local server once. -/
theorem one_address_twoServers :
    OneLocalAddress (defaultConfig.loadFromFile
      (some (text "node_id=2\npeer=1,a,9001\npeer=2,b,9002\n"))).2 :=
  (one_address_iff (.file (show defaultConfig.loadFromFile _ = _ from
    Prod.ext (by decide) rfl))).mpr (by decide)

/-- A file that lists the local server at two addresses: the config has the first one, the
manager the second. -/
theorem two_addresses : ¬ ∀ config : MokvConfig, Obtained config → OneLocalAddress config := by
  intro h
  have hconfig := h (defaultConfig.loadFromFile (some (text "peer=1,a,9001\npeer=1,b,9002\n"))).2
    (.file (show defaultConfig.loadFromFile _ = _ from Prod.ext (by decide) rfl))
  exact absurd hconfig.2 (by decide)

end Mokv
