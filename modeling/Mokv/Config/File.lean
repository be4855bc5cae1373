import Mokv.Config.Basic
import Mokv.Lib.Run

/-!
# Configuration files

`LoadFromFile` and `SaveToFile` of `mokv/config.cpp`.  A file whose first word is a number is a
legacy `raft.cfg`: a count, so many peers, and the local server, read word by word into the config
that is to be loaded.  Any other file has a setting on each line, and the config is replaced at
the end, when the whole file was good.

`Setting` lists the names of settings in the order in which the loader compares them; `settingOf`
is the setting of a line, and `Loading.set` what the loader does with it.

* `loadModern_eq_some`: a file that loads has its settings set one after the other.
* `loadLegacyConfig_eq_true`: what a legacy file that loads leaves in the config.
-/

namespace Mokv

open Lib

/-! ### Legacy files -/

/-- A server in the legacy file: its id, its host, and its port if that is in range. -/
def extractPeer (input : Bytes) : Option (RaftPeer × Bytes) :=
  match scanSigned 32 input with
  | none => none
  | some (id, input) =>
    match word? input with
    | none => none
    | some (host, input) =>
      match scanSigned 32 input with
      | none => none
      | some (port, input) =>
        if port ≤ 0 ∨ 65535 < port then none
        else some (⟨Int32.ofInt id, host, UInt16.ofNat port.toNat⟩, input)

/-- The loop over the peers of the legacy file: the text behind them, if all were read, and the
config with those that were. -/
def loadLegacyPeers : Nat → Bytes → MokvConfig → Option Bytes × MokvConfig
  | 0, input, config => (some input, config)
  | n + 1, input, config =>
    match extractPeer input with
    | none => (none, config)
    | some (peer, input) => loadLegacyPeers n input { config with peers := config.peers ++ [peer] }

/-- The local server at the end of the legacy file.  Its host is written before its port is
read. -/
def loadLegacyLocal (input : Bytes) (config : MokvConfig) : Bool × MokvConfig :=
  match scanSigned 32 input with
  | none => (false, config)
  | some (localId, input) =>
    match word? input with
    | none => (false, config)
    | some (host, input) =>
      let config := { config with host := host }
      match scanSigned 32 input with
      | none => (false, config)
      | some (localPort, _) =>
        if localPort ≤ 0 ∨ 65535 < localPort then (false, config)
        else
          let config :=
            { config with nodeId := Int32.ofInt localId, port := UInt16.ofNat localPort.toNat }
          let config :=
            match config.findPeer config.nodeId with
            | some peer => { config with host := peer.host, port := peer.port }
            | none => { config with peers := config.peers ++ [config.localPeer] }
          (config.validate, config)

/-- `LoadLegacyConfig`: whether the file was good, and the config in either case. -/
def loadLegacyConfig (input : Bytes) (config : MokvConfig) : Bool × MokvConfig :=
  match scanUnsigned 64 input with
  | none => (false, config)
  | some (peerCount, input) =>
    match loadLegacyPeers peerCount input (defaultWithPeers []) with
    | (none, config) => (false, config)
    | (some input, config) => loadLegacyLocal input config

/-- The first word of the file is a number. -/
def isLegacy (content : Bytes) : Bool :=
  match word? content with
  | some (firstToken, _) => !firstToken.contains 61 && firstToken.all isDigit
  | none => false

/-! ### Settings -/

/-- The settings. -/
inductive Setting
  | host
  | port
  | dataDir
  | maxMemoryMb
  | blockCacheSizeMb
  | memtableSizeMb
  | nodeId
  | electionTimeoutMs
  | heartbeatIntervalMs
  | snapshotIntervalS
  | enableCompaction
  | level0CompactionThreshold
  | backgroundThreads
  | maxBackgroundJobs
  | verboseLogging
  | logLevel
  | peer
deriving DecidableEq

namespace Setting

/-- The settings in the order of the loader. -/
def all : List Setting :=
  [host, port, dataDir, maxMemoryMb, blockCacheSizeMb, memtableSizeMb, nodeId, electionTimeoutMs,
    heartbeatIntervalMs, snapshotIntervalS, enableCompaction, level0CompactionThreshold,
    backgroundThreads, maxBackgroundJobs, verboseLogging, logLevel, peer]

/-- The name in the file. -/
def name : Setting → Bytes
  | host => text "host"
  | port => text "port"
  | dataDir => text "data_dir"
  | maxMemoryMb => text "max_memory_mb"
  | blockCacheSizeMb => text "block_cache_size_mb"
  | memtableSizeMb => text "memtable_size_mb"
  | nodeId => text "node_id"
  | electionTimeoutMs => text "election_timeout_ms"
  | heartbeatIntervalMs => text "heartbeat_interval_ms"
  | snapshotIntervalS => text "snapshot_interval_s"
  | enableCompaction => text "enable_compaction"
  | level0CompactionThreshold => text "level0_compaction_threshold"
  | backgroundThreads => text "background_threads"
  | maxBackgroundJobs => text "max_background_jobs"
  | verboseLogging => text "verbose_logging"
  | logLevel => text "log_level"
  | peer => text "peer"

/-- The setting with a name. -/
def ofName? (key : Bytes) : Option Setting := all.find? fun setting => setting.name = key

end Setting

/-- The locals of the loader. -/
structure Loading where
  loaded : MokvConfig
  hostExplicit : Bool := false
  portExplicit : Bool := false

namespace Loading

/-- The branch of the loader for a setting. -/
def set (s : Loading) (value : Bytes) : Setting → Option Loading
  | .host => some { s with loaded.host := value, hostExplicit := true }
  | .port =>
    (parseUInt16 value).map fun port => { s with loaded.port := port, portExplicit := true }
  | .dataDir => some { s with loaded.dataDir := value }
  | .maxMemoryMb => (parseSize value).map fun x => { s with loaded.maxMemoryMb := x }
  | .blockCacheSizeMb => (parseSize value).map fun x => { s with loaded.blockCacheSizeMb := x }
  | .memtableSizeMb => (parseSize value).map fun x => { s with loaded.memtableSizeMb := x }
  | .nodeId => (parseInt32 value).map fun x => { s with loaded.nodeId := x }
  | .electionTimeoutMs => (parseInt32 value).map fun x => { s with loaded.electionTimeoutMs := x }
  | .heartbeatIntervalMs =>
    (parseInt32 value).map fun x => { s with loaded.heartbeatIntervalMs := x }
  | .snapshotIntervalS => (parseInt32 value).map fun x => { s with loaded.snapshotIntervalS := x }
  | .enableCompaction => (parseBool value).map fun x => { s with loaded.enableCompaction := x }
  | .level0CompactionThreshold =>
    (parseSize value).map fun x => { s with loaded.level0CompactionThreshold := x }
  | .backgroundThreads =>
    (parseSize value).map fun parsed => { s with loaded.backgroundThreads := parsed.toUInt32 }
  | .maxBackgroundJobs =>
    (parseSize value).map fun parsed => { s with loaded.maxBackgroundJobs := parsed.toUInt32 }
  | .verboseLogging => (parseBool value).map fun x => { s with loaded.verboseLogging := x }
  | .logLevel => some { s with loaded.logLevel := value }
  | .peer =>
    (parsePeer value).map fun peer => { s with loaded.peers := s.loaded.peers ++ [peer] }

/-- The loader before the first line. -/
def start : Loading := { loaded := defaultWithPeers [] }

/-- The config with its local peer. -/
def finish (s : Loading) : MokvConfig :=
  if s.loaded.peers = [] then { s.loaded with peers := [s.loaded.localPeer] }
  else syncLocalPeer s.loaded s.hostExplicit s.portExplicit

end Loading

/-- Blank lines and comments say nothing. -/
def skipped (line : Bytes) : Bool := line.isEmpty || line.head? = some 35

/-- The setting on a line and the text behind the first `=`. -/
def settingOf (line : Bytes) : Option (Setting × Bytes) :=
  if line.contains 61 then
    (Setting.ofName? (trim (line.takeWhile (· ≠ 61)))).map fun setting =>
      (setting, trim (line.dropWhile (· ≠ 61)).tail)
  else none

/-- The loop over the lines. -/
def loadLine (s : Loading) (line : Bytes) : Option Loading :=
  if skipped (trim line) then some s
  else
    match settingOf (trim line) with
    | some (setting, value) => s.set value setting
    | none => none

/-- The file of settings. -/
def loadModern (content : Bytes) : Option MokvConfig :=
  match run loadLine Loading.start (getlinesAt 10 content) with
  | some s => if s.finish.validate then some s.finish else none
  | none => none

/-- `MokvConfig::LoadFromFile` on the content of the file, if it could be opened: its result, and
the config. -/
def MokvConfig.loadFromFile (config : MokvConfig) (content : Option Bytes) : Bool × MokvConfig :=
  match content with
  | none => (false, config)
  | some content =>
    if isLegacy content then loadLegacyConfig content config
    else
      match loadModern content with
      | some loaded => (true, loaded)
      | none => (false, config)

/-! ### Saving -/

namespace MokvConfig

/-- The texts of the settings and of the peers. -/
def savedSettings (config : MokvConfig) : List (Setting × Bytes) :=
  [(.host, config.host),
    (.port, printInt config.port.toNat),
    (.dataDir, config.dataDir),
    (.maxMemoryMb, printInt config.maxMemoryMb.toNat),
    (.blockCacheSizeMb, printInt config.blockCacheSizeMb.toNat),
    (.memtableSizeMb, printInt config.memtableSizeMb.toNat),
    (.nodeId, printInt config.nodeId.toInt),
    (.electionTimeoutMs, printInt config.electionTimeoutMs.toInt),
    (.heartbeatIntervalMs, printInt config.heartbeatIntervalMs.toInt),
    (.snapshotIntervalS, printInt config.snapshotIntervalS.toInt),
    (.enableCompaction, if config.enableCompaction then text "true" else text "false"),
    (.level0CompactionThreshold, printInt config.level0CompactionThreshold.toNat),
    (.backgroundThreads, printInt config.backgroundThreads.toNat),
    (.maxBackgroundJobs, printInt config.maxBackgroundJobs.toNat),
    (.verboseLogging, if config.verboseLogging then text "true" else text "false"),
    (.logLevel, config.logLevel)] ++
  config.peers.map fun peer =>
    (.peer, printInt peer.id.toInt ++ 44 :: (peer.host ++ 44 :: printInt peer.port.toNat))

/-- `MokvConfig::SaveToFile`: the content of the file. -/
def saveToFile (config : MokvConfig) : Bytes :=
  config.savedSettings.flatMap fun p => p.1.name ++ 61 :: p.2 ++ [10]

end MokvConfig

/-! ### What a file that loads was -/

/-- The settings of a file, in order. -/
def settings (content : Bytes) : List (Setting × Bytes) :=
  (((getlinesAt 10 content).map trim).filter fun line => !skipped line).filterMap settingOf

/-- One setting. -/
def Loading.step (s : Loading) (p : Setting × Bytes) : Option Loading := s.set p.2 p.1

theorem run_step_of_run_loadLine {lines : List Bytes} {s s' : Loading}
    (h : run loadLine s lines = some s') :
    run Loading.step s (((lines.map trim).filter fun line => !skipped line).filterMap settingOf) =
      some s' := by
  induction lines generalizing s with
  | nil => exact h
  | cons line lines ih =>
    obtain ⟨t, ht, hs'⟩ := Option.bind_eq_some_iff.mp h
    rw [loadLine] at ht
    rw [List.map_cons]
    split at ht
    · rename_i hskip
      obtain rfl := Option.some.inj ht
      rw [List.filter_cons_of_neg (by rw [hskip]; exact Bool.false_ne_true)]
      exact ih hs'
    · rename_i hskip
      split at ht
      · rename_i setting value hsetting
        rw [List.filter_cons_of_pos (by simpa using hskip),
          List.filterMap_cons_some hsetting, run_cons]
        exact Option.bind_eq_some_iff.mpr ⟨t, ht, ih hs'⟩
      · cases ht

/-- **A file loads when its settings can be set one after the other and the end is valid.** -/
theorem loadModern_eq_some {content : Bytes} {config : MokvConfig}
    (h : loadModern content = some config) :
    ∃ s, run Loading.step Loading.start (settings content) = some s ∧ config = s.finish ∧
      config.validate := by
  rw [loadModern] at h
  split at h
  · rename_i s hrun
    split at h
    · rename_i hvalid
      obtain rfl := Option.some.inj h
      exact ⟨s, run_step_of_run_loadLine hrun, rfl, hvalid⟩
    · cases h
  · cases h

theorem value_of_mem_settings {content : Bytes} {p : Setting × Bytes} (h : p ∈ settings content) :
    Trimmed p.2 ∧ 10 ∉ p.2 := by
  obtain ⟨line, hline, hp⟩ := List.mem_filterMap.mp h
  obtain ⟨line', hline', rfl⟩ := List.mem_map.mp (List.mem_filter.mp hline).1
  rw [settingOf] at hp
  split at hp
  · obtain ⟨setting, -, rfl⟩ := Option.map_eq_some_iff.mp hp
    refine ⟨trimmed_trim _, ?_⟩
    intro hmem
    have hdrop := List.mem_of_mem_tail (mem_of_mem_trim hmem)
    exact not_mem_of_mem_getlinesAt hline'
      (mem_of_mem_trim ((List.dropWhile_sublist _).subset hdrop))
  · cases hp

theorem Loading.finish_eq (s : Loading) :
    s.finish = syncLocalPeer s.loaded s.hostExplicit s.portExplicit := by
  unfold Loading.finish
  split
  · rename_i hnil
    rw [syncLocalPeer, MokvConfig.findPeer, hnil]
    rfl
  · rfl

theorem loadFromFile_eq_true {config loaded : MokvConfig} {content : Option Bytes}
    (h : config.loadFromFile content = (true, loaded)) :
    ∃ raw, content = some raw ∧
      ((isLegacy raw ∧ loadLegacyConfig raw config = (true, loaded)) ∨
        (isLegacy raw = false ∧ loadModern raw = some loaded)) := by
  cases content with
  | none => cases h
  | some raw =>
    refine ⟨raw, rfl, ?_⟩
    simp only [MokvConfig.loadFromFile] at h
    split at h
    · exact Or.inl ⟨‹_›, h⟩
    · rename_i hlegacy
      split at h
      · rename_i c hc
        obtain ⟨-, rfl⟩ := Prod.mk.inj h
        exact Or.inr ⟨Bool.eq_false_iff.mpr hlegacy, hc⟩
      · cases h

/-! ### What a legacy file leaves -/

theorem extractPeer_eq_some_iff {input rest : Bytes} {peer : RaftPeer} :
    extractPeer input = some (peer, rest) ↔
      ∃ id input₁ host input₂ port, scanSigned 32 input = some (id, input₁) ∧
        word? input₁ = some (host, input₂) ∧ scanSigned 32 input₂ = some (port, rest) ∧
        ¬ (port ≤ 0 ∨ 65535 < port) ∧
        peer = ⟨Int32.ofInt id, host, UInt16.ofNat port.toNat⟩ := by
  constructor
  · intro h
    rw [extractPeer] at h
    split at h
    · cases h
    · rename_i id input₁ hid
      split at h
      · cases h
      · rename_i host input₂ hhost
        split at h
        · cases h
        · rename_i port rest' hport
          split at h
          · cases h
          · rename_i hrange
            obtain ⟨rfl, rfl⟩ := Prod.mk.inj (Option.some.inj h)
            exact ⟨id, input₁, host, input₂, port, hid, hhost, hport, hrange, rfl⟩
  · rintro ⟨id, input₁, host, input₂, port, hid, hhost, hport, hrange, rfl⟩
    rw [extractPeer, hid]
    simp only [hhost, hport, if_neg hrange]

theorem address_of_extractPeer {input rest : Bytes} {peer : RaftPeer}
    (h : extractPeer input = some (peer, rest)) :
    peer.port ≠ 0 ∧ peer.host ≠ [] ∧ ∀ ch ∈ peer.host, isSpace ch = false := by
  obtain ⟨id, input₁, host, input₂, port, -, hhost, -, hrange, rfl⟩ := extractPeer_eq_some_iff.mp h
  obtain ⟨hne, hspace⟩ := not_isSpace_of_word hhost
  refine ⟨?_, hne, hspace⟩
  intro hzero
  have hnat := congrArg UInt16.toNat hzero
  rw [UInt16.toNat_ofNat_of_lt' (by rw [UInt16.size]; omega)] at hnat
  exact absurd hnat (by simp; omega)

theorem loadLegacyPeers_eq {n : Nat} {input : Bytes} {config : MokvConfig} :
    ∃ peers, (loadLegacyPeers n input config).2 = { config with peers := config.peers ++ peers } ∧
      ∀ peer ∈ peers, ∃ input rest, extractPeer input = some (peer, rest) := by
  induction n generalizing input config with
  | zero => exact ⟨[], by rw [List.append_nil]; rfl, nofun⟩
  | succ n ih =>
    rw [loadLegacyPeers]
    split
    · exact ⟨[], by rw [List.append_nil], nofun⟩
    · rename_i peer input' hpeer
      obtain ⟨peers, hpeers, hall⟩ := @ih input' { config with peers := config.peers ++ [peer] }
      refine ⟨peer :: peers, by rw [hpeers, List.append_assoc]; rfl, ?_⟩
      exact List.forall_mem_cons.mpr ⟨⟨input, input', hpeer⟩, hall⟩

/-- The legacy loader resolves the local peer as the other does where nothing is explicit. -/
theorem syncLocalPeer_implicit (config : MokvConfig) :
    (match config.findPeer config.nodeId with
      | some peer => { config with host := peer.host, port := peer.port }
      | none => { config with peers := config.peers ++ [config.localPeer] }) =
    syncLocalPeer config false false := by
  unfold syncLocalPeer
  split
  · rename_i peer hpeer
    have hid := MokvConfig.id_of_findPeer hpeer
    have hsynced : MokvConfig.Synced { config with host := peer.host, port := peer.port } := by
      refine hpeer.trans ?_
      rw [MokvConfig.localPeer, ← hid]
    rw [hpeer]
    exact (MokvConfig.setAddress_of_synced hsynced).symm
  · rename_i hnone
    rw [hnone]

/-- The config of the server that a record describes. -/
def MokvConfig.withLocal (config : MokvConfig) (peer : RaftPeer) : MokvConfig :=
  { config with host := peer.host, nodeId := peer.id, port := peer.port }

theorem loadLegacyLocal_of_extractPeer {input rest : Bytes} {peer : RaftPeer} (config : MokvConfig)
    (h : extractPeer input = some (peer, rest)) :
    loadLegacyLocal input config =
      ((syncLocalPeer (config.withLocal peer) false false).validate,
        syncLocalPeer (config.withLocal peer) false false) := by
  obtain ⟨id, input₁, host, input₂, port, hid, hhost, hport, hrange, rfl⟩ :=
    extractPeer_eq_some_iff.mp h
  rw [loadLegacyLocal, hid]
  simp only [hhost, hport, if_neg hrange]
  rw [syncLocalPeer_implicit]
  rfl

theorem extractPeer_of_loadLegacyLocal {input : Bytes} {config : MokvConfig}
    (h : (loadLegacyLocal input config).1 = true) :
    ∃ peer rest, extractPeer input = some (peer, rest) := by
  rw [loadLegacyLocal] at h
  split at h
  · cases h
  · rename_i id input₁ hid
    split at h
    · cases h
    · rename_i host input₂ hhost
      simp only at h
      split at h
      · cases h
      · rename_i port rest hport
        split at h
        · cases h
        · rename_i hrange
          exact ⟨_, rest, extractPeer_eq_some_iff.mpr
            ⟨id, input₁, host, input₂, port, hid, hhost, hport, hrange, rfl⟩⟩

theorem loadLegacyLocal_eq_true {input : Bytes} {config loaded : MokvConfig}
    (h : loadLegacyLocal input config = (true, loaded)) :
    ∃ peer rest, extractPeer input = some (peer, rest) ∧ loaded.validate ∧
      loaded = syncLocalPeer (config.withLocal peer) false false := by
  obtain ⟨peer, rest, hpeer⟩ := extractPeer_of_loadLegacyLocal (congrArg Prod.fst h)
  rw [loadLegacyLocal_of_extractPeer config hpeer] at h
  obtain ⟨hvalid, rfl⟩ := Prod.mk.inj h
  exact ⟨peer, rest, hpeer, hvalid, rfl⟩

/-- **A legacy file that loads** leaves the defaults, the peers it lists and the local server,
whose address is that of the first peer with its id. -/
theorem loadLegacyConfig_eq_true {input : Bytes} {config loaded : MokvConfig}
    (h : loadLegacyConfig input config = (true, loaded)) :
    ∃ peers : List RaftPeer, ∃ peer : RaftPeer,
      (∀ p ∈ peer :: peers, ∃ input rest, extractPeer input = some (p, rest)) ∧
      loaded.validate ∧
      loaded = syncLocalPeer
        ((defaultWithPeers peers).withLocal peer) false false := by
  rw [loadLegacyConfig] at h
  split at h
  · cases h
  · rename_i count input' _
    obtain ⟨peers, hpeers, hall⟩ :=
      @loadLegacyPeers_eq count input' (defaultWithPeers [])
    split at h
    · cases h
    · rename_i rest config' hloop
      rw [hloop] at hpeers
      obtain ⟨peer, rest', hpeer, hvalid, rfl⟩ := loadLegacyLocal_eq_true h
      refine ⟨peers, peer, List.forall_mem_cons.mpr ⟨⟨rest, rest', hpeer⟩, hall⟩, hvalid, ?_⟩
      obtain rfl : config' = defaultWithPeers peers := hpeers
      rfl

end Mokv
