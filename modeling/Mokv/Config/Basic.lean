import Mokv.Bytes
import Mokv.Lib.FirstMatch
import Mokv.Lib.Numeral

/-!
# The configuration

`MokvConfig` of `mokv/config.hpp`, its check `Validate`, the parsers of single settings in
`mokv/config.cpp`, and `SyncLocalPeer`, which makes the config and the first peer with the
local id agree on one address.  A path is the string it was made from.

* `findPeer_syncLocalPeer`: after it the local id is found at the address of the config.
* `parseInt32_printInt`, `parseUInt16_printInt`, `parseSize_printInt`: numbers that the server
  prints are parsed back.
-/

namespace Mokv

open Lib

/-- `MokvConfig::RaftPeer`. -/
structure RaftPeer where
  id : Int32 := 0
  host : Bytes := text "127.0.0.1"
  port : UInt16 := 0
deriving DecidableEq

/-- `MokvConfig`. -/
structure MokvConfig where
  port : UInt16 := 9001
  host : Bytes := text "0.0.0.0"
  dataDir : Bytes := text "./data"
  maxMemoryMb : UInt64 := 4096
  blockCacheSizeMb : UInt64 := 256
  memtableSizeMb : UInt64 := 64
  nodeId : Int32 := 1
  electionTimeoutMs : Int32 := 5000
  heartbeatIntervalMs : Int32 := 1000
  snapshotIntervalS : Int32 := 3600
  peers : List RaftPeer := []
  enableCompaction : Bool := true
  level0CompactionThreshold : UInt64 := 4
  backgroundThreads : UInt32 := 4
  maxBackgroundJobs : UInt32 := 8
  verboseLogging : Bool := false
  logLevel : Bytes := text "INFO"
deriving DecidableEq

namespace MokvConfig

/-- `MokvConfig::Validate`. -/
def validate (config : MokvConfig) : Bool :=
  config.port != 0 && config.maxMemoryMb != 0 && 1000 ≤ config.electionTimeoutMs &&
    0 < config.heartbeatIntervalMs &&
    config.peers.all fun peer => 0 < peer.id && !peer.host.isEmpty && peer.port != 0

/-- `MokvConfig::FindPeer`. -/
def findPeer (config : MokvConfig) (id : Int32) : Option RaftPeer :=
  config.peers.find? fun peer => peer.id = id

/-- The peer `{node_id, host, port}`. -/
def localPeer (config : MokvConfig) : RaftPeer := ⟨config.nodeId, config.host, config.port⟩

/-- The config and its first peer with the local id at one address. -/
def setAddress (config : MokvConfig) (host : Bytes) (port : UInt16) : MokvConfig :=
  { config with
    host := host
    port := port
    peers := modifyFirst (fun peer => peer.id = config.nodeId)
      (fun peer => { peer with host := host, port := port }) config.peers }

end MokvConfig

/-- `DefaultConfig`. -/
def defaultConfig : MokvConfig :=
  let config : MokvConfig := {}
  { config with peers := [config.localPeer] }

/-- The default config with other peers. -/
def defaultWithPeers (peers : List RaftPeer) : MokvConfig := { defaultConfig with peers := peers }

/-- `SyncLocalPeer`: the host and the port of the local peer are those of the config where they
were set explicitly, and else those of the config are the peer's. -/
def syncLocalPeer (config : MokvConfig) (hostExplicit portExplicit : Bool) : MokvConfig :=
  match config.findPeer config.nodeId with
  | none => { config with peers := config.peers ++ [config.localPeer] }
  | some it =>
    config.setAddress (if hostExplicit then config.host else it.host)
      (if portExplicit then config.port else it.port)

/-! ### Parsers of settings -/

/-- `std::tolower`. -/
def toLower (ch : UInt8) : UInt8 := if 65 ≤ ch ∧ ch ≤ 90 then ch + 32 else ch

/-- `ParseBool`. -/
def parseBool (value : Bytes) : Option Bool :=
  let value := (trim value).map toLower
  if value = text "1" ∨ value = text "true" ∨ value = text "yes" ∨ value = text "on" then
    some true
  else if value = text "0" ∨ value = text "false" ∨ value = text "no" ∨ value = text "off" then
    some false
  else none

/-- `ParseInt32`, on `std::stoll`. -/
def parseInt32 (raw : Bytes) : Option Int32 :=
  match scanSigned 64 (trim raw) with
  | some (value, _) =>
    if value < -2 ^ 31 ∨ 2 ^ 31 - 1 < value then none else some (Int32.ofInt value)
  | none => none

/-- `ParseUInt16`, on `std::stoul`. -/
def parseUInt16 (raw : Bytes) : Option UInt16 :=
  match scanUnsigned 64 (trim raw) with
  | some (value, _) => if value = 0 ∨ 65535 < value then none else some (UInt16.ofNat value)
  | none => none

/-- `ParseSize`, on `std::stoull`. -/
def parseSize (raw : Bytes) : Option UInt64 :=
  match scanUnsigned 64 (trim raw) with
  | some (value, _) => some (UInt64.ofNat value)
  | none => none

/-- `Split`. -/
def split (value : Bytes) (delimiter : UInt8) : List Bytes := (getlinesAt delimiter value).map trim

/-- `ParsePeer`. -/
def parsePeer (raw : Bytes) : Option RaftPeer :=
  match split raw 44 with
  | [id, host, port] =>
    match parseInt32 id, parseUInt16 port with
    | some id, some port => if host = [] then none else some ⟨id, host, port⟩
    | _, _ => none
  | _ => none

/-! ### What the parsers accept -/

theorem parseInt32_eq_some {raw : Bytes} {x : Int32} :
    parseInt32 raw = some x ↔ ∃ rest, scanInt (trim raw) = some (x.toInt, rest) := by
  have hlo := x.le_toInt
  have hhi := x.toInt_lt
  rw [parseInt32]
  constructor
  · intro h
    split at h
    · rename_i value rest hscan
      split at h
      · cases h
      · obtain rfl := Option.some.inj h
        rw [Int32.toInt_ofInt_of_le (by omega) (by omega)]
        exact ⟨rest, (scanSigned_eq_some.mp hscan).1⟩
    · cases h
  · rintro ⟨rest, hscan⟩
    have hsigned : scanSigned 64 (trim raw) = some (x.toInt, rest) :=
      scanSigned_eq_some.mpr ⟨hscan, by omega, by omega⟩
    rw [hsigned]
    simp only
    rw [if_neg (by omega), Int32.ofInt_toInt]

theorem parseUInt16_eq_some {raw : Bytes} {x : UInt16} :
    parseUInt16 raw = some x ↔ x ≠ 0 ∧ ∃ v rest, scanInt (trim raw) = some (v, rest) ∧
      v.natAbs < 2 ^ 64 ∧ x.toNat = (v % 2 ^ 64).toNat := by
  rw [parseUInt16]
  constructor
  · intro h
    split at h
    · rename_i value rest hscan
      obtain ⟨v, hv, hlt, hvalue⟩ := scanUnsigned_eq_some.mp hscan
      split at h
      · cases h
      · obtain rfl := Option.some.inj h
        have hnat : (UInt16.ofNat value).toNat = value :=
          UInt16.toNat_ofNat_of_lt' (by rw [UInt16.size]; omega)
        refine ⟨?_, v, rest, hv, hlt, by rw [hnat, hvalue]⟩
        rintro hzero
        rw [hzero] at hnat
        exact absurd hnat.symm (by simp; omega)
    · cases h
  · rintro ⟨hne, v, rest, hv, hlt, hx⟩
    rw [scanUnsigned_eq_some.mpr ⟨v, hv, hlt, hx⟩]
    have hpos : x.toNat ≠ 0 := fun h => hne (UInt16.toNat_inj.mp h)
    have hmax := x.toNat_lt
    simp only
    rw [if_neg (by omega), UInt16.ofNat_toNat]

theorem parseSize_eq_some {raw : Bytes} {x : UInt64} :
    parseSize raw = some x ↔ ∃ v rest, scanInt (trim raw) = some (v, rest) ∧
      v.natAbs < 2 ^ 64 ∧ x.toNat = (v % 2 ^ 64).toNat := by
  rw [parseSize]
  constructor
  · intro h
    split at h
    · rename_i value rest hscan
      obtain ⟨v, hv, hlt, rfl⟩ := scanUnsigned_eq_some.mp hscan
      obtain rfl := Option.some.inj h
      exact ⟨v, rest, hv, hlt, UInt64.toNat_ofNat_of_lt' (toNat_emod_lt 64 v)⟩
    · cases h
  · rintro ⟨v, rest, hv, hlt, hx⟩
    rw [scanUnsigned_eq_some.mpr ⟨v, hv, hlt, hx⟩]
    simp only [UInt64.ofNat_toNat]

theorem natAbs_of_lt {n : Nat} (h : n < 2 ^ 64) :
    (n : Int).natAbs < 2 ^ 64 ∧ n = ((n : Int) % 2 ^ 64).toNat := by
  omega

theorem parseInt32_printInt (x : Int32) : parseInt32 (printInt x.toInt) = some x := by
  rw [parseInt32_eq_some, (trimmed_printInt _).trim_eq]
  exact ⟨[], scanInt_printInt _⟩

theorem parseUInt16_printInt {x : UInt16} (hx : x ≠ 0) :
    parseUInt16 (printInt x.toNat) = some x := by
  obtain ⟨hlt, hmod⟩ := natAbs_of_lt (lt_trans x.toNat_lt (by decide))
  rw [parseUInt16_eq_some, (trimmed_printInt _).trim_eq]
  exact ⟨hx, x.toNat, [], scanInt_printInt _, hlt, hmod⟩

theorem parseSize_printInt (x : UInt64) : parseSize (printInt x.toNat) = some x := by
  obtain ⟨hlt, hmod⟩ := natAbs_of_lt x.toNat_lt
  rw [parseSize_eq_some, (trimmed_printInt _).trim_eq]
  exact ⟨x.toNat, [], scanInt_printInt _, hlt, hmod⟩

theorem parsePeer_eq_some {raw : Bytes} {peer : RaftPeer} :
    parsePeer raw = some peer ↔ ∃ id port, split raw 44 = [id, peer.host, port] ∧
      parseInt32 id = some peer.id ∧ parseUInt16 port = some peer.port ∧ peer.host ≠ [] := by
  rw [parsePeer]
  constructor
  · intro h
    split at h
    · rename_i id host port hsplit
      split at h
      · rename_i id' port' hid hport
        split at h
        · cases h
        · rename_i hne
          obtain rfl := Option.some.inj h
          exact ⟨id, port, hsplit, hid, hport, hne⟩
      · cases h
    · cases h
  · rintro ⟨id, port, hsplit, hid, hport, hne⟩
    rw [hsplit]
    simp only [hid, hport, if_neg hne]

/-! ### The local peer -/

namespace MokvConfig

theorem validate_iff {config : MokvConfig} :
    config.validate ↔ config.port ≠ 0 ∧ config.maxMemoryMb ≠ 0 ∧
      1000 ≤ config.electionTimeoutMs ∧ 0 < config.heartbeatIntervalMs ∧
      ∀ peer ∈ config.peers, 0 < peer.id ∧ peer.host ≠ [] ∧ peer.port ≠ 0 := by
  simp [validate, and_assoc]

/-- `FindPeer` of the local id gives the address of the config. -/
def Synced (config : MokvConfig) : Prop :=
  config.findPeer config.nodeId = some config.localPeer

theorem id_of_findPeer {config : MokvConfig} {id : Int32} {peer : RaftPeer}
    (h : config.findPeer id = some peer) : peer.id = id := by
  simpa using List.find?_some h

theorem mem_of_findPeer {config : MokvConfig} {id : Int32} {peer : RaftPeer}
    (h : config.findPeer id = some peer) : peer ∈ config.peers := List.mem_of_find?_eq_some h

theorem Synced.mem {config : MokvConfig} (h : config.Synced) : config.localPeer ∈ config.peers :=
  mem_of_findPeer h

theorem synced_append {config : MokvConfig} (h : config.findPeer config.nodeId = none) :
    MokvConfig.Synced { config with peers := config.peers ++ [config.localPeer] } := by
  rw [findPeer] at h
  simp [Synced, findPeer, h, localPeer]

variable {config : MokvConfig} {host : Bytes} {port : UInt16}

theorem synced_setAddress {it : RaftPeer} (h : config.findPeer config.nodeId = some it) :
    (config.setAddress host port).Synced := by
  have hid := id_of_findPeer h
  have hfind : (config.setAddress host port).findPeer config.nodeId =
      (config.findPeer config.nodeId).map fun peer => { peer with host := host, port := port } := by
    refine find?_modifyFirst ?_ config.peers
    exact fun _ hpeer => hpeer
  rw [Synced, localPeer]
  refine hfind.trans ?_
  rw [h, Option.map_some, hid]
  rfl

theorem mem_peers_setAddress {peer : RaftPeer} (h : peer ∈ (config.setAddress host port).peers) :
    peer ∈ config.peers ∨ peer = (config.setAddress host port).localPeer := by
  rcases mem_modifyFirst h with h | ⟨it, hit, rfl⟩
  · exact Or.inl h
  · have hid : it.id = config.nodeId := id_of_findPeer hit
    exact Or.inr (by rw [localPeer, hid]; rfl)

/-- Nothing changes where they are at the address of the config already. -/
theorem setAddress_of_synced (h : config.Synced) :
    config.setAddress config.host config.port = config := by
  have hsame : modifyFirst (fun peer => peer.id = config.nodeId)
      (fun peer : RaftPeer => { peer with host := config.host, port := config.port })
      config.peers = config.peers := by
    refine modifyFirst_eq_self fun peer hpeer => ?_
    obtain rfl := Option.some.inj (hpeer.symm.trans h)
    rfl
  rw [setAddress, hsame]

end MokvConfig

section SyncLocalPeer

variable (config : MokvConfig) (hostExplicit portExplicit : Bool)

/-- **The config and its local peer agree.** -/
theorem synced_syncLocalPeer : (syncLocalPeer config hostExplicit portExplicit).Synced := by
  unfold syncLocalPeer
  split
  · exact MokvConfig.synced_append ‹_›
  · exact MokvConfig.synced_setAddress ‹_›

theorem exists_syncLocalPeer_eq :
    ∃ host port peers, syncLocalPeer config hostExplicit portExplicit =
      { config with host := host, port := port, peers := peers } := by
  unfold syncLocalPeer
  split
  · exact ⟨config.host, config.port, _, rfl⟩
  · exact ⟨_, _, _, rfl⟩

theorem mem_peers_syncLocalPeer {peer : RaftPeer}
    (h : peer ∈ (syncLocalPeer config hostExplicit portExplicit).peers) :
    peer ∈ config.peers ∨ peer = (syncLocalPeer config hostExplicit portExplicit).localPeer := by
  unfold syncLocalPeer at h ⊢
  split at h
  · rcases List.mem_append.mp h with h | h
    · exact Or.inl h
    · exact Or.inr (List.mem_singleton.mp h)
  · exact MokvConfig.mem_peers_setAddress h

theorem host_syncLocalPeer :
    (syncLocalPeer config hostExplicit portExplicit).host = config.host ∨
      ∃ peer ∈ config.peers, (syncLocalPeer config hostExplicit portExplicit).host = peer.host := by
  unfold syncLocalPeer
  split
  · exact Or.inl rfl
  · rename_i it hit
    cases hostExplicit with
    | true => exact Or.inl rfl
    | false => exact Or.inr ⟨it, MokvConfig.mem_of_findPeer hit, rfl⟩

variable {config}

theorem syncLocalPeer_of_synced (h : config.Synced) :
    syncLocalPeer config hostExplicit portExplicit = config := by
  rw [syncLocalPeer, h]
  simp only [MokvConfig.localPeer, ite_self]
  exact MokvConfig.setAddress_of_synced h

end SyncLocalPeer

end Mokv
