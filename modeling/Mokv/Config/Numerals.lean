import Mathlib.Data.List.Forall2
import Mokv.Config.RoundTrip

/-!
# What the numbers of a file mean

`MeansWhatItSays content config`: each number of the config is the one that the whole text of its
last line denotes, and no line has a text that is no numeral in the range of its field.  The
parsers stop at the first byte that is no digit, let a minus wrap a number without a sign around,
and cut the numbers of threads and jobs to 32 bits.

* `number_of_run`: what the fields hold after the lines.
* `means_iff`: a file means what it says when its numerals are written without these.
-/

namespace Mokv

open Lib

/-! ### Numbers -/

/-- The number in the field of a setting. -/
def MokvConfig.number (config : MokvConfig) : Setting → Option Int
  | .port => some config.port.toNat
  | .maxMemoryMb => some config.maxMemoryMb.toNat
  | .blockCacheSizeMb => some config.blockCacheSizeMb.toNat
  | .memtableSizeMb => some config.memtableSizeMb.toNat
  | .nodeId => some config.nodeId.toInt
  | .electionTimeoutMs => some config.electionTimeoutMs.toInt
  | .heartbeatIntervalMs => some config.heartbeatIntervalMs.toInt
  | .snapshotIntervalS => some config.snapshotIntervalS.toInt
  | .level0CompactionThreshold => some config.level0CompactionThreshold.toNat
  | .backgroundThreads => some config.backgroundThreads.toNat
  | .maxBackgroundJobs => some config.maxBackgroundJobs.toNat
  | .host | .dataDir | .enableCompaction | .verboseLogging | .logLevel | .peer => none

/-- The least and the greatest number that the field of a setting holds. -/
def Setting.range : Setting → Option (Int × Int)
  | .port => some (0, 2 ^ 16 - 1)
  | .maxMemoryMb | .blockCacheSizeMb | .memtableSizeMb | .level0CompactionThreshold =>
    some (0, 2 ^ 64 - 1)
  | .nodeId | .electionTimeoutMs | .heartbeatIntervalMs | .snapshotIntervalS =>
    some (-2 ^ 31, 2 ^ 31 - 1)
  | .backgroundThreads | .maxBackgroundJobs => some (0, 2 ^ 32 - 1)
  | .host | .dataDir | .enableCompaction | .verboseLogging | .logLevel | .peer => none

/-- The text is a numeral in the range. -/
def Numeral (range : Int × Int) (value : Bytes) : Prop :=
  ∃ v, readInt value = some v ∧ range.1 ≤ v ∧ v ≤ range.2

/-- The text of the last of the lines for a setting. -/
def lastText (l : List (Setting × Bytes)) (setting : Setting) : Option Bytes :=
  (l.reverse.find? fun p => p.1 = setting).map Prod.snd

/-- The texts of the peer lines. -/
def peerTexts (l : List (Setting × Bytes)) : List Bytes :=
  (l.filter fun p => p.1 = .peer).map Prod.snd

/-- The peer has the fields of its line. -/
def PeerMeans (value : Bytes) (peer : RaftPeer) : Prop :=
  ∃ id port, split value 44 = [id, peer.host, port] ∧ readInt id = some peer.id.toInt ∧
    readInt port = some (peer.port.toNat : Int)

/-- A peer with the host and the port of the config where they are explicit. -/
def explicitAddress (hostExplicit portExplicit : Bool) (config : MokvConfig) (peer : RaftPeer) :
    RaftPeer :=
  { peer with
    host := if hostExplicit then config.host else peer.host
    port := if portExplicit then config.port else peer.port }

/-- The peers of the lines, the first with the local id at the explicit address, and the local
peer behind them if it has no line. -/
def withLocalPeer (hostExplicit portExplicit : Bool) (config : MokvConfig)
    (own : List RaftPeer) : List RaftPeer :=
  modifyFirst (fun peer => peer.id = config.nodeId)
      (explicitAddress hostExplicit portExplicit config) own ++
    if own.any fun peer => peer.id = config.nodeId then [] else [config.localPeer]

/-- The config has the numbers of the lines. -/
structure MeansWhatItSays (l : List (Setting × Bytes)) (config : MokvConfig) : Prop where
  number : ∀ setting value v, lastText l setting = some value → config.number setting = some v →
    readInt value = some v
  line : ∀ p ∈ l, ∀ range, p.1.range = some range → Numeral range p.2
  peers : ∃ own, List.Forall₂ PeerMeans (peerTexts l) own ∧ config.peers =
    withLocalPeer (lastText l .host).isSome (lastText l .port).isSome config own

/-- The text has nothing behind the digits, no minus where the field has no sign, and no more
than 32 bits where the field is cut to them. -/
def wellWritten (value : Bytes) : Setting → Bool
  | .nodeId | .electionTimeoutMs | .heartbeatIntervalMs | .snapshotIntervalS =>
    (readInt value).isSome
  | .port | .maxMemoryMb | .blockCacheSizeMb | .memtableSizeMb | .level0CompactionThreshold =>
    (readInt value).any fun v => 0 ≤ v
  | .backgroundThreads | .maxBackgroundJobs => (readInt value).any fun v => 0 ≤ v && v < 2 ^ 32
  | .peer =>
    match split value 44 with
    | [id, _, port] => (readInt id).isSome && (readInt port).any fun v => 0 ≤ v
    | _ => true
  | .host | .dataDir | .enableCompaction | .verboseLogging | .logLevel => true

/-! ### What the parsers read off a numeral -/

theorem readInt_of_parseInt32 {value : Bytes} {x : Int32} (ht : Trimmed value)
    (h : parseInt32 value = some x) (hwell : (readInt value).isSome) :
    readInt value = some x.toInt := by
  obtain ⟨v, hv⟩ := Option.isSome_iff_exists.mp hwell
  obtain ⟨rest, hscan⟩ := parseInt32_eq_some.mp h
  rw [ht.trim_eq, (readInt_iff_scanInt ht).mp hv] at hscan
  rw [hv, (Prod.mk.inj (Option.some.inj hscan)).1]

theorem readInt_of_scanInt {value rest : Bytes} {n : Nat} {v : Int} (ht : Trimmed value)
    (hscan : scanInt (trim value) = some (v, rest)) (hlt : v.natAbs < 2 ^ 64)
    (hn : n = (v % 2 ^ 64).toNat) (hwell : (readInt value).any fun v => 0 ≤ v) :
    readInt value = some (n : Int) := by
  obtain ⟨v', hv', hnonneg⟩ := (Option.any_eq_true _ _).mp hwell
  rw [ht.trim_eq, (readInt_iff_scanInt ht).mp hv'] at hscan
  obtain ⟨rfl, -⟩ := Prod.mk.inj (Option.some.inj hscan)
  rw [hv', hn, toNat_emod_of_nonneg (of_decide_eq_true hnonneg) hlt]

theorem readInt_of_parseSize {value : Bytes} {x : UInt64} (ht : Trimmed value)
    (h : parseSize value = some x) (hwell : (readInt value).any fun v => 0 ≤ v) :
    readInt value = some (x.toNat : Int) := by
  obtain ⟨v, rest, hscan, hlt, hx⟩ := parseSize_eq_some.mp h
  exact readInt_of_scanInt ht hscan hlt hx hwell

theorem readInt_of_parseUInt16 {value : Bytes} {x : UInt16} (ht : Trimmed value)
    (h : parseUInt16 value = some x) (hwell : (readInt value).any fun v => 0 ≤ v) :
    readInt value = some (x.toNat : Int) := by
  obtain ⟨-, v, rest, hscan, hlt, hx⟩ := parseUInt16_eq_some.mp h
  exact readInt_of_scanInt ht hscan hlt hx hwell

theorem readInt_of_parseSize_uint32 {value : Bytes} {x : UInt64} (ht : Trimmed value)
    (h : parseSize value = some x)
    (hwell : (readInt value).any fun v => 0 ≤ v && v < 2 ^ 32) :
    readInt value = some (x.toUInt32.toNat : Int) := by
  obtain ⟨v, hv, hbounds⟩ := (Option.any_eq_true _ _).mp hwell
  obtain ⟨hnonneg, hlt⟩ := (Bool.and_eq_true _ _).mp hbounds |>.imp of_decide_eq_true
    of_decide_eq_true
  have hx := readInt_of_parseSize ht h (by rw [hv]; exact decide_eq_true hnonneg)
  rw [hx] at hv
  obtain rfl := Option.some.inj hv
  rw [hx, UInt64.toNat_toUInt32, Nat.mod_eq_of_lt (by exact_mod_cast hlt)]

theorem peerMeans_of_parsePeer {value : Bytes} {peer : RaftPeer}
    (h : parsePeer value = some peer) (hwell : wellWritten value .peer) : PeerMeans value peer := by
  obtain ⟨id, port, hsplit, hid, hport, -⟩ := parsePeer_eq_some.mp h
  rw [wellWritten, hsplit, Bool.and_eq_true] at hwell
  have htrimmed : ∀ part ∈ split value 44, Trimmed part := by
    intro part hpart
    obtain ⟨item, -, rfl⟩ := List.mem_map.mp hpart
    exact trimmed_trim item
  rw [hsplit] at htrimmed
  exact ⟨id, port, hsplit, readInt_of_parseInt32 (htrimmed id (by simp)) hid hwell.1,
    readInt_of_parseUInt16 (htrimmed port (by simp)) hport hwell.2⟩

/-! ### Setting a field -/

section Set

variable {s s' : Loading} {value : Bytes} {setting : Setting}

theorem number_set (ht : Trimmed value) (hwell : wellWritten value setting)
    (h : s.set value setting = some s') {v : Int} (hv : s'.loaded.number setting = some v) :
    readInt value = some v := by
  cases setting with
  | host | dataDir | enableCompaction | verboseLogging | logLevel | peer => cases hv
  | port =>
    obtain ⟨x, hx, rfl⟩ := Option.map_eq_some_iff.mp h
    exact (readInt_of_parseUInt16 ht hx hwell).trans hv
  | maxMemoryMb | blockCacheSizeMb | memtableSizeMb | level0CompactionThreshold =>
    obtain ⟨x, hx, rfl⟩ := Option.map_eq_some_iff.mp h
    exact (readInt_of_parseSize ht hx hwell).trans hv
  | nodeId | electionTimeoutMs | heartbeatIntervalMs | snapshotIntervalS =>
    obtain ⟨x, hx, rfl⟩ := Option.map_eq_some_iff.mp h
    exact (readInt_of_parseInt32 ht hx hwell).trans hv
  | backgroundThreads | maxBackgroundJobs =>
    obtain ⟨x, hx, rfl⟩ := Option.map_eq_some_iff.mp h
    exact (readInt_of_parseSize_uint32 ht hx hwell).trans hv

theorem number_set_of_ne {other : Setting} (hne : other ≠ setting)
    (h : s.set value setting = some s') : s'.loaded.number other = s.loaded.number other := by
  cases setting with
  | host | dataDir | logLevel =>
    obtain rfl := Option.some.inj h
    cases other <;> rfl
  | _ =>
    obtain ⟨x, -, rfl⟩ := Option.map_eq_some_iff.mp h
    cases other <;> first | rfl | exact absurd rfl hne

theorem range_int32 (x : Int32) : -2 ^ 31 ≤ x.toInt ∧ x.toInt ≤ 2 ^ 31 - 1 := by
  have hlo := x.le_toInt
  have hhi := x.toInt_lt
  omega

theorem range_uint64 (x : UInt64) : 0 ≤ (x.toNat : Int) ∧ (x.toNat : Int) ≤ 2 ^ 64 - 1 := by
  have hlt := x.toNat_lt
  omega

theorem range_uint32 (x : UInt32) : 0 ≤ (x.toNat : Int) ∧ (x.toNat : Int) ≤ 2 ^ 32 - 1 := by
  have hlt := x.toNat_lt
  omega

theorem range_uint16 (x : UInt16) : 0 ≤ (x.toNat : Int) ∧ (x.toNat : Int) ≤ 2 ^ 16 - 1 := by
  have hlt := x.toNat_lt
  omega

theorem number_mem_range (config : MokvConfig) {range : Int × Int}
    (h : setting.range = some range) :
    ∃ v, config.number setting = some v ∧ range.1 ≤ v ∧ v ≤ range.2 := by
  cases setting with
  | host | dataDir | enableCompaction | verboseLogging | logLevel | peer => cases h
  | port =>
    obtain rfl := Option.some.inj h
    exact ⟨_, rfl, range_uint16 _⟩
  | maxMemoryMb | blockCacheSizeMb | memtableSizeMb | level0CompactionThreshold =>
    obtain rfl := Option.some.inj h
    exact ⟨_, rfl, range_uint64 _⟩
  | nodeId | electionTimeoutMs | heartbeatIntervalMs | snapshotIntervalS =>
    obtain rfl := Option.some.inj h
    exact ⟨_, rfl, range_int32 _⟩
  | backgroundThreads | maxBackgroundJobs =>
    obtain rfl := Option.some.inj h
    exact ⟨_, rfl, range_uint32 _⟩

theorem numeral_of_set (ht : Trimmed value) (hwell : wellWritten value setting)
    (h : s.set value setting = some s') {range : Int × Int} (hrange : setting.range = some range) :
    Numeral range value := by
  obtain ⟨v, hv, hbounds⟩ := number_mem_range s'.loaded hrange
  exact ⟨v, number_set ht hwell h hv, hbounds⟩

theorem hostExplicit_set (h : s.set value setting = some s') :
    s'.hostExplicit = (decide (setting = .host) || s.hostExplicit) := by
  cases setting with
  | host | dataDir | logLevel =>
    obtain rfl := Option.some.inj h
    rfl
  | _ =>
    obtain ⟨x, -, rfl⟩ := Option.map_eq_some_iff.mp h
    rfl

theorem portExplicit_set (h : s.set value setting = some s') :
    s'.portExplicit = (decide (setting = .port) || s.portExplicit) := by
  cases setting with
  | host | dataDir | logLevel =>
    obtain rfl := Option.some.inj h
    rfl
  | _ =>
    obtain ⟨x, -, rfl⟩ := Option.map_eq_some_iff.mp h
    rfl

theorem peers_set (h : s.set value setting = some s') (hne : setting ≠ .peer) :
    s'.loaded.peers = s.loaded.peers := by
  cases setting with
  | host | dataDir | logLevel =>
    obtain rfl := Option.some.inj h
    rfl
  | peer => exact absurd rfl hne
  | _ =>
    obtain ⟨x, -, rfl⟩ := Option.map_eq_some_iff.mp h
    rfl

end Set

/-! ### After the lines -/

section Lines

variable {l : List (Setting × Bytes)} {s : Loading}

theorem lastText_append (l : List (Setting × Bytes)) (p : Setting × Bytes) (setting : Setting) :
    lastText (l ++ [p]) setting = if p.1 = setting then some p.2 else lastText l setting := by
  rw [lastText, lastText, List.reverse_append, List.reverse_singleton, List.singleton_append]
  by_cases hp : p.1 = setting
  · simp [hp]
  · simp [hp]

/-- **The fields after the lines** hold the numbers of the last lines. -/
theorem number_of_run (hl : ∀ p ∈ l, Trimmed p.2 ∧ wellWritten p.2 p.1)
    (hrun : run Loading.step Loading.start l = some s) {setting : Setting} {value : Bytes}
    (hlast : lastText l setting = some value) {v : Int}
    (hv : s.loaded.number setting = some v) : readInt value = some v := by
  induction l using List.reverseRecOn generalizing s with
  | nil => cases hlast
  | append_singleton l p ih =>
    obtain ⟨t, ht, hs⟩ := run_concat.mp hrun
    obtain ⟨hl, hp⟩ := List.forall_mem_append.mp hl
    obtain ⟨htrimmed, hwell⟩ := List.forall_mem_singleton.mp hp
    rw [lastText_append] at hlast
    split at hlast
    · rename_i heq
      subst heq
      obtain rfl := Option.some.inj hlast
      exact number_set htrimmed hwell hs hv
    · rename_i hne
      rw [number_set_of_ne (Ne.symm hne) hs] at hv
      exact ih hl ht hlast hv

theorem explicit_of_run (hrun : run Loading.step Loading.start l = some s) :
    s.hostExplicit = (lastText l .host).isSome ∧ s.portExplicit = (lastText l .port).isSome := by
  induction l using List.reverseRecOn generalizing s with
  | nil =>
    obtain rfl := Option.some.inj hrun
    exact ⟨rfl, rfl⟩
  | append_singleton l p ih =>
    obtain ⟨t, ht, hs⟩ := run_concat.mp hrun
    obtain ⟨hhost, hport⟩ := ih ht
    rw [hostExplicit_set hs, portExplicit_set hs, lastText_append, lastText_append, hhost, hport]
    constructor
    · split <;> simp [*]
    · split <;> simp [*]

theorem peers_of_run (hl : ∀ p ∈ l, wellWritten p.2 p.1)
    (hrun : run Loading.step Loading.start l = some s) :
    List.Forall₂ PeerMeans (peerTexts l) s.loaded.peers := by
  induction l using List.reverseRecOn generalizing s with
  | nil =>
    obtain rfl := Option.some.inj hrun
    exact List.Forall₂.nil
  | append_singleton l p ih =>
    obtain ⟨t, ht, hs⟩ := run_concat.mp hrun
    obtain ⟨hinit, hp⟩ := List.forall_mem_append.mp hl
    rw [List.forall_mem_singleton] at hp
    rw [peerTexts, List.filter_append, List.map_append]
    obtain ⟨setting, value⟩ := p
    by_cases hpeer : setting = .peer
    · subst hpeer
      obtain ⟨peer, hparse, rfl⟩ := Option.map_eq_some_iff.mp hs
      refine List.rel_append (ih hinit ht) ?_
      exact List.Forall₂.cons (peerMeans_of_parsePeer hparse hp) List.Forall₂.nil
    · rw [peers_set hs hpeer, List.filter_cons_of_neg (by simpa using hpeer), List.filter_nil,
        List.map_nil, List.append_nil]
      exact ih hinit ht

end Lines

/-! ### The whole file -/

theorem exists_mem_of_forall₂ {α β : Type*} {R : α → β → Prop} {l : List α} {m : List β}
    (h : List.Forall₂ R l m) {a : α} (ha : a ∈ l) : ∃ b ∈ m, R a b := by
  induction h with
  | nil => cases ha
  | @cons a' b' l m hab _ ih =>
    rcases List.mem_cons.mp ha with rfl | ha
    · exact ⟨b', List.mem_cons_self, hab⟩
    · obtain ⟨b, hb, hR⟩ := ih ha
      exact ⟨b, List.mem_cons_of_mem _ hb, hR⟩

section Finish

variable (config : MokvConfig) (hostExplicit portExplicit : Bool)

theorem port_syncLocalPeer_explicit :
    (syncLocalPeer config hostExplicit true).port = config.port := by
  unfold syncLocalPeer
  split <;> rfl

theorem number_syncLocalPeer {setting : Setting} (h : setting = .port → portExplicit = true) :
    (syncLocalPeer config hostExplicit portExplicit).number setting = config.number setting := by
  cases setting with
  | port =>
    rw [h rfl, MokvConfig.number, MokvConfig.number, port_syncLocalPeer_explicit]
  | _ =>
    obtain ⟨host, port, peers, heq⟩ := exists_syncLocalPeer_eq config hostExplicit portExplicit
    rw [heq]
    rfl

theorem peers_syncLocalPeer :
    (syncLocalPeer config hostExplicit portExplicit).peers =
      withLocalPeer hostExplicit portExplicit (syncLocalPeer config hostExplicit portExplicit)
        config.peers := by
  unfold syncLocalPeer
  split
  · rename_i hnone
    have hfind : config.peers.find? (fun peer => peer.id = config.nodeId) = none := hnone
    have hany : (config.peers.any fun peer => peer.id = config.nodeId) = false :=
      List.any_eq_false.mpr (List.find?_eq_none.mp hfind)
    rw [withLocalPeer]
    simp only
    rw [hany, modifyFirst_eq_self]
    · rfl
    · intro peer hpeer
      rw [hfind] at hpeer
      cases hpeer
  · rename_i it hit
    have hany : (config.peers.any fun peer => peer.id = config.nodeId) = true :=
      List.any_eq_true.mpr ⟨it, MokvConfig.mem_of_findPeer hit,
        decide_eq_true (MokvConfig.id_of_findPeer hit)⟩
    rw [withLocalPeer, MokvConfig.setAddress]
    simp only
    rw [hany, if_pos rfl, List.append_nil]
    refine modifyFirst_congr fun peer hpeer => ?_
    obtain rfl := Option.some.inj (hpeer.symm.trans hit)
    cases hostExplicit <;> cases portExplicit <;> rfl

end Finish

theorem wellWritten_of_numeral {value : Bytes} {setting : Setting} {range : Int × Int}
    (hrange : setting.range = some range) (h : Numeral range value) :
    wellWritten value setting := by
  obtain ⟨v, hv, hlo, hhi⟩ := h
  cases setting with
  | host | dataDir | enableCompaction | verboseLogging | logLevel | peer => cases hrange
  | port | maxMemoryMb | blockCacheSizeMb | memtableSizeMb | level0CompactionThreshold =>
    obtain rfl := Option.some.inj hrange
    rw [wellWritten, hv]
    exact decide_eq_true hlo
  | nodeId | electionTimeoutMs | heartbeatIntervalMs | snapshotIntervalS =>
    rw [wellWritten, hv]
    rfl
  | backgroundThreads | maxBackgroundJobs =>
    obtain rfl := Option.some.inj hrange
    rw [wellWritten, hv, Option.any_some, Bool.and_eq_true]
    exact ⟨decide_eq_true hlo, decide_eq_true (Int.lt_of_le_sub_one hhi)⟩

theorem wellWritten_of_peerMeans {value : Bytes} {peer : RaftPeer} (h : PeerMeans value peer) :
    wellWritten value .peer := by
  obtain ⟨id, port, hsplit, hid, hport⟩ := h
  rw [wellWritten, hsplit]
  simp [hid, hport]

/-- **When the numbers of a file mean what they say.**  The numbers of a file of settings that
loads are the ones that its lines denote exactly if the lines are well written. -/
theorem means_iff {before config : MokvConfig} {content : Bytes}
    (hmodern : isLegacy content = false)
    (h : before.loadFromFile (some content) = (true, config)) :
    MeansWhatItSays (settings content) config ↔
      ∀ p ∈ settings content, wellWritten p.2 p.1 := by
  obtain ⟨s, hrun, rfl, -⟩ : ∃ s, run Loading.step Loading.start (settings content) = some s ∧
      config = s.finish ∧ config.validate := by
    obtain ⟨raw, hraw, ⟨hlegacy, -⟩ | ⟨-, hload⟩⟩ := loadFromFile_eq_true h
    · obtain rfl := Option.some.inj hraw
      rw [hmodern] at hlegacy
      cases hlegacy
    · obtain rfl := Option.some.inj hraw
      exact loadModern_eq_some hload
  constructor
  · rintro ⟨-, hline, own, hown, -⟩ ⟨setting, value⟩ hp
    cases hrange : setting.range with
    | some range => exact wellWritten_of_numeral hrange (hline _ hp range hrange)
    | none =>
      by_cases hpeer : setting = .peer
      · subst hpeer
        have hmem : value ∈ peerTexts (settings content) :=
          List.mem_map.mpr ⟨_, List.mem_filter.mpr ⟨hp, decide_eq_true rfl⟩, rfl⟩
        obtain ⟨peer, -, hmeans⟩ := exists_mem_of_forall₂ hown hmem
        exact wellWritten_of_peerMeans hmeans
      · cases setting with
        | host | dataDir | enableCompaction | verboseLogging | logLevel => rfl
        | peer => exact absurd rfl hpeer
        | _ => cases hrange
  · intro hwell
    obtain ⟨hhost, hport⟩ := explicit_of_run hrun
    have hl : ∀ p ∈ settings content, Trimmed p.2 ∧ wellWritten p.2 p.1 := fun p hp =>
      ⟨(value_of_mem_settings hp).1, hwell p hp⟩
    rw [Loading.finish_eq]
    constructor
    · intro setting value v hlast hv
      rw [number_syncLocalPeer] at hv
      · exact number_of_run hl hrun hlast hv
      · rintro rfl
        rw [hport, hlast]
        rfl
    · intro p hp range hrange
      obtain ⟨t, t', ht⟩ := exists_step_of_run hrun hp
      exact numeral_of_set (hl p hp).1 (hl p hp).2 ht hrange
    · refine ⟨s.loaded.peers, peers_of_run hwell hrun, ?_⟩
      rw [← hhost, ← hport]
      exact peers_syncLocalPeer _ _ _

/-- A file with signs and zeros in front. -/
theorem means_signs :
    MeansWhatItSays (settings (text "port=+0090\nsnapshot_interval_s=-5\npeer=1,a,9001\n"))
      (defaultConfig.loadFromFile
        (some (text "port=+0090\nsnapshot_interval_s=-5\npeer=1,a,9001\n"))).2 :=
  (means_iff (by decide) (show defaultConfig.loadFromFile _ = _ from
    Prod.ext (by decide) rfl)).mpr (by decide)

/-- A port with a letter behind it, a size with a minus and a number of threads beyond 32 bits:
the file is accepted, with the port 90, the greatest size and one thread. -/
theorem numbers_misread :
    ¬ ∀ (before config : MokvConfig) (content : Bytes), isLegacy content = false →
      before.loadFromFile (some content) = (true, config) →
        MeansWhatItSays (settings content) config := by
  intro h
  have hmeans := h defaultConfig
    (defaultConfig.loadFromFile
      (some (text "port=90x\nmax_memory_mb=-1\nbackground_threads=4294967297\n"))).2
    (text "port=90x\nmax_memory_mb=-1\nbackground_threads=4294967297\n") (by decide)
    (Prod.ext (by decide) rfl)
  have hport := hmeans.number .port (text "90x") 90 (by decide) (by decide)
  exact absurd hport (by decide)

end Mokv
