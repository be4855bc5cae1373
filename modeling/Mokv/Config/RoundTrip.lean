import Mokv.Config.File

/-!
# Saving and loading again

`SaveToFile` writes the strings of the config as they are.  A config that was loaded has them
trimmed and on one line, its local peer is found at its address, and it is valid, so all of it
comes back, except that a peer line is cut at each comma.

* `Plain`: a string that a line of the file carries.
* `plainConfig_of_loadFromFile`: the strings of a loaded config are such.
* `reload_iff`: a loaded config comes back when no host of a peer has a comma.
-/

namespace Mokv

open Lib

/-- Trimmed, and on one line. -/
structure Plain (s : Bytes) : Prop where
  trimmed : Trimmed s
  line : 10 ∉ s

theorem plain_of_forall {s : Bytes} (h : ∀ ch ∈ s, isSpace ch = false) : Plain s :=
  ⟨trimmed_of_forall h, fun hmem => absurd (h 10 hmem) (by decide)⟩

theorem plain_of_all {s : Bytes} (h : (s.all fun ch => !isSpace ch) = true) : Plain s :=
  plain_of_forall fun ch hch => by simpa using List.all_eq_true.mp h ch hch

/-- The strings of the config are plain. -/
structure PlainConfig (config : MokvConfig) : Prop where
  host : Plain config.host
  dataDir : Plain config.dataDir
  logLevel : Plain config.logLevel
  peers : ∀ peer ∈ config.peers, Plain peer.host

/-! ### A loaded config is plain -/

theorem plain_of_mem_split {value part : Bytes} (hvalue : 10 ∉ value) {d : UInt8}
    (h : part ∈ split value d) : Plain part := by
  obtain ⟨item, hitem, rfl⟩ := List.mem_map.mp h
  exact ⟨trimmed_trim _, fun hmem => hvalue (mem_of_mem_getlinesAt hitem (mem_of_mem_trim hmem))⟩

theorem plain_of_parsePeer {value : Bytes} {peer : RaftPeer} (hvalue : 10 ∉ value)
    (h : parsePeer value = some peer) : Plain peer.host := by
  obtain ⟨id, port, hsplit, -⟩ := parsePeer_eq_some.mp h
  refine plain_of_mem_split hvalue (d := 44) ?_
  rw [hsplit]
  simp

theorem PlainConfig.set {s s' : Loading} {value : Bytes} {setting : Setting}
    (h : PlainConfig s.loaded) (hvalue : Plain value) (hs' : s.set value setting = some s') :
    PlainConfig s'.loaded := by
  cases setting with
  | host =>
    obtain rfl := Option.some.inj hs'
    exact ⟨hvalue, h.dataDir, h.logLevel, h.peers⟩
  | dataDir =>
    obtain rfl := Option.some.inj hs'
    exact ⟨h.host, hvalue, h.logLevel, h.peers⟩
  | logLevel =>
    obtain rfl := Option.some.inj hs'
    exact ⟨h.host, h.dataDir, hvalue, h.peers⟩
  | peer =>
    obtain ⟨peer, hpeer, rfl⟩ := Option.map_eq_some_iff.mp hs'
    refine ⟨h.host, h.dataDir, h.logLevel, ?_⟩
    rw [List.forall_mem_append, List.forall_mem_singleton]
    exact ⟨h.peers, plain_of_parsePeer hvalue.line hpeer⟩
  | _ =>
    obtain ⟨x, -, rfl⟩ := Option.map_eq_some_iff.mp hs'
    exact ⟨h.host, h.dataDir, h.logLevel, h.peers⟩

theorem PlainConfig.syncLocalPeer {config : MokvConfig} (h : PlainConfig config)
    (hostExplicit portExplicit : Bool) :
    PlainConfig (syncLocalPeer config hostExplicit portExplicit) := by
  have hhost := host_syncLocalPeer config hostExplicit portExplicit
  have hpeers := fun peer =>
    @mem_peers_syncLocalPeer config hostExplicit portExplicit peer
  obtain ⟨host, port, peers, heq⟩ := exists_syncLocalPeer_eq config hostExplicit portExplicit
  rw [heq] at hhost hpeers ⊢
  have hplain : Plain host := by
    rcases hhost with hhost | ⟨peer, hpeer, hhost⟩
    · obtain rfl : host = config.host := hhost
      exact h.host
    · obtain rfl : host = peer.host := hhost
      exact h.peers peer hpeer
  refine ⟨hplain, h.dataDir, h.logLevel, ?_⟩
  intro peer hpeer
  rcases hpeers peer hpeer with hpeer | rfl
  · exact h.peers peer hpeer
  · exact hplain

theorem plainConfig_default : PlainConfig (defaultWithPeers []) :=
  ⟨plain_of_all (by decide), plain_of_all (by decide), plain_of_all (by decide),
    List.forall_mem_nil _⟩

theorem plainConfig_of_loadModern {content : Bytes} {config : MokvConfig}
    (h : loadModern content = some config) : PlainConfig config := by
  obtain ⟨s, hrun, rfl, -⟩ := loadModern_eq_some h
  have hplain : ∀ p ∈ settings content, ∀ _ : Loading, Plain p.2 := by
    intro p hp _
    obtain ⟨htrimmed, hline⟩ := value_of_mem_settings hp
    exact ⟨htrimmed, hline⟩
  rw [Loading.finish_eq]
  refine PlainConfig.syncLocalPeer ?_ _ _
  refine run_invariant (I := fun s => PlainConfig s.loaded) plainConfig_default
    (fun s p t hs hp ht => hs.set hp ht) hrun (stepsOk_of_forall hplain)

theorem plainConfig_of_loadLegacyConfig {content : Bytes} {config loaded : MokvConfig}
    (h : loadLegacyConfig content config = (true, loaded)) : PlainConfig loaded := by
  obtain ⟨peers, peer, hall, -, rfl⟩ := loadLegacyConfig_eq_true h
  have hplain : ∀ p ∈ peer :: peers, Plain p.host := by
    intro p hp
    obtain ⟨input, rest, hpeer⟩ := hall p hp
    exact plain_of_forall (address_of_extractPeer hpeer).2.2
  obtain ⟨hpeer, hpeers⟩ := List.forall_mem_cons.mp hplain
  have hconfig : PlainConfig ((defaultWithPeers peers).withLocal peer) :=
    ⟨hpeer, plainConfig_default.dataDir, plainConfig_default.logLevel, hpeers⟩
  exact hconfig.syncLocalPeer _ _

/-- **What a loaded config is like.** -/
theorem plainConfig_of_loadFromFile {config loaded : MokvConfig} {content : Option Bytes}
    (h : config.loadFromFile content = (true, loaded)) :
    PlainConfig loaded ∧ loaded.Synced ∧ loaded.validate := by
  obtain ⟨raw, -, ⟨-, hlegacy⟩ | ⟨-, hmodern⟩⟩ := loadFromFile_eq_true h
  · refine ⟨plainConfig_of_loadLegacyConfig hlegacy, ?_⟩
    obtain ⟨peers, peer, -, hvalid, rfl⟩ := loadLegacyConfig_eq_true hlegacy
    exact ⟨synced_syncLocalPeer _ _ _, hvalid⟩
  · refine ⟨plainConfig_of_loadModern hmodern, ?_⟩
    obtain ⟨s, -, rfl, hvalid⟩ := loadModern_eq_some hmodern
    refine ⟨?_, hvalid⟩
    rw [Loading.finish_eq]
    exact synced_syncLocalPeer _ _ _

/-! ### Lines that were saved -/

namespace Setting

theorem name_letters (setting : Setting) :
    ∀ ch ∈ setting.name, isSpace ch = false ∧ ch ≠ 61 ∧ ch ≠ 10 := by
  have hall : (setting.name.all fun ch => !isSpace ch && ch != 61 && ch != 10) = true := by
    cases setting <;> decide
  intro ch hch
  simpa [and_assoc] using List.all_eq_true.mp hall ch hch

theorem ofName?_name (setting : Setting) : ofName? setting.name = some setting := by
  cases setting <;> decide

/-- A line of a setting. -/
def line (p : Setting × Bytes) : Bytes := p.1.name ++ 61 :: p.2

theorem trimmed_line {p : Setting × Bytes} (h : Trimmed p.2) : Trimmed (line p) := by
  have hname : Trimmed (p.1.name ++ [61]) := by
    refine trimmed_of_forall fun ch hch => ?_
    rcases List.mem_append.mp hch with hch | hch
    · exact (name_letters p.1 ch hch).1
    · rw [List.mem_singleton.mp hch]
      decide
  rw [line, List.append_cons]
  exact hname.append h

theorem newline_not_mem_line {p : Setting × Bytes} (h : 10 ∉ p.2) : 10 ∉ line p := by
  rw [line, List.mem_append, List.mem_cons]
  rintro (hmem | hmem | hmem)
  · exact (name_letters p.1 10 hmem).2.2 rfl
  · cases hmem
  · exact h hmem

theorem not_skipped_line (p : Setting × Bytes) : skipped (line p) = false := by
  obtain ⟨setting, value⟩ := p
  cases setting <;> rfl

theorem settingOf_line {p : Setting × Bytes} (h : Trimmed p.2) : settingOf (line p) = some p := by
  have hname : 61 ∉ p.1.name := fun hmem => (name_letters p.1 61 hmem).2.1 rfl
  have htrim : trim p.1.name = p.1.name :=
    (trimmed_of_forall fun ch hch => (name_letters p.1 ch hch).1).trim_eq
  rw [settingOf, line, if_pos (by simp), takeWhile_ne_append hname, dropWhile_ne_append hname,
    htrim, ofName?_name, List.tail_cons, h.trim_eq]
  rfl

end Setting

theorem run_loadLine_lines {s : Loading} {l : List (Setting × Bytes)}
    (h : ∀ p ∈ l, Trimmed p.2) : run loadLine s (l.map Setting.line) = run Loading.step s l := by
  induction l generalizing s with
  | nil => rfl
  | cons p l ih =>
    obtain ⟨hp, hl⟩ := List.forall_mem_cons.mp h
    have hline : loadLine s (Setting.line p) = s.step p := by
      rw [loadLine, (Setting.trimmed_line hp).trim_eq, if_neg (by simp [Setting.not_skipped_line]),
        Setting.settingOf_line hp]
      rfl
    rw [List.map_cons, run_cons, run_cons, hline]
    exact congrArg _ (funext fun t => ih hl)

/-! ### The texts of a config -/

section Texts

theorem plain_printInt (v : Int) : Plain (printInt v) :=
  plain_of_forall fun _ => not_isSpace_of_mem_printInt

theorem comma_not_mem_printInt (v : Int) : 44 ∉ printInt v := by
  intro hmem
  rcases mem_printInt hmem with h | h
  · exact absurd h (by decide)
  · exact absurd h (by decide)

/-- The text of a peer. -/
def peerText (peer : RaftPeer) : Bytes :=
  printInt peer.id.toInt ++ 44 :: (peer.host ++ 44 :: printInt peer.port.toNat)

theorem plain_append_comma {s u : Bytes} (hs : Plain s) (hu : Plain u) : Plain (s ++ 44 :: u) := by
  have hcomma : Plain [44] := plain_of_all (by decide)
  constructor
  · rw [List.append_cons]
    exact (hs.trimmed.append hcomma.trimmed).append hu.trimmed
  · rw [List.mem_append, List.mem_cons]
    rintro (hmem | hmem | hmem)
    · exact hs.line hmem
    · cases hmem
    · exact hu.line hmem

theorem plain_peerText {peer : RaftPeer} (h : Plain peer.host) : Plain (peerText peer) :=
  plain_append_comma (plain_printInt _) (plain_append_comma h (plain_printInt _))

theorem plain_boolText (b : Bool) : Plain (if b then text "true" else text "false") := by
  cases b
  · exact plain_of_all (by decide)
  · exact plain_of_all (by decide)

theorem plain_savedSettings {config : MokvConfig} (h : PlainConfig config) :
    ∀ p ∈ config.savedSettings, Plain p.2 := by
  rw [MokvConfig.savedSettings, List.forall_mem_append]
  constructor
  · simp only [List.forall_mem_cons, plain_printInt, plain_boolText, h.host, h.dataDir,
      h.logLevel, true_and]
    exact List.forall_mem_nil _
  · intro p hp
    obtain ⟨peer, hpeer, rfl⟩ := List.mem_map.mp hp
    exact plain_peerText (h.peers peer hpeer)

theorem split_peerText {peer : RaftPeer} (h : Trimmed peer.host) (hcomma : 44 ∉ peer.host) :
    split (peerText peer) 44 = [printInt peer.id.toInt, peer.host, printInt peer.port.toNat] := by
  rw [split, peerText, getlinesAt_append (comma_not_mem_printInt _), getlinesAt_append hcomma,
    getlinesAt_of_not_mem (comma_not_mem_printInt _) (printInt_ne_nil _)]
  simp only [List.map_cons, List.map_nil, (trimmed_printInt _).trim_eq, h.trim_eq]

theorem parsePeer_peerText {peer : RaftPeer} (h : Trimmed peer.host) (hcomma : 44 ∉ peer.host)
    (hne : peer.host ≠ []) (hport : peer.port ≠ 0) : parsePeer (peerText peer) = some peer :=
  parsePeer_eq_some.mpr ⟨_, _, split_peerText h hcomma, parseInt32_printInt _,
    parseUInt16_printInt hport, hne⟩

theorem parsePeer_peerText_eq_none {peer : RaftPeer} (hcomma : 44 ∈ peer.host) :
    parsePeer (peerText peer) = none := by
  cases hpeer : parsePeer (peerText peer) with
  | none => rfl
  | some p =>
    obtain ⟨id, port, hsplit, -⟩ := parsePeer_eq_some.mp hpeer
    have hlen := congrArg List.length hsplit
    have htwo := two_le_length_getlinesAt hcomma
    rw [split, List.length_map, peerText, getlinesAt_append (comma_not_mem_printInt _),
      getlinesAt_append_cons, getlinesAt_of_not_mem (comma_not_mem_printInt _) (printInt_ne_nil _),
      List.length_cons, List.length_append] at hlen
    simp only [List.length_cons, List.length_nil] at hlen
    omega

end Texts

/-! ### Loading what was saved -/

theorem parseBool_boolText (b : Bool) :
    parseBool (if b then text "true" else text "false") = some b := by
  cases b <;> decide

theorem parseSize_printInt_uint32 (x : UInt32) :
    parseSize (printInt x.toNat) = some x.toUInt64 := parseSize_printInt x.toUInt64

theorem run_step_header {config : MokvConfig} (hport : config.port ≠ 0)
    (rest : List (Setting × Bytes)) :
    run Loading.step Loading.start ({ config with peers := [] }.savedSettings ++ rest) =
      run Loading.step ⟨{ config with peers := [] }, true, true⟩ rest := by
  simp only [MokvConfig.savedSettings, List.map_nil, List.append_nil, List.cons_append,
    List.nil_append, run_cons, Loading.step, Loading.set, parseUInt16_printInt hport,
    parseSize_printInt, parseInt32_printInt, parseBool_boolText, parseSize_printInt_uint32,
    Option.map_some, Option.bind_some, UInt32.toUInt32_toUInt64]
  rfl

theorem run_step_peers {peers : List RaftPeer} {s : Loading}
    (h : ∀ peer ∈ peers, parsePeer (peerText peer) = some peer) :
    run Loading.step s (peers.map fun peer => (.peer, peerText peer)) =
      some { s with loaded := { s.loaded with peers := s.loaded.peers ++ peers } } := by
  induction peers generalizing s with
  | nil => rw [List.append_nil]; rfl
  | cons peer peers ih =>
    obtain ⟨hpeer, hpeers⟩ := List.forall_mem_cons.mp h
    rw [List.map_cons, run_cons, Loading.step, Loading.set, hpeer, Option.map_some,
      Option.bind_some, ih hpeers, List.append_assoc]
    rfl

theorem isLegacy_saveToFile (config : MokvConfig) : isLegacy config.saveToFile = false := by
  have hcons : ∃ rest, config.saveToFile = 104 :: rest := ⟨_, rfl⟩
  obtain ⟨rest, hrest⟩ := hcons
  rw [isLegacy, hrest, word?, List.dropWhile_cons_of_neg (by decide),
    List.takeWhile_cons_of_pos (by decide), if_neg (List.cons_ne_nil _ _)]
  simp [isDigit]

section Reload

variable {config : MokvConfig}

theorem run_saveToFile (h : PlainConfig config) (s : Loading) :
    run loadLine s (getlinesAt 10 config.saveToFile) = run Loading.step s config.savedSettings := by
  have hplain := plain_savedSettings h
  have hlines : getlinesAt 10 config.saveToFile = config.savedSettings.map Setting.line :=
    getlinesAt_flatMap fun p hp => Setting.newline_not_mem_line (hplain p hp).line
  rw [hlines, run_loadLine_lines fun p hp => (hplain p hp).trimmed]

theorem run_savedSettings (h : PlainConfig config) (hvalid : config.validate)
    (hcomma : ∀ peer ∈ config.peers, 44 ∉ peer.host) :
    run Loading.step Loading.start config.savedSettings = some ⟨config, true, true⟩ := by
  obtain ⟨hport, -, -, -, hpeers⟩ := MokvConfig.validate_iff.mp hvalid
  have hsplit : config.savedSettings = { config with peers := [] }.savedSettings ++
      config.peers.map fun peer => (.peer, peerText peer) := rfl
  rw [hsplit, run_step_header hport, run_step_peers]
  · rfl
  · intro peer hpeer
    obtain ⟨-, hhost, hport⟩ := hpeers peer hpeer
    exact parsePeer_peerText (h.peers peer hpeer).trimmed (hcomma peer hpeer) hhost hport

theorem run_savedSettings_eq_none {peer : RaftPeer} (hpeer : peer ∈ config.peers)
    (hcomma : 44 ∈ peer.host) (s : Loading) : run Loading.step s config.savedSettings = none := by
  cases hrun : run Loading.step s config.savedSettings with
  | none => rfl
  | some s' =>
    have hmem : (.peer, peerText peer) ∈ config.savedSettings :=
      List.mem_append_right _ (List.mem_map_of_mem hpeer)
    obtain ⟨t, t', ht⟩ := exists_step_of_run hrun hmem
    rw [Loading.step, Loading.set, parsePeer_peerText_eq_none hcomma] at ht
    cases ht

theorem loadFromFile_saveToFile {other loaded : MokvConfig} :
    other.loadFromFile (some config.saveToFile) = (true, loaded) ↔
      loadModern config.saveToFile = some loaded := by
  simp only [MokvConfig.loadFromFile, isLegacy_saveToFile]
  cases loadModern config.saveToFile with
  | none => simp
  | some c => simp

/-- **When a loaded config comes back.**  It does, whatever object loads it, exactly if no host of
a peer has a comma. -/
theorem reload_iff {before : MokvConfig} {content : Option Bytes}
    (h : before.loadFromFile content = (true, config)) (other : MokvConfig) :
    other.loadFromFile (some config.saveToFile) = (true, config) ↔
      ∀ peer ∈ config.peers, 44 ∉ peer.host := by
  obtain ⟨hplain, hsynced, hvalid⟩ := plainConfig_of_loadFromFile h
  rw [loadFromFile_saveToFile, loadModern, run_saveToFile hplain]
  constructor
  · intro hback peer hpeer hcomma
    rw [run_savedSettings_eq_none hpeer hcomma] at hback
    cases hback
  · intro hcomma
    have hfinish : Loading.finish ⟨config, true, true⟩ = config := by
      rw [Loading.finish_eq]
      exact syncLocalPeer_of_synced true true hsynced
    rw [run_savedSettings hplain hvalid hcomma]
    simp only [hfinish, hvalid]
    rfl

end Reload

/-- A legacy file with the local server second. -/
theorem reload_legacy_file :
    let config := (defaultConfig.loadFromFile (some (text "2\n1 a 9001\n2 b 9002\n2 b 1\n"))).2
    defaultConfig.loadFromFile (some config.saveToFile) = (true, config) :=
  (reload_iff (Prod.ext (by decide) rfl) defaultConfig).mpr (by decide)

/-- A host with a comma is accepted, and then it is in the local peer. -/
theorem comma_host_lost :
    ¬ ∀ (before other config : MokvConfig) (content : Option Bytes),
      before.loadFromFile content = (true, config) →
        other.loadFromFile (some config.saveToFile) = (true, config) := by
  intro h
  have hback := h defaultConfig defaultConfig
    (defaultConfig.loadFromFile (some (text "host=a,b"))).2 (some (text "host=a,b"))
    (Prod.ext (by decide) rfl)
  exact absurd (congrArg Prod.fst hback) (by decide)

end Mokv
