import Mokv.Config.File

/-!
# Files that are refused

A file of settings is loaded into an object of its own, so a bad one leaves the config as it
was.  The legacy loader writes to the config itself from the count on: it resets it to the
defaults, and a bad record further on leaves them there.

* `loadLegacyServers_iff`: the legacy loader accepts the records of servers with positive ids,
  one for each peer and one for the local server, and no other text.
* `unchanged_of_refused_iff`: the files that change no config when they are refused.
-/

namespace Mokv

open Lib

/-- So many servers with positive ids, one after the other. -/
def Records : Nat → Bytes → Prop
  | 0, _ => True
  | n + 1, input =>
    ∃ peer rest, extractPeer input = some (peer, rest) ∧ 0 < peer.id ∧ Records n rest

theorem maxMemoryMb_syncLocalPeer (config : MokvConfig) (hostExplicit portExplicit : Bool) :
    (syncLocalPeer config hostExplicit portExplicit).maxMemoryMb = config.maxMemoryMb := by
  obtain ⟨host, port, peers, heq⟩ := exists_syncLocalPeer_eq config hostExplicit portExplicit
  rw [heq]

theorem peers_syncLocalPeer_implicit (config : MokvConfig) :
    (syncLocalPeer config false false).peers = config.peers ∨
      (syncLocalPeer config false false).peers = config.peers ++ [config.localPeer] := by
  rw [← syncLocalPeer_implicit]
  split
  · exact Or.inl rfl
  · exact Or.inr rfl

/-! ### What the legacy loader accepts -/

section Accepted

variable {peers : List RaftPeer}

theorem validate_defaultWithPeers_iff {peer : RaftPeer}
    (hgood : ∀ p ∈ peer :: peers, p.host ≠ [] ∧ p.port ≠ 0) :
    (syncLocalPeer ((defaultWithPeers peers).withLocal peer) false false).validate ↔
      (∀ p ∈ peers, 0 < p.id) ∧ 0 < peer.id := by
  have hsynced := synced_syncLocalPeer ((defaultWithPeers peers).withLocal peer) false false
  have hpeers := peers_syncLocalPeer_implicit ((defaultWithPeers peers).withLocal peer)
  obtain ⟨host, port, peers', heq⟩ :=
    exists_syncLocalPeer_eq ((defaultWithPeers peers).withLocal peer) false false
  rw [heq] at hsynced hpeers ⊢
  have hlocal : (⟨peer.id, host, port⟩ : RaftPeer) ∈ peers' := hsynced.mem
  have hsplit : peers' = peers ∨ peers' = peers ++ [peer] := hpeers
  rw [MokvConfig.validate_iff]
  constructor
  · rintro ⟨-, -, -, -, hall⟩
    refine ⟨?_, (hall _ hlocal).1⟩
    intro p hp
    refine (hall p ?_).1
    rcases hsplit with rfl | rfl
    · exact hp
    · exact List.mem_append_left _ hp
  · rintro ⟨hids, hid⟩
    have hall : ∀ p ∈ peers', 0 < p.id ∧ p.host ≠ [] ∧ p.port ≠ 0 := by
      intro p hp
      have hmem : p ∈ peers ∨ p = peer := by
        rcases hsplit with rfl | rfl
        · exact Or.inl hp
        · simpa using hp
      rcases hmem with hmem | rfl
      · exact ⟨hids p hmem, hgood p (List.mem_cons_of_mem _ hmem)⟩
      · exact ⟨hid, hgood p List.mem_cons_self⟩
    have hmemory : (defaultWithPeers peers).maxMemoryMb ≠ 0 :=
      show (4096 : UInt64) ≠ 0 by decide
    have helection : 1000 ≤ (defaultWithPeers peers).electionTimeoutMs :=
      show (1000 : Int32) ≤ 5000 by decide
    have hheartbeat : 0 < (defaultWithPeers peers).heartbeatIntervalMs :=
      show (0 : Int32) < 1000 by decide
    exact ⟨(hall _ hlocal).2.2, hmemory, helection, hheartbeat, hall⟩

theorem loadLegacyLocal_iff {input : Bytes} (hgood : ∀ p ∈ peers, p.host ≠ [] ∧ p.port ≠ 0) :
    (loadLegacyLocal input (defaultWithPeers peers)).1 = true ↔
      (∀ p ∈ peers, 0 < p.id) ∧ Records 1 input := by
  constructor
  · intro h
    obtain ⟨peer, rest, hpeer, hvalid, heq⟩ := loadLegacyLocal_eq_true (Prod.ext h rfl)
    rw [heq, validate_defaultWithPeers_iff] at hvalid
    · exact ⟨hvalid.1, peer, rest, hpeer, hvalid.2, trivial⟩
    · obtain ⟨hport, hhost, -⟩ := address_of_extractPeer hpeer
      exact List.forall_mem_cons.mpr ⟨⟨hhost, hport⟩, hgood⟩
  · rintro ⟨hids, peer, rest, hpeer, hid, -⟩
    rw [loadLegacyLocal_of_extractPeer _ hpeer]
    refine (validate_defaultWithPeers_iff ?_).mpr ⟨hids, hid⟩
    obtain ⟨hport, hhost, -⟩ := address_of_extractPeer hpeer
    exact List.forall_mem_cons.mpr ⟨⟨hhost, hport⟩, hgood⟩

/-- The legacy loader behind the count. -/
def loadLegacyServers (n : Nat) (input : Bytes) (config : MokvConfig) : Bool × MokvConfig :=
  match loadLegacyPeers n input config with
  | (none, config) => (false, config)
  | (some input, config) => loadLegacyLocal input config

/-- **What is accepted behind the count.** -/
theorem loadLegacyServers_iff {n : Nat} {input : Bytes}
    (hgood : ∀ p ∈ peers, p.host ≠ [] ∧ p.port ≠ 0) :
    (loadLegacyServers n input (defaultWithPeers peers)).1 = true ↔
      (∀ p ∈ peers, 0 < p.id) ∧ Records (n + 1) input := by
  induction n generalizing input peers with
  | zero => exact loadLegacyLocal_iff hgood
  | succ n ih =>
    rw [loadLegacyServers, loadLegacyPeers]
    cases hpeer : extractPeer input with
    | none =>
      constructor
      · intro h
        cases h
      · rintro ⟨-, peer, rest, hpeer', -⟩
        rw [hpeer] at hpeer'
        cases hpeer'
    | some p =>
      obtain ⟨peer, rest⟩ := p
      obtain ⟨hport, hhost, -⟩ := address_of_extractPeer hpeer
      have hgood' : ∀ p ∈ peers ++ [peer], p.host ≠ [] ∧ p.port ≠ 0 := by
        rw [List.forall_mem_append, List.forall_mem_singleton]
        exact ⟨hgood, hhost, hport⟩
      refine (ih hgood').trans ?_
      rw [List.forall_mem_append, List.forall_mem_singleton, and_assoc]
      refine and_congr_right fun _ => ?_
      constructor
      · rintro ⟨hid, hrest⟩
        exact ⟨peer, rest, hpeer, hid, hrest⟩
      · rintro ⟨peer', rest', hpeer', hid, hrest⟩
        obtain ⟨rfl, rfl⟩ := Prod.mk.inj (Option.some.inj (hpeer.symm.trans hpeer'))
        exact ⟨hid, hrest⟩

end Accepted

/-! ### What a refused file leaves -/

theorem maxMemoryMb_loadLegacyLocal (input : Bytes) (config : MokvConfig) :
    (loadLegacyLocal input config).2.maxMemoryMb = config.maxMemoryMb := by
  rw [loadLegacyLocal]
  split
  · rfl
  · split
    · rfl
    · simp only
      split
      · rfl
      · split
        · rfl
        · rw [syncLocalPeer_implicit]
          exact maxMemoryMb_syncLocalPeer _ _ _

theorem maxMemoryMb_loadLegacyServers (n : Nat) (input : Bytes) (config : MokvConfig) :
    (loadLegacyServers n input config).2.maxMemoryMb = config.maxMemoryMb := by
  obtain ⟨peers, hpeers, -⟩ := @loadLegacyPeers_eq n input config
  rw [loadLegacyServers]
  split
  · rename_i config' hloop
    have hmemory := congrArg MokvConfig.maxMemoryMb hpeers
    rwa [hloop] at hmemory
  · rename_i rest config' hloop
    have hmemory := congrArg MokvConfig.maxMemoryMb hpeers
    rw [hloop] at hmemory
    exact (maxMemoryMb_loadLegacyLocal rest config').trans hmemory

/-- **When a refused file changes nothing.**  Whatever the config was, it is as it was, exactly
if a legacy file whose count could be read goes on with so many servers and the local one, each
with a positive id. -/
theorem unchanged_of_refused_iff (content : Option Bytes) :
    (∀ config : MokvConfig, (config.loadFromFile content).1 = false →
        (config.loadFromFile content).2 = config) ↔
      ∀ raw count rest, content = some raw → isLegacy raw →
        scanUnsigned 64 raw = some (count, rest) → Records (count + 1) rest := by
  have hload : ∀ (config : MokvConfig) {raw rest : Bytes} {count : Nat}, isLegacy raw →
      scanUnsigned 64 raw = some (count, rest) →
      config.loadFromFile (some raw) = loadLegacyServers count rest (defaultWithPeers []) := by
    intro config raw rest count hlegacy hscan
    simp only [MokvConfig.loadFromFile, if_pos hlegacy, loadLegacyConfig, hscan]
    rfl
  constructor
  · rintro h raw count rest rfl hlegacy hscan
    by_contra hrecords
    -- the memory limit of a config that is not at its default is lost
    have hrefused : (loadLegacyServers count rest (defaultWithPeers [])).1 = false := by
      rw [Bool.eq_false_iff, ne_eq, loadLegacyServers_iff (List.forall_mem_nil _)]
      exact fun hr => hrecords hr.2
    have hsame := h { maxMemoryMb := 1 } (by rw [hload _ hlegacy hscan]; exact hrefused)
    rw [hload _ hlegacy hscan] at hsame
    have hmemory := maxMemoryMb_loadLegacyServers count rest (defaultWithPeers [])
    rw [hsame] at hmemory
    exact absurd hmemory (by decide)
  · intro h config hrefused
    cases content with
    | none => rfl
    | some raw =>
      by_cases hlegacy : isLegacy raw
      · cases hscan : scanUnsigned 64 raw with
        | none => simp only [MokvConfig.loadFromFile, if_pos hlegacy, loadLegacyConfig, hscan]
        | some p =>
          obtain ⟨count, rest⟩ := p
          rw [hload _ hlegacy hscan, Bool.eq_false_iff, ne_eq,
            loadLegacyServers_iff (List.forall_mem_nil _)] at hrefused
          exact absurd ⟨List.forall_mem_nil _, h raw count rest rfl hlegacy hscan⟩ hrefused
      · simp only [MokvConfig.loadFromFile, if_neg hlegacy] at hrefused ⊢
        split
        · rename_i loaded hloaded
          rw [hloaded] at hrefused
          cases hrefused
        · rfl

/-- A count without peers, loaded into a config with a memory limit of its own: the file is
refused, and the limit is the default again. -/
theorem short_legacy_file_resets :
    ¬ ∀ (config : MokvConfig) (content : Option Bytes),
      (config.loadFromFile content).1 = false → (config.loadFromFile content).2 = config := by
  intro h
  exact absurd (h { maxMemoryMb := 1024 } (some (text "1\n")) (by decide)) (by decide)

end Mokv
