import Mokv.LSM.BlockCacheOrder

/-!
# The hits of the block cache

`MakeKey` of `BlockCache` (`mokv/lsm/block_cache.hpp`) shifts the id of a table by 32 bits and
ors the offset of the block into it.  Offsets from `2 ^ 32` on reach into the id, and ids from
`2 ^ 32` on are cut, so two blocks may have one key, and a hit may be a block of another table.

* `lookup_data`: what the cache holds under a key is what the last accepted `Put` under that key
  brought.
* `hits_genuine_iff`: **every hit is genuine**, in whatever order the calls come, exactly if no
  block that is asked for shares its key with another one that is put.
* `keysDistinct_of_small`: below `2 ^ 32` none does.
-/

namespace Mokv.LSM.BlockCache

open Lib

/-- The last accepted `Put` under a key: its block and its data. -/
def lastPut (config : Config) (key : UInt64) (ops : List Op) : Option (UInt64 × UInt64 × Bytes) :=
  ops.foldl
    (fun last op =>
      match op with
      | .put sstId blockOffset data =>
        if (init config).accepts data ∧ makeKey sstId blockOffset = key then
          some (sstId, blockOffset, data)
        else last
      | _ => last)
    none

/-- The data was stored by an accepted `Put` for the block, and none under its key came later. -/
def Genuine (config : Config) (ops : List Op) (sstId blockOffset : UInt64) (data : Bytes) : Prop :=
  ∃ p q, ops = p ++ .put sstId blockOffset data :: q ∧ (init config).accepts data ∧
    ∀ s o d, Op.put s o d ∈ q → (init config).accepts d → makeKey s o ≠ makeKey sstId blockOffset

section

variable {config : Config} {ops : List Op} {c c' : BlockCache} {op : Op} {key : UInt64}

/-! ### The last `Put` -/

theorem lastPut_concat_put (sstId blockOffset : UInt64) (data : Bytes) :
    lastPut config key (ops ++ [.put sstId blockOffset data]) =
      if (init config).accepts data ∧ makeKey sstId blockOffset = key then
        some (sstId, blockOffset, data)
      else lastPut config key ops := by
  rw [lastPut, List.foldl_append]
  rfl

theorem lastPut_concat
    (h : ∀ s o d, op = .put s o d → (init config).accepts d → makeKey s o ≠ key) :
    lastPut config key (ops ++ [op]) = lastPut config key ops := by
  cases op with
  | put sstId blockOffset data =>
    rw [lastPut_concat_put, if_neg]
    rintro ⟨hacc, hkey⟩
    exact h sstId blockOffset data rfl hacc hkey
  | get sstId blockOffset =>
    rw [lastPut, List.foldl_append]
    rfl
  | remove sstId blockOffset =>
    rw [lastPut, List.foldl_append]
    rfl
  | clear =>
    rw [lastPut, List.foldl_append]
    rfl
  | resetStats =>
    rw [lastPut, List.foldl_append]
    rfl

theorem genuine_iff {sstId blockOffset : UInt64} {data : Bytes} :
    Genuine config ops sstId blockOffset data ↔
      lastPut config (makeKey sstId blockOffset) ops = some (sstId, blockOffset, data) := by
  constructor
  · rintro ⟨p, q, rfl, hacc, hlater⟩
    induction q using List.reverseRecOn with
    | nil => rw [lastPut_concat_put, if_pos ⟨hacc, rfl⟩]
    | append_singleton q op ih =>
      rw [← List.cons_append, ← List.append_assoc, lastPut_concat]
      · exact ih fun s o d hmem => hlater s o d (List.mem_append_left _ hmem)
      · rintro s o d rfl
        exact hlater s o d (List.mem_append_right _ List.mem_cons_self)
  · intro h
    induction ops using List.reverseRecOn with
    | nil => cases h
    | append_singleton ops op ih =>
      by_cases hput : ∃ s o d, op = .put s o d ∧ (init config).accepts d ∧
          makeKey s o = makeKey sstId blockOffset
      · obtain ⟨s, o, d, rfl, hacc, hkey⟩ := hput
        rw [lastPut_concat_put, if_pos ⟨hacc, hkey⟩] at h
        obtain ⟨rfl, rfl, rfl⟩ : s = sstId ∧ o = blockOffset ∧ d = data := by simpa using h
        exact ⟨ops, [], rfl, hacc, fun _ _ _ hmem => by cases hmem⟩
      · have hother : ∀ s o d, op = .put s o d → (init config).accepts d →
            makeKey s o ≠ makeKey sstId blockOffset :=
          fun s o d hop hacc hkey => hput ⟨s, o, d, hop, hacc, hkey⟩
        rw [lastPut_concat hother] at h
        obtain ⟨p, q, rfl, hacc, hlater⟩ := ih h
        refine ⟨p, q ++ [op], by simp, hacc, ?_⟩
        intro s o d hmem
        rcases List.mem_append.mp hmem with hmem | hmem
        · exact hlater s o d hmem
        · exact hother s o d (List.mem_singleton.mp hmem).symm

/-! ### What the cache holds -/

/-- Every block holds what the last accepted `Put` under its key brought. -/
structure Stores (c : BlockCache) (config : Config) (ops : List Op) : Prop where
  config_eq : c.config = config
  linked : c.Linked
  data : ∀ n ∈ c.nodes, ∃ sstId blockOffset,
    lastPut config n.2.key ops = some (sstId, blockOffset, n.2.data)

theorem accepts_eq (h : c.config = config) (data : Bytes) :
    c.accepts data = (init config).accepts data := by
  subst h
  rfl

theorem used_put (c : BlockCache) (sstId blockOffset : UInt64) (data : Bytes) :
    c.used (.put sstId blockOffset data) =
      if c.accepts data then some (makeKey sstId blockOffset) else none := by
  rw [used]
  cases hacc : c.accepts data with
  | false =>
    obtain ⟨stats, hput, -⟩ := put_refused hacc sstId blockOffset
    rw [hput]
  | true =>
    cases hl : c.cacheMap.lookup (makeKey sstId blockOffset) with
    | none => rw [put_new hacc hl]
    | some ptr => rw [put_old hacc hl]

theorem Stores.keeps (h : c.Stores config ops) (hused : c.used op = none) (hk : c.Keeps c')
    (hl : c'.Linked) : c'.Stores config (ops ++ [op]) := by
  refine ⟨hk.config.trans h.config_eq, hl, ?_⟩
  intro n hn
  rw [lastPut_concat]
  · exact h.data n (hk.nodes.subset hn)
  · rintro s o d rfl hacc
    rw [used_put, accepts_eq h.config_eq, if_pos hacc] at hused
    cases hused

theorem Stores.uses {block : CacheBlock} (h : c.Stores config ops)
    (hused : c.used op = some block.key) (hu : c.Uses c' op block) (hl : c'.Linked) :
    c'.Stores config (ops ++ [op]) := by
  obtain ⟨ptr, rest, hnodes, hrest⟩ := hu.nodes
  have hnodup := hl.indexed.keys
  rw [hnodes, List.map_cons, List.nodup_cons] at hnodup
  refine ⟨hu.config.trans h.config_eq, hl, ?_⟩
  intro n hn
  rw [hnodes] at hn
  rcases List.mem_cons.mp hn with rfl | hn
  · -- the block that is used
    rcases hu.data with ⟨s, o, rfl⟩ | ⟨s, o, q, old, rfl, hold, hkey, hdata⟩
    · rw [used_put] at hused
      split at hused
      · rename_i hacc
        rw [accepts_eq h.config_eq] at hacc
        exact ⟨s, o, by rw [lastPut_concat_put, if_pos ⟨hacc, Option.some.inj hused⟩]⟩
      · cases hused
    · rw [lastPut_concat (by rintro _ _ _ ⟨⟩)]
      obtain ⟨s', o', hlast⟩ := h.data _ hold
      rw [hkey, hdata] at hlast
      exact ⟨s', o', hlast⟩
  · -- another block, with another key
    rw [lastPut_concat]
    · exact h.data n (hrest.subset hn)
    · rintro s o d rfl hacc hkey
      rw [used_put, accepts_eq h.config_eq, if_pos hacc] at hused
      refine hnodup.1 (List.mem_map.mpr ⟨n, hn, ?_⟩)
      rw [← hkey]
      exact Option.some.inj hused

theorem Stores.step (h : c.Stores config ops) (hs : c.step op = some c') :
    c'.Stores config (ops ++ [op]) := by
  obtain ⟨hl, ⟨hused, hk⟩ | ⟨block, hused, hu⟩⟩ := h.linked.effect hs
  · exact h.keeps hused hk hl
  · exact h.uses hused hu hl

theorem stores_run (hr : run step (init config) ops = some c) : c.Stores config ops := by
  refine run_induction (P := fun ops c => Stores c config ops) ?_ ?_
    ops c hr (stepsOk_true _ _)
  · exact ⟨rfl, linked_init config, fun n hn => by cases hn⟩
  · intro ops c op c' _ h _ hs
    exact h.step hs

/-- **What the cache holds under a key** is what the last accepted `Put` under it brought. -/
theorem lookup_data (hr : run step (init config) ops = some c) {sstId blockOffset : UInt64}
    {data : Bytes} (hget : (c.get sstId blockOffset).2 = some data) :
    ∃ s o, lastPut config (makeKey sstId blockOffset) ops = some (s, o, data) := by
  have h := stores_run hr
  rw [get] at hget
  cases hl : c.cacheMap.lookup (makeKey sstId blockOffset) with
  | none =>
    rw [hl] at hget
    cases hget
  | some ptr =>
    rw [hl] at hget
    obtain rfl := Option.some.inj hget
    obtain ⟨hp, hkey⟩ := h.linked.of_lookup hl
    obtain ⟨s, o, hlast⟩ := h.data _ (mem_nodes hp)
    dsimp only at hlast
    rw [hkey] at hlast
    exact ⟨s, o, hlast⟩

end

/-! ### Runs -/

/-- Every hit of the run is genuine. -/
def HitsGenuine (config : Config) (ops : List Op) : Prop :=
  ∀ p sstId blockOffset c data, p ++ [.get sstId blockOffset] <+: ops →
    run step (init config) p = some c → (c.get sstId blockOffset).2 = some data →
    Genuine config p sstId blockOffset data

/-- No block that is asked for has the key of another one, for which a `Put` is accepted. -/
def KeysDistinct (config : Config) (ops : List Op) : Prop :=
  ∀ sstId blockOffset s o data, .get sstId blockOffset ∈ ops → .put s o data ∈ ops →
    (init config).accepts data → makeKey s o = makeKey sstId blockOffset →
    s = sstId ∧ o = blockOffset

theorem exists_put_of_lastPut {config : Config} {key s o : UInt64} {ops : List Op} {data : Bytes}
    (h : lastPut config key ops = some (s, o, data)) :
    Op.put s o data ∈ ops ∧ (init config).accepts data ∧ makeKey s o = key := by
  induction ops using List.reverseRecOn with
  | nil => cases h
  | append_singleton ops op ih =>
    by_cases hput : ∃ s o d, op = .put s o d ∧ (init config).accepts d ∧ makeKey s o = key
    · obtain ⟨s', o', d, rfl, hacc, hkey⟩ := hput
      rw [lastPut_concat_put, if_pos ⟨hacc, hkey⟩] at h
      obtain ⟨rfl, rfl, rfl⟩ : s' = s ∧ o' = o ∧ d = data := by simpa using h
      exact ⟨List.mem_append_right _ List.mem_cons_self, hacc, hkey⟩
    · rw [lastPut_concat fun s o d hop hacc hkey => hput ⟨s, o, d, hop, hacc, hkey⟩] at h
      exact ⟨List.mem_append_left _ (ih h).1, (ih h).2⟩

theorem KeysDistinct.hitsGenuine {config : Config} {ops : List Op} (h : KeysDistinct config ops) :
    HitsGenuine config ops := by
  intro p sstId blockOffset c data hp hr hget
  obtain ⟨s, o, hlast⟩ := lookup_data hr hget
  obtain ⟨hput, hacc, hkey⟩ := exists_put_of_lastPut hlast
  have hmem : Op.get sstId blockOffset ∈ ops :=
    hp.subset (List.mem_append_right _ List.mem_cons_self)
  obtain ⟨rfl, rfl⟩ := h sstId blockOffset s o data hmem
    (hp.subset (List.mem_append_left _ hput)) hacc hkey
  exact genuine_iff.mpr hlast

theorem get_put_init {config : Config} {data : Bytes} (hacc : (init config).accepts data)
    {s o sstId blockOffset : UInt64} (hkey : makeKey s o = makeKey sstId blockOffset) :
    (((init config).put s o data).1.get sstId blockOffset).2 = some data := by
  rw [put_new hacc rfl, get, insert, ← hkey]
  simp only [AList.lookup_insert, Function.update_self]

/-- **Hits are genuine**, in every run of such calls, exactly if no block that is asked for has
the key of another one that is put. -/
theorem hits_genuine_iff (config : Config) (ops : List Op) :
    (∀ calls, (∀ op ∈ calls, op ∈ ops) → HitsGenuine config calls) ↔ KeysDistinct config ops := by
  constructor
  · -- the run that puts the one block and asks for the other
    intro h sstId blockOffset s o data hget hput hacc hkey
    have hgenuine := h [.put s o data, .get sstId blockOffset] (by simp [hget, hput])
    obtain ⟨p, q, heq, -, -⟩ := hgenuine [.put s o data] sstId blockOffset _ data
      (List.prefix_refl _) rfl (get_put_init hacc hkey)
    cases p with
    | nil =>
      injection (List.cons.inj heq).1 with hs ho
      exact ⟨hs, ho⟩
    | cons op p => cases p <;> cases heq
  · intro h calls hcalls
    refine KeysDistinct.hitsGenuine ?_
    intro sstId blockOffset s o data hget hput
    exact h sstId blockOffset s o data (hcalls _ hget) (hcalls _ hput)

/-! ### Keys of small ids and offsets -/

theorem toNat_makeKey {sstId blockOffset : UInt64} (hid : sstId.toNat < 2 ^ 32)
    (hoffset : blockOffset.toNat < 2 ^ 32) :
    (makeKey sstId blockOffset).toNat = sstId.toNat * 2 ^ 32 + blockOffset.toNat := by
  have hshift : (sstId <<< 32).toNat = sstId.toNat <<< 32 := by
    rw [UInt64.toNat_shiftLeft, Nat.shiftLeft_eq, Nat.shiftLeft_eq]
    exact Nat.mod_eq_of_lt (by show sstId.toNat * 2 ^ 32 < 2 ^ 64; omega)
  rw [makeKey, UInt64.toNat_or, hshift, ← Nat.shiftLeft_add_eq_or_of_lt hoffset, Nat.shiftLeft_eq]

theorem makeKey_inj {s s' o o' : UInt64} (hs : s.toNat < 2 ^ 32) (hs' : s'.toNat < 2 ^ 32)
    (ho : o.toNat < 2 ^ 32) (ho' : o'.toNat < 2 ^ 32) (h : makeKey s o = makeKey s' o') :
    s = s' ∧ o = o' := by
  have heq := congrArg UInt64.toNat h
  rw [toNat_makeKey hs ho, toNat_makeKey hs' ho'] at heq
  exact ⟨UInt64.toNat_inj.mp (by omega), UInt64.toNat_inj.mp (by omega)⟩

/-- The ids and offsets of a call are below `2 ^ 32`. -/
def Op.Small : Op → Prop
  | .get sstId blockOffset => sstId.toNat < 2 ^ 32 ∧ blockOffset.toNat < 2 ^ 32
  | .put sstId blockOffset _ => sstId.toNat < 2 ^ 32 ∧ blockOffset.toNat < 2 ^ 32
  | _ => True

theorem keysDistinct_of_small (config : Config) {ops : List Op} (hsmall : ∀ op ∈ ops, op.Small) :
    KeysDistinct config ops := by
  intro sstId blockOffset s o data hget hput _ hkey
  obtain ⟨hs, ho⟩ := hsmall _ hput
  obtain ⟨hs', ho'⟩ := hsmall _ hget
  exact makeKey_inj hs hs' ho ho' hkey

/-- **Two blocks with one key**: the block at offset `2 ^ 32` of table 0 is a hit for the one at
offset 0 of table 1. -/
theorem foreign_block_hit :
    ¬ HitsGenuine sampleConfig [.put 0 4294967296 [1, 2], .get 1 0] := by
  intro h
  obtain ⟨p, q, heq, -, -⟩ := h [.put 0 4294967296 [1, 2]] 1 0 _ [1, 2] (List.prefix_refl _) rfl
    (by decide +kernel)
  cases p with
  | nil => cases heq
  | cons op p => cases p <;> cases heq

end Mokv.LSM.BlockCache
