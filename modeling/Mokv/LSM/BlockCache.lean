import Mokv.Bytes
import Mokv.Lib.Binary64
import Mokv.Lib.NodeIndex
import Mokv.Lib.Run

/-!
# The block cache

`BlockCache` (`mokv/lsm/block_cache.hpp`): blocks of SST files in a list, most recently used
first, and a hash map to them.  The list and the map share their blocks, so a block is an
address and `heap` says what stands there.

The size and the number of the blocks are counted in the statistics.  `accounted_iff`: the
counters are right in every state of a run exactly when every block that is replaced has
the size of the new one and the statistics are reset only while the cache is empty.
-/

namespace Mokv.LSM

open Lib Binary64

/-- `CacheBlock`. -/
structure CacheBlock where
  data : Bytes
  sstId : UInt64
  blockOffset : UInt64
  accessTime : Nat := 0
  hitCount : Nat := 0

/-- `size`. -/
def CacheBlock.size (block : CacheBlock) : Nat := block.data.length

/-- `Config`. -/
structure BlockCache.Config where
  maxCapacity : Nat := 256 * 1024 * 1024
  minBlockSize : Nat := 4096
  maxBlockSize : Nat := 64 * 1024
  /-- 0 for no limit -/
  maxBlockCount : Nat := 0
  minUtilization : Double := .finite (1 / 2)

/-- `Stats`. -/
structure BlockCache.Stats where
  totalAccess : Nat := 0
  hitCount : Nat := 0
  missCount : Nat := 0
  rejectedCount : Nat := 0
  evictedCount : Nat := 0
  currentSize : Nat := 0
  currentCount : Nat := 0

/-- `BlockCache`.  `fresh` is the next address, and `wrapped` notes a subtraction on the
counters that went below zero. -/
structure BlockCache where
  config : BlockCache.Config
  cacheMap : NodeMap UInt64
  lruList : List Nat
  stats : BlockCache.Stats
  accessCounter : Nat
  heap : Nat → CacheBlock
  fresh : Nat
  wrapped : Bool

/-- `MakeKey`. -/
def makeKey (sstId blockOffset : UInt64) : UInt64 := (sstId <<< 32) ||| blockOffset

/-- The key of a block. -/
def CacheBlock.key (block : CacheBlock) : UInt64 := makeKey block.sstId block.blockOffset

namespace BlockCache

/-- An empty cache. -/
def init (config : Config) : BlockCache :=
  ⟨config, ∅, [], {}, 0, fun _ => ⟨[], 0, 0, 0, 0⟩, 0, false⟩

/-- `MoveToFront`. -/
def moveToFront (c : BlockCache) (ptr : Nat) : BlockCache :=
  { c with lruList := ptr :: c.lruList.filter (· ≠ ptr) }

/-- `RemoveBlock`. -/
def removeBlock (c : BlockCache) (ptr : Nat) : BlockCache :=
  let size := (c.heap ptr).size
  { c with
    lruList := c.lruList.filter (· ≠ ptr)
    stats := { c.stats with
      currentSize := subSize c.stats.currentSize size
      currentCount := subSize c.stats.currentCount 1 }
    wrapped := c.wrapped || c.stats.currentSize < size || c.stats.currentCount = 0 }

/-- A new block of the size does not fit. -/
def mustEvict (c : BlockCache) (newBlockSize : Nat) : Bool :=
  c.config.maxCapacity < addSize c.stats.currentSize newBlockSize ||
    (0 < c.config.maxBlockCount && c.config.maxBlockCount ≤ c.stats.currentCount)

/-- The body of the loop in `EvictIfNeeded`. -/
def evict (c : BlockCache) (ptr : Nat) : BlockCache :=
  let key := (c.heap ptr).key
  let c := c.removeBlock ptr
  { c with
    cacheMap := c.cacheMap.erase key
    stats := { c.stats with evictedCount := incSize c.stats.evictedCount } }

/-- The loop in `EvictIfNeeded`, `rounds` times at most. -/
def evictLoop (newBlockSize : Nat) : Nat → BlockCache → BlockCache
  | 0, c => c
  | rounds + 1, c =>
    if c.mustEvict newBlockSize then
      match c.lruList.getLast? with
      | none => c
      | some ptr => evictLoop newBlockSize rounds (c.evict ptr)
    else c

/-- `EvictIfNeeded`.  A round takes a block, so there are no more rounds than blocks. -/
def evictIfNeeded (c : BlockCache) (newBlockSize : Nat) : BlockCache :=
  evictLoop newBlockSize c.lruList.length c

/-- `Get` of a key that is there. -/
def hit (c : BlockCache) (ptr : Nat) : BlockCache :=
  let block := { c.heap ptr with
    hitCount := incSize (c.heap ptr).hitCount
    accessTime := incSize c.accessCounter }
  let c := { c with
    accessCounter := incSize c.accessCounter
    heap := Function.update c.heap ptr block }.moveToFront ptr
  { c with
    stats := { c.stats with
      hitCount := incSize c.stats.hitCount
      totalAccess := incSize c.stats.totalAccess } }

/-- `Get`. -/
def get (c : BlockCache) (sstId blockOffset : UInt64) : BlockCache × Option Bytes :=
  match c.cacheMap.lookup (makeKey sstId blockOffset) with
  | some ptr => (c.hit ptr, some (c.heap ptr).data)
  | none =>
    ({ c with
      stats := { c.stats with
        missCount := incSize c.stats.missCount
        totalAccess := incSize c.stats.totalAccess } }, none)

/-- `Put` refuses data that is too large, or too small for a block. -/
def rejects (c : BlockCache) (data : Bytes) : Bool :=
  c.config.maxBlockSize < data.length ||
    (Double.ofRatio data.length c.config.minBlockSize).lt c.config.minUtilization

/-- `Put` of a key that is there. -/
def replace (c : BlockCache) (ptr : Nat) (data : Bytes) : BlockCache :=
  let block := { c.heap ptr with data, accessTime := incSize c.accessCounter }
  { c with
    accessCounter := incSize c.accessCounter
    heap := Function.update c.heap ptr block }.moveToFront ptr

/-- The insertion of a new block. -/
def insert (c : BlockCache) (sstId blockOffset : UInt64) (data : Bytes) : BlockCache :=
  let block : CacheBlock := { data, sstId, blockOffset, accessTime := incSize c.accessCounter }
  { c with
    accessCounter := incSize c.accessCounter
    heap := Function.update c.heap c.fresh block
    fresh := c.fresh + 1
    cacheMap := c.cacheMap.insert (makeKey sstId blockOffset) c.fresh
    lruList := c.fresh :: c.lruList
    stats := { c.stats with
      currentSize := addSize c.stats.currentSize block.size
      currentCount := incSize c.stats.currentCount } }

/-- `Put`. -/
def put (c : BlockCache) (sstId blockOffset : UInt64) (data : Bytes) : BlockCache × Bool :=
  if data = [] then (c, false)
  else if c.rejects data then
    ({ c with stats := { c.stats with rejectedCount := incSize c.stats.rejectedCount } }, false)
  else
    match c.cacheMap.lookup (makeKey sstId blockOffset) with
    | some ptr => (c.replace ptr data, true)
    | none => ((c.evictIfNeeded data.length).insert sstId blockOffset data, true)

/-- `Remove`. -/
def remove (c : BlockCache) (sstId blockOffset : UInt64) : BlockCache × Bool :=
  match c.cacheMap.lookup (makeKey sstId blockOffset) with
  | some ptr =>
    let c := c.removeBlock ptr
    ({ c with cacheMap := c.cacheMap.erase (makeKey sstId blockOffset) }, true)
  | none => (c, false)

/-- `Clear`. -/
def clear (c : BlockCache) : BlockCache :=
  { c with
    cacheMap := ∅
    lruList := []
    stats := { c.stats with currentSize := 0, currentCount := 0 } }

/-- `ResetStats`. -/
def resetStats (c : BlockCache) : BlockCache := { c with stats := {} }

/-- The calls. -/
inductive Op where
  | get (sstId blockOffset : UInt64)
  | put (sstId blockOffset : UInt64) (data : Bytes)
  | remove (sstId blockOffset : UInt64)
  | clear
  | resetStats

/-- One call. -/
def step (c : BlockCache) : Op → Option BlockCache
  | .get sstId blockOffset => some (c.get sstId blockOffset).1
  | .put sstId blockOffset data => some (c.put sstId blockOffset data).1
  | .remove sstId blockOffset => some (c.remove sstId blockOffset).1
  | .clear => some c.clear
  | .resetStats => some c.resetStats

/-- The sizes of the blocks held. -/
def bytesHeld (c : BlockCache) : Nat := (c.lruList.map fun ptr => (c.heap ptr).size).sum

/-- The counters are right, the map and the list hold the same blocks, and no subtraction
has wrapped. -/
structure Accounted (c : BlockCache) : Prop where
  size : c.stats.currentSize = c.bytesHeld
  count : c.stats.currentCount = c.lruList.length
  map : (c.cacheMap.entries.map Sigma.snd).Perm c.lruList
  noWrap : c.wrapped = false

/-- The blocks held and the data of a call are in memory together. -/
def Fits (c : BlockCache) : Op → Prop
  | .put _ _ data => c.bytesHeld + data.length < 2 ^ 64
  | _ => True

/-- Data that replaces a block has its size, and the statistics are reset when there is no
block. -/
def Op.Ok (c : BlockCache) : Op → Prop
  | .put sstId blockOffset data =>
    data ≠ [] → c.rejects data = false → ∀ ptr ∈ c.cacheMap.lookup (makeKey sstId blockOffset),
      data.length = (c.heap ptr).size
  | .resetStats => c.lruList = []
  | _ => True

/-! ### The list and the map -/

/-- The addresses and blocks of the list. -/
def nodes (c : BlockCache) : List (Nat × CacheBlock) := c.lruList.map fun ptr => (ptr, c.heap ptr)

/-- The map and the list hold the same blocks, none of them empty, and all in memory. -/
structure Coherent (c : BlockCache) : Prop where
  indexed : Indexed CacheBlock.key c.nodes c.cacheMap []
  fresh : ∀ ptr ∈ c.lruList, ptr < c.fresh
  nonempty : ∀ ptr ∈ c.lruList, 0 < (c.heap ptr).size
  bound : c.bytesHeld < 2 ^ 64

/-- The map and the list hold the same blocks. -/
structure Linked (c : BlockCache) : Prop where
  indexed : Indexed CacheBlock.key c.nodes c.cacheMap []
  fresh : ∀ ptr ∈ c.lruList, ptr < c.fresh

/-- The counters are right. -/
structure Counted (c : BlockCache) : Prop where
  size : c.stats.currentSize = c.bytesHeld
  count : c.stats.currentCount = c.lruList.length
  noWrap : c.wrapped = false

theorem map_fst_nodes (c : BlockCache) : c.nodes.map Prod.fst = c.lruList := by
  rw [nodes, List.map_map]
  exact List.map_id _

theorem bytesHeld_eq (c : BlockCache) : c.bytesHeld = (c.nodes.map fun n => n.2.size).sum := by
  rw [nodes, List.map_map]
  rfl

theorem coherent_init (config : Config) : (init config).Coherent :=
  ⟨Indexed.empty _, by simp [init], by simp [init], by simp [init, bytesHeld]⟩

theorem linked_init (config : Config) : (init config).Linked :=
  ⟨Indexed.empty _, by simp [init]⟩

section

variable {c c' : BlockCache} {ptr : Nat}

theorem Coherent.linked (h : c.Coherent) : c.Linked := ⟨h.indexed, h.fresh⟩

theorem Linked.nodup (h : c.Linked) : c.lruList.Nodup := by
  rw [← map_fst_nodes]
  exact h.indexed.ptrs

/-- The map holds each block of the list once. -/
theorem Linked.map_perm (h : c.Linked) :
    (c.cacheMap.entries.map Sigma.snd).Perm c.lruList := by
  rw [← map_fst_nodes]
  exact h.indexed.entries_perm

theorem Coherent.accounted_iff_counted (h : c.Coherent) : c.Accounted ↔ c.Counted := by
  constructor
  · rintro ⟨hsize, hcount, -, hwrap⟩
    exact ⟨hsize, hcount, hwrap⟩
  · rintro ⟨hsize, hcount, hwrap⟩
    exact ⟨hsize, hcount, h.linked.map_perm, hwrap⟩

theorem Linked.of_lookup (h : c.Linked) {key : UInt64} (hl : c.cacheMap.lookup key = some ptr) :
    ptr ∈ c.lruList ∧ (c.heap ptr).key = key := by
  obtain ⟨block, hmem, hkey⟩ := h.indexed.mem_of_lookup hl
  obtain ⟨q, hq, heq⟩ := List.mem_map.mp hmem
  obtain ⟨rfl, rfl⟩ := Prod.mk.inj heq
  exact ⟨hq, hkey⟩

theorem length_le_bytesHeld (h : ∀ ptr ∈ c.lruList, 0 < (c.heap ptr).size) :
    c.lruList.length ≤ c.bytesHeld := by
  have hle : c.lruList.length • 1 ≤ c.bytesHeld := by
    rw [bytesHeld, ← List.length_map (f := fun ptr => (c.heap ptr).size)]
    refine List.card_nsmul_le_sum _ _ ?_
    intro n hn
    obtain ⟨ptr, hptr, rfl⟩ := List.mem_map.mp hn
    exact h ptr hptr
  simpa using hle

theorem Coherent.length_le (h : c.Coherent) : c.lruList.length ≤ c.bytesHeld :=
  length_le_bytesHeld h.nonempty

theorem Linked.perm (h : c.Linked) (hp : ptr ∈ c.lruList) :
    c.lruList.Perm (ptr :: c.lruList.filter (· ≠ ptr)) := by
  have hperm := List.perm_cons_erase hp
  rw [h.nodup.erase_eq_filter] at hperm
  refine hperm.trans (List.Perm.of_eq ?_)
  congr 1
  refine List.filter_congr ?_
  intro q _
  by_cases hq : q = ptr <;> simp [hq]

theorem Linked.nodes_perm (h : c.Linked) (hp : ptr ∈ c.lruList) :
    c.nodes.Perm ((ptr, c.heap ptr) ::
      (c.lruList.filter (· ≠ ptr)).map fun q => (q, c.heap q)) := (h.perm hp).map _

theorem Linked.bytesHeld_eq_add (h : c.Linked) (hp : ptr ∈ c.lruList) :
    c.bytesHeld = (c.heap ptr).size +
      ((c.lruList.filter (· ≠ ptr)).map fun q => (c.heap q).size).sum :=
  ((h.perm hp).map _).sum_eq

theorem map_update (l : List Nat) (heap : Nat → CacheBlock) (block : CacheBlock) {α : Type}
    (f : Nat → CacheBlock → α) (hp : ptr ∉ l) :
    (l.map fun q => f q (Function.update heap ptr block q)) = l.map fun q => f q (heap q) := by
  refine List.map_congr_left ?_
  intro q hq
  have hne : q ≠ ptr := fun heq => hp (heq ▸ hq)
  rw [Function.update_of_ne hne]

theorem not_mem_filter_ne (l : List Nat) : ptr ∉ l.filter (· ≠ ptr) := by
  simp

/-- **A block is written and moved to the front.** -/
theorem Linked.touch (h : c.Linked) (hp : ptr ∈ c.lruList) (block : CacheBlock)
    (c' : BlockCache) (hkey : block.key = (c.heap ptr).key) (hmap : c'.cacheMap = c.cacheMap)
    (hlist : c'.lruList = ptr :: c.lruList.filter (· ≠ ptr))
    (hheap : c'.heap = Function.update c.heap ptr block) (hfresh : c'.fresh = c.fresh) :
    c'.Linked ∧ c'.nodes =
      (ptr, block) :: (c.lruList.filter (· ≠ ptr)).map fun q => (q, c.heap q) := by
  have hnodes : c'.nodes =
      (ptr, block) :: (c.lruList.filter (· ≠ ptr)).map fun q => (q, c.heap q) := by
    rw [nodes, hlist, List.map_cons, hheap, Function.update_self,
      map_update _ _ _ Prod.mk (not_mem_filter_ne _)]
  refine ⟨⟨?_, ?_⟩, hnodes⟩
  · rw [hnodes, hmap]
    exact (h.indexed.perm (h.nodes_perm hp) (List.Perm.refl _)).setValue hkey
  · intro q hq
    rw [hlist, ← (h.perm hp).mem_iff] at hq
    rw [hfresh]
    exact h.fresh q hq

theorem Linked.bytesHeld_touch (h : c.Linked) (hp : ptr ∈ c.lruList) {block : CacheBlock}
    (hnodes : c'.nodes =
      (ptr, block) :: (c.lruList.filter (· ≠ ptr)).map fun q => (q, c.heap q)) :
    c'.bytesHeld + (c.heap ptr).size = c.bytesHeld + block.size := by
  rw [bytesHeld_eq c', hnodes, h.bytesHeld_eq_add hp, List.map_cons, List.sum_cons, List.map_map]
  simp only [Function.comp_def]
  omega

theorem Coherent.touch (h : c.Coherent) (hp : ptr ∈ c.lruList) (block : CacheBlock)
    (c' : BlockCache) (hkey : block.key = (c.heap ptr).key) (hsize : 0 < block.size)
    (hbound : c.bytesHeld + block.size < 2 ^ 64 ∨ block.size = (c.heap ptr).size)
    (hmap : c'.cacheMap = c.cacheMap) (hlist : c'.lruList = ptr :: c.lruList.filter (· ≠ ptr))
    (hheap : c'.heap = Function.update c.heap ptr block) (hfresh : c'.fresh = c.fresh) :
    c'.Coherent ∧ c'.bytesHeld + (c.heap ptr).size = c.bytesHeld + block.size ∧
      c'.lruList.length = c.lruList.length := by
  obtain ⟨hlinked, hnodes⟩ := h.linked.touch hp block c' hkey hmap hlist hheap hfresh
  have hbytes := h.linked.bytesHeld_touch hp hnodes
  have hperm := h.linked.perm hp
  refine ⟨⟨hlinked.indexed, hlinked.fresh, ?_, ?_⟩, hbytes, ?_⟩
  · intro q hq
    rw [hlist, ← hperm.mem_iff] at hq
    rw [hheap]
    by_cases hqp : q = ptr
    · subst hqp
      rw [Function.update_self]
      exact hsize
    · rw [Function.update_of_ne hqp]
      exact h.nonempty q hq
  · have hb := h.bound
    omega
  · rw [hlist]
    exact hperm.length_eq.symm

/-- **A block leaves** the list and the map. -/
theorem Linked.drop (h : c.Linked) (hp : ptr ∈ c.lruList) (c' : BlockCache)
    (hmap : c'.cacheMap = c.cacheMap.erase (c.heap ptr).key)
    (hlist : c'.lruList = c.lruList.filter (· ≠ ptr)) (hheap : c'.heap = c.heap)
    (hfresh : c'.fresh = c.fresh) :
    c'.Linked ∧ c.bytesHeld = c'.bytesHeld + (c.heap ptr).size ∧
      c.lruList.length = c'.lruList.length + 1 := by
  have hnodes : c'.nodes = (c.lruList.filter (· ≠ ptr)).map fun q => (q, c.heap q) := by
    rw [nodes, hlist, hheap]
  refine ⟨⟨?_, ?_⟩, ?_, ?_⟩
  · rw [hnodes, hmap]
    exact (h.indexed.perm (h.nodes_perm hp) (List.Perm.refl _)).remove List.not_mem_nil
  · intro q hq
    rw [hlist] at hq
    rw [hfresh]
    exact h.fresh q (List.mem_of_mem_filter hq)
  · rw [h.bytesHeld_eq_add hp, bytesHeld, hlist, hheap, Nat.add_comm]
  · rw [hlist]
    exact (h.perm hp).length_eq

theorem Coherent.drop (h : c.Coherent) (hp : ptr ∈ c.lruList) (c' : BlockCache)
    (hmap : c'.cacheMap = c.cacheMap.erase (c.heap ptr).key)
    (hlist : c'.lruList = c.lruList.filter (· ≠ ptr)) (hheap : c'.heap = c.heap)
    (hfresh : c'.fresh = c.fresh) :
    c'.Coherent ∧ c.bytesHeld = c'.bytesHeld + (c.heap ptr).size ∧
      c.lruList.length = c'.lruList.length + 1 := by
  obtain ⟨hlinked, hbytes, hlength⟩ := h.linked.drop hp c' hmap hlist hheap hfresh
  refine ⟨⟨hlinked.indexed, hlinked.fresh, ?_, ?_⟩, hbytes, hlength⟩
  · intro q hq
    rw [hlist] at hq
    rw [hheap]
    exact h.nonempty q (List.mem_of_mem_filter hq)
  · have hb := h.bound
    omega

/-- **The counters follow a block that leaves.** -/
theorem Counted.removeBlock (hc : c.Counted) (h : c.Coherent)
    (hbytes : c.bytesHeld = c'.bytesHeld + (c.heap ptr).size)
    (hlength : c.lruList.length = c'.lruList.length + 1)
    (hsize : c'.stats.currentSize = subSize c.stats.currentSize (c.heap ptr).size)
    (hcount : c'.stats.currentCount = subSize c.stats.currentCount 1)
    (hwrap : c'.wrapped =
      (c.wrapped || decide (c.stats.currentSize < (c.heap ptr).size) ||
        decide (c.stats.currentCount = 0))) : c'.Counted := by
  have hbound := h.bound
  have hle := h.length_le
  have hcs := hc.size
  have hcc := hc.count
  refine ⟨?_, ?_, ?_⟩
  · rw [hsize, hcs, hbytes]
    exact subSize_eq (by omega)
  · rw [hcount, hcc, hlength]
    exact subSize_eq (by omega)
  · have hlt : ¬ c.stats.currentSize < (c.heap ptr).size := by omega
    have hne : ¬ c.stats.currentCount = 0 := by omega
    rw [hwrap, hc.noWrap, decide_eq_false hlt, decide_eq_false hne]
    rfl

theorem Coherent.evict (h : c.Coherent) (hp : ptr ∈ c.lruList) :
    (c.evict ptr).Coherent ∧ (c.evict ptr).bytesHeld ≤ c.bytesHeld ∧
      c.lruList.length = (c.evict ptr).lruList.length + 1 ∧
      (c.Counted → (c.evict ptr).Counted) := by
  obtain ⟨hcoh, hbytes, hlength⟩ := h.drop hp (c.evict ptr) rfl rfl rfl rfl
  refine ⟨hcoh, by omega, hlength, ?_⟩
  intro hc
  exact hc.removeBlock h hbytes hlength rfl rfl rfl

theorem lookup_evict_of_eq_none {key : UInt64} (hl : c.cacheMap.lookup key = none) :
    (c.evict ptr).cacheMap.lookup key = none := by
  show (c.cacheMap.erase (c.heap ptr).key).lookup key = none
  by_cases hkey : key = (c.heap ptr).key
  · subst hkey
    exact AList.lookup_erase _ _
  · rw [AList.lookup_erase_ne hkey]
    exact hl

/-- **The eviction loop** keeps the cache coherent and its counters right, and does not bring a
key back. -/
theorem Coherent.evictLoop {key : UInt64} (newBlockSize rounds : Nat) (h : c.Coherent)
    (hl : c.cacheMap.lookup key = none) :
    (evictLoop newBlockSize rounds c).Coherent ∧
      (evictLoop newBlockSize rounds c).bytesHeld ≤ c.bytesHeld ∧
      (evictLoop newBlockSize rounds c).cacheMap.lookup key = none ∧
      (c.Counted → (evictLoop newBlockSize rounds c).Counted) := by
  induction rounds generalizing c with
  | zero => exact ⟨h, Nat.le_refl _, hl, id⟩
  | succ rounds ih =>
    rw [BlockCache.evictLoop]
    split
    · split
      · exact ⟨h, Nat.le_refl _, hl, id⟩
      · rename_i ptr hlast
        obtain ⟨hcoh, hbytes, -, hcount⟩ := h.evict (List.mem_of_getLast? hlast)
        obtain ⟨ih₁, ih₂, ih₃, ih₄⟩ := ih hcoh (lookup_evict_of_eq_none hl)
        exact ⟨ih₁, ih₂.trans hbytes, ih₃, fun hc => ih₄ (hcount hc)⟩
    · exact ⟨h, Nat.le_refl _, hl, id⟩

/-- **The loop is over when it ends**: the new block fits, or there is none to evict. -/
theorem Linked.evictLoop_done (newBlockSize rounds : Nat) (h : c.Linked)
    (hrounds : c.lruList.length ≤ rounds) :
    (BlockCache.evictLoop newBlockSize rounds c).mustEvict newBlockSize = false ∨
      (BlockCache.evictLoop newBlockSize rounds c).lruList = [] := by
  induction rounds generalizing c with
  | zero => exact .inr (List.length_eq_zero_iff.mp (Nat.le_zero.mp hrounds))
  | succ rounds ih =>
    rw [BlockCache.evictLoop]
    split
    · split
      · rename_i hlast
        exact .inr (List.getLast?_eq_none_iff.mp hlast)
      · rename_i ptr hlast
        obtain ⟨hlinked, -, hlength⟩ :=
          h.drop (List.mem_of_getLast? hlast) (c.evict ptr) rfl rfl rfl rfl
        exact ih hlinked (by omega)
    · rename_i hmust
      exact .inl (Bool.not_eq_true _ ▸ hmust)

theorem Linked.insert (h : c.Linked) {sstId blockOffset : UInt64} (data : Bytes)
    (hl : c.cacheMap.lookup (makeKey sstId blockOffset) = none) :
    (c.insert sstId blockOffset data).Linked ∧
      (c.insert sstId blockOffset data).nodes =
        (c.fresh, ⟨data, sstId, blockOffset, incSize c.accessCounter, 0⟩) :: c.nodes := by
  have hfresh : c.fresh ∉ c.lruList := fun hmem => absurd (h.fresh _ hmem) (Nat.lt_irrefl _)
  have hnodes : (c.insert sstId blockOffset data).nodes =
      (c.fresh, ⟨data, sstId, blockOffset, incSize c.accessCounter, 0⟩) :: c.nodes := by
    rw [nodes, BlockCache.insert]
    simp only [List.map_cons, Function.update_self]
    rw [map_update _ _ _ Prod.mk hfresh]
    rfl
  refine ⟨⟨?_, ?_⟩, hnodes⟩
  · have hmap : (c.insert sstId blockOffset data).cacheMap =
        c.cacheMap.emplace (makeKey sstId blockOffset) c.fresh :=
      (if_neg (AList.lookup_eq_none.mp hl)).symm
    have hkey : CacheBlock.key ⟨data, sstId, blockOffset, incSize c.accessCounter, 0⟩ =
        makeKey sstId blockOffset := rfl
    rw [hnodes, hmap, ← hkey]
    rw [← hkey] at hl
    rw [← map_fst_nodes] at hfresh
    exact (h.indexed.push hfresh (h.indexed.not_mem_keys hl)).link List.mem_cons_self
  · intro q hq
    rcases List.mem_cons.mp hq with rfl | hq
    · exact Nat.lt_succ_self _
    · exact Nat.lt_succ_of_lt (h.fresh q hq)

theorem Coherent.insert (h : c.Coherent) {sstId blockOffset : UInt64} {data : Bytes}
    (hdata : data ≠ []) (hl : c.cacheMap.lookup (makeKey sstId blockOffset) = none)
    (hfit : c.bytesHeld + data.length < 2 ^ 64) :
    (c.insert sstId blockOffset data).Coherent ∧
      (c.Counted → (c.insert sstId blockOffset data).Counted) := by
  have hfresh : c.fresh ∉ c.lruList := fun hmem => absurd (h.fresh _ hmem) (Nat.lt_irrefl _)
  have hpos : 0 < data.length := List.length_pos_iff.mpr hdata
  obtain ⟨hlinked, hnodes⟩ := h.linked.insert data hl
  have hbytes : (c.insert sstId blockOffset data).bytesHeld = c.bytesHeld + data.length := by
    rw [bytesHeld_eq, hnodes, List.map_cons, List.sum_cons, ← bytesHeld_eq, Nat.add_comm]
    rfl
  refine ⟨⟨hlinked.indexed, hlinked.fresh, ?_, ?_⟩, ?_⟩
  · intro q hq
    show 0 < (Function.update c.heap c.fresh _ q).size
    rcases List.mem_cons.mp hq with rfl | hq
    · rw [Function.update_self]
      exact hpos
    · have hne : q ≠ c.fresh := fun heq => hfresh (heq ▸ hq)
      rw [Function.update_of_ne hne]
      exact h.nonempty q hq
  · rw [hbytes]
    exact hfit
  · intro hc
    have hle := h.length_le
    have hcs := hc.size
    have hcc := hc.count
    refine ⟨?_, ?_, hc.noWrap⟩
    · rw [hbytes]
      show addSize c.stats.currentSize data.length = _
      rw [hcs]
      exact addSize_eq hfit
    · show addSize c.stats.currentCount 1 = c.lruList.length + 1
      rw [hcc]
      exact addSize_eq (by omega)

/-! ### The calls -/

theorem Coherent.get (h : c.Coherent) (sstId blockOffset : UInt64) :
    (c.get sstId blockOffset).1.Coherent ∧ (c.Counted → (c.get sstId blockOffset).1.Counted) := by
  rw [BlockCache.get]
  split
  · rename_i ptr hl
    obtain ⟨hp, -⟩ := h.linked.of_lookup hl
    obtain ⟨hcoh, hbytes, hlength⟩ := h.touch hp
      { c.heap ptr with
        hitCount := incSize (c.heap ptr).hitCount
        accessTime := incSize c.accessCounter }
      (c.hit ptr) rfl (h.nonempty ptr hp) (.inr rfl) rfl rfl rfl rfl
    refine ⟨hcoh, ?_⟩
    intro hc
    exact ⟨hc.size.trans (Nat.add_right_cancel hbytes).symm, hc.count.trans hlength.symm, hc.noWrap⟩
  · exact ⟨⟨h.indexed, h.fresh, h.nonempty, h.bound⟩, fun hc => ⟨hc.size, hc.count, hc.noWrap⟩⟩

/-- **A replaced block leaves the size as it was counted.** -/
theorem Coherent.replace (h : c.Coherent) (hp : ptr ∈ c.lruList) {data : Bytes} (hdata : data ≠ [])
    (hfit : c.bytesHeld + data.length < 2 ^ 64) :
    (c.replace ptr data).Coherent ∧
      (c.Counted → ((c.replace ptr data).Counted ↔ data.length = (c.heap ptr).size)) := by
  obtain ⟨hcoh, hbytes, hlength⟩ := h.touch hp
    { c.heap ptr with data, accessTime := incSize c.accessCounter } (c.replace ptr data) rfl
    (List.length_pos_iff.mpr hdata) (.inl hfit) rfl rfl rfl rfl
  refine ⟨hcoh, ?_⟩
  intro hc
  have hsize : (c.replace ptr data).stats.currentSize = c.bytesHeld := hc.size
  change _ = c.bytesHeld + data.length at hbytes
  constructor
  · intro hc'
    have hsize' := hc'.size
    omega
  · intro heq
    exact ⟨by omega, hc.count.trans hlength.symm, hc.noWrap⟩

theorem Coherent.put (h : c.Coherent) (sstId blockOffset : UInt64) {data : Bytes}
    (hfit : c.bytesHeld + data.length < 2 ^ 64) :
    (c.put sstId blockOffset data).1.Coherent ∧
      (c.Counted →
        ((c.put sstId blockOffset data).1.Counted ↔ Op.Ok c (.put sstId blockOffset data))) := by
  rw [BlockCache.put, Op.Ok]
  split
  · rename_i hdata
    exact ⟨h, fun hc => iff_of_true hc fun hne => absurd hdata hne⟩
  · rename_i hdata
    split
    · rename_i hrej
      refine ⟨⟨h.indexed, h.fresh, h.nonempty, h.bound⟩, ?_⟩
      intro hc
      refine iff_of_true ⟨hc.size, hc.count, hc.noWrap⟩ ?_
      intro _ hrej'
      rw [hrej] at hrej'
      cases hrej'
    · rename_i hrej
      split
      · rename_i ptr hl
        obtain ⟨hcoh, hiff⟩ := h.replace (h.linked.of_lookup hl).1 hdata hfit
        refine ⟨hcoh, ?_⟩
        intro hc
        refine (hiff hc).trans ?_
        rw [hl]
        constructor
        · intro hlen _ _ q hq
          obtain rfl := Option.some.inj hq
          exact hlen
        · intro hok
          exact hok hdata (Bool.not_eq_true _ ▸ hrej) ptr rfl
      · rename_i hl
        obtain ⟨hcoh, hbytes, hl', hcount⟩ := h.evictLoop data.length c.lruList.length hl
        obtain ⟨hcoh', hcount'⟩ := hcoh.insert (c := c.evictIfNeeded data.length) hdata hl'
          (Nat.lt_of_le_of_lt (Nat.add_le_add_right hbytes _) hfit)
        refine ⟨hcoh', ?_⟩
        intro hc
        refine iff_of_true (hcount' (hcount hc)) ?_
        intro _ _ q hq
        rw [hl] at hq
        cases hq

theorem Coherent.removeCall (h : c.Coherent) (sstId blockOffset : UInt64) :
    (c.remove sstId blockOffset).1.Coherent ∧
      (c.Counted → (c.remove sstId blockOffset).1.Counted) := by
  rw [BlockCache.remove]
  split
  · rename_i ptr hl
    obtain ⟨hp, hkey⟩ := h.linked.of_lookup hl
    rw [← hkey]
    obtain ⟨hcoh, hbytes, hlength⟩ := h.drop hp
      { c.removeBlock ptr with cacheMap := c.cacheMap.erase (c.heap ptr).key } rfl rfl rfl rfl
    exact ⟨hcoh, fun hc => hc.removeBlock h hbytes hlength rfl rfl rfl⟩
  · exact ⟨h, id⟩

theorem coherent_clear (c : BlockCache) : c.clear.Coherent :=
  ⟨Indexed.empty _, by simp [clear], by simp [clear], by simp [clear, bytesHeld]⟩

theorem counted_clear (hc : c.Counted) : c.clear.Counted := ⟨rfl, rfl, hc.noWrap⟩

theorem counted_resetStats_iff (hc : c.Counted) : c.resetStats.Counted ↔ c.lruList = [] := by
  constructor
  · intro hc'
    exact List.length_eq_zero_iff.mp hc'.count.symm
  · intro hnil
    refine ⟨?_, ?_, hc.noWrap⟩
    · show 0 = (c.lruList.map _).sum
      rw [hnil]
      rfl
    · show 0 = c.lruList.length
      rw [hnil]
      rfl

/-- **Which calls keep the counters right.** -/
theorem Coherent.step {op : Op} (h : c.Coherent) (hc : c.Accounted) (hfit : c.Fits op)
    (hs : c.step op = some c') : c'.Coherent ∧ (c'.Accounted ↔ op.Ok c) := by
  have hcounted := h.accounted_iff_counted.mp hc
  have hlift : ∀ {c₁ : BlockCache} {P : Prop}, c₁.Coherent → (c₁.Counted ↔ P) →
      c₁.Coherent ∧ (c₁.Accounted ↔ P) := fun hcoh hiff =>
    ⟨hcoh, hcoh.accounted_iff_counted.trans hiff⟩
  cases op with
  | get sstId blockOffset =>
    obtain rfl := Option.some.inj hs
    obtain ⟨hcoh, hcount⟩ := h.get sstId blockOffset
    exact hlift hcoh (iff_of_true (hcount hcounted) trivial)
  | put sstId blockOffset data =>
    obtain rfl := Option.some.inj hs
    obtain ⟨hcoh, hiff⟩ := h.put sstId blockOffset hfit
    exact hlift hcoh (hiff hcounted)
  | remove sstId blockOffset =>
    obtain rfl := Option.some.inj hs
    obtain ⟨hcoh, hcount⟩ := h.removeCall sstId blockOffset
    exact hlift hcoh (iff_of_true (hcount hcounted) trivial)
  | clear =>
    obtain rfl := Option.some.inj hs
    exact hlift c.coherent_clear (iff_of_true (counted_clear hcounted) trivial)
  | resetStats =>
    obtain rfl := Option.some.inj hs
    exact hlift ⟨h.indexed, h.fresh, h.nonempty, h.bound⟩ (counted_resetStats_iff hcounted)

end

/-- **The counters are right in every state of a run** exactly when every block that is replaced
has the size of the new one and the statistics are reset only while the cache is empty. -/
theorem accounted_iff (config : Config) (ops : List Op)
    (hfit : StepsOk step Fits (init config) ops) :
    (∀ p c, p <+: ops → run step (init config) p = some c → c.Accounted) ↔
      StepsOk step (fun c op => op.Ok c) (init config) ops := by
  have h0 := coherent_init config
  refine forall_prefix_iff_stepsOk h0 (h0.accounted_iff_counted.mpr ⟨rfl, rfl, rfl⟩) ?_ ?_ hfit
  · intro c op c' h hc hfit hs
    exact h.step hc hfit hs
  · intro c op hs
    cases op <;> cases hs

instance (c : BlockCache) : (op : Op) → Decidable (c.Fits op)
  | .put _ _ data => inferInstanceAs (Decidable (c.bytesHeld + data.length < 2 ^ 64))
  | .get _ _ => isTrue trivial
  | .remove _ _ => isTrue trivial
  | .clear => isTrue trivial
  | .resetStats => isTrue trivial

instance (c : BlockCache) : (op : Op) → Decidable (op.Ok c)
  | .put sstId blockOffset data =>
    inferInstanceAs (Decidable (data ≠ [] → c.rejects data = false →
      ∀ ptr ∈ c.cacheMap.lookup (makeKey sstId blockOffset), data.length = (c.heap ptr).size))
  | .get _ _ => isTrue trivial
  | .remove _ _ => isTrue trivial
  | .clear => isTrue trivial
  | .resetStats => inferInstanceAs (Decidable (c.lruList = []))

/-- A small cache. -/
def sampleConfig : Config := ⟨8, 4, 6, 0, .finite (1 / 2)⟩

/-- A third block drives the oldest one out; a block is replaced, read and removed. -/
def sampleOps : List Op :=
  [.put 0 0 [1, 2, 3], .put 0 4096 [4, 5], .put 1 0 [6, 7, 8, 9], .put 1 0 [9, 8, 7, 6],
    .get 0 4096, .remove 1 0, .clear, .resetStats]

theorem accounted_iff_sample :
    ((∀ p c, p <+: sampleOps → run step (init sampleConfig) p = some c → c.Accounted) ↔
      StepsOk step (fun c op => op.Ok c) (init sampleConfig) sampleOps) ∧
    StepsOk step (fun c op => op.Ok c) (init sampleConfig) sampleOps :=
  ⟨accounted_iff sampleConfig sampleOps (by decide +kernel), by decide +kernel⟩

/-- **A block is replaced by a larger one**: its size is not counted, and the counter wraps when
the block is removed. -/
theorem replaced_block_not_counted :
    ∃ c c', run step (init sampleConfig) [.put 0 0 [1, 2, 3], .put 0 0 [1, 2, 3, 4, 5]] = some c ∧
      c.stats.currentSize = 3 ∧ c.bytesHeld = 5 ∧ ¬ c.Accounted ∧
      c.step (.remove 0 0) = some c' ∧ c'.wrapped = true ∧ c'.stats.currentSize = 2 ^ 64 - 2 := by
  refine ⟨_, _, rfl, by decide +kernel, by decide +kernel, ?_, rfl, by decide +kernel,
    by decide +kernel⟩
  intro h
  exact absurd h.size (by decide +kernel)

end BlockCache

end Mokv.LSM
