import Mokv.LSM.BlockCacheOrder

/-!
# The limits of the block cache

`EvictIfNeeded` of `BlockCache` (`mokv/lsm/block_cache.hpp`) makes room before a block is
inserted.  The limits are exceeded all the same: a block larger than the capacity is inserted
into the emptied cache, and a block that is replaced by a larger one is not counted again.

`limits_run`: **the limits hold in every state of a run** whose accepted blocks are not larger
than the capacity, nor than the block that they replace.  The counter of bytes may then be too
large, and never too small.
-/

namespace Mokv.LSM.BlockCache

open Lib

/-- The blocks held are within the limits of the configuration. -/
structure Limits (c : BlockCache) : Prop where
  size : c.bytesHeld ≤ c.config.maxCapacity
  count : 0 < c.config.maxBlockCount → c.lruList.length ≤ c.config.maxBlockCount

/-- Data that is accepted is not larger than the block that it replaces; when it replaces none, it
is not larger than the capacity, and the counter of bytes does not wrap. -/
def Op.FitsLimits (c : BlockCache) : Op → Prop
  | .put sstId blockOffset data =>
    c.accepts data →
      (∀ ptr ∈ c.cacheMap.lookup (makeKey sstId blockOffset),
        data.length ≤ (c.heap ptr).size) ∧
      (c.cacheMap.lookup (makeKey sstId blockOffset) = none →
        data.length ≤ c.config.maxCapacity ∧ c.stats.currentSize + data.length < 2 ^ 64)
  | .resetStats => False
  | _ => True

/-- The limits hold, and the counters are not too small. -/
structure Bounded (c : BlockCache) : Prop where
  linked : c.Linked
  nonempty : ∀ n ∈ c.nodes, 0 < n.2.size
  size : c.bytesHeld ≤ c.stats.currentSize
  size_lt : c.stats.currentSize < 2 ^ 64
  count : c.stats.currentCount = c.lruList.length
  limits : c.Limits

section

variable {c c' : BlockCache} {ptr : Nat} {op : Op}

theorem bounded_init (config : Config) : (init config).Bounded :=
  ⟨linked_init config, by simp [init, nodes], by simp [init, bytesHeld], by simp [init], rfl,
    ⟨by simp [init, bytesHeld], fun _ => Nat.zero_le _⟩⟩

theorem Bounded.length_le (h : c.Bounded) : c.lruList.length ≤ c.stats.currentSize :=
  (length_le_bytesHeld fun _ hp => h.nonempty _ (mem_nodes hp)).trans h.size

/-! ### Blocks that leave -/

/-- **A block leaves**, and the counter of bytes goes down with it. -/
theorem Bounded.drop (h : c.Bounded) (hp : ptr ∈ c.lruList) (c' : BlockCache)
    (hmap : c'.cacheMap = c.cacheMap.erase (c.heap ptr).key)
    (hlist : c'.lruList = c.lruList.filter (· ≠ ptr)) (hheap : c'.heap = c.heap)
    (hfresh : c'.fresh = c.fresh) (hconfig : c'.config = c.config)
    (hsize : c'.stats.currentSize = subSize c.stats.currentSize (c.heap ptr).size)
    (hcount : c'.stats.currentCount = subSize c.stats.currentCount 1) :
    c'.Bounded ∧ c'.stats.currentSize ≤ c.stats.currentSize := by
  obtain ⟨hlinked, hbytes, hlength⟩ := h.linked.drop hp c' hmap hlist hheap hfresh
  have hle := h.size
  have hlt := h.size_lt
  have hlen := h.length_le
  have hcc := h.count
  have hsize' : c'.stats.currentSize + (c.heap ptr).size = c.stats.currentSize := by
    rw [hsize, subSize]
    omega
  have hlimits := h.limits
  refine ⟨⟨hlinked, ?_, by omega, by omega, ?_, ⟨?_, ?_⟩⟩, by omega⟩
  · intro n hn
    rw [nodes, hlist, hheap] at hn
    exact h.nonempty n ((filter_nodes_sublist c _).subset hn)
  · rw [hcount, hcc, hlength]
    exact subSize_eq (by omega)
  · have := hlimits.size
    rw [hconfig]
    omega
  · intro hpos
    rw [hconfig] at hpos ⊢
    have := hlimits.count hpos
    omega

theorem Bounded.evictLoop (h : c.Bounded) (newBlockSize rounds : Nat) :
    (BlockCache.evictLoop newBlockSize rounds c).Bounded ∧
      (BlockCache.evictLoop newBlockSize rounds c).stats.currentSize ≤ c.stats.currentSize := by
  induction rounds generalizing c with
  | zero => exact ⟨h, Nat.le_refl _⟩
  | succ rounds ih =>
    rw [BlockCache.evictLoop]
    split
    · split
      · exact ⟨h, Nat.le_refl _⟩
      · rename_i ptr hlast
        obtain ⟨hb, hle⟩ :=
          h.drop (List.mem_of_getLast? hlast) (c.evict ptr) rfl rfl rfl rfl rfl rfl rfl
        obtain ⟨ih₁, ih₂⟩ := ih hb
        exact ⟨ih₁, ih₂.trans hle⟩
    · exact ⟨h, Nat.le_refl _⟩

/-! ### Blocks that come -/

/-- **A new block** for which there is room. -/
theorem Bounded.insert (h : c.Bounded) {sstId blockOffset : UInt64} {data : Bytes}
    (hdata : data ≠ []) (hl : c.cacheMap.lookup (makeKey sstId blockOffset) = none)
    (hcap : data.length ≤ c.config.maxCapacity)
    (hlt : c.stats.currentSize + data.length < 2 ^ 64)
    (hroom : c.mustEvict data.length = false ∨ c.lruList = []) :
    (c.insert sstId blockOffset data).Bounded := by
  obtain ⟨hlinked, hnodes⟩ := h.linked.insert data hl
  have hbytes : (c.insert sstId blockOffset data).bytesHeld = c.bytesHeld + data.length := by
    rw [bytesHeld_eq, hnodes, List.map_cons, List.sum_cons, ← bytesHeld_eq, Nat.add_comm]
    rfl
  have hle := h.size
  have hlen := h.length_le
  have hpos := List.length_pos_iff.mpr hdata
  have hsize : (c.insert sstId blockOffset data).stats.currentSize =
      c.stats.currentSize + data.length := addSize_eq hlt
  have hcount : (c.insert sstId blockOffset data).stats.currentCount = c.lruList.length + 1 := by
    show addSize c.stats.currentCount 1 = _
    rw [h.count]
    exact addSize_eq (by omega)
  have hmust : c.mustEvict data.length = false →
      c.stats.currentSize + data.length ≤ c.config.maxCapacity ∧
        (0 < c.config.maxBlockCount → c.lruList.length < c.config.maxBlockCount) := by
    intro hmust
    rw [mustEvict, addSize_eq hlt, h.count] at hmust
    simp only [Bool.or_eq_false_iff, Bool.and_eq_false_iff, decide_eq_false_iff_not] at hmust
    omega
  have hnil : c.lruList = [] → c.bytesHeld = 0 ∧ c.lruList.length = 0 := by
    intro hnil
    rw [bytesHeld, hnil]
    exact ⟨rfl, rfl⟩
  refine ⟨hlinked, ?_, by omega, by omega, hcount, ⟨?_, ?_⟩⟩
  · intro n hn
    rw [hnodes] at hn
    rcases List.mem_cons.mp hn with rfl | hn
    · exact hpos
    · exact h.nonempty n hn
  · show _ ≤ c.config.maxCapacity
    rcases hroom with hroom | hroom
    · have := (hmust hroom).1
      omega
    · have := hnil hroom
      omega
  · intro hpos
    show c.lruList.length + 1 ≤ c.config.maxBlockCount
    rcases hroom with hroom | hroom
    · exact (hmust hroom).2 hpos
    · have := hnil hroom
      have : 0 < c.config.maxBlockCount := hpos
      omega

/-- **A block is written** that is not larger than before. -/
theorem Bounded.touch (h : c.Bounded) (hp : ptr ∈ c.lruList) (block : CacheBlock)
    (c' : BlockCache) (hkey : block.key = (c.heap ptr).key) (hpos : 0 < block.size)
    (hle : block.size ≤ (c.heap ptr).size) (hmap : c'.cacheMap = c.cacheMap)
    (hlist : c'.lruList = ptr :: c.lruList.filter (· ≠ ptr))
    (hheap : c'.heap = Function.update c.heap ptr block) (hfresh : c'.fresh = c.fresh)
    (hconfig : c'.config = c.config) (hsize : c'.stats.currentSize = c.stats.currentSize)
    (hcount : c'.stats.currentCount = c.stats.currentCount) : c'.Bounded := by
  obtain ⟨hlinked, hnodes⟩ := h.linked.touch hp block c' hkey hmap hlist hheap hfresh
  have hbytes := h.linked.bytesHeld_touch hp hnodes
  have hlength : c'.lruList.length = c.lruList.length := by
    rw [hlist]
    exact (h.linked.perm hp).length_eq.symm
  have hheld := h.size
  have hlimits := h.limits
  refine ⟨hlinked, ?_, by omega, by rw [hsize]; exact h.size_lt, ?_, ⟨?_, ?_⟩⟩
  · intro n hn
    rw [hnodes] at hn
    rcases List.mem_cons.mp hn with rfl | hn
    · exact hpos
    · exact h.nonempty n ((filter_nodes_sublist c _).subset hn)
  · rw [hcount, hlength]
    exact h.count
  · have := hlimits.size
    rw [hconfig]
    omega
  · intro hpos
    rw [hconfig] at hpos ⊢
    rw [hlength]
    exact hlimits.count hpos

/-! ### The calls -/

theorem Bounded.of_stats (h : c.Bounded) {stats : Stats}
    (hsize : stats.currentSize = c.stats.currentSize)
    (hcount : stats.currentCount = c.stats.currentCount) : Bounded { c with stats } :=
  ⟨⟨h.linked.indexed, h.linked.fresh⟩, h.nonempty, by rw [hsize]; exact h.size,
    by rw [hsize]; exact h.size_lt, by rw [hcount]; exact h.count, ⟨h.limits.size, h.limits.count⟩⟩

theorem Bounded.get (h : c.Bounded) (sstId blockOffset : UInt64) :
    (c.get sstId blockOffset).1.Bounded := by
  rw [BlockCache.get]
  cases hl : c.cacheMap.lookup (makeKey sstId blockOffset) with
  | none => exact h.of_stats rfl rfl
  | some ptr =>
    obtain ⟨hp, -⟩ := h.linked.of_lookup hl
    exact h.touch hp
      { c.heap ptr with
        hitCount := incSize (c.heap ptr).hitCount
        accessTime := incSize c.accessCounter }
      (c.hit ptr) rfl (h.nonempty _ (mem_nodes hp)) (Nat.le_refl _) rfl rfl rfl rfl rfl rfl rfl

theorem Bounded.put (h : c.Bounded) {sstId blockOffset : UInt64} {data : Bytes}
    (hok : Op.FitsLimits c (.put sstId blockOffset data)) :
    (c.put sstId blockOffset data).1.Bounded := by
  cases hacc : c.accepts data with
  | false =>
    obtain ⟨stats, hput, hsize, hcount⟩ := put_refused hacc sstId blockOffset
    rw [hput]
    exact h.of_stats hsize hcount
  | true =>
    have hdata : data ≠ [] := by
      rintro rfl
      cases hacc
    obtain ⟨hold, hnew⟩ := hok hacc
    cases hl : c.cacheMap.lookup (makeKey sstId blockOffset) with
    | none =>
      obtain ⟨hcap, hlt⟩ := hnew hl
      rw [put_new hacc hl]
      obtain ⟨hb, hle⟩ : (c.evictIfNeeded data.length).Bounded ∧
          (c.evictIfNeeded data.length).stats.currentSize ≤ c.stats.currentSize :=
        h.evictLoop data.length c.lruList.length
      obtain ⟨-, hkeeps, hnone⟩ := h.linked.evictLoop data.length c.lruList.length hl
      have hroom := h.linked.evictLoop_done data.length c.lruList.length (Nat.le_refl _)
      have hconfig : (c.evictIfNeeded data.length).config = c.config := hkeeps.config
      exact hb.insert hdata hnone (by rw [hconfig]; exact hcap) (by omega) hroom
    | some ptr =>
      obtain ⟨hp, -⟩ := h.linked.of_lookup hl
      rw [put_old hacc hl]
      exact h.touch hp { c.heap ptr with data, accessTime := incSize c.accessCounter }
        (c.replace ptr data) rfl (List.length_pos_iff.mpr hdata) (hold ptr hl)
        rfl rfl rfl rfl rfl rfl rfl

theorem Bounded.remove (h : c.Bounded) (sstId blockOffset : UInt64) :
    (c.remove sstId blockOffset).1.Bounded := by
  rw [BlockCache.remove]
  cases hl : c.cacheMap.lookup (makeKey sstId blockOffset) with
  | none => exact h
  | some ptr =>
    obtain ⟨hp, hkey⟩ := h.linked.of_lookup hl
    rw [← hkey]
    exact (h.drop hp { c.removeBlock ptr with cacheMap := c.cacheMap.erase (c.heap ptr).key }
      rfl rfl rfl rfl rfl rfl rfl).1

theorem bounded_clear (c : BlockCache) : c.clear.Bounded := by
  refine ⟨⟨Indexed.empty _, by simp [BlockCache.clear]⟩, by simp [BlockCache.clear, nodes],
    by simp [BlockCache.clear, bytesHeld], by simp [BlockCache.clear], rfl, ⟨?_, ?_⟩⟩
  · simp [BlockCache.clear, bytesHeld]
  · exact fun _ => Nat.zero_le _

/-- **Every such call keeps the limits.** -/
theorem Bounded.step (h : c.Bounded) (hok : op.FitsLimits c) (hs : c.step op = some c') :
    c'.Bounded := by
  cases op with
  | get sstId blockOffset =>
    obtain rfl := Option.some.inj hs
    exact h.get sstId blockOffset
  | put sstId blockOffset data =>
    obtain rfl := Option.some.inj hs
    exact h.put hok
  | remove sstId blockOffset =>
    obtain rfl := Option.some.inj hs
    exact h.remove sstId blockOffset
  | clear =>
    obtain rfl := Option.some.inj hs
    exact bounded_clear c
  | resetStats => cases hok

end

/-- **The limits hold in every state of a run** whose calls bring no block that is larger than the
capacity or than the block it replaces. -/
theorem limits_run (config : Config) (ops : List Op)
    (hok : StepsOk step (fun c op => op.FitsLimits c) (init config) ops) :
    ∀ p c, p <+: ops → run step (init config) p = some c → c.Limits := by
  rintro p c ⟨rest, rfl⟩ hr
  have hb : c.Bounded := run_invariant (bounded_init config)
    (fun c op c' h hok hs => h.step hok hs) hr (stepsOk_append.mp hok).1
  exact hb.limits

instance (c : BlockCache) : (op : Op) → Decidable (op.FitsLimits c)
  | .put sstId blockOffset data =>
    inferInstanceAs (Decidable (c.accepts data →
      (∀ ptr ∈ c.cacheMap.lookup (makeKey sstId blockOffset),
        data.length ≤ (c.heap ptr).size) ∧
      (c.cacheMap.lookup (makeKey sstId blockOffset) = none →
        data.length ≤ c.config.maxCapacity ∧ c.stats.currentSize + data.length < 2 ^ 64)))
  | .get _ _ => isTrue trivial
  | .remove _ _ => isTrue trivial
  | .clear => isTrue trivial
  | .resetStats => isFalse id

/-- A smaller block for one that is held, and then a block of the whole capacity. -/
def shrinkingRun : List Op :=
  [.put 0 0 [1, 2, 3, 4], .put 0 0 [1, 2, 3], .put 1 0 [1, 2, 3, 4, 5, 6]]

/-- A full cache stays within its limits there. -/
theorem limits_run_smallerBlock :
    ∃ c, run step (init sampleConfig) shrinkingRun = some c ∧ c.Limits :=
  ⟨_, rfl, limits_run sampleConfig shrinkingRun (by decide +kernel) _ _ (List.prefix_refl _) rfl⟩

/-- The capacity is smaller than a block may be. -/
def tightConfig : Config := ⟨4, 4, 6, 0, .finite (1 / 2)⟩

/-- **The capacity is exceeded** by one block that is larger, and by a block that is replaced by a
larger one. -/
theorem capacity_exceeded :
    (∃ c, run step (init tightConfig) [.put 0 0 [1, 2, 3, 4, 5]] = some c ∧ ¬ c.Limits) ∧
      ∃ c, run step (init sampleConfig)
        [.put 0 0 [1, 2, 3], .put 1 0 [4, 5, 6, 7], .put 0 0 [1, 2, 3, 4, 5, 6]] = some c ∧
          ¬ c.Limits := by
  refine ⟨⟨_, rfl, fun h => ?_⟩, ⟨_, rfl, fun h => ?_⟩⟩
  · exact absurd h.size (by decide +kernel)
  · exact absurd h.size (by decide +kernel)

end Mokv.LSM.BlockCache
