import Mokv.Lib.Recency
import Mokv.LSM.BlockCache

/-!
# The order of the block cache

`lru_list_` of `BlockCache` (`mokv/lsm/block_cache.hpp`) is ordered by the last use of its
blocks, and the block that is evicted is the one that was not used for the longest time.  A key
is used by a `Get` that hits and by a `Put` that is accepted.

The time stamps say the same until the counter of accesses, a `uint64_t`, wraps
(`time_stamps_wrap`).

* `Linked.effect`: what any call does to the blocks.
* `lru_order`: the invariant over all runs.
-/

namespace Mokv.LSM.BlockCache

open Lib

/-- The key that a call uses. -/
def used (c : BlockCache) : Op → Option UInt64
  | .get sstId blockOffset =>
    if (c.get sstId blockOffset).2 = none then none else some (makeKey sstId blockOffset)
  | .put sstId blockOffset data =>
    if (c.put sstId blockOffset data).2 then some (makeKey sstId blockOffset) else none
  | .remove _ _ => none
  | .clear => none
  | .resetStats => none

/-- The keys that the calls of a run use, in their order. -/
def uses (c : BlockCache) : List Op → List UInt64
  | [] => []
  | op :: ops =>
    (c.used op).toList ++
      match c.step op with
      | none => []
      | some c' => uses c' ops

/-- In the loop of `EvictIfNeeded`, started from `c`, the cache `c'` evicts its block `ptr`. -/
inductive Evicts (newBlockSize : Nat) : BlockCache → BlockCache → Nat → Prop
  | here {c : BlockCache} {ptr : Nat} (hmust : c.mustEvict newBlockSize)
      (hlast : c.lruList.getLast? = some ptr) : Evicts newBlockSize c c ptr
  | later {c c' : BlockCache} {q ptr : Nat} (hmust : c.mustEvict newBlockSize)
      (hlast : c.lruList.getLast? = some q) (h : Evicts newBlockSize (c.evict q) c' ptr) :
      Evicts newBlockSize c c' ptr

/-- The keys of the blocks, in the order of the list. -/
def keys (c : BlockCache) : List UInt64 := c.lruList.map fun ptr => (c.heap ptr).key

section

variable {c c' : BlockCache} {op : Op} {ptr : Nat}

theorem uses_concat {c c' : BlockCache} {ops : List Op} (hr : run step c ops = some c') (op : Op) :
    uses c (ops ++ [op]) = uses c ops ++ (c'.used op).toList := by
  induction ops generalizing c with
  | nil =>
    obtain rfl := Option.some.inj hr
    rw [List.nil_append, uses, uses, List.nil_append]
    cases hs : c.step op with
    | none => exact List.append_nil _
    | some c' => exact List.append_nil _
  | cons o ops ih =>
    obtain ⟨d, hd, hr⟩ := Option.bind_eq_some_iff.mp hr
    rw [List.cons_append, uses, uses, hd]
    simp only
    rw [ih hr, List.append_assoc]

theorem keys_eq (c : BlockCache) : c.keys = c.nodes.map fun n => n.2.key := by
  rw [keys, nodes, List.map_map]
  rfl

/-! ### What a call does -/

/-- `Put` accepts the data. -/
def accepts (c : BlockCache) (data : Bytes) : Bool := data ≠ [] && !c.rejects data

theorem put_refused {data : Bytes} (h : c.accepts data = false) (sstId blockOffset : UInt64) :
    ∃ stats, c.put sstId blockOffset data = ({ c with stats }, false) ∧
      stats.currentSize = c.stats.currentSize ∧ stats.currentCount = c.stats.currentCount := by
  rw [put]
  split
  · exact ⟨c.stats, rfl, rfl, rfl⟩
  · rename_i hdata
    have hrej : c.rejects data := by simpa [accepts, hdata] using h
    rw [if_pos hrej]
    exact ⟨_, rfl, rfl, rfl⟩

theorem put_old {data : Bytes} (h : c.accepts data) {sstId blockOffset : UInt64}
    (hl : c.cacheMap.lookup (makeKey sstId blockOffset) = some ptr) :
    c.put sstId blockOffset data = (c.replace ptr data, true) := by
  have h' : data ≠ [] ∧ c.rejects data = false := by simpa [accepts] using h
  rw [put, if_neg h'.1, if_neg (by rw [h'.2]; exact Bool.false_ne_true), hl]

theorem put_new {data : Bytes} (h : c.accepts data) {sstId blockOffset : UInt64}
    (hl : c.cacheMap.lookup (makeKey sstId blockOffset) = none) :
    c.put sstId blockOffset data =
      ((c.evictIfNeeded data.length).insert sstId blockOffset data, true) := by
  have h' : data ≠ [] ∧ c.rejects data = false := by simpa [accepts] using h
  rw [put, if_neg h'.1, if_neg (by rw [h'.2]; exact Bool.false_ne_true), hl]

/-- A call that uses no key only takes blocks away. -/
structure Keeps (c c' : BlockCache) : Prop where
  nodes : c'.nodes.Sublist c.nodes
  accessCounter : c'.accessCounter = c.accessCounter
  config : c'.config = c.config

/-- A call that uses a key puts a block in front of what it leaves of the others. -/
structure Uses (c c' : BlockCache) (op : Op) (block : CacheBlock) : Prop where
  nodes : ∃ ptr rest, c'.nodes = (ptr, block) :: rest ∧ rest.Sublist c.nodes
  accessTime : block.accessTime = incSize c.accessCounter
  accessCounter : c'.accessCounter = incSize c.accessCounter
  config : c'.config = c.config
  data : (∃ sstId blockOffset, op = .put sstId blockOffset block.data) ∨
    (∃ sstId blockOffset ptr old, op = .get sstId blockOffset ∧ (ptr, old) ∈ c.nodes ∧
      old.key = block.key ∧ old.data = block.data)

theorem filter_nodes_sublist (c : BlockCache) (p : Nat → Bool) :
    ((c.lruList.filter p).map fun q => (q, c.heap q)).Sublist c.nodes :=
  List.filter_sublist.map _

theorem mem_nodes (hp : ptr ∈ c.lruList) : (ptr, c.heap ptr) ∈ c.nodes :=
  List.mem_map_of_mem hp

/-- **The eviction loop** takes blocks away. -/
theorem Linked.evictLoop {key : UInt64} (h : c.Linked) (newBlockSize rounds : Nat)
    (hl : c.cacheMap.lookup key = none) :
    (BlockCache.evictLoop newBlockSize rounds c).Linked ∧
      c.Keeps (BlockCache.evictLoop newBlockSize rounds c) ∧
      (BlockCache.evictLoop newBlockSize rounds c).cacheMap.lookup key = none := by
  induction rounds generalizing c with
  | zero => exact ⟨h, ⟨List.Sublist.refl _, rfl, rfl⟩, hl⟩
  | succ rounds ih =>
    rw [BlockCache.evictLoop]
    split
    · split
      · exact ⟨h, ⟨List.Sublist.refl _, rfl, rfl⟩, hl⟩
      · rename_i ptr hlast
        obtain ⟨hlinked, -, -⟩ :=
          h.drop (List.mem_of_getLast? hlast) (c.evict ptr) rfl rfl rfl rfl
        obtain ⟨ih₁, ih₂, ih₃⟩ := ih hlinked (lookup_evict_of_eq_none hl)
        have hkeeps := ih₂.nodes.trans (filter_nodes_sublist c _)
        exact ⟨ih₁, ⟨hkeeps, ih₂.accessCounter, ih₂.config⟩, ih₃⟩
    · exact ⟨h, ⟨List.Sublist.refl _, rfl, rfl⟩, hl⟩

/-- What a call may do to the blocks. -/
def Effect (c c' : BlockCache) (op : Op) : Prop :=
  c'.Linked ∧ ((c.used op = none ∧ c.Keeps c') ∨
    ∃ block, c.used op = some block.key ∧ c.Uses c' op block)

theorem Linked.effect_get (h : c.Linked) (sstId blockOffset : UInt64) :
    c.Effect (c.get sstId blockOffset).1 (.get sstId blockOffset) := by
  rw [Effect, used, BlockCache.get]
  cases hl : c.cacheMap.lookup (makeKey sstId blockOffset) with
  | none => exact ⟨⟨h.indexed, h.fresh⟩, Or.inl ⟨if_pos rfl, List.Sublist.refl _, rfl, rfl⟩⟩
  | some ptr =>
    obtain ⟨hp, hkey⟩ := h.of_lookup hl
    obtain ⟨hlinked, hnodes⟩ := h.touch hp
      { c.heap ptr with
        hitCount := incSize (c.heap ptr).hitCount
        accessTime := incSize c.accessCounter }
      (c.hit ptr) rfl rfl rfl rfl rfl
    refine ⟨hlinked, Or.inr ⟨_, ?_, ⟨ptr, _, hnodes, filter_nodes_sublist c _⟩, rfl, rfl, rfl, ?_⟩⟩
    · rw [if_neg (by simp)]
      exact congrArg some hkey.symm
    · exact Or.inr ⟨sstId, blockOffset, ptr, _, rfl, mem_nodes hp, rfl, rfl⟩

theorem Linked.effect_put (h : c.Linked) (sstId blockOffset : UInt64) (data : Bytes) :
    c.Effect (c.put sstId blockOffset data).1 (.put sstId blockOffset data) := by
  cases hacc : c.accepts data with
  | false =>
    obtain ⟨stats, hput, -⟩ := put_refused hacc sstId blockOffset
    rw [Effect, used, hput]
    exact ⟨⟨h.indexed, h.fresh⟩, Or.inl ⟨if_neg Bool.false_ne_true, List.Sublist.refl _, rfl, rfl⟩⟩
  | true =>
    cases hl : c.cacheMap.lookup (makeKey sstId blockOffset) with
    | none =>
      obtain ⟨hlinked, hkeeps, hnone⟩ : (c.evictIfNeeded data.length).Linked ∧
          c.Keeps (c.evictIfNeeded data.length) ∧
          (c.evictIfNeeded data.length).cacheMap.lookup (makeKey sstId blockOffset) = none :=
        h.evictLoop data.length c.lruList.length hl
      rw [Effect, used, put_new hacc hl]
      generalize c.evictIfNeeded data.length = e at hlinked hkeeps hnone
      obtain ⟨hlinked', hnodes⟩ := hlinked.insert data hnone
      have htime := congrArg incSize hkeeps.accessCounter
      refine ⟨hlinked', Or.inr ⟨⟨data, sstId, blockOffset, incSize e.accessCounter, 0⟩, if_pos rfl,
        ⟨e.fresh, e.nodes, hnodes, hkeeps.nodes⟩, htime, htime,
        hkeeps.config, Or.inl ⟨sstId, blockOffset, rfl⟩⟩⟩
    | some ptr =>
      obtain ⟨hp, hkey⟩ := h.of_lookup hl
      obtain ⟨hlinked, hnodes⟩ := h.touch hp
        { c.heap ptr with data, accessTime := incSize c.accessCounter }
        (c.replace ptr data) rfl rfl rfl rfl rfl
      rw [Effect, used, put_old hacc hl]
      refine ⟨hlinked, Or.inr ⟨{ c.heap ptr with data, accessTime := incSize c.accessCounter },
        ?_, ⟨ptr, _, hnodes, filter_nodes_sublist c _⟩, rfl, rfl, rfl,
        Or.inl ⟨sstId, blockOffset, rfl⟩⟩⟩
      rw [if_pos rfl, ← hkey]
      rfl

theorem Linked.effect_remove (h : c.Linked) (sstId blockOffset : UInt64) :
    c.Effect (c.remove sstId blockOffset).1 (.remove sstId blockOffset) := by
  rw [Effect, used, BlockCache.remove]
  cases hl : c.cacheMap.lookup (makeKey sstId blockOffset) with
  | none => exact ⟨h, Or.inl ⟨rfl, List.Sublist.refl _, rfl, rfl⟩⟩
  | some ptr =>
    obtain ⟨hp, hkey⟩ := h.of_lookup hl
    obtain ⟨hlinked, -, -⟩ := h.drop hp
      { c.removeBlock ptr with cacheMap := c.cacheMap.erase (c.heap ptr).key } rfl rfl rfl rfl
    rw [hkey] at hlinked
    exact ⟨hlinked, Or.inl ⟨rfl, filter_nodes_sublist c _, rfl, rfl⟩⟩

/-- **What any call does to the blocks.** -/
theorem Linked.effect (h : c.Linked) (hs : c.step op = some c') : c.Effect c' op := by
  cases op with
  | get sstId blockOffset =>
    obtain rfl := Option.some.inj hs
    exact h.effect_get sstId blockOffset
  | put sstId blockOffset data =>
    obtain rfl := Option.some.inj hs
    exact h.effect_put sstId blockOffset data
  | remove sstId blockOffset =>
    obtain rfl := Option.some.inj hs
    exact h.effect_remove sstId blockOffset
  | clear =>
    obtain rfl := Option.some.inj hs
    exact ⟨⟨Indexed.empty _, by simp [clear]⟩, Or.inl ⟨rfl, List.nil_sublist _, rfl, rfl⟩⟩
  | resetStats =>
    obtain rfl := Option.some.inj hs
    exact ⟨⟨h.indexed, h.fresh⟩, Or.inl ⟨rfl, List.Sublist.refl _, rfl, rfl⟩⟩

/-! ### The order -/

/-- The list is ordered by the uses. -/
structure Ordered (c : BlockCache) (uses : List UInt64) : Prop where
  linked : c.Linked
  used : ∀ k ∈ c.keys, k ∈ uses
  order : ByRecency uses c.keys

/-- The time stamps count the uses. -/
structure Stamped (c : BlockCache) (uses : List UInt64) : Prop where
  accessCounter : c.accessCounter = uses.length
  le : ∀ n ∈ c.nodes, n.2.accessTime ≤ uses.length
  decreasing : c.nodes.Pairwise fun n n' => n'.2.accessTime < n.2.accessTime

theorem keys_sublist (h : c'.nodes.Sublist c.nodes) : c'.keys.Sublist c.keys := by
  rw [keys_eq, keys_eq]
  exact h.map _

theorem Ordered.keeps {us : List UInt64} (h : c.Ordered us) (hk : c.Keeps c') (hl : c'.Linked) :
    c'.Ordered us := by
  have hsub := keys_sublist hk.nodes
  exact ⟨hl, fun k hmem => h.used k (hsub.subset hmem), h.order.sublist hsub⟩

theorem Stamped.keeps {us : List UInt64} (h : c.Stamped us) (hk : c.Keeps c') : c'.Stamped us :=
  ⟨hk.accessCounter.trans h.accessCounter, fun n hmem => h.le n (hk.nodes.subset hmem),
    h.decreasing.sublist hk.nodes⟩

/-- **A used block comes to the front.** -/
theorem Ordered.uses {us : List UInt64} {block : CacheBlock} (h : c.Ordered us)
    (hu : c.Uses c' op block) (hl : c'.Linked) : c'.Ordered (us ++ [block.key]) := by
  obtain ⟨ptr, rest, hnodes, hrest⟩ := hu.nodes
  have hkeys : c'.keys = block.key :: rest.map fun n => n.2.key := by
    rw [keys_eq, hnodes, List.map_cons]
  have hsub : (rest.map fun n => n.2.key).Sublist c.keys := by
    rw [keys_eq]
    exact hrest.map _
  have hnodup := hl.indexed.keys
  rw [← keys_eq, hkeys, List.nodup_cons] at hnodup
  refine ⟨hl, ?_, ?_⟩
  · intro k hk
    rw [hkeys] at hk
    rcases List.mem_cons.mp hk with rfl | hk
    · exact List.mem_append_right us List.mem_cons_self
    · exact List.mem_append_left _ (h.used k (hsub.subset hk))
  · rw [hkeys]
    exact (h.order.sublist hsub).use (fun k hk => h.used k (hsub.subset hk)) hnodup.1

/-- **A used block gets the largest time stamp** as long as the counter does not wrap. -/
theorem Stamped.uses {us : List UInt64} {block : CacheBlock} (h : c.Stamped us)
    (hu : c.Uses c' op block) (hlt : us.length + 1 < 2 ^ 64) :
    c'.Stamped (us ++ [block.key]) := by
  obtain ⟨ptr, rest, hnodes, hrest⟩ := hu.nodes
  have hinc : incSize c.accessCounter = us.length + 1 := by
    rw [h.accessCounter]
    exact addSize_eq hlt
  have htime : block.accessTime = us.length + 1 := hu.accessTime.trans hinc
  have hle : ∀ n ∈ rest, n.2.accessTime ≤ us.length := fun n hn => h.le n (hrest.subset hn)
  refine ⟨?_, ?_, ?_⟩
  · rw [hu.accessCounter, hinc, List.length_append, List.length_singleton]
  · intro n hn
    rw [hnodes] at hn
    rw [List.length_append, List.length_singleton]
    rcases List.mem_cons.mp hn with rfl | hn
    · exact Nat.le_of_eq htime
    · exact Nat.le_succ_of_le (hle n hn)
  · rw [hnodes]
    refine List.Pairwise.cons ?_ (h.decreasing.sublist hrest)
    intro n hn
    dsimp only
    rw [htime]
    exact Nat.lt_succ_of_le (hle n hn)

theorem Ordered.step {us : List UInt64} (h : c.Ordered us) (hs : c.step op = some c') :
    c'.Ordered (us ++ (c.used op).toList) := by
  obtain ⟨hl, ⟨hused, hk⟩ | ⟨block, hused, hu⟩⟩ := h.linked.effect hs
  · rw [hused, Option.toList_none, List.append_nil]
    exact h.keeps hk hl
  · rw [hused, Option.toList_some]
    exact h.uses hu hl

theorem Stamped.step {us : List UInt64} (h : c.Stamped us) (hl : c.Linked)
    (hlt : (us ++ (c.used op).toList).length < 2 ^ 64) (hs : c.step op = some c') :
    c'.Stamped (us ++ (c.used op).toList) := by
  obtain ⟨-, ⟨hused, hk⟩ | ⟨block, hused, hu⟩⟩ := hl.effect hs
  · rw [hused, Option.toList_none, List.append_nil]
    exact h.keeps hk
  · rw [hused, Option.toList_some] at hlt ⊢
    rw [List.length_append, List.length_singleton] at hlt
    exact h.uses hu hlt

/-- **The block that is evicted** was not used for the longest time. -/
theorem Ordered.evicts {us : List UInt64} {newBlockSize : Nat} (h : c.Ordered us)
    (he : Evicts newBlockSize c c' ptr) :
    ∀ q ∈ c'.lruList, q ≠ ptr → UsedBefore us (c'.heap ptr).key (c'.heap q).key := by
  induction he with
  | @here c ptr hmust hlast =>
    intro q hq hne
    have hp := List.mem_of_getLast? hlast
    have hkeylast : c.keys.getLast? = some (c.heap ptr).key := by
      rw [keys, List.getLast?_map, hlast]
      rfl
    refine h.order.getLast hkeylast _ (List.mem_map_of_mem hq) ?_
    intro hkey
    have heq := h.linked.indexed.eq_of_key (mem_nodes hq) (mem_nodes hp) hkey
    exact hne (Prod.mk.inj heq).1
  | @later c c' r ptr hmust hlast he ih =>
    obtain ⟨hl, -, -⟩ :=
      h.linked.drop (List.mem_of_getLast? hlast) (c.evict r) rfl rfl rfl rfl
    exact ih (h.keeps ⟨filter_nodes_sublist c _, rfl, rfl⟩ hl)

end

/-! ### Runs -/

theorem exists_run_init (config : Config) (ops : List Op) :
    ∃ c, run step (init config) ops = some c :=
  exists_run (fun _ op _ => by cases op <;> exact ⟨_, rfl⟩)
    (stepsOk_true _ _)

theorem ordered_run {config : Config} {ops : List Op} {c : BlockCache}
    (hr : run step (init config) ops = some c) : c.Ordered (uses (init config) ops) := by
  refine run_induction
    (P := fun ops c => Ordered c (uses (init config) ops)) ?_ ?_ ops c hr (stepsOk_true _ _)
  · exact ⟨linked_init config, by simp [keys, init], byRecency_nil⟩
  · intro ops c op c' hr h _ hs
    rw [uses_concat hr]
    exact h.step hs

theorem stamped_run {config : Config} {ops : List Op} {c : BlockCache}
    (hr : run step (init config) ops = some c) (hlt : (uses (init config) ops).length < 2 ^ 64) :
    c.Stamped (uses (init config) ops) := by
  refine run_induction
    (P := fun ops c => (uses (init config) ops).length < 2 ^ 64 →
      Stamped c (uses (init config) ops)) ?_ ?_ ops c hr (stepsOk_true _ _) hlt
  · exact fun _ => ⟨rfl, by simp [nodes, init], List.Pairwise.nil⟩
  · intro ops c op c' hr h _ hs hlt
    rw [uses_concat hr] at hlt ⊢
    have hlt' := hlt
    rw [List.length_append] at hlt'
    exact (h (by omega)).step (ordered_run hr).linked hlt hs

/-- **Eviction is of the least recently used block.**  In every state of a run the list and the
map hold the same blocks, each of them once; the list is in the order of the last uses, so that
`EvictIfNeeded` evicts the block that was not used for the longest time, and its loop ends.  The
time stamps decrease along the list as long as their counter does not wrap. -/
theorem lru_order (config : Config) (ops : List Op) :
    ∃ c, run step (init config) ops = some c ∧
      (c.cacheMap.entries.map Sigma.snd).Perm c.lruList ∧ c.lruList.Nodup ∧
      ((uses (init config) ops).length < 2 ^ 64 →
        c.lruList.Pairwise fun p q => (c.heap q).accessTime < (c.heap p).accessTime) ∧
      (∀ newBlockSize c' ptr, Evicts newBlockSize c c' ptr → ∀ q ∈ c'.lruList, q ≠ ptr →
        UsedBefore (uses (init config) ops) (c'.heap ptr).key (c'.heap q).key) ∧
      ∀ newBlockSize, (c.evictIfNeeded newBlockSize).mustEvict newBlockSize = false ∨
        (c.evictIfNeeded newBlockSize).lruList = [] := by
  obtain ⟨c, hr⟩ := exists_run_init config ops
  have h := ordered_run hr
  refine ⟨c, hr, h.linked.map_perm, h.linked.nodup, ?_, ?_, ?_⟩
  · intro hlt
    exact List.pairwise_map.mp (stamped_run hr hlt).decreasing
  · intro newBlockSize c' ptr he
    exact h.evicts he
  · intro newBlockSize
    exact h.linked.evictLoop_done newBlockSize c.lruList.length (Nat.le_refl _)

/-! ### The counter wraps -/

/-- Two blocks, the first of them used `n` times in all. -/
structure Spun (c : BlockCache) (n : Nat) : Prop where
  lruList : c.lruList = [1, 0]
  lookup : c.cacheMap.lookup (makeKey 1 0) = some 1
  first : (c.heap 1).accessTime = n % 2 ^ 64
  second : (c.heap 0).accessTime = 1
  accessCounter : c.accessCounter = n % 2 ^ 64

theorem Spun.get {c : BlockCache} {n : Nat} (h : c.Spun n) : (c.get 1 0).1.Spun (n + 1) := by
  have hinc : incSize c.accessCounter = (n + 1) % 2 ^ 64 := by
    rw [h.accessCounter, incSize, addSize, Nat.mod_add_mod]
  rw [BlockCache.get, h.lookup]
  refine ⟨?_, h.lookup, ?_, ?_, hinc⟩
  · show 1 :: c.lruList.filter (· ≠ 1) = [1, 0]
    rw [h.lruList]
    rfl
  · show ((c.hit 1).heap 1).accessTime = _
    dsimp only [hit, moveToFront]
    rw [Function.update_self]
    exact hinc
  · show ((c.hit 1).heap 0).accessTime = _
    dsimp only [hit, moveToFront]
    rw [Function.update_of_ne (by decide)]
    exact h.second

theorem Spun.run {c : BlockCache} {n : Nat} (h : c.Spun n) (k : Nat) :
    ∃ c', Lib.run step c (List.replicate k (.get 1 0)) = some c' ∧ c'.Spun (n + k) := by
  induction k generalizing c n with
  | zero => exact ⟨c, rfl, h⟩
  | succ k ih =>
    obtain ⟨c', hr, hspun⟩ := ih h.get
    refine ⟨c', ?_, by rw [show n + (k + 1) = n + 1 + k by omega]; exact hspun⟩
    rw [List.replicate_succ]
    exact hr

theorem not_decreasing_of_wrap {k : Nat} (hk : (2 + k) % 2 ^ 64 = 0) :
    ∃ ops c, Op.resetStats ∉ ops ∧ run step (init sampleConfig) ops = some c ∧
      ¬ c.lruList.Pairwise fun p q => (c.heap q).accessTime < (c.heap p).accessTime := by
  obtain ⟨c₂, hr₂, hspun₂⟩ : ∃ c₂, run step (init sampleConfig)
      [.put 0 0 [1, 2], .put 1 0 [3, 4]] = some c₂ ∧ c₂.Spun 2 :=
    ⟨_, rfl, by decide +kernel, by decide +kernel, by decide +kernel, by decide +kernel,
      by decide +kernel⟩
  obtain ⟨c, hr, hspun⟩ := hspun₂.run k
  refine ⟨[.put 0 0 [1, 2], .put 1 0 [3, 4]] ++ List.replicate k (.get 1 0), c, ?_, ?_, ?_⟩
  · simp [List.mem_replicate]
  · rw [run_append, hr₂]
    exact hr
  · rw [hspun.lruList]
    intro h
    have hlt := List.rel_of_pairwise_cons h List.mem_cons_self
    rw [hspun.first, hspun.second, hk] at hlt
    exact absurd hlt (by decide)

/-- **The time stamps wrap** after `2 ^ 64` uses. -/
theorem time_stamps_wrap :
    ∃ ops c, Op.resetStats ∉ ops ∧ run step (init sampleConfig) ops = some c ∧
      ¬ c.lruList.Pairwise fun p q => (c.heap q).accessTime < (c.heap p).accessTime :=
  not_decreasing_of_wrap (k := 2 ^ 64 - 2) (by norm_num)

end Mokv.LSM.BlockCache
