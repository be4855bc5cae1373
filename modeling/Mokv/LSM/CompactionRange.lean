import Mathlib.Order.Bounds.Basic
import Mokv.LSM.Compaction

/-!
# The range of a compaction

The first loop of `SizeTieredCompaction` (`mokv/lsm/manifest.hpp`) folds the first and the
last keys of a level's tables into `min_key` and `max_key`, newest table first, and takes an
empty view for one not set yet.  The empty key is a key of the store as any other, so a
minimum of `""` is forgotten at the next turn.

Both bounds are keys of the level (`minKey_mem`, `maxKey_mem`), and `max_key` is the greatest
(`isGreatest_maxKey`).  `min_key` is empty only if the oldest table begins with the empty
key (`minKey_eq_nil_iff`), so it is the least one unless a newer table alone holds the empty
key (`isLeast_minKey_iff`).  The second loop takes from a level in key order the tables that
the range touches (`select_queue_filter`), among them every table that shares a key with a
range that is right.
-/

namespace Mokv.LSM

open Lib SizeTieredCompactionStruct

/-! ### What the range is for -/

/-- The keys of a level. -/
def levelKeys (ssts : List SST) : Set Bytes := {k | ∃ s ∈ ssts, ∃ e ∈ s.entries, e.1 = k}

/-- The bounds of the first loop are the least and the greatest key of the level. -/
def KeyRange (ssts : List SST) : Prop :=
  IsLeast (levelKeys ssts) (collect ssts).minKey ∧ IsGreatest (levelKeys ssts) (collect ssts).maxKey

/-- Of a next level in key order the queue gets every table that shares a key with the level. -/
def SelectsShared (cur : List SST) : Prop :=
  ∀ next : List SST, next.Pairwise (fun s t => s.key ≤ t.key) → ∃ ts, ts.Sublist next ∧
    (select cur next).queue = starts 0 ((cur.reverse ++ ts).map SST.table) ∧
    ∀ t ∈ next, (∃ e ∈ t.entries, e.1 ∈ levelKeys cur) → t ∈ ts

/-- The empty key is in no table of the level, or it is in the oldest one, at the front. -/
def EmptyKeyOldest (ssts : List SST) : Prop :=
  (∀ s ∈ ssts, s.key ≠ []) ∨ ∃ s, ssts.head? = some s ∧ s.key = []

theorem mem_levelKeys {ssts : List SST} {s : SST} (hs : s ∈ ssts) {e : Entry}
    (he : e ∈ s.entries) : e.1 ∈ levelKeys ssts :=
  ⟨s, hs, e, he, rfl⟩

theorem levelKeys_cons_of_mem {s : SST} {ssts : List SST} {k : Bytes} (hk : k ∈ levelKeys ssts) :
    k ∈ levelKeys (s :: ssts) := by
  obtain ⟨t, ht, he⟩ := hk
  exact ⟨t, List.mem_cons_of_mem _ ht, he⟩

theorem empty_le (k : Bytes) : [] ≤ k := not_lt.mp (List.not_lt_nil k)

/-! ### The first loop, oldest table last -/

theorem collect_cons (s : SST) (ssts : List SST) :
    collect (s :: ssts) = collectStep (collect ssts) s := by
  rw [collect, List.reverse_cons, List.foldl_append]
  rfl

theorem minKey_cons (s : SST) (ssts : List SST) :
    (collect (s :: ssts)).minKey = s.key ∧
        ((collect ssts).minKey = [] ∨ s.key < (collect ssts).minKey) ∨
      (collect (s :: ssts)).minKey = (collect ssts).minKey ∧
        (collect ssts).minKey ≠ [] ∧ (collect ssts).minKey ≤ s.key := by
  rw [collect_cons, collectStep]
  dsimp only
  split
  · next h => exact Or.inl ⟨rfl, h⟩
  · next h =>
      rw [not_or] at h
      exact Or.inr ⟨rfl, h.1, not_lt.mp h.2⟩

theorem maxKey_cons (s : SST) (ssts : List SST) :
    ((collect (s :: ssts)).maxKey = s.last.1 ∨
        (collect (s :: ssts)).maxKey = (collect ssts).maxKey ∧ (collect ssts).maxKey ≠ []) ∧
      s.last.1 ≤ (collect (s :: ssts)).maxKey ∧
      (collect ssts).maxKey ≤ (collect (s :: ssts)).maxKey := by
  rw [collect_cons, collectStep]
  dsimp only
  split
  · next h =>
      refine ⟨Or.inl rfl, le_refl _, ?_⟩
      rcases h with h | h
      · rw [h]
        exact empty_le _
      · exact le_of_lt h
  · next h =>
      rw [not_or] at h
      exact ⟨Or.inr ⟨rfl, h.1⟩, not_lt.mp h.2, le_refl _⟩

theorem minKey_eq_nil_iff (s : SST) (ssts : List SST) :
    (collect (s :: ssts)).minKey = [] ↔ s.key = [] := by
  rcases minKey_cons s ssts with ⟨heq, -⟩ | ⟨heq, hne, hle⟩
  · rw [heq]
  · rw [heq]
    refine ⟨fun h => absurd h hne, ?_⟩
    intro h
    exact le_antisymm (h ▸ hle) (empty_le _)

/-- A bound that every turn keeps or replaces by a key of its table is a key of the level. -/
theorem bound_mem {b : List SST → Bytes} (hnil : b [] = [])
    (hturn : ∀ s ssts, (∃ e ∈ s.entries, e.1 = b (s :: ssts)) ∨
      b (s :: ssts) = b ssts ∧ b ssts ≠ [])
    {ssts : List SST} (hne : ssts ≠ []) : b ssts ∈ levelKeys ssts := by
  induction ssts with
  | nil => exact absurd rfl hne
  | cons s ssts ih =>
      rcases hturn s ssts with ⟨e, he, heq⟩ | ⟨heq, hset⟩
      · rw [← heq]
        exact mem_levelKeys List.mem_cons_self he
      · have hne' : ssts ≠ [] := by
          rintro rfl
          exact hset hnil
        rw [heq]
        exact levelKeys_cons_of_mem (ih hne')

theorem minKey_mem {ssts : List SST} (hne : ssts ≠ []) :
    (collect ssts).minKey ∈ levelKeys ssts := by
  refine bound_mem (b := fun ssts => (collect ssts).minKey) rfl ?_ hne
  intro s ssts
  rcases minKey_cons s ssts with ⟨heq, -⟩ | ⟨heq, hset, -⟩
  · exact Or.inl ⟨s.first, s.first_mem, heq.symm⟩
  · exact Or.inr ⟨heq, hset⟩

theorem maxKey_mem {ssts : List SST} (hne : ssts ≠ []) :
    (collect ssts).maxKey ∈ levelKeys ssts := by
  refine bound_mem (b := fun ssts => (collect ssts).maxKey) rfl ?_ hne
  intro s ssts
  rcases (maxKey_cons s ssts).1 with heq | ⟨heq, hset⟩
  · exact Or.inl ⟨s.last, s.last_mem, heq.symm⟩
  · exact Or.inr ⟨heq, hset⟩

/-! ### Which bounds are right -/

theorem last_le_maxKey {ssts : List SST} {s : SST} (hs : s ∈ ssts) :
    s.last.1 ≤ (collect ssts).maxKey := by
  induction ssts with
  | nil => simp at hs
  | cons a ssts ih =>
      obtain ⟨-, h1, h2⟩ := maxKey_cons a ssts
      rcases List.mem_cons.mp hs with rfl | hs
      · exact h1
      · exact le_trans (ih hs) h2

theorem isGreatest_maxKey {ssts : List SST} (hne : ssts ≠ []) :
    IsGreatest (levelKeys ssts) (collect ssts).maxKey := by
  refine ⟨maxKey_mem hne, ?_⟩
  rintro k ⟨s, hs, e, he, rfl⟩
  exact le_trans (s.le_last he) (last_le_maxKey hs)

theorem key_eq_nil_of_mem {s : SST} {e : Entry} (he : e ∈ s.entries) (hk : e.1 = []) :
    s.key = [] :=
  le_antisymm (hk ▸ s.key_le he) (empty_le _)

/-- **The minimum.**  It is the least key unless a newer table holds the empty key and the
oldest does not. -/
theorem isLeast_minKey_iff {ssts : List SST} (hne : ssts ≠ []) :
    IsLeast (levelKeys ssts) (collect ssts).minKey ↔ EmptyKeyOldest ssts := by
  obtain ⟨a, rest, rfl⟩ := List.exists_cons_of_ne_nil hne
  constructor
  · rintro ⟨-, hle⟩
    by_cases hempty : ∀ s ∈ a :: rest, s.key ≠ []
    · exact Or.inl hempty
    · push Not at hempty
      obtain ⟨s, hs, hkey⟩ := hempty
      have hmin : (collect (a :: rest)).minKey ≤ s.key := hle (mem_levelKeys hs s.first_mem)
      rw [hkey] at hmin
      exact Or.inr ⟨a, rfl, (minKey_eq_nil_iff a rest).mp (le_antisymm hmin (empty_le _))⟩
  · intro h
    refine ⟨minKey_mem hne, ?_⟩
    rintro k ⟨s, hs, e, he, rfl⟩
    rcases h with h | ⟨b, hb, hkey⟩
    · exact ((collect_spec fun s hs e he hk => h s hs (key_eq_nil_of_mem he hk)).2.2 s hs e he).1
    · obtain rfl : a = b := Option.some.inj hb
      rw [(minKey_eq_nil_iff a rest).mpr hkey]
      exact empty_le _

/-! ### Which tables are selected -/

theorem length_starts (n : Nat) (ts : List Table) : (starts n ts).length = ts.length := by
  induction ts generalizing n with
  | nil => rfl
  | cons t ts ih => rw [starts, List.length_cons, List.length_cons, ih]

theorem selectNext_queue_filter (minKey maxKey : Bytes) {l : List SST}
    (hl : l.Pairwise fun s t => s.key ≤ t.key) (i : Nat) (acc : Selected) :
    (selectNext minKey maxKey i l acc).queue = acc.queue ++ starts acc.value
      ((l.filter fun s => minKey ≤ s.last.1 ∧ s.key ≤ maxKey).map SST.table) := by
  induction l generalizing i acc with
  | nil => simp [selectNext, starts]
  | cons s l ih =>
      obtain ⟨hs, hl⟩ := List.pairwise_cons.mp hl
      rw [selectNext]
      split
      · next hlast =>
          rw [ih hl, List.filter_cons_of_neg]
          simpa using fun h => absurd h (not_le.mpr hlast)
      · next hlast =>
          split
          · next hfirst =>
              have hnone : (s :: l).filter (fun s => minKey ≤ s.last.1 ∧ s.key ≤ maxKey) = [] := by
                rw [List.filter_eq_nil_iff]
                intro t ht
                have hkey : maxKey < t.key := by
                  rcases List.mem_cons.mp ht with rfl | ht
                  · exact hfirst
                  · exact lt_of_lt_of_le hfirst (hs t ht)
                simpa using fun _ => hkey
              rw [hnone]
              simp [starts]
          · next hfirst =>
              have hmeets : minKey ≤ s.last.1 ∧ s.key ≤ maxKey :=
                ⟨not_lt.mp hlast, not_lt.mp hfirst⟩
              rw [ih hl, List.filter_cons_of_pos (by simpa using hmeets)]
              simp [starts]

/-- **The two loops.**  The queue holds the level and the tables of the next one that the
range touches. -/
theorem select_queue_filter (cur : List SST) {next : List SST}
    (hnext : next.Pairwise fun s t => s.key ≤ t.key) :
    (select cur next).queue = starts 0 ((cur.reverse ++ next.filter fun s =>
      (collect cur).minKey ≤ s.last.1 ∧ s.key ≤ (collect cur).maxKey).map SST.table) := by
  obtain ⟨h1, h2⟩ := foldl_collectStep_queue cur.reverse ⟨[], 0, [], []⟩
  rw [select, selectNext_queue_filter _ _ hnext, collect, h1, h2, List.map_append, starts_append]
  simp

theorem KeyRange.selectsShared {cur : List SST} (h : KeyRange cur) : SelectsShared cur := by
  intro next hnext
  refine ⟨_, List.filter_sublist, select_queue_filter cur hnext, ?_⟩
  rintro t ht ⟨e, he, hk⟩
  rw [List.mem_filter, decide_eq_true_eq]
  exact ⟨ht, le_trans (h.1.2 hk) (t.le_last he), le_trans (t.key_le he) (h.2.2 hk)⟩

/-- A table with one entry. -/
def oneEntry (k v : Bytes) : SST :=
  ⟨0, ⟨[(k, v)], List.pairwise_singleton _ _, List.cons_ne_nil _ _⟩, 0⟩

/-- A next level that holds only the empty key is left out by a range that starts above it. -/
theorem SelectsShared.emptyKeyOldest {cur : List SST} (h : SelectsShared cur) :
    EmptyKeyOldest cur := by
  by_cases hempty : ∀ s ∈ cur, s.key ≠ []
  · exact Or.inl hempty
  · push Not at hempty
    obtain ⟨s, hs, hkey⟩ := hempty
    obtain ⟨a, rest, rfl⟩ := List.exists_cons_of_ne_nil (List.ne_nil_of_mem hs)
    refine Or.inr ⟨a, rfl, (minKey_eq_nil_iff a rest).mp ?_⟩
    by_contra hmin
    obtain ⟨ts, -, hq, hall⟩ := h [oneEntry [] []] (List.pairwise_singleton _ _)
    have hshared : s.key ∈ levelKeys (a :: rest) := mem_levelKeys hs s.first_mem
    rw [hkey] at hshared
    have hmem : oneEntry [] [] ∈ ts :=
      hall _ (List.mem_singleton_self _) ⟨([], []), List.mem_singleton_self _, hshared⟩
    have hnone : [oneEntry [] []].filter (fun s => (collect (a :: rest)).minKey ≤ s.last.1 ∧
        s.key ≤ (collect (a :: rest)).maxKey) = [] := by
      rw [List.filter_eq_nil_iff]
      intro t ht
      obtain rfl := List.mem_singleton.mp ht
      rw [decide_eq_true_eq]
      exact fun hle => hmin (le_antisymm hle.1 (empty_le _))
    rw [select_queue_filter (a :: rest) (List.pairwise_singleton _ _), hnone] at hq
    have hlen := congrArg List.length hq
    simp only [length_starts, List.length_map, List.length_append, List.length_nil] at hlen
    have hts := List.length_pos_of_mem hmem
    omega

/-- **The range and the selection.**  Whatever the keys, each of the two is right exactly when
the empty key is in no table of the level or in its oldest one. -/
theorem keyRange_iff {ssts : List SST} (hne : ssts ≠ []) :
    (KeyRange ssts ↔ EmptyKeyOldest ssts) ∧ (SelectsShared ssts ↔ EmptyKeyOldest ssts) := by
  have hrange : EmptyKeyOldest ssts → KeyRange ssts := fun h =>
    ⟨(isLeast_minKey_iff hne).mpr h, isGreatest_maxKey hne⟩
  exact ⟨⟨fun h => (isLeast_minKey_iff hne).mp h.1, hrange⟩,
    ⟨SelectsShared.emptyKeyOldest, fun h => (hrange h).selectsShared⟩⟩

/-- The oldest table of two holds the empty key, or neither does. -/
theorem keyRange_iff_two :
    (KeyRange [oneEntry [] [1], oneEntry [97] [2]] ↔
        EmptyKeyOldest [oneEntry [] [1], oneEntry [97] [2]]) ∧
      (SelectsShared [oneEntry [] [1], oneEntry [97] [2]] ↔
        EmptyKeyOldest [oneEntry [] [1], oneEntry [97] [2]]) :=
  keyRange_iff (List.cons_ne_nil _ _)

/-- An older table with key `a` makes the loop forget the empty key of the newer one: the
minimum is `a`, and the next level's table with the empty key is not queued. -/
theorem empty_key_forgotten :
    ¬ KeyRange [oneEntry [97] [1], oneEntry [] [2]] ∧
      (collect [oneEntry [97] [1], oneEntry [] [2]]).minKey = [97] ∧
      (select [oneEntry [97] [1], oneEntry [] [2]] [oneEntry [] [3]]).queue =
        starts 0 ([oneEntry [] [2], oneEntry [97] [1]].map SST.table) := by
  refine ⟨?_, by decide, by decide⟩
  intro h
  have hle : ([97] : Bytes) ≤ [] := h.1.2 (mem_levelKeys (s := oneEntry [] [2])
    (by simp) (e := ([], [2])) (List.mem_singleton_self _))
  exact absurd hle (by decide)

end Mokv.LSM
