import Mathlib.Data.List.TakeWhile
import Mokv.LSM.Manifest

/-!
# Size-tiered compaction

`SizeTieredCompaction(level, id)` (`mokv/lsm/manifest.hpp`) merges a whole level with
the tables of the next level that its key range touches, and splices the result
between the tables to the left and to the right of that range.

How the tables move (`Moved`) needs no order: the level is emptied, and the next one
keeps some of its tables and gets the merged one.  That lookups stay does, and the proof
follows the code.  `collect_spec`: the first loop numbers the level's tables newest first
and finds bounds of its keys.  `selectNext_eq`: on an ascending level the second loop
cuts the next level into a left part below the range, the tables to merge, and a right
part above it.  With the merge of the first two stacks the new level is ascending again
(`ascending_splice`) and reads as before (`newest_splice`), and so does the whole
manifest (`Manifest.WellFormed.compacted`).

The tables are values here.  `Mokv.LSM.MappedCompaction` has the function on files, where the
new one may be written over those that are merged.
-/

namespace Mokv.LSM

open Lib SizeTieredCompactionStruct

/-! ### The code -/

/-- What the first loop collects: the queue, the next number, and the key range. -/
structure Collected where
  queue : List SizeTieredCompactionStruct
  value : Nat
  minKey : Bytes
  maxKey : Bytes

/-- One turn of the first loop.  An empty `min_key` or `max_key` counts as unset. -/
def collectStep (c : Collected) (s : SST) : Collected where
  queue := c.queue ++ [start s.table c.value]
  value := c.value + 1
  minKey := if c.minKey = [] ∨ s.first.1 < c.minKey then s.first.1 else c.minKey
  maxKey := if c.maxKey = [] ∨ s.last.1 > c.maxKey then s.last.1 else c.maxKey

/-- The first loop, over the level from its newest table to its oldest. -/
def collect (ssts : List SST) : Collected := ssts.reverse.foldl collectStep ⟨[], 0, [], []⟩

/-- What the second loop selects. -/
structure Selected where
  queue : List SizeTieredCompactionStruct
  value : Nat
  insertL : Int
  insertR : Int

/-- The second loop, from index `i` on. -/
def selectNext (minKey maxKey : Bytes) : Nat → List SST → Selected → Selected
  | _, [], acc => acc
  | i, s :: ss, acc =>
    if s.last.1 < minKey then selectNext minKey maxKey (i + 1) ss { acc with insertL := i }
    else if s.first.1 > maxKey then { acc with insertR := i }
    else selectNext minKey maxKey (i + 1) ss
      { acc with queue := acc.queue ++ [start s.table acc.value], value := acc.value + 1 }

/-- The levels after `if (level + 1 == levels_.size()) levels_.emplace_back(Level(level + 1))`. -/
def Manifest.ensureNext (m : Manifest) (level : Nat) : List Level :=
  if level + 1 = m.levels.length then m.levels ++ [⟨level + 1, []⟩] else m.levels

/-- `SizeTieredCompaction(level, id)`: the manifest it leaves and the table it writes.
There is none for a level that does not exist or is empty.  The tables are values; in the
files the same happens as long as no table has the id (`toIds_sizeTieredCompaction`). -/
def Manifest.sizeTieredCompaction (fileSize : FileSize) (m : Manifest) (level : Nat) (id : Int) :
    Option (Manifest × SST) := do
  let cur ← m.levels[level]?
  let c := collect cur.ssts
  let levels := m.ensureNext level
  let next ← levels[level + 1]?
  let sel := selectNext c.minKey c.maxKey 0 next.ssts ⟨c.queue, c.value, -1, next.ssts.length⟩
  let sst ← SST.ofEntries? fileSize (merge sel.queue) id
  let newSsts := next.ssts.take (sel.insertL + 1).toNat ++ [sst] ++ next.ssts.drop sel.insertR.toNat
  some ({ m with
    levels := (levels.set level { cur with ssts := [] }).set (level + 1)
      { next with ssts := newSsts }
    maxSstId := raiseMaxSstId m.maxSstId id }, sst)

/-! ### The first loop -/

theorem foldl_collectStep_queue (ts : List SST) (c : Collected) :
    (ts.foldl collectStep c).queue = c.queue ++ starts c.value (ts.map SST.table) ∧
      (ts.foldl collectStep c).value = c.value + ts.length := by
  induction ts generalizing c with
  | nil => simp [starts]
  | cons s ts ih =>
    obtain ⟨h1, h2⟩ := ih (collectStep c s)
    rw [List.foldl_cons, h1, h2]
    simp [collectStep, starts]
    omega

/-- The range covers every table seen so far. -/
def Covers (c : Collected) (s : SST) : Prop :=
  c.minKey ≠ [] ∧ c.minKey ≤ s.key ∧ c.maxKey ≠ [] ∧ s.last.1 ≤ c.maxKey

theorem covers_collectStep (c : Collected) {s : SST} (hs : ∀ e ∈ s.entries, e.1 ≠ []) :
    Covers (collectStep c s) s := by
  have h1 : s.first.1 ≠ [] := hs _ s.first_mem
  have h2 : s.last.1 ≠ [] := hs _ s.last_mem
  refine ⟨?_, ?_, ?_, ?_⟩ <;> simp only [collectStep] <;> split
  · exact h1
  · exact fun h => ‹¬ _› (Or.inl h)
  · exact le_refl _
  · exact not_lt.mp fun h => ‹¬ _› (Or.inr h)
  · exact h2
  · exact fun h => ‹¬ _› (Or.inl h)
  · exact le_refl _
  · exact not_lt.mp fun h => ‹¬ _› (Or.inr h)

theorem Covers.collectStep {c : Collected} {s t : SST} (h : Covers c t)
    (hs : ∀ e ∈ s.entries, e.1 ≠ []) : Covers (collectStep c s) t := by
  obtain ⟨h1, h2, h3, h4⟩ := h
  obtain ⟨g1, -, g3, -⟩ := covers_collectStep c hs
  refine ⟨g1, ?_, g3, ?_⟩ <;> simp only [LSM.collectStep] <;> split
  · exact le_trans (le_of_lt (‹_ ∨ _›.resolve_left h1)) h2
  · exact h2
  · exact le_trans h4 (le_of_lt (‹_ ∨ _›.resolve_left h3))
  · exact h4

theorem covers_foldl {ts : List SST} (hts : ∀ s ∈ ts, ∀ e ∈ s.entries, e.1 ≠ []) (c : Collected) :
    (∀ t, Covers c t → Covers (ts.foldl collectStep c) t) ∧
      ∀ t ∈ ts, Covers (ts.foldl collectStep c) t := by
  induction ts generalizing c with
  | nil => exact ⟨fun _ h => h, by simp⟩
  | cons s ts ih =>
    have hs := hts s List.mem_cons_self
    obtain ⟨h1, h2⟩ := ih (fun t ht => hts t (List.mem_cons_of_mem _ ht)) (collectStep c s)
    refine ⟨fun t ht => h1 t (ht.collectStep hs), ?_⟩
    intro t ht
    rcases List.mem_cons.mp ht with rfl | ht
    · exact h1 t (covers_collectStep c hs)
    · exact h2 t ht

/-- **The first loop.**  It queues the tables newest first, and every key of the level
lies between `min_key` and `max_key`. -/
theorem collect_spec {ssts : List SST} (h : ∀ s ∈ ssts, ∀ e ∈ s.entries, e.1 ≠ []) :
    (collect ssts).queue = starts 0 (ssts.reverse.map SST.table) ∧
      (collect ssts).value = ssts.length ∧
      ∀ s ∈ ssts, ∀ e ∈ s.entries, (collect ssts).minKey ≤ e.1 ∧ e.1 ≤ (collect ssts).maxKey := by
  obtain ⟨h1, h2⟩ := foldl_collectStep_queue ssts.reverse ⟨[], 0, [], []⟩
  refine ⟨by rw [collect, h1]; rfl, by rw [collect, h2]; simp, ?_⟩
  intro s hs e he
  obtain ⟨-, g1, -, g2⟩ := (covers_foldl (fun s hs => h s (List.mem_reverse.mp hs))
    ⟨[], 0, [], []⟩).2 s (List.mem_reverse.mpr hs)
  exact ⟨le_trans g1 (s.key_le he), le_trans (s.le_last he) g2⟩

/-! ### The second loop -/

theorem selectNext_queue (minKey maxKey : Bytes) (l : List SST) (i : Nat) (acc : Selected) :
    ∃ ts : List SST, (∀ s ∈ ts, s ∈ l) ∧
      (selectNext minKey maxKey i l acc).queue =
        acc.queue ++ starts acc.value (ts.map SST.table) := by
  induction l generalizing i acc with
  | nil => exact ⟨[], by simp, by simp [selectNext, starts]⟩
  | cons s l ih =>
    rw [selectNext]
    split
    · obtain ⟨ts, h1, h2⟩ := ih (i + 1) { acc with insertL := i }
      exact ⟨ts, fun t ht => List.mem_cons_of_mem _ (h1 t ht), h2⟩
    · split
      · exact ⟨[], by simp, by simp [starts]⟩
      · obtain ⟨ts, h1, h2⟩ := ih (i + 1)
          { acc with queue := acc.queue ++ [start s.table acc.value], value := acc.value + 1 }
        refine ⟨s :: ts, ?_, ?_⟩
        · intro t ht
          rcases List.mem_cons.mp ht with rfl | ht
          · exact List.mem_cons_self
          · exact List.mem_cons_of_mem _ (h1 t ht)
        · rw [h2, List.map_cons, starts, List.append_assoc]
          rfl

section Select

variable (minKey maxKey : Bytes)

/-- The tables below the range. -/
def leftOf (l : List SST) : List SST := l.takeWhile fun s => s.last.1 < minKey

/-- The tables not below the range. -/
def notLeftOf (l : List SST) : List SST := l.dropWhile fun s => s.last.1 < minKey

/-- The tables to merge. -/
def overlapOf (l : List SST) : List SST :=
  (notLeftOf minKey l).takeWhile fun s => !(s.first.1 > maxKey)

/-- The tables above the range. -/
def rightOf (l : List SST) : List SST :=
  (notLeftOf minKey l).dropWhile fun s => !(s.first.1 > maxKey)

theorem split_eq (l : List SST) :
    l = leftOf minKey l ++ overlapOf minKey maxKey l ++ rightOf minKey maxKey l := by
  rw [leftOf, overlapOf, rightOf, List.append_assoc, List.takeWhile_append_dropWhile, notLeftOf,
    List.takeWhile_append_dropWhile]

variable {minKey maxKey}

/-- A predicate that passes from a table to the later ones holds on all of `dropWhile`
of its negation. -/
theorem forall_dropWhile {p : SST → Bool} {l : List SST}
    (h : l.Pairwise fun a b => p a = false → p b = false) :
    ∀ s ∈ l.dropWhile p, p s = false := by
  induction l with
  | nil => simp
  | cons a l ih =>
    obtain ⟨ha, hl⟩ := List.pairwise_cons.mp h
    by_cases hp : p a = true
    · rw [List.dropWhile_cons_of_pos hp]
      exact ih hl
    · rw [List.dropWhile_cons_of_neg hp]
      have hp' : p a = false := by simpa using hp
      intro s hs
      rcases List.mem_cons.mp hs with rfl | hs
      · exact hp'
      · exact ha s hs hp'

theorem lt_of_mem_leftOf {l : List SST} {s : SST} (hs : s ∈ leftOf minKey l) :
    s.last.1 < minKey := by
  simpa using List.mem_takeWhile_imp hs

theorem le_of_mem_notLeftOf {l : List SST} (h : Ascending l) {s : SST}
    (hs : s ∈ notLeftOf minKey l) : minKey ≤ s.last.1 := by
  have := forall_dropWhile (p := fun s : SST => s.last.1 < minKey) (h.imp fun {a b} hab ha => by
    simp only [decide_eq_false_iff_not, not_lt] at ha ⊢
    exact le_trans ha (le_of_lt (lt_of_lt_of_le hab b.key_le_last))) s hs
  simpa using this

theorem lt_of_mem_rightOf {l : List SST} (h : Ascending l) {s : SST}
    (hs : s ∈ rightOf minKey maxKey l) : maxKey < s.key := by
  have hasc : Ascending (notLeftOf minKey l) := h.sublist (List.dropWhile_sublist _)
  have := forall_dropWhile (p := fun s : SST => !(s.first.1 > maxKey)) (hasc.key_lt.imp
    fun {a b} hab ha => by
      simp only [Bool.not_eq_false', decide_eq_true_eq] at ha ⊢
      exact lt_trans ha hab) s hs
  change maxKey < s.first.1
  simpa using this

theorem selectNext_left (l : List SST) (i : Nat) (acc : Selected)
    (hi : acc.insertL = (i : Int) - 1) :
    selectNext minKey maxKey i l acc =
      selectNext minKey maxKey (i + (leftOf minKey l).length) (notLeftOf minKey l)
        { acc with insertL := (i + (leftOf minKey l).length : Nat) - 1 } := by
  induction l generalizing i acc with
  | nil =>
    simp only [leftOf, notLeftOf, List.takeWhile_nil, List.dropWhile_nil, List.length_nil,
      Nat.add_zero, selectNext]
    rw [← hi]
  | cons s l ih =>
    by_cases hs : s.last.1 < minKey
    · rw [selectNext, if_pos hs, ih (i + 1) _ (by simp)]
      have h1 : leftOf minKey (s :: l) = s :: leftOf minKey l :=
        List.takeWhile_cons_of_pos (by simpa using hs)
      have h2 : notLeftOf minKey (s :: l) = notLeftOf minKey l :=
        List.dropWhile_cons_of_pos (by simpa using hs)
      rw [h1, h2, List.length_cons, show i + 1 + (leftOf minKey l).length
        = i + ((leftOf minKey l).length + 1) by omega]
    · have h1 : leftOf minKey (s :: l) = [] := List.takeWhile_cons_of_neg (by simpa using hs)
      have h2 : notLeftOf minKey (s :: l) = s :: l := List.dropWhile_cons_of_neg (by simpa using hs)
      rw [h1, h2, List.length_nil, Nat.add_zero, ← hi]

theorem selectNext_right {l : List SST} (hl : ∀ s ∈ l, minKey ≤ s.last.1) (i : Nat) (acc : Selected)
    (hr : acc.insertR = (i + l.length : Nat)) :
    let mid := l.takeWhile fun s => !(s.first.1 > maxKey)
    selectNext minKey maxKey i l acc =
      { acc with
        queue := acc.queue ++ starts acc.value (mid.map SST.table)
        value := acc.value + mid.length
        insertR := (i + mid.length : Nat) } := by
  induction l generalizing i acc with
  | nil =>
    simp only [List.takeWhile_nil, List.map_nil, starts, List.append_nil, List.length_nil,
      Nat.add_zero, selectNext]
    rw [List.length_nil, Nat.add_zero] at hr
    rw [← hr]
  | cons s l ih =>
    have hs : ¬ s.last.1 < minKey := not_lt.mpr (hl s List.mem_cons_self)
    rw [selectNext, if_neg hs]
    by_cases hr' : s.first.1 > maxKey
    · rw [if_pos hr', List.takeWhile_cons_of_neg (by simpa using hr')]
      simp [starts]
    · rw [if_neg hr', List.takeWhile_cons_of_pos (by simpa using hr')]
      dsimp only
      rw [ih (fun t ht => hl t (List.mem_cons_of_mem _ ht)) (i + 1) _
        (by rw [hr, List.length_cons]; push_cast; omega)]
      simp only [List.map_cons, starts, List.append_assoc, List.singleton_append, List.length_cons]
      congr 1 <;> omega

/-- **The second loop.**  On an ascending level it queues the tables the range touches
and finds the places left and right of them. -/
theorem selectNext_eq {l : List SST} (h : Ascending l) (q : List SizeTieredCompactionStruct)
    (value : Nat) :
    selectNext minKey maxKey 0 l ⟨q, value, -1, l.length⟩ =
      { queue := q ++ starts value ((overlapOf minKey maxKey l).map SST.table)
        value := value + (overlapOf minKey maxKey l).length
        insertL := ((leftOf minKey l).length : Nat) - 1
        insertR := ((leftOf minKey l).length + (overlapOf minKey maxKey l).length : Nat) } := by
  have hlen : l.length = (leftOf minKey l).length + (notLeftOf minKey l).length := by
    rw [leftOf, notLeftOf, ← List.length_append, List.takeWhile_append_dropWhile]
  rw [selectNext_left l 0 _ (by simp),
    selectNext_right (fun s hs => le_of_mem_notLeftOf h hs) _ _ (by simp [hlen])]
  simp [overlapOf]

end Select

/-! ### The new level -/

section Splice

variable {A B : List SST} {N : SST} {minKey maxKey : Bytes}

/-- The stack that a compaction merges, newest first. -/
def mergeInput (A B : List SST) (minKey maxKey : Bytes) : List SST :=
  A.reverse ++ overlapOf minKey maxKey B

/-- The next level with the new table at its place. -/
def splice (B : List SST) (N : SST) (minKey maxKey : Bytes) : List SST :=
  leftOf minKey B ++ [N] ++ rightOf minKey maxKey B

theorem mem_overlapOf {s : SST} (hs : s ∈ overlapOf minKey maxKey B) : s ∈ B := by
  rw [split_eq minKey maxKey B]
  exact List.mem_append_left _ (List.mem_append_right _ hs)

theorem mem_splice {s : SST} (hs : s ∈ splice B N minKey maxKey) : s = N ∨ s ∈ B := by
  rw [split_eq minKey maxKey B]
  simp only [splice, List.mem_append, List.mem_singleton] at hs ⊢
  tauto

theorem ascending_parts (minKey maxKey : Bytes) (h : Ascending B) :
    Ascending (leftOf minKey B) ∧ Ascending (overlapOf minKey maxKey B) ∧
      Ascending (rightOf minKey maxKey B) ∧
      (∀ a ∈ leftOf minKey B, ∀ b ∈ overlapOf minKey maxKey B, a.last.1 < b.key) ∧
      (∀ a ∈ leftOf minKey B, ∀ b ∈ rightOf minKey maxKey B, a.last.1 < b.key) ∧
      ∀ a ∈ overlapOf minKey maxKey B, ∀ b ∈ rightOf minKey maxKey B, a.last.1 < b.key := by
  rw [split_eq minKey maxKey B, Ascending, List.pairwise_append, List.pairwise_append] at h
  obtain ⟨⟨h1, h2, h3⟩, h4, h5⟩ := h
  exact ⟨h1, h2, h4, h3, fun a ha b hb => h5 a (List.mem_append_left _ ha) b hb,
    fun a ha b hb => h5 a (List.mem_append_right _ ha) b hb⟩

variable (hB : Ascending B)
  (hA : ∀ s ∈ A, ∀ e ∈ s.entries, minKey ≤ e.1 ∧ e.1 ≤ maxKey)

include hB hA

/-- **The new level is ascending.**  A key of the new table is in the range or in an
overlapping table, and both lie between the left and the right part. -/
theorem ascending_splice
    (hN : ∀ e ∈ N.entries, ∃ s ∈ mergeInput A B minKey maxKey, e ∈ s.entries) :
    Ascending (splice B N minKey maxKey) := by
  obtain ⟨hL, -, hR, hLO, hLR, hOR⟩ := ascending_parts minKey maxKey hB
  have hleft : ∀ a ∈ leftOf minKey B, a.last.1 < N.key := by
    intro a ha
    obtain ⟨s, hs, he⟩ := hN _ N.first_mem
    rcases List.mem_append.mp hs with hs | hs
    · exact lt_of_lt_of_le (lt_of_mem_leftOf ha) (hA s (List.mem_reverse.mp hs) _ he).1
    · exact lt_of_lt_of_le (hLO a ha s hs) (s.key_le he)
  have hright : ∀ b ∈ rightOf minKey maxKey B, N.last.1 < b.key := by
    intro b hb
    obtain ⟨s, hs, he⟩ := hN _ N.last_mem
    rcases List.mem_append.mp hs with hs | hs
    · exact lt_of_le_of_lt (hA s (List.mem_reverse.mp hs) _ he).2 (lt_of_mem_rightOf hB hb)
    · exact lt_of_le_of_lt (s.le_last he) (hOR s hs b hb)
  rw [splice, Ascending, List.pairwise_append, List.pairwise_append]
  refine ⟨⟨hL, List.pairwise_singleton _ _, ?_⟩, hR, ?_⟩
  · intro a ha b hb
    rw [List.mem_singleton.mp hb]
    exact hleft a ha
  · intro a ha b hb
    rcases List.mem_append.mp ha with ha | ha
    · exact hLR a ha b hb
    · rw [List.mem_singleton.mp ha]
      exact hright b hb

omit hB in
theorem newest_eq_none_of_range {C : List SST} {k v : Bytes}
    (hC : ∀ s ∈ C, s.last.1 < minKey ∨ maxKey < s.key)
    (hk : newest (A.reverse.map SST.entries) k = some v) :
    newest (C.reverse.map SST.entries) k = none := by
  obtain ⟨t, ht, hv⟩ := mem_of_newest hk
  obtain ⟨s, hs, rfl⟩ := List.mem_map.mp ht
  obtain ⟨h1, h2⟩ := hA s (List.mem_reverse.mp hs) _ (s.sorted.lookup_eq_some.mp hv)
  refine newest_eq_none ?_
  intro t ht
  obtain ⟨c, hc, rfl⟩ := List.mem_map.mp ht
  refine lookup_eq_none ?_
  intro e he heq
  rcases hC c (List.mem_reverse.mp hc) with hlt | hlt
  · exact absurd (le_trans h1 (le_trans (le_of_eq heq.symm) (c.le_last he))) (not_le.mpr hlt)
  · exact absurd (le_trans (c.key_le he) (le_trans (le_of_eq heq) h2)) (not_le.mpr hlt)

/-- **The new level reads as the two old ones.** -/
theorem newest_splice
    (hN : ∀ k, N.entries.lookup k = newest ((mergeInput A B minKey maxKey).map SST.entries) k)
    (k : Bytes) :
    newest ((splice B N minKey maxKey).reverse.map SST.entries) k =
      (newest (A.reverse.map SST.entries) k).or (newest (B.reverse.map SST.entries) k) := by
  have hO := (ascending_parts minKey maxKey hB).2.1
  have hnew : newest ((splice B N minKey maxKey).reverse.map SST.entries) k =
      (newest ((rightOf minKey maxKey B).reverse.map SST.entries) k).or
        (((newest (A.reverse.map SST.entries) k).or
            (newest ((overlapOf minKey maxKey B).map SST.entries) k)).or
          (newest ((leftOf minKey B).reverse.map SST.entries) k)) := by
    rw [splice, List.reverse_append, List.reverse_append, List.reverse_singleton, List.map_append,
      newest_append, List.map_append, newest_append, List.map_singleton, newest_cons, newest_nil,
      Option.or_none, hN, mergeInput, List.map_append, newest_append]
  have hold : newest (B.reverse.map SST.entries) k =
      (newest ((rightOf minKey maxKey B).reverse.map SST.entries) k).or
        ((newest ((overlapOf minKey maxKey B).map SST.entries) k).or
          (newest ((leftOf minKey B).reverse.map SST.entries) k)) := by
    conv_lhs => rw [split_eq minKey maxKey B]
    rw [List.reverse_append, List.reverse_append, List.map_append, newest_append, List.map_append,
      newest_append, hO.newest_reverse]
  rw [hnew, hold]
  cases hk : newest (A.reverse.map SST.entries) k with
  | none => rw [Option.none_or, Option.none_or]
  | some v =>
    rw [newest_eq_none_of_range hA (fun s hs => Or.inr (lt_of_mem_rightOf hB hs)) hk]
    rfl

end Splice

/-! ### The whole compaction -/

theorem Manifest.Shaped.ensureNext {m : Manifest} (h : m.Shaped) (level : Nat) :
    Manifest.Shaped { m with levels := m.ensureNext level } := by
  rw [Manifest.ensureNext]
  split
  · rename_i hlen
    refine ⟨by simp, ?_⟩
    intro i l hi
    rcases Nat.lt_or_ge i m.levels.length with hlt | hge
    · rw [List.getElem?_append_left hlt] at hi
      exact h.level_eq i l hi
    · rw [List.getElem?_append_right hge, List.getElem?_singleton] at hi
      split at hi
      · obtain rfl : ⟨level + 1, []⟩ = l := Option.some.inj hi
        change level + 1 = i
        omega
      · cases hi
  · exact h

theorem Manifest.WellFormed.ensureNext {m : Manifest} (h : m.WellFormed) (level : Nat) :
    Manifest.WellFormed { m with levels := m.ensureNext level } := by
  have hmem : ∀ l ∈ m.ensureNext level, l ∈ m.levels ∨ l = ⟨level + 1, []⟩ := by
    intro l hl
    rw [Manifest.ensureNext] at hl
    split at hl
    · simpa using hl
    · exact Or.inl hl
  refine ⟨h.toShaped.ensureNext level, ?_, ?_⟩
  · intro l hl s hs
    rcases hmem l hl with hl | rfl
    · exact h.keys l hl s hs
    · simp at hs
  · intro l hl h0
    rcases hmem l hl with hl | rfl
    · exact h.ascending l hl h0
    · exact List.Pairwise.nil

theorem newest_ensureNext (m : Manifest) (level : Nat) (k : Bytes) :
    newest ((m.ensureNext level).flatMap Level.tables) k = newest m.tables k := by
  rw [Manifest.ensureNext]
  split
  · rw [List.flatMap_append, newest_append]
    simp [Level.tables, Manifest.tables]
  · rfl

theorem length_ensureNext_le (m : Manifest) (level : Nat) :
    (m.ensureNext level).length ≤ max m.levels.length (level + 2) := by
  rw [Manifest.ensureNext]
  split
  · rw [List.length_append, List.length_singleton]
    omega
  · exact Nat.le_max_left _ _

theorem exists_split_levels {m : Manifest} {level : Nat} {cur : Level}
    (hcur : m.levels[level]? = some cur) :
    ∃ pre next post, m.ensureNext level = pre ++ cur :: next :: post ∧ pre.length = level := by
  obtain ⟨hlt, rfl⟩ := List.getElem?_eq_some_iff.mp hcur
  have hsplit : m.levels = m.levels.take level ++ m.levels[level] :: m.levels.drop (level + 1) := by
    rw [← List.drop_eq_getElem_cons hlt, List.take_append_drop]
  have hlen : (m.levels.take level).length = level := by
    rw [List.length_take]
    omega
  rw [Manifest.ensureNext]
  split
  · refine ⟨_, ⟨level + 1, []⟩, [], ?_, hlen⟩
    conv_lhs => rw [hsplit]
    rw [List.drop_eq_nil_of_le (by omega), List.append_assoc]
    rfl
  · cases hd : m.levels.drop (level + 1) with
    | nil =>
      have := List.drop_eq_nil_iff.mp hd
      omega
    | cons next post => exact ⟨_, next, post, by rw [← hd]; exact hsplit, hlen⟩

theorem set_set_split (pre post : List Level) (a b a' b' : Level) :
    ((pre ++ a :: b :: post).set pre.length a').set (pre.length + 1) b' =
      pre ++ a' :: b' :: post := by
  rw [List.set_append_right _ _ (Nat.le_refl _), List.set_append_right _ _ (Nat.le_succ _)]
  simp

theorem getElem?_split_ne (pre post : List Level) (a b a' b' : Level) {i : Nat}
    (h1 : i ≠ pre.length) (h2 : i ≠ pre.length + 1) :
    (pre ++ a' :: b' :: post)[i]? = (pre ++ a :: b :: post)[i]? := by
  rw [← set_set_split pre post a b a' b', List.getElem?_set_ne h2.symm,
    List.getElem?_set_ne h1.symm]

theorem getElem?_ensureNext {m : Manifest} {level j : Nat} (hj : j ≠ level + 1) :
    (m.ensureNext level)[j]? = m.levels[j]? := by
  rw [Manifest.ensureNext]
  split
  · rcases Nat.lt_trichotomy j m.levels.length with hlt | heq | hgt
    · exact List.getElem?_append_left hlt
    · omega
    · rw [List.getElem?_eq_none (by simp; omega), List.getElem?_eq_none (by omega)]
  · rfl

/-- The first two loops, on the level and the next one. -/
def select (cur next : List SST) : Selected :=
  selectNext (collect cur).minKey (collect cur).maxKey 0 next
    ⟨(collect cur).queue, (collect cur).value, -1, next.length⟩

/-- The next level after the compaction. -/
def respliced (cur next : List SST) (N : SST) : List SST :=
  next.take ((select cur next).insertL + 1).toNat ++ [N] ++
    next.drop (select cur next).insertR.toNat

theorem mem_respliced {cur next : List SST} {N s : SST} (hs : s ∈ respliced cur next N) :
    s = N ∨ s ∈ next := by
  rcases List.mem_append.mp hs with hs | hs
  · rcases List.mem_append.mp hs with hs | hs
    · exact Or.inr (List.mem_of_mem_take hs)
    · exact Or.inl (List.mem_singleton.mp hs)
  · exact Or.inr (List.mem_of_mem_drop hs)

theorem select_queue (cur next : List SST) :
    ∃ ts : List SST, (∀ s ∈ ts, s ∈ next) ∧
      (select cur next).queue = starts 0 ((cur.reverse ++ ts).map SST.table) := by
  obtain ⟨h1, h2⟩ := foldl_collectStep_queue cur.reverse ⟨[], 0, [], []⟩
  obtain ⟨ts, hts, hq⟩ := selectNext_queue (collect cur).minKey (collect cur).maxKey next 0
    ⟨(collect cur).queue, (collect cur).value, -1, next.length⟩
  refine ⟨ts, hts, ?_⟩
  rw [select, hq, collect, h1, h2, List.map_append, starts_append]
  simp

/-- **What a compaction leaves.**  The level is empty, the next one has the merged table
in it, and nothing else moves. -/
theorem sizeTieredCompaction_eq {m : Manifest} (fileSize : FileSize) {level : Nat}
    {cur next : Level} {pre post : List Level} (hcur : m.levels[level]? = some cur)
    (hne : cur.ssts ≠ []) (hsplit : m.ensureNext level = pre ++ cur :: next :: post)
    (hpre : pre.length = level) (id : Int) :
    ∃ N : SST, N.id = id ∧ N.fileSize = fileSize N.entries ∧
      N.entries = merge (select cur.ssts next.ssts).queue ∧
      m.sizeTieredCompaction fileSize level id =
        some ({ m with
          levels := pre ++ { cur with ssts := [] } ::
            { next with ssts := respliced cur.ssts next.ssts N } :: post
          maxSstId := raiseMaxSstId m.maxSstId id }, N) := by
  obtain ⟨ts, -, hqueue⟩ := select_queue cur.ssts next.ssts
  have hne' : (cur.ssts.reverse ++ ts).map SST.table ≠ [] := by
    simpa using fun h => absurd h hne
  have hnext : (m.ensureNext level)[level + 1]? = some next := by
    rw [hsplit, ← hpre]
    simp
  have hs : SortedKeys (merge (select cur.ssts next.ssts).queue) := by
    rw [hqueue]
    exact merge_sorted _
  have hn : merge (select cur.ssts next.ssts).queue ≠ [] := by
    rw [hqueue]
    exact merge_ne_nil hne'
  refine ⟨⟨id, ⟨_, hs, hn⟩, fileSize (merge (select cur.ssts next.ssts).queue)⟩, rfl, rfl, rfl, ?_⟩
  rw [Manifest.sizeTieredCompaction, hcur]
  simp only [Option.bind_eq_bind, Option.bind_some, hnext]
  rw [← select, SST.ofEntries?, Table.ofEntries?_eq hs hn]
  simp only [Option.map_some, Option.bind_some]
  rw [hsplit, ← hpre, set_set_split]
  rfl

/-- The tables of level `j`, none if there is no such level. -/
def Manifest.at (m : Manifest) (j : Nat) : List SST := ((m.levels[j]?).map Level.ssts).getD []

theorem Manifest.mem_ssts_iff {m : Manifest} {s : SST} : s ∈ m.ssts ↔ ∃ j, s ∈ m.at j := by
  rw [Manifest.ssts, List.mem_flatMap]
  constructor
  · rintro ⟨l, hl, hs⟩
    obtain ⟨j, hj⟩ := List.getElem?_of_mem hl
    exact ⟨j, by rw [Manifest.at, hj]; exact hs⟩
  · rintro ⟨j, hs⟩
    rw [Manifest.at] at hs
    cases hj : m.levels[j]? with
    | none => rw [hj] at hs; simp at hs
    | some l => rw [hj] at hs; exact ⟨l, List.mem_of_getElem? hj, hs⟩

theorem Manifest.mem_at_of_ensureNext {m : Manifest} {level j : Nat} {l : Level}
    (hl : (m.ensureNext level)[j]? = some l) {s : SST} (hs : s ∈ l.ssts) : s ∈ m.at j := by
  rw [Manifest.ensureNext] at hl
  rw [Manifest.at]
  split at hl
  · rcases Nat.lt_or_ge j m.levels.length with hlt | hge
    · rw [List.getElem?_append_left hlt] at hl
      rw [hl]
      exact hs
    · rw [List.getElem?_append_right hge, List.getElem?_singleton] at hl
      split at hl
      · obtain rfl : ⟨level + 1, []⟩ = l := Option.some.inj hl
        simp at hs
      · cases hl
  · rw [hl]
    exact hs

/-- How one compaction moves the tables.  This much holds of any manifest. -/
structure Moved (fileSize : FileSize) (m : Manifest) (level : Nat) (id : Int) (m' : Manifest)
    (N : SST) : Prop where
  shaped : m'.Shaped
  id_eq : N.id = id
  fileSize_eq : N.fileSize = fileSize N.entries
  maxSstId_eq : m'.maxSstId = raiseMaxSstId m.maxSstId id
  emptied : m'.levels[level]? = some ⟨level, []⟩
  others : ∀ j, j ≠ level → j ≠ level + 1 → m'.levels[j]? = m.levels[j]?
  next : ∀ s, s ∈ m'.at (level + 1) → s = N ∨ s ∈ m.at (level + 1)
  new_mem : N ∈ m'.at (level + 1)
  length_le : m'.levels.length ≤ max m.levels.length (level + 2)

theorem Moved.mem_ssts {fileSize : FileSize} {m m' : Manifest} {level : Nat} {id : Int} {N : SST}
    (h : Moved fileSize m level id m' N) {s : SST} (hs : s ∈ m'.ssts) :
    s = N ∨ ∃ j, j ≠ level ∧ s ∈ m.at j := by
  obtain ⟨j, hj⟩ := Manifest.mem_ssts_iff.mp hs
  by_cases h1 : j = level
  · rw [Manifest.at, h1, h.emptied] at hj
    simp at hj
  · by_cases h2 : j = level + 1
    · subst h2
      exact (h.next s hj).imp_right fun hs => ⟨level + 1, h1, hs⟩
    · rw [Manifest.at, h.others j h1 h2] at hj
      exact Or.inr ⟨j, h1, hj⟩

theorem Manifest.Shaped.level_split {m : Manifest} (h : m.Shaped) {level : Nat} {cur next : Level}
    {pre post : List Level} (hsplit : m.ensureNext level = pre ++ cur :: next :: post)
    (hpre : pre.length = level) :
    (m.ensureNext level)[level + 1]? = some next ∧ cur.level = level ∧ next.level = level + 1 := by
  have hcur : (m.ensureNext level)[level]? = some cur := by
    rw [hsplit, ← hpre]
    simp
  have hnext : (m.ensureNext level)[level + 1]? = some next := by
    rw [hsplit, ← hpre]
    simp
  exact ⟨hnext, (h.ensureNext level).level_eq _ _ hcur, (h.ensureNext level).level_eq _ _ hnext⟩

theorem Manifest.Shaped.replace {m : Manifest} (h : m.Shaped) {level : Nat} {cur next : Level}
    {pre post : List Level} (hsplit : m.ensureNext level = pre ++ cur :: next :: post)
    (hpre : pre.length = level) (A B : List SST) (maxSstId : Nat) :
    Manifest.Shaped { m with
      levels := pre ++ { cur with ssts := A } :: { next with ssts := B } :: post
      maxSstId := maxSstId } := by
  obtain ⟨-, hlevel, hlevel'⟩ := h.level_split hsplit hpre
  refine ⟨by simp, ?_⟩
  intro i l hi
  by_cases h1 : i = pre.length
  · subst h1
    obtain rfl : { cur with ssts := A } = l := by simpa using hi
    exact hlevel.trans hpre.symm
  · by_cases h2 : i = pre.length + 1
    · subst h2
      obtain rfl : { next with ssts := B } = l := by simpa using hi
      exact hlevel'.trans (by rw [hpre])
    · rw [getElem?_split_ne pre post cur next _ _ h1 h2, ← hsplit] at hi
      exact (h.ensureNext level).level_eq i l hi

/-- **A compaction of a non-empty level succeeds and moves the tables so.** -/
theorem Manifest.Shaped.exists_moved {m : Manifest} (h : m.Shaped) (fileSize : FileSize)
    {level : Nat} {cur : Level} (hcur : m.levels[level]? = some cur) (hne : cur.ssts ≠ [])
    (id : Int) :
    ∃ m' N, m.sizeTieredCompaction fileSize level id = some (m', N) ∧
      Moved fileSize m level id m' N := by
  obtain ⟨pre, next, post, hsplit, hpre⟩ := exists_split_levels hcur
  obtain ⟨N, hid, hfs, hent, heq⟩ := sizeTieredCompaction_eq fileSize hcur hne hsplit hpre id
  obtain ⟨hnext, hlevel, -⟩ := h.level_split hsplit hpre
  refine ⟨_, N, heq, h.replace hsplit hpre _ _ _, hid, hfs, rfl, ?_, ?_,
    ?_, ?_, ?_⟩
  · have hat : (pre ++ { cur with ssts := [] } :: { next with
        ssts := respliced cur.ssts next.ssts N } :: post)[pre.length]? =
        some { cur with ssts := [] } := by simp
    rw [hpre] at hat
    exact hat.trans (by rw [hlevel])
  · intro j h1 h2
    rw [getElem?_split_ne pre post cur next _ _ (hpre ▸ h1) (hpre ▸ h2), ← hsplit]
    exact getElem?_ensureNext h2
  · intro s hs
    rw [Manifest.at, ← hpre] at hs
    exact (mem_respliced (by simpa using hs)).imp_right (Manifest.mem_at_of_ensureNext hnext)
  · rw [Manifest.at, ← hpre]
    simp [respliced]
  · have hlen : (pre ++ cur :: next :: post).length ≤ max m.levels.length (level + 2) := by
      rw [← hsplit]
      exact length_ensureNext_le m level
    simpa using hlen

/-! ### Lookups after a compaction -/

theorem respliced_eq {A B : List SST} (hB : Ascending B) (N : SST) :
    (select A B).queue = (collect A).queue ++ starts (collect A).value
        ((overlapOf (collect A).minKey (collect A).maxKey B).map SST.table) ∧
      respliced A B N = splice B N (collect A).minKey (collect A).maxKey := by
  rw [respliced, select, selectNext_eq hB, splice]
  refine ⟨rfl, ?_⟩
  generalize (collect A).minKey = minKey
  generalize (collect A).maxKey = maxKey
  have hl : B.take (((leftOf minKey B).length : Int) - 1 + 1).toNat = leftOf minKey B := by
    rw [show (((leftOf minKey B).length : Int) - 1 + 1).toNat = (leftOf minKey B).length by omega]
    exact (List.prefix_iff_eq_take.mp (List.takeWhile_prefix _)).symm
  have hr : B.drop
      (((leftOf minKey B).length + (overlapOf minKey maxKey B).length : Nat) : Int).toNat =
        rightOf minKey maxKey B := by
    rw [Int.toNat_natCast, ← List.length_append]
    exact (congrArg (List.drop _) (split_eq minKey maxKey B)).trans (List.drop_left ..)
  rw [hl, hr]

theorem Manifest.WellFormed.replace {m : Manifest} (h : m.WellFormed) {level : Nat}
    {cur next : Level} {pre post : List Level}
    (hsplit : m.ensureNext level = pre ++ cur :: next :: post) (hpre : pre.length = level)
    {B : List SST} (hB : Ascending B)
    (hkeys : ∀ s ∈ B, ∀ e ∈ s.entries, e.1 ≠ []) (maxSstId : Nat) :
    Manifest.WellFormed { m with
      levels := pre ++ { cur with ssts := [] } :: { next with ssts := B } :: post
      maxSstId := maxSstId } := by
  have hwf := h.ensureNext level
  have hmem : ∀ l ∈ pre ++ { cur with ssts := [] } :: { next with ssts := B } :: post,
      l ∈ m.ensureNext level ∨ l = { cur with ssts := [] } ∨ l = { next with ssts := B } := by
    intro l hl
    rw [hsplit]
    simp only [List.mem_append, List.mem_cons] at hl ⊢
    tauto
  refine ⟨h.toShaped.replace hsplit hpre [] B maxSstId, ?_, ?_⟩
  · intro l hl s hs e he
    rcases hmem l hl with hl | rfl | rfl
    · exact hwf.keys l hl s hs e he
    · simp at hs
    · exact hkeys s hs e he
  · intro l hl h0
    rcases hmem l hl with hl | rfl | rfl
    · exact hwf.ascending l hl h0
    · exact List.Pairwise.nil
    · exact hB

/-- **A compaction of a well-formed manifest changes no lookup.** -/
theorem Manifest.WellFormed.compacted {m m' : Manifest} (h : m.WellFormed) {fileSize : FileSize}
    {level : Nat} {cur : Level} (hcur : m.levels[level]? = some cur) (hne : cur.ssts ≠ [])
    {id : Int} {N : SST} (heq : m.sizeTieredCompaction fileSize level id = some (m', N)) :
    m'.WellFormed ∧ ∀ k, m'.get k = m.get k := by
  obtain ⟨pre, next, post, hsplit, hpre⟩ := exists_split_levels hcur
  obtain ⟨N', -, -, hent, heq'⟩ := sizeTieredCompaction_eq fileSize hcur hne hsplit hpre id
  obtain ⟨rfl, rfl⟩ := Prod.mk.inj (Option.some.inj (heq.symm.trans heq'))
  obtain ⟨hnext, -, hlevel'⟩ := h.level_split hsplit hpre
  obtain ⟨hq, hv, hA⟩ := collect_spec (h.keys cur (List.mem_of_getElem? hcur))
  have hwf := h.ensureNext level
  have hnextmem : next ∈ m.ensureNext level := List.mem_of_getElem? hnext
  have hB : Ascending next.ssts := hwf.ascending next hnextmem (by rw [hlevel']; simp)
  obtain ⟨hqueue, hsplice⟩ := respliced_eq (A := cur.ssts) hB N
  have hinput : (select cur.ssts next.ssts).queue = starts 0 ((mergeInput cur.ssts next.ssts
      (collect cur.ssts).minKey (collect cur.ssts).maxKey).map SST.table) := by
    rw [hqueue, mergeInput, List.map_append, starts_append, hq, hv]
    simp
  rw [hinput] at hent
  rw [hsplice]
  generalize (collect cur.ssts).minKey = minKey at *
  generalize (collect cur.ssts).maxKey = maxKey at *
  have hNmem : ∀ e ∈ N.entries, ∃ s ∈ mergeInput cur.ssts next.ssts minKey maxKey,
      e ∈ s.entries := by
    intro e he
    rw [hent] at he
    obtain ⟨t, ht, he⟩ := mem_of_mem_merge he
    obtain ⟨s, hs, rfl⟩ := List.mem_map.mp ht
    exact ⟨s, hs, he⟩
  have hNlk : ∀ k, N.entries.lookup k =
      newest ((mergeInput cur.ssts next.ssts minKey maxKey).map SST.entries) k := by
    intro k
    rw [hent, lookup_merge, List.map_map]
    rfl
  have hNkeys : ∀ e ∈ N.entries, e.1 ≠ [] := by
    intro e he
    obtain ⟨s, hs, he⟩ := hNmem e he
    rcases List.mem_append.mp hs with hs | hs
    · exact h.keys cur (List.mem_of_getElem? hcur) s (List.mem_reverse.mp hs) e he
    · exact hwf.keys next hnextmem s (mem_overlapOf hs) e he
  have hsplicekeys : ∀ s ∈ splice next.ssts N minKey maxKey, ∀ e ∈ s.entries, e.1 ≠ [] := by
    intro s hs e he
    rcases mem_splice hs with rfl | hs
    · exact hNkeys e he
    · exact hwf.keys next hnextmem s hs e he
  have hwf' := h.replace hsplit hpre (ascending_splice hB hA hNmem) hsplicekeys
    (raiseMaxSstId m.maxSstId id)
  refine ⟨hwf', ?_⟩
  intro k
  rw [hwf'.get_eq_newest, h.get_eq_newest, ← newest_ensureNext m level, hsplit]
  simp only [Manifest.tables, List.flatMap_append, List.flatMap_cons, newest_append, Level.tables,
    newest_splice hB hA hNlk]
  simp only [List.reverse_nil, List.map_nil, newest_nil, Option.none_or, Option.or_assoc]

end Mokv.LSM
