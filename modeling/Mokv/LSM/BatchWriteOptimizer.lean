import Mathlib.Data.List.Induction
import Mokv.LSM.MemTable

/-!
# Accumulated writes

`BatchWriteOptimizer` (`mokv/lsm/batch_commit.hpp`): `AccumulateWrite` counts the bytes of its
pair and flushes at a threshold.  Nothing ever stores the pair: a flush puts the empty key
with the empty value (`exec_eq`), and `kept_iff` says when that loses nothing.
-/

namespace Mokv.LSM

/-- `BatchWriteOptimizer`. -/
structure BatchWriteOptimizer where
  bufferSize : Nat
  threshold : Nat
  bufferKey : Bytes
  bufferValue : Bytes
deriving DecidableEq

namespace BatchWriteOptimizer

/-- `BatchWriteOptimizer(manager, threshold)`. -/
def new (threshold : Nat) : BatchWriteOptimizer := ⟨0, threshold, [], []⟩

/-- `Flush`. -/
def flush (o : BatchWriteOptimizer) (memtable : MemTable) :
    BatchWriteOptimizer × MemTable × Bool :=
  if o.bufferSize = 0 then (o, memtable, false)
  else
    ({ o with bufferKey := [], bufferValue := [], bufferSize := 0 },
      memtable.put o.bufferKey o.bufferValue, true)

/-- `AccumulateWrite`. -/
def accumulateWrite (o : BatchWriteOptimizer) (key value : Bytes) (memtable : MemTable) :
    BatchWriteOptimizer × MemTable × Bool :=
  let o := { o with bufferSize := addSize o.bufferSize (key.length + value.length) }
  if o.bufferSize ≥ o.threshold then o.flush memtable else (o, memtable, false)

/-- A call of `AccumulateWrite` for each pair. -/
def accumulate (x : BatchWriteOptimizer × MemTable) (writes : List Entry) :
    BatchWriteOptimizer × MemTable :=
  writes.foldl (fun x w =>
    let r := x.1.accumulateWrite w.1 w.2 x.2
    (r.1, r.2.1)) x

/-- The memtable after the calls and `Flush`. -/
def exec (threshold : Nat) (writes : List Entry) (memtable : MemTable) : MemTable :=
  let x := accumulate (new threshold, memtable) writes
  (x.1.flush x.2).2.1

/-- The value of the last write of a key. -/
def lastWrite (writes : List Entry) (key : Bytes) : Option Bytes := writes.reverse.lookup key

/-- Every key has the value of its last write, and no key is new. -/
def Kept (before after : MemTable) (writes : List Entry) : Prop :=
  (∀ key value, lastWrite writes key = some value → after.get key = some value) ∧
    ∀ key, after.get key ≠ none → before.get key ≠ none ∨ lastWrite writes key ≠ none

/-- Some `Flush` finds bytes counted, from a count on. -/
def flushes (threshold : Nat) : Nat → List Entry → Bool
  | size, [] => size ≠ 0
  | size, w :: writes =>
    let size := addSize size (w.1.length + w.2.length)
    if size ≥ threshold ∧ size ≠ 0 then true else flushes threshold size writes

/-- The pairs are in the memtable already, but for the pair of the empty key and the empty value:
that one is put there by a flush. -/
def AlreadyThere (threshold : Nat) (writes : List Entry) (memtable : MemTable) : Prop :=
  (∀ key value, key ≠ [] → lastWrite writes key = some value → memtable.get key = some value) ∧
    if flushes threshold 0 writes then
      lastWrite writes [] = some [] ∨ lastWrite writes [] = none ∧ memtable.get [] ≠ none
    else ∀ value, lastWrite writes [] = some value → memtable.get [] = some value

instance (threshold : Nat) (writes : List Entry) (memtable : MemTable) :
    Decidable (AlreadyThere threshold writes memtable) :=
  decidable_of_iff
    ((∀ w ∈ writes, w.1 ≠ [] → ∀ value ∈ lastWrite writes w.1, memtable.get w.1 = some value) ∧
      if flushes threshold 0 writes then
        lastWrite writes [] = some [] ∨ lastWrite writes [] = none ∧ memtable.get [] ≠ none
      else ∀ value ∈ lastWrite writes [], memtable.get [] = some value) (by
    refine and_congr_left fun _ => ?_
    constructor
    · intro h key value hkey hlast
      obtain ⟨p, q, hp, -⟩ := Lib.exists_split_of_lookup hlast
      have hmem : (key, value) ∈ writes.reverse := hp ▸ List.mem_append_right _ List.mem_cons_self
      exact h (key, value) (List.mem_reverse.mp hmem) hkey value hlast
    · intro h w _ hkey value hvalue
      exact h w.1 value hkey hvalue)

theorem put_put_self (m : MemTable) (k v : Bytes) : (m.put k v).put k v = m.put k v := by
  refine MemTable.ext ?_
  rw [MemTable.entries_put, MemTable.entries_put, Lib.put_put]

theorem accumulateWrite_eq (threshold size : Nat) (w : Entry) (m : MemTable) :
    accumulate (⟨size, threshold, [], []⟩, m) [w] =
      if addSize size (w.1.length + w.2.length) ≥ threshold ∧
          addSize size (w.1.length + w.2.length) ≠ 0 then
        (new threshold, m.put [] [])
      else (⟨addSize size (w.1.length + w.2.length), threshold, [], []⟩, m) := by
  rw [accumulate, List.foldl_cons, List.foldl_nil]
  simp only [accumulateWrite, flush]
  by_cases hfull : addSize size (w.1.length + w.2.length) ≥ threshold
  · by_cases hzero : addSize size (w.1.length + w.2.length) = 0
    · rw [if_pos hfull, if_pos hzero, if_neg fun h => h.2 hzero]
    · rw [if_pos hfull, if_neg hzero, if_pos ⟨hfull, hzero⟩]
      rfl
  · rw [if_neg hfull, if_neg fun h => hfull h.1]

/-- **The buffered pair is always empty**, so all that the calls and `Flush` can do is to put it. -/
theorem flush_accumulate (threshold : Nat) (writes : List Entry) (size : Nat) (m : MemTable) :
    ((accumulate (⟨size, threshold, [], []⟩, m) writes).1.flush
        (accumulate (⟨size, threshold, [], []⟩, m) writes).2).2.1 =
      if flushes threshold size writes then m.put [] [] else m := by
  induction writes generalizing size m with
  | nil =>
    rw [accumulate, List.foldl_nil, flush, flushes]
    by_cases hsize : size = 0
    · rw [if_pos hsize, if_neg (by simpa using hsize)]
    · rw [if_neg hsize, if_pos (by simpa using hsize)]
  | cons w writes ih =>
    have hcons : accumulate (⟨size, threshold, [], []⟩, m) (w :: writes) =
        accumulate (accumulate (⟨size, threshold, [], []⟩, m) [w]) writes := rfl
    rw [hcons, accumulateWrite_eq, flushes]
    by_cases hflush : addSize size (w.1.length + w.2.length) ≥ threshold ∧
        addSize size (w.1.length + w.2.length) ≠ 0
    · rw [if_pos hflush, if_pos (if_pos hflush)]
      refine (ih 0 (m.put [] [])).trans ?_
      rw [put_put_self]
      split <;> rfl
    · rw [if_neg hflush, ih]
      simp only [if_neg hflush]

theorem exec_eq (threshold : Nat) (writes : List Entry) (m : MemTable) :
    exec threshold writes m = if flushes threshold 0 writes then m.put [] [] else m :=
  flush_accumulate threshold writes 0 m

theorem kept_self_iff (m : MemTable) (writes : List Entry) :
    Kept m m writes ↔ (∀ key value, key ≠ [] → lastWrite writes key = some value →
      m.get key = some value) ∧
        ∀ value, lastWrite writes [] = some value → m.get [] = some value := by
  constructor
  · rintro ⟨hlast, -⟩
    exact ⟨fun key value _ h => hlast key value h, fun value h => hlast [] value h⟩
  · rintro ⟨hother, hempty⟩
    refine ⟨?_, fun key h => .inl h⟩
    intro key value h
    by_cases hkey : key = []
    · subst hkey
      exact hempty value h
    · exact hother key value hkey h

theorem kept_put_iff (m : MemTable) (writes : List Entry) :
    Kept m (m.put [] []) writes ↔ (∀ key value, key ≠ [] → lastWrite writes key = some value →
      m.get key = some value) ∧
        (lastWrite writes [] = some [] ∨ lastWrite writes [] = none ∧ m.get [] ≠ none) := by
  have hput : (m.put [] []).get [] = some [] := by rw [MemTable.get_put, if_pos rfl]
  have hget : ∀ key, key ≠ [] → (m.put [] []).get key = m.get key := fun key hkey => by
    rw [MemTable.get_put, if_neg hkey]
  constructor
  · rintro ⟨hlast, hnew⟩
    refine ⟨fun key value hkey h => (hget key hkey).symm.trans (hlast key value h), ?_⟩
    cases hl : lastWrite writes [] with
    | none =>
      have hempty := hnew [] (by rw [hput]; exact fun h => by cases h)
      exact .inr ⟨rfl, hempty.resolve_right fun hne => hne hl⟩
    | some value => exact .inl (hput.symm.trans (hlast [] value hl)).symm
  · rintro ⟨hother, hempty⟩
    refine ⟨?_, ?_⟩
    · intro key value h
      by_cases hkey : key = []
      · subst hkey
        rcases hempty with hl | ⟨hl, -⟩
        · exact hput.trans (hl.symm.trans h)
        · rw [hl] at h
          cases h
      · exact (hget key hkey).trans (hother key value hkey h)
    · intro key h
      by_cases hkey : key = []
      · subst hkey
        rcases hempty with hl | ⟨-, hthere⟩
        · exact .inr fun hnone => by rw [hl] at hnone; cases hnone
        · exact .inl hthere
      · rw [hget key hkey] at h
        exact .inl h

/-- **When accumulated writes are kept**: exactly when they were in the memtable before, the pair
of empty strings apart. -/
theorem kept_iff (threshold : Nat) (writes : List Entry) (memtable : MemTable) :
    Kept memtable (exec threshold writes memtable) writes ↔
      AlreadyThere threshold writes memtable := by
  rw [exec_eq, AlreadyThere]
  cases flushes threshold 0 writes with
  | false => exact kept_self_iff memtable writes
  | true => exact kept_put_iff memtable writes

/-- One write below the threshold: the flush puts the empty key, and the write is lost. -/
theorem accumulated_write_lost :
    (exec 4096 [([97], [98])] MemTable.empty).get [97] = none ∧
      (exec 4096 [([97], [98])] MemTable.empty).get [] = some [] ∧
        ¬Kept MemTable.empty (exec 4096 [([97], [98])] MemTable.empty) [([97], [98])] := by
  refine ⟨rfl, rfl, ?_⟩
  rintro ⟨hlast, -⟩
  exact absurd (hlast [97] [98] rfl) (by decide)

end BatchWriteOptimizer

end Mokv.LSM
