import Mokv.Bytes

/-!
# The memtable

`mokv/lsm/memtable.hpp` wraps a skip list (`mokv/lsm/skiplist.hpp`) whose level-0
chain is the sorted list of the pairs.  Every operation runs under the skip list's
spin lock, so this model is that chain with the two counters beside it.

`size_` counts the pairs.  `binary_size_` adds up key and value bytes in 64-bit
arithmetic; an overwrite adds the difference of two lengths, which wraps when the
new value is shorter.  The fields of `MemTable` say that both counters are what
they should be, so no memtable with a wrong counter can be built.
-/

namespace Mokv.LSM

open Lib

/-- `MemTable`: the pairs in key order, and the skip list's counters. -/
structure MemTable where
  entries : List Entry
  size : Nat
  binarySize : Nat
  sorted : SortedKeys entries
  size_eq : size = entries.length
  binarySize_eq : binarySize = payload entries % 2 ^ 64

namespace MemTable

@[ext] theorem ext {m n : MemTable} (h : m.entries = n.entries) : m = n := by
  obtain ⟨e, s, b, _, hs, hb⟩ := m
  obtain ⟨e', s', b', _, hs', hb'⟩ := n
  obtain rfl : e = e' := h
  subst hs hb hs' hb'
  rfl

/-- `std::make_shared<MemTable>()`. -/
def empty : MemTable := ⟨[], 0, 0, sortedKeys_nil, rfl, rfl⟩

/-- `MemTable::Get`. -/
def get (m : MemTable) (key : Bytes) : Option Bytes := m.entries.lookup key

/-! ### Writing -/

theorem length_put_of_lookup {l : List Entry} (hs : SortedKeys l) {k old : Bytes}
    (h : l.lookup k = some old) (v : Bytes) :
    (put k v l).length = l.length ∧
      payload (put k v l) + old.length = payload l + v.length := by
  induction l with
  | nil => simp at h
  | cons a l ih =>
    obtain ⟨k', v'⟩ := a
    obtain ⟨hlt, hs'⟩ := sortedKeys_cons.mp hs
    rw [put]
    split
    · have hk : k ≠ k' := (ne_of_lt ‹k' < k›).symm
      rw [lookup_cons, if_neg hk] at h
      obtain ⟨h1, h2⟩ := ih hs' h
      simp only [List.length_cons, payload_cons]
      omega
    · split
      · subst k'
        rw [lookup_cons, if_pos rfl] at h
        obtain rfl : v' = old := Option.some.inj h
        refine ⟨rfl, ?_⟩
        simp only [payload_cons]
        omega
      · have hk : k < k' := lt_of_le_of_ne (not_lt.mp ‹_›) (Ne.symm ‹_›)
        have hm := hs.lookup_eq_some.mp h
        rcases List.mem_cons.mp hm with he | hm
        · exact absurd (congrArg Prod.fst he) (ne_of_lt hk)
        · exact absurd (lt_trans hk (hlt _ hm)) (lt_irrefl k)

theorem length_put_of_lookup_none {l : List Entry} {k : Bytes} (h : l.lookup k = none)
    (v : Bytes) :
    (put k v l).length = l.length + 1 ∧
      payload (put k v l) = payload l + (k.length + v.length) := by
  induction l with
  | nil => simp [put]
  | cons a l ih =>
    obtain ⟨k', v'⟩ := a
    rw [lookup_cons] at h
    have hk : k ≠ k' := by
      rintro rfl
      simp at h
    rw [if_neg hk] at h
    obtain ⟨h1, h2⟩ := ih h
    rw [put]
    split
    · simp only [List.length_cons, payload_cons]
      omega
    · rw [if_neg hk.symm]
      refine ⟨rfl, ?_⟩
      simp only [payload_cons]
      omega

/-- `MemTable::Put`, that is `ConcurrentSkipList::Put`. -/
def put (m : MemTable) (key value : Bytes) : MemTable :=
  match h : m.entries.lookup key with
  | some old =>
    { entries := Lib.put key value m.entries
      size := m.size
      -- `binary_size_ += value.size() - old.size()`, unsigned
      binarySize := (m.binarySize + (value.length + 2 ^ 64 - old.length % 2 ^ 64)) % 2 ^ 64
      sorted := m.sorted.put key value
      size_eq := by rw [m.size_eq, (length_put_of_lookup m.sorted h value).1]
      binarySize_eq := by
        have := (length_put_of_lookup m.sorted h value).2
        rw [m.binarySize_eq]
        omega }
  | none =>
    { entries := Lib.put key value m.entries
      size := m.size + 1
      binarySize := (m.binarySize + (key.length + value.length)) % 2 ^ 64
      sorted := m.sorted.put key value
      size_eq := by rw [m.size_eq, (length_put_of_lookup_none h value).1]
      binarySize_eq := by
        rw [m.binarySize_eq, (length_put_of_lookup_none h value).2]
        omega }

@[simp] theorem entries_put (m : MemTable) (k v : Bytes) :
    (m.put k v).entries = Lib.put k v m.entries := by
  rw [put]
  split <;> rfl

@[simp] theorem entries_empty : empty.entries = [] := rfl

/-- **What a `Put` does to every `Get`.** -/
theorem get_put (m : MemTable) (k v j : Bytes) :
    (m.put k v).get j = if j = k then some v else m.get j := by
  rw [get, entries_put, m.sorted.lookup_put]
  rfl

/-! ### Deleting -/

theorem length_filter_of_lookup {l : List Entry} (hs : SortedKeys l) {k old : Bytes}
    (h : l.lookup k = some old) :
    (l.filter fun e => e.1 ≠ k).length + 1 = l.length ∧
      payload (l.filter fun e => e.1 ≠ k) + (k.length + old.length) = payload l := by
  induction l with
  | nil => cases h
  | cons a l ih =>
    obtain ⟨k', v'⟩ := a
    obtain ⟨hlt, hs'⟩ := sortedKeys_cons.mp hs
    rw [lookup_cons] at h
    by_cases hk : k = k'
    · subst hk
      rw [if_pos rfl] at h
      obtain rfl : v' = old := Option.some.inj h
      have hkeep : (l.filter fun e => e.1 ≠ k) = l := by
        rw [List.filter_eq_self]
        intro e he
        exact decide_eq_true (ne_of_gt (hlt e he))
      rw [List.filter_cons_of_neg (by simp), hkeep, payload_cons]
      exact ⟨rfl, Nat.add_comm _ _⟩
    · rw [if_neg hk] at h
      obtain ⟨h1, h2⟩ := ih hs' h
      rw [List.filter_cons_of_pos (by simpa using Ne.symm hk), payload_cons, payload_cons,
        List.length_cons, List.length_cons]
      omega

/-- `MemTable::Delete`, that is `ConcurrentSkipList::Delete`. -/
def delete (m : MemTable) (key : Bytes) : MemTable :=
  match h : m.entries.lookup key with
  | none => m
  | some old =>
    { entries := m.entries.filter fun e => e.1 ≠ key
      size := m.size - 1
      -- `binary_size_ -= key.size() + value.size()`, unsigned
      binarySize := (m.binarySize + (2 ^ 64 - (key.length + old.length) % 2 ^ 64)) % 2 ^ 64
      sorted := m.sorted.filter _
      size_eq := by
        have hlen := (length_filter_of_lookup m.sorted h).1
        rw [m.size_eq]
        omega
      binarySize_eq := by
        have hpay := (length_filter_of_lookup m.sorted h).2
        rw [m.binarySize_eq]
        omega }

@[simp] theorem entries_delete (m : MemTable) (k : Bytes) :
    (m.delete k).entries = m.entries.filter fun e => e.1 ≠ k := by
  rw [delete]
  split
  · rename_i hnone
    refine (List.filter_eq_self.mpr ?_).symm
    rintro ⟨k', v'⟩ he
    refine decide_eq_true ?_
    rintro rfl
    rw [m.sorted.lookup_eq_some.mpr he] at hnone
    cases hnone
  · rfl

/-- **What a `Delete` does to every `Get`.** -/
theorem get_delete (m : MemTable) (k j : Bytes) :
    (m.delete k).get j = if j = k then none else m.get j := by
  rw [get, entries_delete, lookup_filter_ne]
  rfl

theorem put_entries_ne_nil (m : MemTable) (k v : Bytes) : (m.put k v).entries ≠ [] := by
  rw [entries_put]
  exact put_ne_nil k v m.entries

theorem entries_ne_nil_of_binarySize {m : MemTable} {n : Nat} (h : n < m.binarySize) :
    m.entries ≠ [] := by
  intro he
  have := m.binarySize_eq
  rw [he, payload_nil, Nat.zero_mod] at this
  omega

end MemTable

end Mokv.LSM
